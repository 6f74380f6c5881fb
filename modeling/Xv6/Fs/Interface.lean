import Xv6.Bio.Interface
import Xv6.Fs.Layout

/-! What `fs.c` does beside its calls to the buffer cache and the log: the sections on the inode cache
under `icache.lock`, the sleep locks of inodes, and loads and stores of inode fields. A further interface
is left open for the layers above. -/

namespace Xv6

open Lib

/-- The fields of `struct inode` that its sleep lock protects, and the ones that name it. -/
structure Inode extends Dinode where
  dev : Nat
  inum : Nat
  valid : Bool

/-- The operations, on inode pointers: indices of `icache.inode`. -/
inductive FsOp (F : Sig) where
  | panic (msg : String)
  | iget (dev inum : Nat)
  | idup (ip : Fin NINODE)
  | iputLast (ip : Fin NINODE)
  | iputDrop (ip : Fin NINODE)
  | iref (ip : Fin NINODE)
  | acquiresleep (ip : Fin NINODE)
  | releasesleep (ip : Fin NINODE)
  | iunlock (ip : Fin NINODE)
  | iload (ip : Fin NINODE)
  | istore (ip : Fin NINODE) (v : Dinode)
  | setValid (ip : Fin NINODE) (valid : Bool)
  | more (f : F.Op)

/-- `iputLast` is the first section of `iput` under `icache.lock`: either it finds the last reference to
an inode without links and locks the inode, or it drops the reference. `iputDrop` is the second section.
`iref` reads `ip->ref` without a lock, as `ilock` does. `iload`, `istore` and `setValid` are loads and
stores of fields; `istore` assigns all those that are on disk. -/
def FsSig (F : Sig) : Sig where
  Op := FsOp F
  Ret
    | .panic _ => Empty
    | .iget _ _ => Fin NINODE
    | .iputLast _ => Bool
    | .iref _ => Int
    | .iload _ => Inode
    | .more f => F.Ret f
    | _ => Unit

/-- Programs of the file system. -/
abbrev FsM (H : Type) (F : Sig) (α : Type) := Prog (Client H (FsSig F)) α

namespace Fs

variable {H : Type} {F : Sig} {α : Type}

def panic (msg : String) : FsM H F α := .call (.ext (.panic msg)) nofun

def op (o : FsOp F) : FsM H F ((FsSig F).Ret o) := Client.ext (E := FsSig F) o

def iget (dev inum : Nat) : FsM H F (Fin NINODE) := op (.iget dev inum)
def idup (ip : Fin NINODE) : FsM H F Unit := op (.idup ip)
def iputLast (ip : Fin NINODE) : FsM H F Bool := op (.iputLast ip)
def iputDrop (ip : Fin NINODE) : FsM H F Unit := op (.iputDrop ip)
def iref (ip : Fin NINODE) : FsM H F Int := op (.iref ip)
def acquiresleep (ip : Fin NINODE) : FsM H F Unit := op (.acquiresleep ip)
def releasesleep (ip : Fin NINODE) : FsM H F Unit := op (.releasesleep ip)
def iunlock (ip : Fin NINODE) : FsM H F Unit := op (.iunlock ip)
def iload (ip : Fin NINODE) : FsM H F Inode := op (.iload ip)
def istore (ip : Fin NINODE) (v : Dinode) : FsM H F Unit := op (.istore ip v)
def setValid (ip : Fin NINODE) (valid : Bool) : FsM H F Unit := op (.setValid ip valid)
def more (f : F.Op) : FsM H F (F.Ret f) := op (.more f)

end Fs

/-! ### Copies out of the kernel -/

/-- The destination of `either_copyout`: kernel memory, or a user address with the pages that
`walkaddr` finds. -/
inductive Dst where
  | kernel
  | user (mapped : Nat → Bool) (addr : Nat)

def Dst.add : Dst → Nat → Dst
  | .kernel, _ => .kernel
  | .user mapped addr, m => .user mapped ((addr + m) % 2 ^ 64)

/-- `copyout` of `vm.c`: the number of bytes that it stores before it returns. -/
def copyoutLoop (mapped : Nat → Bool) : Nat → Nat → Nat → Nat
  | 0, _, _ => 0
  | fuel + 1, dstva, len =>
      if len = 0 then 0
      else
        let va0 := dstva - dstva % PGSIZE
        if mapped va0 then
          let n := min (PGSIZE - (dstva - va0)) len
          n + copyoutLoop mapped fuel ((va0 + PGSIZE) % 2 ^ 64) (len - n)
        else 0

/-- The number of bytes that `either_copyout` stores. -/
def Dst.stored : Dst → Nat → Nat
  | .kernel, len => len
  | .user mapped addr, len => copyoutLoop mapped len addr len

/-- Whether `either_copyout` succeeds: it fails when it meets a page that is not there, with bytes left. -/
def eitherCopyout (dst : Dst) (len : Nat) : Bool := dst.stored len == len

end Xv6
