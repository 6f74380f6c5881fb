import Xv6.Fs.Sysfile

/-! The state of the inode cache and of the file table, and what every operation on them does. Two variables
of the inode cache only record what happened: the pointers that `iget` and `idup` gave to each process
and `iput` did not take back, and the inodes that an `iput` found without links and references. -/

namespace Xv6

open Lib Function

structure ISlot (P : Type) where
  inode : Inode
  ref : Int
  lock : Option P

structure ICache (P : Type) where
  slot : Fin NINODE → ISlot P
  ptrs : P → List (Fin NINODE)
  freeing : Fin NINODE → Option P

namespace ISlot

variable {P : Type} (s : ISlot P)

def setRef (n : Int) : ISlot P := { s with ref := n }

def setLock (l : Option P) : ISlot P := { s with lock := l }

def setDinode (v : Dinode) : ISlot P := { s with inode := { s.inode with toDinode := v } }

def setValid (v : Bool) : ISlot P := { s with inode := { s.inode with valid := v } }

/-- The slot assigned to another inode. -/
def recycle (dev inum : Nat) : ISlot P :=
  { s with inode := { s.inode with dev := dev, inum := inum, valid := false }, ref := 1 }

end ISlot

namespace ICache

variable {P : Type}

def init : ICache P where
  slot _ := ⟨⟨Dinode.zero, 0, 0, false⟩, 0, none⟩
  ptrs _ := []
  freeing _ := none

def set (c : ICache P) (ip : Fin NINODE) (s : ISlot P) : ICache P :=
  { c with slot := update c.slot ip s }

variable [DecidableEq P]

def got (c : ICache P) (p : P) (ip : Fin NINODE) : ICache P :=
  { c with ptrs := update c.ptrs p (ip :: c.ptrs p) }

def gave (c : ICache P) (p : P) (ip : Fin NINODE) : ICache P :=
  { c with ptrs := update c.ptrs p ((c.ptrs p).erase ip) }

def setFreeing (c : ICache P) (ip : Fin NINODE) (o : Option P) : ICache P :=
  { c with freeing := update c.freeing ip o }

/-- After `userinit`: process `p` has the root directory as its current one. -/
def userinit (p : P) : ICache P :=
  ((init : ICache P).set 0 (((init : ICache P).slot 0).recycle ROOTDEV ROOTINO)).got p 0

/-- The search of `iget` for the inode. -/
def lookup (c : ICache P) (dev inum : Nat) : Option (Fin NINODE) :=
  (List.finRange NINODE).find? fun ip =>
    0 < (c.slot ip).ref ∧ (c.slot ip).inode.dev = dev ∧ (c.slot ip).inode.inum = inum

/-- The search of `iget` for an empty slot. -/
def empty (c : ICache P) : Option (Fin NINODE) :=
  (List.finRange NINODE).find? fun ip => (c.slot ip).ref = 0

def iget (p : P) (dev inum : Nat) (c : ICache P) : Outcome (ICache P) (Fin NINODE) :=
  match c.lookup dev inum with
  | some ip => .ok ip ((c.set ip ((c.slot ip).setRef ((c.slot ip).ref + 1))).got p ip)
  | none => match c.empty with
    | some ip => .ok ip ((c.set ip ((c.slot ip).recycle dev inum)).got p ip)
    | none => .panic "iget: no inodes"

def idup (p : P) (ip : Fin NINODE) (c : ICache P) : ICache P :=
  (c.set ip ((c.slot ip).setRef ((c.slot ip).ref + 1))).got p ip

def drop (p : P) (ip : Fin NINODE) (c : ICache P) : ICache P :=
  (c.set ip ((c.slot ip).setRef ((c.slot ip).ref - 1))).gave p ip

/-- The first section of `iput`. The sleep lock is taken under `icache.lock`: `sched` panics if it has to
wait there. -/
def iputLast (p : P) (ip : Fin NINODE) (c : ICache P) : Outcome (ICache P) Bool :=
  if (c.slot ip).ref = 1 ∧ (c.slot ip).inode.valid ∧ (c.slot ip).inode.nlink = 0 then
    match (c.slot ip).lock with
    | some _ => .panic "sched locks"
    | none => .ok true ((c.set ip ((c.slot ip).setLock (some p))).setFreeing ip (some p))
  else .ok false (c.drop p ip)

def acquiresleep (p : P) (ip : Fin NINODE) (c : ICache P) : Outcome (ICache P) Unit :=
  match (c.slot ip).lock with
  | some _ => .block
  | none => .ok () (c.set ip ((c.slot ip).setLock (some p)))

def releasesleep (ip : Fin NINODE) (c : ICache P) : ICache P :=
  (c.set ip ((c.slot ip).setLock none)).setFreeing ip none

def iunlock (p : P) (ip : Fin NINODE) (c : ICache P) : Outcome (ICache P) Unit :=
  if (c.slot ip).lock ≠ some p ∨ (c.slot ip).ref < 1 then .panic "iunlock"
  else .ok () (c.releasesleep ip)

end ICache

section Exec

variable {P X : Type} [DecidableEq P] {F : Sig}

/-- The operations of `fs.c`, over those of the layer above. -/
def FsOp.exec (more : P → (f : F.Op) → X → Outcome X (F.Ret f)) (p : P) :
    (o : FsOp F) → ICache P × X → Outcome (ICache P × X) ((FsSig F).Ret o)
  | .panic msg, _ => .panic msg
  | .iget dev inum, s => (s.1.iget p dev inum).mapState fun c => (c, s.2)
  | .idup ip, s => .ok () (s.1.idup p ip, s.2)
  | .iputLast ip, s => (s.1.iputLast p ip).mapState fun c => (c, s.2)
  | .iputDrop ip, s => .ok () (s.1.drop p ip, s.2)
  | .iref ip, s => .ok (s.1.slot ip).ref s
  | .acquiresleep ip, s => (s.1.acquiresleep p ip).mapState fun c => (c, s.2)
  | .releasesleep ip, s => .ok () (s.1.releasesleep ip, s.2)
  | .iunlock ip, s => (s.1.iunlock p ip).mapState fun c => (c, s.2)
  | .iload ip, s => .ok (s.1.slot ip).inode s
  | .istore ip v, s => .ok () (s.1.set ip ((s.1.slot ip).setDinode v), s.2)
  | .setValid ip v, s => .ok () (s.1.set ip ((s.1.slot ip).setValid v), s.2)
  | .more f, s => (more p f s.2).mapState fun x => (s.1, x)

end Exec

/-! ### Open files -/

/-- `ftable` with its reference counts, and of every process the open files and the current directory. -/
structure FileState (P : Type) where
  file : Fin NFILE → File
  ref : Fin NFILE → Int
  ofile : P → Nat → Option (Fin NFILE)
  cwd : P → Fin NINODE

namespace FileState

variable {P : Type} [DecidableEq P]

def init (cwd : Fin NINODE) : FileState P where
  file _ := ⟨.none, false, false, cwd, 0, 0⟩
  ref _ := 0
  ofile _ _ := none
  cwd _ := cwd

def setRef (s : FileState P) (f : Fin NFILE) (n : Int) : FileState P :=
  { s with ref := update s.ref f n }

def setFile (s : FileState P) (f : Fin NFILE) (v : File) : FileState P :=
  { s with file := update s.file f v }

/-- A call to a pipe or a device fails. -/
def exec (p : P) : (o : FileOp) → FileState P → Outcome (FileState P) (FileSig.Ret o)
  | .filealloc, s => match (List.finRange NFILE).find? fun f => s.ref f = 0 with
    | some f => .ok (some f) (s.setRef f 1)
    | none => .ok none s
  | .filedup f, s => if s.ref f < 1 then .panic "filedup" else .ok () (s.setRef f (s.ref f + 1))
  | .fileput f, s =>
      if s.ref f < 1 then .panic "fileclose"
      else if s.ref f - 1 > 0 then .ok none (s.setRef f (s.ref f - 1))
      else .ok (some (s.file f)) ((s.setRef f 0).setFile f { s.file f with type := .none })
  | .fload f, s => .ok (s.file f) s
  | .fstore f v, s => .ok () (s.setFile f v)
  | .ofile fd, s => .ok (s.ofile p fd) s
  | .setOfile fd f, s =>
      .ok () { s with ofile := update s.ofile p (update (s.ofile p) fd f) }
  | .cwd, s => .ok (s.cwd p) s
  | .setCwd ip, s => .ok () { s with cwd := update s.cwd p ip }
  | .chario, s => .ok (-1 : Int) s

end FileState

end Xv6
