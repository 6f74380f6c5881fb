import Xv6.Param
import Xv6.Lib.Machine

/-! The interfaces between the layers of the file system. The code above the log (`fs.c`, `sysfile.c`,
`file.c`) is a program over the calls of `Client`; `log.c` implements these by programs over the calls
of `Bio`, the buffer cache and the locked sections on `struct log`. Both leave the type of buffer
pointers open, and an arbitrary further interface `E` for whatever else the kernel does in between. -/

namespace Xv6

open Lib

/-- User memory as `copyin` sees it: the page at a page-aligned virtual address, if `walkaddr` finds
a user page there. -/
abbrev UserMem := Nat → Option (Bytes PGSIZE)

/-- `copyin` of `vm.c`: the bytes copied before it returned, and whether it copied all of them. One
iteration copies up to the end of a page; `fuel` bounds the iterations, each of which copies a byte
at least. -/
def copyinLoop (um : UserMem) : Nat → Nat → Nat → List UInt8 → List UInt8 × Bool
  | 0, _, len, acc => (acc, len == 0)
  | fuel + 1, srcva, len, acc =>
      if len = 0 then (acc, true)
      else
        let va0 := srcva - srcva % PGSIZE
        match um va0 with
        | none => (acc, false)
        | some page =>
            let n := min (PGSIZE - (srcva - va0)) len
            copyinLoop um fuel ((va0 + PGSIZE) % 2 ^ 64) (len - n)
              (acc ++ (List.range n).map fun j => page.get (srcva - va0 + j))

def copyin (um : UserMem) (srcva len : Nat) : List UInt8 × Bool := copyinLoop um len srcva len []

/-- The source of `either_copyin`: a user virtual address, or kernel memory. -/
inductive Src where
  | user (um : UserMem) (addr : Nat)
  | kernel (bytes : Nat → UInt8)

def Src.add : Src → Nat → Src
  | .user um addr, m => .user um ((addr + m) % 2 ^ 64)
  | .kernel bytes, m => .kernel fun j => bytes (j + m)

/-- `either_copyin` of `proc.c`: the bytes copied and whether it succeeded. -/
def eitherCopyin : Src → Nat → List UInt8 × Bool
  | .user um addr, len => copyin um addr len
  | .kernel bytes, len => ((List.range len).map bytes, true)

/-- A block after the given bytes were copied into it at offset `off`. -/
def Block.copy (d : Block) (off : Nat) (bytes : List UInt8) : Block :=
  d.write off (fun j => bytes.getD j 0) bytes.length

/-- The calls the code above the log makes, on buffer pointers of type `H`. -/
inductive ClientOp (H : Type) (E : Sig) where
  | bread (dev blockno : Nat)
  | bdata (b : H)
  | bstore (b : H) (d : Block)
  | bcopyin (b : H) (off : Nat) (src : Src) (n : Nat)
  | bwrite (b : H)
  | brelse (b : H)
  | beginOp
  | endOp
  | logWrite (b : H)
  | ext (e : E.Op)

/-- `bread` gives a buffer pointer, `bdata` reads `b->data`, `bstore` assigns it, `bcopyin` is
`either_copyin` into `b->data + off`. -/
def Client (H : Type) (E : Sig) : Sig where
  Op := ClientOp H E
  Ret
    | .bread _ _ => H
    | .bdata _ => Block
    | .bcopyin _ _ _ _ => Bool
    | .ext e => E.Ret e
    | _ => Unit

namespace Client

variable {H : Type} {E : Sig}

def bread (dev blockno : Nat) : Prog (Client H E) H := Prog.op (S := Client H E) (.bread dev blockno)
def bdata (b : H) : Prog (Client H E) Block := Prog.op (S := Client H E) (.bdata b)
def bstore (b : H) (d : Block) : Prog (Client H E) Unit := Prog.op (S := Client H E) (.bstore b d)
def bcopyin (b : H) (off : Nat) (src : Src) (n : Nat) : Prog (Client H E) Bool :=
  Prog.op (S := Client H E) (.bcopyin b off src n)
def brelse (b : H) : Prog (Client H E) Unit := Prog.op (S := Client H E) (.brelse b)
def beginOp : Prog (Client H E) Unit := Prog.op (S := Client H E) .beginOp
def endOp : Prog (Client H E) Unit := Prog.op (S := Client H E) .endOp
def logWrite (b : H) : Prog (Client H E) Unit := Prog.op (S := Client H E) (.logWrite b)
def ext (e : E.Op) : Prog (Client H E) (E.Ret e) := Prog.op (S := Client H E) (.ext e)

end Client

/-- The calls `log.c` makes: those of `bio.c`, and its own sections under `log.lock`. -/
inductive BioOp (H : Type) (E : Sig) where
  | bread (dev blockno : Nat)
  | bdata (b : H)
  | bstore (b : H) (d : Block)
  | bcopyin (b : H) (off : Nat) (src : Src) (n : Nat)
  | bwrite (b : H)
  | brelse (b : H)
  | bunpin (b : H)
  | logCheck (b : H)
  | logAppend (b : H)
  | logEnter
  | logLeave
  | logDone
  | getHead
  | setHead (blocks : List Nat)
  | ext (e : E.Op)

/-- `getHead` and `setHead` read and assign `log.lh`, kept as the list `block[0..n)`. `logCheck` is the
unlocked test of `log_write` and `logAppend` its locked part with the `bpin`; `logEnter` is the locked part of
`begin_op`, which waits while the operation is not admitted; `logLeave` is the locked part of
`end_op`, which tells whether to commit; `logDone` ends a commit. -/
def Bio (H : Type) (E : Sig) : Sig where
  Op := BioOp H E
  Ret
    | .bread _ _ => H
    | .bdata _ => Block
    | .bcopyin _ _ _ _ => Bool
    | .logLeave => Bool
    | .getHead => List Nat
    | .ext e => E.Ret e
    | _ => Unit

end Xv6
