import Xv6.Lib.Bytes

/-! The constants of `param.h`, `fs.h` and `riscv.h`, and disk blocks. -/

namespace Xv6

open Lib

def NPROC : Nat := 64
def NOFILE : Nat := 16
def NFILE : Nat := 100
def NINODE : Nat := 50
def NDEV : Nat := 10
def ROOTDEV : Nat := 1
def MAXARG : Nat := 32
def MAXOPBLOCKS : Nat := 10
def LOGSIZE : Nat := MAXOPBLOCKS * 3
def NBUF : Nat := MAXOPBLOCKS * 3

def ROOTINO : Nat := 1
def BSIZE : Nat := 1024
def PGSIZE : Nat := 4096

instance : NeZero NPROC := ⟨by decide⟩
instance : NeZero NINODE := ⟨by decide⟩

abbrev Block := Bytes BSIZE

def Block.zero : Block := fun _ => 0

end Xv6
