import Xv6.Bio.Interface
import Xv6.Log.Protocol

/-! The machine below the file system: the buffer cache with its disk, the log, and an arbitrary further
part for whatever else the kernel keeps. Its operations are the sections of `bio.c` and `log.c` that run
under one lock; `bioC` builds the calls of `bio.c` from them. -/

namespace Xv6

open Lib

inductive PrimOp (E : Sig) where
  | bget (dev blockno : Nat)
  | acquiresleep (i : Fin NBUF)
  | fill (i : Fin NBUF)
  | data (i : Fin NBUF)
  | store (i : Fin NBUF) (d : Block)
  | copyin (i : Fin NBUF) (off : Nat) (src : Src) (n : Nat)
  | bwrite (i : Fin NBUF)
  | releasesleep (i : Fin NBUF)
  | bput (i : Fin NBUF)
  | bunpin (i : Fin NBUF)
  | logCheck (i : Fin NBUF)
  | logAppend (i : Fin NBUF)
  | logEnter
  | logLeave
  | logDone
  | getHead
  | setHead (blocks : List Nat)
  | ext (e : E.Op)

def Prim (E : Sig) : Sig where
  Op := PrimOp E
  Ret
    | .bget _ _ => Fin NBUF
    | .data _ => Block
    | .copyin _ _ _ _ => Bool
    | .logLeave => Bool
    | .getHead => List Nat
    | .ext e => E.Ret e
    | _ => Unit

namespace Prim

variable {E : Sig}

def bget (dev blockno : Nat) : Prog (Prim E) (Fin NBUF) := Prog.op (S := Prim E) (.bget dev blockno)
def acquiresleep (i : Fin NBUF) : Prog (Prim E) Unit := Prog.op (S := Prim E) (.acquiresleep i)
def fill (i : Fin NBUF) : Prog (Prim E) Unit := Prog.op (S := Prim E) (.fill i)
def releasesleep (i : Fin NBUF) : Prog (Prim E) Unit := Prog.op (S := Prim E) (.releasesleep i)
def bput (i : Fin NBUF) : Prog (Prim E) Unit := Prog.op (S := Prim E) (.bput i)

end Prim

/-- `bio.c` as the implementation of the calls `log.c` makes. -/
def bioC {E : Sig} : (o : BioOp (Fin NBUF) E) → Prog (Prim E) ((Bio (Fin NBUF) E).Ret o)
  | .bread dev blockno => do
      let i ← Prim.bget dev blockno
      Prim.acquiresleep i
      Prim.fill i
      pure i
  | .brelse i => do
      Prim.releasesleep i
      Prim.bput i
  | .bdata i => Prog.op (S := Prim E) (.data i)
  | .bstore i d => Prog.op (S := Prim E) (.store i d)
  | .bcopyin i off src n => Prog.op (S := Prim E) (.copyin i off src n)
  | .bwrite i => Prog.op (S := Prim E) (.bwrite i)
  | .bunpin i => Prog.op (S := Prim E) (.bunpin i)
  | .logCheck i => Prog.op (S := Prim E) (.logCheck i)
  | .logAppend i => Prog.op (S := Prim E) (.logAppend i)
  | .logEnter => Prog.op (S := Prim E) .logEnter
  | .logLeave => Prog.op (S := Prim E) .logLeave
  | .logDone => Prog.op (S := Prim E) .logDone
  | .getHead => Prog.op (S := Prim E) .getHead
  | .setHead blocks => Prog.op (S := Prim E) (.setHead blocks)
  | .ext e => Prog.op (S := Prim E) (.ext e)

/-- The code above the log, with `log.c` and `bio.c` in place of the calls it makes. -/
def compile {E : Sig} (start : Nat) {α : Type} (m : Prog (Client (Fin NBUF) E) α) : Prog (Prim E) α :=
  (m.interp (logC start)).interp bioC

structure Kernel (P X : Type) where
  cache : Cache P
  log : LogState P
  ext : X

namespace Kernel

variable {P X : Type} [DecidableEq P] {E : Sig}

/-- `binit`, and a zeroed `struct log`. -/
def init (disk : Nat → Block) (x : X) : Kernel P X := ⟨.binit disk, .init, x⟩

def onCache {α : Type} (f : Cache P → Outcome (Cache P) α) (s : Kernel P X) : Outcome (Kernel P X) α :=
  (f s.cache).mapState fun c => { s with cache := c }

def onLog {α : Type} (f : LogState P → Outcome (LogState P) α) (s : Kernel P X) :
    Outcome (Kernel P X) α :=
  (f s.log).mapState fun l => { s with log := l }

/-- `log_write` under `log.lock`. The caller holds the buffer, so that nothing sees the moment between
`bpin` and `log.lh.n++`. -/
def logAppend (p : P) (i : Fin NBUF) (s : Kernel P X) : Outcome (Kernel P X) Unit :=
  match s.log.append p (s.cache.buf i).blockno with
  | .ok new l => .ok () { s with cache := if new then s.cache.bpin i else s.cache, log := l }
  | .block => .block
  | .panic msg => .panic msg

variable (size : Nat) (ext : P → (e : E.Op) → X → Outcome X (E.Ret e))

def exec (p : P) : (o : PrimOp E) → Kernel P X → Outcome (Kernel P X) ((Prim E).Ret o)
  | .bget dev blockno, s => s.onCache (Cache.bget p dev blockno)
  | .acquiresleep i, s => s.onCache (Cache.acquiresleep p i)
  | .fill i, s => .ok () { s with cache := s.cache.fill i }
  | .data i, s => .ok (s.cache.buf i).data s
  | .store i d, s => .ok () { s with cache := s.cache.store i d }
  | .copyin i off src n, s =>
      .ok (eitherCopyin src n).2
        { s with cache := s.cache.store i ((s.cache.buf i).data.copy off (eitherCopyin src n).1) }
  | .bwrite i, s => s.onCache (Cache.bwrite p i)
  | .releasesleep i, s => s.onCache (Cache.releasesleep p i)
  | .bput i, s => .ok () { s with cache := s.cache.bput p i }
  | .bunpin i, s => .ok () { s with cache := s.cache.bunpin i, log := s.log.unpin }
  | .logCheck i, s => s.onLog (LogState.check size (s.cache.buf i).blockno)
  | .logAppend i, s => s.logAppend p i
  | .logEnter, s => s.onLog (LogState.enter p)
  | .logLeave, s => s.onLog (LogState.leave p)
  | .logDone, s => s.onLog LogState.done
  | .getHead, s => .ok s.log.log.head s
  | .setHead blocks, s => s.onLog (LogState.setHead blocks)
  | .ext e, s => (ext p e s.ext).mapState fun x => { s with ext := x }

def machine : Machine (Prim E) P (Kernel P X) := ⟨exec size ext⟩

end Kernel

end Xv6
