import Xv6.Bio.Contents
import Xv6.Kernel.Machine

/-! The logic of the machine: what a process has of the cache and of the log, what every section needs
of it and what it may leave. A section that meets its precondition keeps the invariants of the cache,
of the log and of its history, whatever the other processes have. -/

namespace Xv6

open Lib

structure Res where
  bufs : Bufs
  log : LogPart

namespace Res

def idle : Res := ⟨Bufs.empty, LogPart.idle⟩

/-- A process gets a buffer inside an operation. A commit gets one when it has none, or for a block
whose buffer is pinned. -/
def MayGet (ρ : Res) (b : Nat) : Prop :=
  match ρ.log.role with
  | .client => ρ.log.op.isSome
  | .commit lh k => (∀ i, ρ.bufs.count i = 0) ∨ b ∈ lh.drop k
  | .boot => True

end Res

/-- What the sections of `bio.c` and `log.c` need and leave. -/
def sections (R : Rules) (E : Sig) : Logic (Prim E) Res where
  pre ρ
    | .bget dev b => dev = ROOTDEV ∧ ρ.bufs.transit = .none ∧ (R.inOp → ρ.MayGet b)
    | .acquiresleep i => ∃ b, ρ.bufs.transit = .got i b
    | .fill i => ∃ b, ρ.bufs.transit = .locked i b
    | .data i => (ρ.bufs.held i).isSome
    | .store i d => ρ.bufs.transit = .none ∧ ∃ x, ρ.bufs.held i = some x ∧ R.keeps x.blockno d
    | .copyin i _ _ _ => ρ.bufs.transit = .none ∧
        ∃ x, ρ.bufs.held i = some x ∧ ∀ d, R.keeps x.blockno d
    | .bwrite i => ρ.bufs.transit = .none ∧ (ρ.bufs.held i).isSome
    | .releasesleep i => ρ.bufs.transit = .none ∧
        ∃ x, ρ.bufs.held i = some x ∧ (R.tracked → x.status ≠ .dirty)
    | .bput i => ∃ b, ρ.bufs.transit = .put i b
    | .bunpin i => ∃ x lh k, ρ.bufs.held i = some x ∧ x.status = .synced ∧
        ρ.log = ⟨none, none, .commit lh k⟩ ∧ lh[k]? = some x.blockno
    | .logCheck i => (ρ.bufs.held i).isSome ∧ (R.guarded ∨ ρ.log.op.isSome)
    | .logAppend i => ρ.bufs.transit = .none ∧ ∃ x S, ρ.bufs.held i = some x ∧ ρ.log.op = some S ∧
        ρ.log.chk = some x.blockno ∧ (R.bounded → (insert x.blockno S).card ≤ MAXOPBLOCKS)
    | .logEnter => R.booting = false ∧ ρ.log = LogPart.idle
    | .logLeave => ρ.log.op.isSome ∧ (R.inOp → ∀ i, ρ.bufs.count i = 0)
    | .logDone => ρ.log = ⟨none, none, .commit [] 0⟩ ∧ (R.inOp → ∀ i, ρ.bufs.count i = 0)
    | .getHead => ρ.log.role ≠ .client
    | .setHead blocks => blocks = [] ∧
        ((∃ lh, ρ.log = ⟨none, none, .commit lh lh.length⟩) ∨ ρ.log = ⟨none, none, .boot⟩)
    | .ext _ => True
  post ρ
    | .bget _ b, i, ρ' => ρ' = { ρ with bufs := ρ.bufs.get i b }
    | .acquiresleep i, _, ρ' => ∃ b, ρ.bufs.transit = .got i b ∧ ρ' = { ρ with bufs := ρ.bufs.lock i b }
    | .fill i, _, ρ' => ∃ b d, ρ.bufs.transit = .locked i b ∧ ρ.bufs.held i = none ∧
        (R.tracked → R.keeps b d) ∧ ρ' = { ρ with bufs := ρ.bufs.hold i ⟨b, d, .safe⟩ }
    | .data i, d, ρ' => ρ' = ρ ∧ ∃ x, ρ.bufs.held i = some x ∧ d = x.data
    | .store i d, _, ρ' => ∃ x, ρ.bufs.held i = some x ∧
        ρ' = { ρ with bufs := ρ.bufs.set i ⟨x.blockno, d, .dirty⟩ }
    | .copyin i _ _ _, ok, ρ' => R.guarded ∧ ok = false ∧ ρ' = ρ ∨ (R.guarded → ok = true) ∧
        ∃ x d, ρ.bufs.held i = some x ∧ ρ' = { ρ with bufs := ρ.bufs.set i ⟨x.blockno, d, .dirty⟩ }
    | .bwrite i, _, ρ' => ∃ x, ρ.bufs.held i = some x ∧
        ρ' = { ρ with bufs := ρ.bufs.set i ⟨x.blockno, x.data, .synced⟩ }
    | .releasesleep i, _, ρ' => ∃ x, ρ.bufs.held i = some x ∧
        ρ' = { ρ with bufs := ρ.bufs.drop i x.blockno }
    | .bput _, _, ρ' => ρ' = { ρ with bufs := ρ.bufs.put }
    | .bunpin _, _, ρ' => ∃ lh k, ρ.log = ⟨none, none, .commit lh k⟩ ∧
        ρ' = { ρ with log := ⟨none, none, .commit lh (k + 1)⟩ }
    | .logCheck i, _, ρ' => ∃ x S, ρ.bufs.held i = some x ∧ ρ.log.op = some S ∧
        ρ' = { ρ with log := ρ.log.name x.blockno }
    | .logAppend i, _, ρ' => ∃ x S, ρ.bufs.held i = some x ∧ ρ.log.op = some S ∧
        ρ' = ⟨ρ.bufs.set i ⟨x.blockno, x.data, .safe⟩, ρ.log.log (insert x.blockno S)⟩
    | .logEnter, _, ρ' => ρ' = { ρ with log := ⟨some ∅, none, .client⟩ }
    | .logLeave, doCommit, ρ' => doCommit = false ∧ ρ' = { ρ with log := LogPart.idle } ∨
        doCommit = true ∧ ∃ lh : List Nat, lh.length ≤ LOGSIZE ∧
          ρ' = { ρ with log := ⟨none, none, .commit lh 0⟩ }
    | .logDone, _, ρ' => ρ' = { ρ with log := LogPart.idle }
    | .getHead, blocks, ρ' => ρ' = ρ ∧ (∀ lh k, ρ.log.role = .commit lh k → blocks = lh) ∧
        (ρ.log.role = .boot → blocks = [])
    | .setHead _, _, ρ' => ρ' = { ρ with log := ⟨none, none,
        match ρ.log.role with
        | .boot => .boot
        | _ => .commit [] 0⟩ }
    | .ext _, _, ρ' => ρ' = ρ

namespace Kernel

variable {P X : Type} [Procs P] {E : Sig} {R : Rules}

/-- The condition that `guarded` stands for: `log_write` is called inside an operation, and a copy
from user space that fails has not changed the buffer. -/
def Guard (s : Kernel P X) (p : P) : PrimOp E → Prop
  | .logCheck _ => (s.log.op p).isSome
  | .copyin i off src n => (eitherCopyin src n).2 = false →
      (s.cache.buf i).data.copy off (eitherCopyin src n).1 = (s.cache.buf i).data
  | _ => True

structure Inv (R : Rules) (s : Kernel P X) (ρ : P → Res) : Prop where
  refs : s.cache.Refs s.log.pending fun p => (ρ p).bufs
  blocks : s.cache.Blocks s.log.pending fun p => (ρ p).bufs
  data : R.tracked → s.cache.Data s.log.pending fun p => (ρ p).bufs
  keeps : R.tracked → ∀ b, R.keeps b (s.cache.stored b)
  log : s.log.Inv R fun p => (ρ p).log
  history : s.log.History
  inOp : R.inOp → ∀ p, (ρ p).log.op = none → (ρ p).log.role = .client → ∀ i, (ρ p).bufs.count i = 0

theorem inv_init (disk : Nat → Block) (x : X) (hkeeps : R.tracked → ∀ b, R.keeps b (disk b)) :
    Inv R (init disk x : Kernel P X) fun _ => Res.idle where
  refs := Cache.refs_binit disk
  blocks := Cache.blocks_binit disk
  data _ := Cache.data_binit disk
  keeps := hkeeps
  log := LogState.inv_init
  history := LogState.history_init
  inOp _ _ _ _ _ := rfl

end Kernel

end Xv6
