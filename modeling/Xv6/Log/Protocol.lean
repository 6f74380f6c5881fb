import Xv6.Log.Code
import Xv6.Bio.Cache
import Mathlib.Algebra.BigOperators.Ring.Finset

/-! The protocol of `begin_op`, `log_write`, `end_op` and `commit`: the sections on `struct log`, taken
by processes in any order. Beside `struct log` the state records what happened: the running operation
of every process, the blocks named by the `log_write` calls of the pending transaction, all
`log_write`s so far with their operation and transaction, and the transactions committed. No section
depends on these. -/

namespace Xv6

open Lib Function Finset Outcome

/-- A `log_write`: the operation it belongs to, the number of transactions committed before, and the
block. -/
structure Call where
  op : Nat
  txn : Nat
  block : Nat

/-- `struct log`, the number of blocks that the commit at work has installed, and the history. -/
structure LogState (P : Type) where
  log : Log
  installed : Nat
  op : P → Option Nat
  ops : Nat
  named : Finset Nat
  calls : List Call
  committed : List (List Nat)

namespace LogState

variable {P : Type} [DecidableEq P]

def init : LogState P := ⟨⟨0, false, []⟩, 0, fun _ => none, 0, ∅, [], []⟩

/-- The blocks of the transaction in memory that are not installed. -/
def pending (s : LogState P) : List Nat := s.log.head.drop s.installed

/-- `log_write` before it takes the lock. -/
def check (size b : Nat) (s : LogState P) : Outcome (LogState P) Unit :=
  (s.log.check size).mapState fun l => { s with log := l, named := insert b s.named }

/-- `log_write` under the lock, without the `bpin` that a new block asks for. -/
def append (p : P) (b : Nat) (s : LogState P) : Outcome (LogState P) Bool :=
  (s.log.append b).mapState fun l => { s with
    log := l
    calls := match s.op p with
      | some o => s.calls ++ [⟨o, s.committed.length, b⟩]
      | none => s.calls }

def enter (p : P) (s : LogState P) : Outcome (LogState P) Unit :=
  s.log.enter.mapState fun l => { s with
    log := l, op := update s.op p (some s.ops), ops := s.ops + 1 }

def leave (p : P) (s : LogState P) : Outcome (LogState P) Bool :=
  s.log.leave.mapState fun l => { s with log := l, op := update s.op p none }

def done (s : LogState P) : Outcome (LogState P) Unit := s.log.done.mapState fun l => { s with log := l }

/-- An assignment to `log.lh`. The one that empties it ends a transaction. -/
def setHead (blocks : List Nat) (s : LogState P) : Outcome (LogState P) Unit :=
  (s.log.setHead blocks).mapState fun l => { s with
    log := l
    installed := 0
    named := ∅
    committed := if blocks = [] ∧ s.log.head ≠ [] then s.committed ++ [s.log.head] else s.committed }

/-- `install_trans` has installed one more block. -/
def unpin (s : LogState P) : LogState P := { s with installed := s.installed + 1 }

end LogState

/-! ### What a process has of the log -/

/-- What the processes promise: an operation logs at most `MAXOPBLOCKS` blocks; buffers are held inside
operations only; a changed buffer is logged or written before its release; what is stored in a block
satisfies `keeps`. `guarded` stands for a condition on the steps, and `booting` for the time before the
first process has recovered the log. -/
structure Rules where
  bounded : Bool
  inOp : Bool
  tracked : Bool
  guarded : Bool
  booting : Bool
  keeps : Nat → Block → Prop

/-- What a process does with `log.lh`: only append to it, commit it, or recover it. A commit knows the
transaction and how many of its blocks are installed. -/
inductive Role where
  | client
  | commit (lh : List Nat) (k : Nat)
  | boot

/-- The blocks its operation logged, the block whose size check has passed, and its role. -/
structure LogPart where
  op : Option (Finset Nat)
  chk : Option Nat
  role : Role

variable {S : Finset Nat} {r : LogPart}

namespace LogPart

def idle : LogPart := ⟨none, none, .client⟩

def active (r : LogPart) : Nat := r.op.elim 0 fun _ => 1

/-- How many blocks the operation may still log. -/
def room (r : LogPart) : Nat := r.op.elim 0 fun S => MAXOPBLOCKS - S.card

/-- `log_write` has passed its check. -/
def name (r : LogPart) (b : Nat) : LogPart := { r with chk := some b }

/-- `log_write` has logged a block of the operation. -/
def log (r : LogPart) (S : Finset Nat) : LogPart := { r with op := some S, chk := none }

theorem active_of_op (h : r.op = some S) : r.active = 1 := by
  rw [active, h]
  rfl

theorem active_of_none (h : r.op = none) : r.active = 0 := by
  rw [active, h]
  rfl

theorem room_of_op (h : r.op = some S) : r.room = MAXOPBLOCKS - S.card := by
  rw [room, h]
  rfl

theorem room_of_none (h : r.op = none) : r.room = 0 := by
  rw [room, h]
  rfl

theorem room_le (r : LogPart) : r.room ≤ MAXOPBLOCKS * r.active := by
  unfold room active
  cases r.op with
  | none => exact Nat.zero_le _
  | some S => exact (Nat.sub_le _ _).trans (Nat.mul_one _).ge

end LogPart

namespace LogState

variable {P : Type} [Procs P] {s s' : LogState P} {μ : P → LogPart} {p : P} {R : Rules}

/-- What a process knows of the log. -/
structure Knows (R : Rules) (s : LogState P) (p : P) (r : LogPart) : Prop where
  running : (s.op p).isSome = r.op.isSome
  logged : ∀ S, r.op = some S → ∀ b ∈ S, b ∈ s.log.head
  small : R.bounded → ∀ S, r.op = some S → S.card ≤ MAXOPBLOCKS
  checked : ∀ b, r.chk = some b → r.op.isSome ∧ b ∈ s.named
  commit : ∀ lh k, r.role = .commit lh k →
    s.log.committing = true ∧ s.log.head = lh ∧ s.installed = k ∧ k ≤ lh.length
  boot : r.role = .boot → R.booting ∧ s.log.committing = false ∧ s.log.head = []

/-- The protocol: a process with another role than `client` is alone with the log. `reserve` is the
reservation that `begin_op` over-approximates: what is logged, and what the running operations may
still log, fits. -/
structure Inv (R : Rules) (s : LogState P) (μ : P → LogPart) : Prop where
  outstanding : s.log.outstanding = (∑ p, (μ p).active : Nat)
  nodup : s.log.head.Nodup
  length : s.log.head.length ≤ LOGSIZE
  named : ∀ b ∈ s.log.head, b ∈ s.named
  owner : ∀ p, (μ p).role ≠ .client → ∀ q, (μ q).op = none ∧ (q ≠ p → (μ q).role = .client)
  committing : s.log.committing = true → ∃ p lh k, (μ p).role = .commit lh k
  installed : s.log.committing = false → s.installed = 0
  reserve : R.bounded → s.log.head.length + ∑ p, (μ p).room ≤ LOGSIZE
  knows : ∀ p, s.Knows R p (μ p)

/-- The history: an operation logs in one transaction, the pending one while it runs. -/
structure History (s : LogState P) : Prop where
  fresh : ∀ p o, s.op p = some o → o < s.ops
  unique : ∀ p q o, s.op p = some o → s.op q = some o → p = q
  old : ∀ x ∈ s.calls, x.op < s.ops
  current : ∀ x ∈ s.calls, ∀ p, s.op p = some x.op → x.txn = s.committed.length
  same : ∀ x ∈ s.calls, ∀ y ∈ s.calls, x.op = y.op → x.txn = y.txn
  logged : ∀ x ∈ s.calls, (∃ blocks, s.committed[x.txn]? = some blocks ∧ x.block ∈ blocks) ∨
    x.txn = s.committed.length ∧ x.block ∈ s.log.head

theorem inv_init : Inv R (init : LogState P) fun _ => LogPart.idle := by
  refine ⟨?_, ?_, ?_, ?_, ?_, ?_, ?_, ?_, fun p => ⟨?_, ?_, ?_, ?_, ?_, ?_⟩⟩ <;>
    simp [init, LogPart.idle, LogPart.active, LogPart.room]

omit [Procs P] in
theorem history_init : History (init : LogState P) := by
  constructor <;> simp [init]

/-! ### The steps -/

omit [Procs P] in
/-- What a process knows outlives a step that only adds to the log. -/
theorem Knows.mono (h : s.Knows R p r) (hop : s'.op p = s.op p)
    (hhead : ∀ b ∈ s.log.head, b ∈ s'.log.head) (hnamed : ∀ b ∈ s.named, b ∈ s'.named)
    (hrole : r.role ≠ .client → s'.log = s.log ∧ s'.installed = s.installed) : s'.Knows R p r := by
  refine ⟨hop ▸ h.running, fun S hS b hb => hhead b (h.logged S hS b hb), h.small,
    fun b hb => ⟨(h.checked b hb).1, hnamed b (h.checked b hb).2⟩, fun lh k hk => ?_, fun hb => ?_⟩
  · obtain ⟨hlog, hinst⟩ := hrole (by rw [hk]; nofun)
    rw [hlog, hinst]
    exact h.commit lh k hk
  · obtain ⟨hlog, -⟩ := hrole (by rw [hb]; nofun)
    rw [hlog]
    exact h.boot hb

namespace Inv

theorem client_of_op (h : Inv R s μ) (hop : (μ p).op = some S) (q : P) : (μ q).role = .client := by
  by_contra hq
  have := (h.owner q hq p).1
  rw [hop] at this
  cases this

theorem committing_of_op (h : Inv R s μ) (hop : (μ p).op = some S) : s.log.committing = false := by
  cases hc : s.log.committing with
  | false => rfl
  | true =>
    obtain ⟨q, lh, k, hq⟩ := h.committing hc
    rw [h.client_of_op hop q] at hq
    cases hq

theorem outstanding_of_committing (h : Inv R s μ) (hc : s.log.committing = true) :
    s.log.outstanding = 0 ∧ ∀ p, (μ p).op = none := by
  obtain ⟨q, lh, k, hq⟩ := h.committing hc
  have hop := fun p => (h.owner q (by rw [hq]; nofun) p).1
  refine ⟨?_, hop⟩
  rw [h.outstanding, sum_eq_zero fun p _ => by rw [LogPart.active, hop p]; rfl]
  rfl

theorem sum_active_update (μ : P → LogPart) (p : P) (r : LogPart) :
    ∑ q, (update μ p r q).active + (μ p).active = ∑ q, (μ q).active + r.active :=
  sum_update (fun r : LogPart => r.active) μ p r

theorem sum_room_update (μ : P → LogPart) (p : P) (r : LogPart) :
    ∑ q, (update μ p r q).room + (μ p).room = ∑ q, (μ q).room + r.room :=
  sum_update (fun r : LogPart => r.room) μ p r

variable (h : Inv R s μ)
include h

theorem owner_update (hrole : (μ p).role = .client)
    (hr : r.role = .client) (hop : (∃ q, (μ q).role ≠ .client) → r.op = none) :
    ∀ q, (update μ p r q).role ≠ .client → ∀ q', (update μ p r q').op = none ∧
      (q' ≠ q → (update μ p r q').role = .client) := by
  intro q hq q'
  have hqp : q ≠ p := by
    rintro rfl
    rw [update_self] at hq
    exact hq hr
  rw [update_of_ne hqp] at hq
  by_cases hq' : q' = p
  · subst hq'
    rw [update_self]
    exact ⟨hop ⟨q, hq⟩, fun _ => hr⟩
  · rw [update_of_ne hq']
    exact h.owner q hq q'

theorem committing_update (hrole : (μ p).role = .client) (hc : s'.log.committing = true → s.log.committing = true) :
    s'.log.committing = true → ∃ q lh k, (update μ p r q).role = .commit lh k := by
  intro hc'
  obtain ⟨q, lh, k, hq⟩ := h.committing (hc hc')
  refine ⟨q, lh, k, ?_⟩
  rw [update_of_ne]
  · exact hq
  · rintro rfl
    rw [hrole] at hq
    cases hq

theorem check {size b : Nat} (hop : (μ p).op = some S) (hexec : s.check size b = .ok () s') :
    Inv R s' (update μ p ((μ p).name b)) := by
  obtain ⟨l, hl, rfl⟩ := mapState_eq_ok.1 hexec
  obtain rfl : s.log = l := by
    rw [Log.check] at hl
    split_ifs at hl
    cases hl
    rfl
  have hrole := h.client_of_op hop p
  have hactive := sum_active_update μ p ((μ p).name b)
  have hroom := sum_room_update μ p ((μ p).name b)
  have hknows := h.knows p
  refine ⟨?_, h.nodup, h.length, fun b' hb' => mem_insert_of_mem (h.named b' hb'),
    h.owner_update hrole hrole fun ⟨q, hq⟩ => absurd (h.client_of_op hop q) hq,
    h.committing_update hrole id, h.installed, fun hR => ?_, forall_update ?_ fun q hq => ?_⟩
  · rw [h.outstanding]
    have : ((μ p).name b).active = (μ p).active := rfl
    omega
  · have hres := h.reserve hR
    have : ((μ p).name b).room = (μ p).room := rfl
    dsimp only
    omega
  · refine ⟨hknows.running, hknows.logged, hknows.small, fun b' hb' => ?_, hknows.commit, hknows.boot⟩
    cases hb'
    exact ⟨(congrArg Option.isSome hop).trans rfl, mem_insert_self ..⟩
  · exact (h.knows q).mono rfl (fun _ hb => hb) (fun _ hb => mem_insert_of_mem hb) fun _ => ⟨rfl, rfl⟩

/-- The reservation: there is room for a block that an operation may log. -/
theorem length_lt {b : Nat} (hop : (μ p).op = some S) (hR : R.bounded)
    (hsmall : (insert b S).card ≤ MAXOPBLOCKS) (hb : b ∉ s.log.head) : s.log.head.length < LOGSIZE := by
  have hnew : b ∉ S := fun hmem => hb ((h.knows p).logged S hop b hmem)
  have hroom : 0 < (μ p).room := by
    rw [card_insert_of_notMem hnew] at hsmall
    rw [LogPart.room_of_op hop]
    omega
  have hle : (μ p).room ≤ ∑ q, (μ q).room :=
    single_le_sum (f := fun q => (μ q).room) (fun q _ => Nat.zero_le _) (mem_univ p)
  have hres := h.reserve hR
  omega

theorem append {b : Nat} {new : Bool} (hop : (μ p).op = some S)
    (hchk : (μ p).chk = some b) (hsmall : R.bounded → (insert b S).card ≤ MAXOPBLOCKS)
    (hexec : s.append p b = .ok new s') :
    Inv R s' (update μ p ((μ p).log (insert b S))) := by
  obtain ⟨l, hl, rfl⟩ := mapState_eq_ok.1 hexec
  have hrole := h.client_of_op hop p
  have hactive := sum_active_update μ p ((μ p).log (insert b S))
  have hroom := sum_room_update μ p ((μ p).log (insert b S))
  have hknows := h.knows p
  have hS := hknows.logged S hop
  -- the head grows by the block if it was not logged, and then the operation had not logged it either
  have hcase : l.outstanding = s.log.outstanding ∧ l.committing = s.log.committing ∧
      (b ∈ s.log.head ∧ l.head = s.log.head ∨
        b ∉ s.log.head ∧ s.log.head.length < LOGSIZE ∧ l.head = s.log.head ++ [b]) := by
    rw [Log.append] at hl
    split_ifs at hl with hmem hlt <;> cases hl
    · exact ⟨rfl, rfl, Or.inl ⟨hmem, rfl⟩⟩
    · exact ⟨rfl, rfl, Or.inr ⟨hmem, hlt, rfl⟩⟩
  obtain ⟨hout, hcomm, hcase⟩ := hcase
  have hsub : ∀ x ∈ s.log.head, x ∈ l.head := by
    rcases hcase with ⟨-, hh⟩ | ⟨-, -, hh⟩ <;> simp +contextual [hh]
  have hb : b ∈ l.head := by
    rcases hcase with ⟨hmem, hh⟩ | ⟨-, -, hh⟩ <;> simp [hh]
    exact hmem
  refine ⟨?_, ?_, ?_, fun x hx => ?_, h.owner_update hrole hrole fun ⟨q, hq⟩ =>
    absurd (h.client_of_op hop q) hq, h.committing_update hrole (hcomm ▸ id), hcomm ▸ h.installed,
    fun hR => ?_, forall_update ?_ fun q hq => ?_⟩
  · simp only [hout, h.outstanding]
    rw [LogPart.active_of_op hop, LogPart.active_of_op (r := (μ p).log (insert b S)) rfl] at hactive
    omega
  · rcases hcase with ⟨-, hh⟩ | ⟨hmem, -, hh⟩
    · exact hh ▸ h.nodup
    · simp only [hh]
      exact List.nodup_append.2 ⟨h.nodup, List.nodup_singleton b, by
        rintro x hx y hy rfl
        exact hmem (List.mem_singleton.1 hy ▸ hx)⟩
  · rcases hcase with ⟨-, hh⟩ | ⟨-, hlt, hh⟩
    · exact hh ▸ h.length
    · simp only [hh, List.length_append, List.length_singleton]
      omega
  · rcases hcase with ⟨-, hh⟩ | ⟨-, -, hh⟩
    · exact h.named x (hh ▸ hx)
    · simp only [hh, List.mem_append, List.mem_singleton] at hx
      rcases hx with hx | rfl
      · exact h.named x hx
      · exact (hknows.checked x hchk).2
  · have hres := h.reserve hR
    have hcard := hsmall hR
    rw [LogPart.room_of_op hop, LogPart.room_of_op (r := (μ p).log (insert b S)) rfl] at hroom
    rcases hcase with ⟨-, hh⟩ | ⟨hmem, -, hh⟩
    · have := card_le_card (subset_insert b S)
      simp only [hh]
      omega
    · rw [card_insert_of_notMem fun hbS => hmem (hS b hbS)] at hroom hcard
      simp only [hh, List.length_append, List.length_singleton]
      omega
  · refine ⟨?_, fun S' hS' x hx => ?_, fun hR S' hS' => ?_, nofun, ?_, ?_⟩
    · have := hknows.running
      rw [hop] at this
      exact this
    · cases hS'
      rcases mem_insert.1 hx with rfl | hx
      · exact hb
      · exact hsub x (hS x hx)
    · cases hS'
      exact hsmall hR
    · simp [LogPart.log, hrole]
    · simp [LogPart.log, hrole]
  · exact (h.knows q).mono rfl hsub (fun _ hx => hx) fun hq => absurd (h.client_of_op hop q) hq

theorem enter (hp : μ p = LogPart.idle) (hR : R.booting = false) (hexec : s.enter p = .ok () s') :
    Inv R s' (update μ p ⟨some ∅, none, .client⟩) := by
  obtain ⟨l, hl, rfl⟩ := mapState_eq_ok.1 hexec
  rw [Log.enter] at hl
  split_ifs at hl with hcomm hfull
  cases hl
  have hactive := sum_active_update μ p ⟨some ∅, none, .client⟩
  have hroom := sum_room_update μ p ⟨some ∅, none, .client⟩
  have hclient : ∀ q, (μ q).role = .client := by
    intro q
    cases hrole : (μ q).role with
    | client => rfl
    | commit lh k => exact absurd ((h.knows q).commit lh k hrole).1 hcomm
    | boot =>
      have := ((h.knows q).boot hrole).1
      rw [hR] at this
      cases this
  have hle : ∑ q, (μ q).room ≤ MAXOPBLOCKS * ∑ q, (μ q).active := by
    rw [mul_sum]
    exact sum_le_sum fun q _ => (μ q).room_le
  have hout := h.outstanding
  have hMAX : MAXOPBLOCKS = 10 := rfl
  have hLOG : LOGSIZE = 30 := rfl
  rw [LogPart.active_of_none (r := μ p) (by rw [hp]; rfl), LogPart.active_of_op (S := ∅) rfl] at hactive
  rw [LogPart.room_of_none (r := μ p) (by rw [hp]; rfl), LogPart.room_of_op (S := ∅) rfl, card_empty] at hroom
  refine ⟨?_, h.nodup, h.length, h.named, h.owner_update (by rw [hp]; rfl) rfl fun ⟨q, hq⟩ => absurd (hclient q) hq,
    h.committing_update (by rw [hp]; rfl) id, h.installed, fun hR => ?_, forall_update ?_ fun q hq => ?_⟩
  · simp only [hout]
    omega
  · rw [hMAX] at hle hroom hfull
    simp only
    omega
  · refine ⟨by simp, fun S hS => ?_, fun _ S hS => ?_, nofun, nofun, nofun⟩ <;> cases hS
    · simp
    · simp
  · exact (h.knows q).mono (by simp [hq]) (fun _ hx => hx) (fun _ hx => hx) fun hq => absurd (hclient q) hq

theorem leave {doCommit : Bool} (hop : (μ p).op = some S) (hexec : s.leave p = .ok doCommit s') : Inv R s' (update μ p
      (if doCommit then ⟨none, none, .commit s.log.head 0⟩ else LogPart.idle)) ∧
      s'.log.head = s.log.head ∧ s'.installed = s.installed := by
  obtain ⟨l, hl, rfl⟩ := mapState_eq_ok.1 hexec
  have hrole := h.client_of_op hop
  have hcomm := h.committing_of_op hop
  have hout := h.outstanding
  rw [Log.leave, hcomm] at hl
  simp only [Bool.false_eq_true, if_false] at hl
  have hactive := LogPart.active_of_op hop
  split_ifs at hl with hzero
  · -- the last operation: this process commits
    cases hl
    have hnone : ∀ q, q ≠ p → (μ q).op = none := by
      intro q hq
      have hq := eq_zero_of_sum_eq (f := fun q => (μ q).active) (p := p) (by omega) hq
      cases hopq : (μ q).op with
      | none => rfl
      | some S' =>
        rw [LogPart.active_of_op hopq] at hq
        cases hq
    have hnone' : ∀ q, (update μ p ⟨none, none, .commit s.log.head 0⟩ q).op = none :=
      forall_update (A := fun _ r => LogPart.op r = none) rfl hnone
    refine ⟨⟨?_, h.nodup, h.length, h.named, fun q hq q' => ⟨hnone' q', fun hne => ?_⟩, fun _ => ?_,
      nofun, fun hR => ?_, forall_update ?_ fun q hq => ?_⟩, rfl, rfl⟩
    · rw [if_pos rfl, sum_eq_zero fun q _ => LogPart.active_of_none (hnone' q)]
      exact hzero
    · rw [if_pos rfl] at hq ⊢
      have hqp : q = p := by
        by_contra hqp
        rw [update_of_ne hqp] at hq
        exact hq (hrole q)
      rw [update_of_ne (hqp ▸ hne)]
      exact hrole q'
    · exact ⟨p, s.log.head, 0, by rw [if_pos rfl, update_self]⟩
    · rw [if_pos rfl, sum_eq_zero fun q _ => LogPart.room_of_none (hnone' q)]
      exact h.length
    · refine ⟨by simp, nofun, nofun, nofun, fun lh k hk => ?_, nofun⟩
      cases hk
      exact ⟨rfl, rfl, h.installed hcomm, Nat.zero_le _⟩
    · exact (h.knows q).mono (by simp [hq]) (fun _ hx => hx) (fun _ hx => hx) fun hq => absurd (hrole q) hq
  · cases hl
    have hsum := sum_active_update μ p LogPart.idle
    have hroom := sum_room_update μ p LogPart.idle
    rw [LogPart.active_of_none (r := LogPart.idle) rfl] at hsum
    rw [LogPart.room_of_none (r := LogPart.idle) rfl] at hroom
    rw [if_neg Bool.false_ne_true]
    refine ⟨⟨?_, h.nodup, h.length, h.named, h.owner_update (hrole p) rfl fun ⟨q, hq⟩ => absurd (hrole q) hq,
      nofun, fun _ => h.installed hcomm, fun hR => ?_, forall_update ?_ fun q hq => ?_⟩,
      rfl, rfl⟩
    · dsimp only
      omega
    · have := h.reserve hR
      dsimp only
      omega
    · exact ⟨by simp [LogPart.idle], nofun, nofun, nofun, nofun, nofun⟩
    · exact (h.knows q).mono (by simp [hq]) (fun _ hx => hx) (fun _ hx => hx) fun hq => absurd (hrole q) hq

/-- A step of the owner of the log. -/
theorem own (hrole : (μ p).role ≠ .client) (hop : r.op = none)
    (hout : s'.log.outstanding = s.log.outstanding) (hs : s'.op = s.op) (hnodup : s'.log.head.Nodup)
    (hlen : s'.log.head.length ≤ s.log.head.length) (hnamed : ∀ b ∈ s'.log.head, b ∈ s'.named)
    (hc : s'.log.committing = true → ∃ lh k, r.role = .commit lh k)
    (hinst : s'.log.committing = false → s'.installed = 0) (hknows : s'.Knows R p r) : Inv R s' (update μ p r) := by
  have hown := h.owner p hrole
  have hnone : ∀ q, (update μ p r q).op = none :=
    forall_update (A := fun _ r => LogPart.op r = none) hop fun q _ => (hown q).1
  have hclient : ∀ q, q ≠ p → (update μ p r q).role = .client := fun q hq => by
    rw [update_of_ne hq]
    exact (hown q).2 hq
  refine ⟨?_, hnodup, hlen.trans h.length, hnamed, fun q hq q' => ⟨hnone q', fun hne => ?_⟩,
    fun hc' => ?_, hinst, fun hR => ?_, forall_update hknows fun q hq => ?_⟩
  · rw [hout, h.outstanding, sum_eq_zero fun q _ => LogPart.active_of_none (hnone q),
      sum_eq_zero fun q _ => LogPart.active_of_none (hown q).1]
  · have hqp : q = p := by
      by_contra hqp
      exact hq (hclient q hqp)
    exact hclient q' (hqp ▸ hne)
  · obtain ⟨lh, k, hk⟩ := hc hc'
    exact ⟨p, lh, k, by rw [update_self]; exact hk⟩
  · rw [sum_eq_zero fun q _ => LogPart.room_of_none (hnone q)]
    exact hlen.trans h.length
  · have hold := h.knows q
    have hopq := (hown q).1
    refine ⟨?_, ?_, ?_, ?_, ?_, ?_⟩
    · rw [hs]
      exact hold.running
    · simp [hopq]
    · simp [hopq]
    · intro b hb
      have := (hold.checked b hb).1
      rw [hopq] at this
      cases this
    · simp [(hown q).2 hq]
    · simp [(hown q).2 hq]

theorem unpin {lh : List Nat} {k : Nat} (hp : μ p = ⟨none, none, .commit lh k⟩) (hk : k < lh.length) :
    Inv R s.unpin (update μ p ⟨none, none, .commit lh (k + 1)⟩) := by
  have hknows := h.knows p
  rw [hp] at hknows
  obtain ⟨hcomm, hhead, hinst, -⟩ := hknows.commit lh k rfl
  refine h.own (by rw [hp]; nofun) rfl rfl rfl h.nodup le_rfl h.named
    (fun _ => ⟨lh, k + 1, rfl⟩) (fun hc => ?_) ⟨hknows.running, nofun, nofun, nofun, fun lh' k' hk' => ?_, nofun⟩
  · rw [LogState.unpin] at hc
    rw [hcomm] at hc
    cases hc
  · cases hk'
    exact ⟨hcomm, hhead, by rw [LogState.unpin, hinst], hk⟩

theorem setHead (hp : (∃ lh, μ p = ⟨none, none, .commit lh lh.length⟩ ∧ r = ⟨none, none, .commit [] 0⟩) ∨
      μ p = ⟨none, none, .boot⟩ ∧ r = ⟨none, none, .boot⟩)
    (hexec : s.setHead [] = .ok () s') : Inv R s' (update μ p r) := by
  obtain ⟨l, hl, rfl⟩ := mapState_eq_ok.1 hexec
  rw [Log.setHead, if_pos (by simp)] at hl
  cases hl
  have hknows := h.knows p
  rcases hp with ⟨lh, hp, rfl⟩ | ⟨hp, rfl⟩ <;> rw [hp] at hknows
  · obtain ⟨hcomm, -⟩ := hknows.commit lh lh.length rfl
    refine h.own (by rw [hp]; nofun) rfl rfl rfl List.nodup_nil (Nat.zero_le _) nofun
      (fun _ => ⟨[], 0, rfl⟩) (fun _ => rfl)
      ⟨hknows.running, nofun, nofun, nofun, fun lh' k' hk' => ?_, nofun⟩
    cases hk'
    exact ⟨hcomm, rfl, rfl, Nat.zero_le _⟩
  · obtain ⟨hboot, hcomm, hhead⟩ := hknows.boot rfl
    refine h.own (by rw [hp]; nofun) rfl rfl rfl List.nodup_nil (Nat.zero_le _) nofun
      (fun hc => ?_) (fun _ => rfl) ⟨hknows.running, nofun, nofun, nofun, nofun, fun _ => ⟨hboot, hcomm, rfl⟩⟩
    rw [hcomm] at hc
    cases hc

theorem done (hp : μ p = ⟨none, none, .commit [] 0⟩) (hexec : s.done = .ok () s') :
    Inv R s' (update μ p LogPart.idle) := by
  obtain ⟨l, hl, rfl⟩ := mapState_eq_ok.1 hexec
  cases hl
  have hknows := h.knows p
  rw [hp] at hknows
  obtain ⟨hcomm, hhead, hinst, -⟩ := hknows.commit [] 0 rfl
  exact h.own (by rw [hp]; nofun) rfl rfl rfl h.nodup le_rfl h.named nofun (fun _ => hinst)
    ⟨hknows.running, nofun, nofun, nofun, nofun, nofun⟩

/-! What the steps do to the pending blocks. -/

theorem pending_of_op (hop : (μ p).op = some S) : s.pending = s.log.head := by
  rw [pending, h.installed (h.committing_of_op hop), List.drop_zero]

theorem pending_append {b : Nat} {new : Bool} (hop : (μ p).op = some S) (hexec : s.append p b = .ok new s') :
    if new then b ∉ s.pending ∧ s'.pending = s.pending ++ [b] else b ∈ s.pending ∧ s'.pending = s.pending := by
  have hpend := h.pending_of_op hop
  have hinst := h.installed (h.committing_of_op hop)
  obtain ⟨l, hl, rfl⟩ := mapState_eq_ok.1 hexec
  rw [hpend]
  simp only [pending, hinst, List.drop_zero]
  rw [Log.append] at hl
  split_ifs at hl with hmem hlt <;> cases hl
  · exact ⟨hmem, rfl⟩
  · exact ⟨hmem, rfl⟩

theorem pending_commit {lh : List Nat} {k : Nat} (hp : (μ p).role = .commit lh k) : s.pending = lh.drop k := by
  obtain ⟨-, hhead, hinst, -⟩ := (h.knows p).commit lh k hp
  rw [pending, hhead, hinst]

theorem pending_boot (hp : (μ p).role = .boot) : s.pending = [] := by
  rw [pending, ((h.knows p).boot hp).2.2, List.drop_nil]

end Inv

/-! ### The history -/

namespace History

section

omit [Procs P]

/-- A step that leaves the history alone and the logged blocks in the log. -/
theorem congr (h : History s) (hop : s'.op = s.op) (hops : s'.ops = s.ops) (hcalls : s'.calls = s.calls)
    (hcomm : s'.committed = s.committed) (hhead : s'.log.head = s.log.head) : History s' := by
  obtain ⟨hfresh, hunique, hold, hcurrent, hsame, hlogged⟩ := h
  constructor <;> simp only [hop, hops, hcalls, hcomm, hhead] <;> assumption

theorem check {size b : Nat} (h : History s) (hexec : s.check size b = .ok () s') : History s' := by
  obtain ⟨l, hl, rfl⟩ := mapState_eq_ok.1 hexec
  rw [Log.check] at hl
  split_ifs at hl
  cases hl
  exact h.congr rfl rfl rfl rfl rfl

theorem append {b : Nat} {new : Bool} (h : History s) (hexec : s.append p b = .ok new s') : History s' := by
  obtain ⟨l, hl, rfl⟩ := mapState_eq_ok.1 hexec
  have hhead : (∀ x ∈ s.log.head, x ∈ l.head) ∧ b ∈ l.head := by
    rw [Log.append] at hl
    split_ifs at hl with hmem <;> cases hl
    · exact ⟨fun _ hx => hx, hmem⟩
    · exact ⟨fun _ hx => List.mem_append_left _ hx, by simp⟩
  have hlogged : ∀ x ∈ s.calls, (∃ blocks, s.committed[x.txn]? = some blocks ∧ x.block ∈ blocks) ∨
      x.txn = s.committed.length ∧ x.block ∈ l.head := fun x hx =>
    (h.logged x hx).imp_right fun hx => ⟨hx.1, hhead.1 _ hx.2⟩
  cases hop : s.op p with
  | none => exact ⟨h.fresh, h.unique, h.old, h.current, h.same, hlogged⟩
  | some o =>
    have hcurrent : ∀ x ∈ s.calls, x.op = o → x.txn = s.committed.length := fun x hx ho =>
      h.current x hx p (ho ▸ hop)
    refine ⟨h.fresh, h.unique, ?_, ?_, ?_, ?_⟩
    all_goals simp only [List.mem_append, List.mem_singleton]
    · rintro x (hx | rfl)
      · exact h.old x hx
      · exact h.fresh p o hop
    · rintro x (hx | rfl) q hq
      · exact h.current x hx q hq
      · rfl
    · rintro x (hx | rfl) y (hy | rfl) hxy
      · exact h.same x hx y hy hxy
      · exact hcurrent x hx hxy
      · exact (hcurrent y hy hxy.symm).symm
      · rfl
    · rintro x (hx | rfl)
      · exact hlogged x hx
      · exact Or.inr ⟨rfl, hhead.2⟩

end

theorem enter (h : History s) (hexec : s.enter p = .ok () s') : History s' := by
  obtain ⟨l, hl, rfl⟩ := mapState_eq_ok.1 hexec
  rw [Log.enter] at hl
  split_ifs at hl
  cases hl
  have hcase : ∀ q o, update s.op p (some s.ops) q = some o → q = p ∧ o = s.ops ∨ q ≠ p ∧ s.op q = some o := by
    intro q o hq
    by_cases hqp : q = p
    · rw [hqp, update_self] at hq
      exact Or.inl ⟨hqp, (Option.some.inj hq).symm⟩
    · rw [update_of_ne hqp] at hq
      exact Or.inr ⟨hqp, hq⟩
  refine ⟨fun q o hq => ?_, fun q q' o hq hq' => ?_, fun x hx => Nat.lt_succ_of_lt (h.old x hx),
    fun x hx q hq => ?_, h.same, h.logged⟩
  · rcases hcase q o hq with ⟨-, rfl⟩ | ⟨-, hq⟩
    · exact Nat.lt_succ_self _
    · exact Nat.lt_succ_of_lt (h.fresh q o hq)
  · rcases hcase q o hq with ⟨hqp, ho⟩ | ⟨-, hold⟩ <;> rcases hcase q' o hq' with ⟨hqp', ho'⟩ | ⟨-, hold'⟩
    · exact hqp.trans hqp'.symm
    · exact absurd (h.fresh q' o hold') (by omega)
    · exact absurd (h.fresh q o hold) (by omega)
    · exact h.unique q q' o hold hold'
  · rcases hcase q x.op hq with ⟨-, ho⟩ | ⟨-, hq⟩
    · exact absurd (h.old x hx) (by omega)
    · exact h.current x hx q hq

theorem leave {doCommit : Bool} (h : History s) (hexec : s.leave p = .ok doCommit s') : History s' := by
  obtain ⟨l, hl, rfl⟩ := mapState_eq_ok.1 hexec
  have hhead : l.head = s.log.head := by
    rw [Log.leave] at hl
    split_ifs at hl <;> cases hl <;> rfl
  have hsub : ∀ q o, update s.op p none q = some o → s.op q = some o := by
    intro q o hq
    by_cases hqp : q = p
    · rw [hqp, update_self] at hq
      cases hq
    · rwa [update_of_ne hqp] at hq
  refine ⟨fun q o hq => h.fresh q o (hsub q o hq),
    fun q q' o hq hq' => h.unique q q' o (hsub q o hq) (hsub q' o hq'), h.old,
    fun x hx q hq => h.current x hx q (hsub q _ hq), h.same, ?_⟩
  simp only [hhead]
  exact h.logged

omit [Procs P]

theorem setHead (h : History s) (hnone : ∀ p, s.op p = none) (hexec : s.setHead [] = .ok () s') : History s' := by
  obtain ⟨l, hl, rfl⟩ := mapState_eq_ok.1 hexec
  rw [Log.setHead, if_pos (by simp)] at hl
  cases hl
  refine ⟨h.fresh, h.unique, h.old, fun x _ q hq => ?_, h.same, fun x hx => ?_⟩
  · rw [hnone q] at hq
    cases hq
  · rcases h.logged x hx with ⟨blocks, hget, hmem⟩ | ⟨htxn, hmem⟩
    · refine Or.inl ⟨blocks, ?_, hmem⟩
      dsimp only
      split
      · rw [List.getElem?_append_left (List.getElem?_eq_some_iff.1 hget).1]
        exact hget
      · exact hget
    · refine Or.inl ⟨s.log.head, ?_, hmem⟩
      dsimp only
      rw [if_pos ⟨rfl, List.ne_nil_of_mem hmem⟩, htxn]
      simp

theorem done (h : History s) (hexec : s.done = .ok () s') : History s' := by
  obtain ⟨l, hl, rfl⟩ := mapState_eq_ok.1 hexec
  cases hl
  exact h.congr rfl rfl rfl rfl rfl

end History

end LogState

end Xv6
