import Xv6.Lib.Machine

/-! `consolewrite`, `uart.c` and what they use of `spinlock.c` and `proc.c`: the output side of the console. A
thread is a process in `consolewrite` or the handler of a UART interrupt. What `mycpu()` has is kept for every
thread, as the state of the CPU that the thread runs on: a thread leaves its CPU only in `sched`, which hands
over `noff = 1` and the lock of the process. The device decides when `LSR_TX_IDLE` is set. -/

namespace Xv6

open Lib Logic Function List Machine

def UART_TX_BUF_SIZE : Nat := 32

namespace Output

variable {T : Type} [DecidableEq T]

/-- The spin locks: `cons.lock`, `uart_tx_lock` and the lock of every process. -/
inductive Lk (T : Type) where
  | cons
  | uart
  | proc (p : T)
  deriving DecidableEq

inductive Status where
  | running
  | runnable
  | sleeping
  deriving DecidableEq

/-- The locks, the fields of `struct cpu`, the state of every process, the ring of `uart.c` and the device. -/
structure Uart (T : Type) where
  lock : Lk T → Option T
  noff : T → Nat
  intr : T → Bool
  intena : T → Bool
  status : T → Status
  buf : Nat → UInt8
  w : Nat
  r : Nat
  idle : Bool
  sent : List UInt8

inductive UartOp (T : Type) where
  | acquire (l : Lk T)
  | release (l : Lk T)
  | pushOff
  | popOff
  | setSleeping
  | sched (me : T)
  | resume (me : T)
  | full
  | put (ch : UInt8)
  | empty
  | txIdle
  | next
  | thr (ch : UInt8)
  | wakeup
  | device (idle : Bool)
  | halt

/-- `sched` is the switch to the scheduler, which releases the lock of the process, and `resume` the switch back.
`full`, `put`, `empty` and `next` work on the ring, `txIdle` reads `LSR` and `thr` writes `THR`.
`device` is a change of `LSR_TX_IDLE`. `halt` is the end of the part of an endless loop that is looked at. -/
def UartSig (T : Type) : Sig where
  Op := UartOp T
  Ret
    | .full | .empty | .txIdle => Bool
    | .next => UInt8
    | .halt => Empty
    | _ => Unit

namespace Uart

/-- Before any output, with interrupts on or off. -/
def init (intr : T → Bool) : Uart T where
  lock _ := none
  noff _ := 0
  intr := intr
  intena _ := false
  status _ := .running
  buf _ := 0
  w := 0
  r := 0
  idle := true
  sent := []

def pushOff (p : T) (s : Uart T) : Uart T :=
  { s with
    intena := if s.noff p = 0 then update s.intena p (s.intr p) else s.intena
    intr := update s.intr p false
    noff := update s.noff p (s.noff p + 1) }

def popped (p : T) (s : Uart T) : Uart T :=
  { s with
    noff := update s.noff p (s.noff p - 1)
    intr := if s.noff p - 1 = 0 ∧ s.intena p = true then update s.intr p true else s.intr }

def popOff (p : T) (s : Uart T) : Outcome (Uart T) Unit :=
  if s.intr p then .panic "pop_off - interruptible"
  else if s.noff p < 1 then .panic "pop_off"
  else .ok () (s.popped p)

def setLock (s : Uart T) (l : Lk T) (o : Option T) : Uart T := { s with lock := update s.lock l o }

def release (p : T) (l : Lk T) (s : Uart T) : Outcome (Uart T) Unit :=
  if s.lock l = some p then (s.setLock l none).popOff p else .panic "release"

/-- `(uart_tx_w + 1) % UART_TX_BUF_SIZE == uart_tx_r`. -/
def isFull (s : Uart T) : Bool := (s.w + 1) % UART_TX_BUF_SIZE == s.r

/-- `sched`, up to the scheduler's release of `p->lock`. -/
def sched (p me : T) (s : Uart T) : Outcome (Uart T) Unit :=
  if s.lock (.proc me) ≠ some p then .panic "sched p->lock"
  else if s.noff p ≠ 1 then .panic "sched locks"
  else if s.status me = .running then .panic "sched running"
  else if s.intr p then .panic "sched interruptible"
  else .ok () { s.setLock (.proc me) none with noff := update s.noff p 0 }

def exec (p : T) : (o : UartOp T) → Uart T → Outcome (Uart T) ((UartSig T).Ret o)
  | .acquire l, s =>
      if s.lock l = some p then .panic "acquire"
      else match s.lock l with
        | some _ => .block
        | none => .ok () ((s.pushOff p).setLock l (some p))
  | .release l, s => s.release p l
  | .pushOff, s => .ok () (s.pushOff p)
  | .popOff, s => s.popOff p
  | .setSleeping, s => .ok () { s with status := update s.status p .sleeping }
  | .sched me, s => s.sched p me
  | .resume me, s => match s.lock (.proc me), s.status me with
    | none, .runnable => .ok () { s.setLock (.proc me) (some p) with
        status := update s.status me .running
        noff := update s.noff p 1
        intr := update s.intr p false }
    | _, _ => .block
  | .full, s => .ok s.isFull s
  | .put ch, s => .ok () { s with
      buf := update s.buf s.w ch
      w := (s.w + 1) % UART_TX_BUF_SIZE }
  | .empty, s => .ok (s.w == s.r) s
  | .txIdle, s => .ok s.idle s
  | .next, s => .ok (s.buf s.r) { s with r := (s.r + 1) % UART_TX_BUF_SIZE }
  | .thr ch, s => .ok () { s with sent := s.sent ++ [ch] }
  | .wakeup, s => .ok () { s with
      status := fun q => if s.status q = .sleeping then .runnable else s.status q }
  | .device idle, s => .ok () { s with idle := idle }
  | .halt, _ => .block

def machine : Machine (UartSig T) T (Uart T) := ⟨exec⟩

end Uart

/-! ### The code -/

def op (o : UartOp T) : Prog (UartSig T) ((UartSig T).Ret o) := Prog.op (S := UartSig T) o

def isFull : Prog (UartSig T) Bool := op .full
def isEmpty : Prog (UartSig T) Bool := op .empty
def txIdle : Prog (UartSig T) Bool := op .txIdle
def next : Prog (UartSig T) UInt8 := op .next

/-- `sleep(&uart_tx_r, lk)` of process `me`. -/
def sleep (me : T) (lk : Lk T) : Prog (UartSig T) Unit := do
  op (.acquire (.proc me))
  op (.release lk)
  op .setSleeping
  op (.sched me)
  op (.resume me)
  op (.release (.proc me))
  op (.acquire lk)

/-- The loop of `uartstart`. The ring has fewer than `UART_TX_BUF_SIZE` bytes. -/
def uartstartFrom : Nat → Prog (UartSig T) Unit
  | 0 => .call .halt nofun
  | fuel + 1 => do
      let empty ← isEmpty
      if empty then pure ()
      else
        let idle ← txIdle
        if !idle then pure ()
        else
          let ch ← next
          op .wakeup
          op (.thr ch)
          uartstartFrom fuel

def uartstart : Prog (UartSig T) Unit := uartstartFrom UART_TX_BUF_SIZE

def uartputcFrom (me : T) (ch : UInt8) : Nat → Prog (UartSig T) Unit
  | 0 => .call .halt nofun
  | fuel + 1 => do
      let full ← isFull
      if full then
        sleep me .uart
        uartputcFrom me ch fuel
      else
        op (.put ch)
        uartstart
        op (.release .uart)

def uartputc (me : T) (ch : UInt8) (fuel : Nat) : Prog (UartSig T) Unit := do
  op (.acquire .uart)
  uartputcFrom me ch fuel

/-- The loop of `consolewrite`, from byte `i` on with `n` to go. `src` has the bytes that `either_copyin` finds. -/
def consolewriteFrom (me : T) (src : Nat → Option UInt8) (fuel : Nat) : Nat → Nat → Prog (UartSig T) Nat
  | 0, i => pure i
  | n + 1, i => match src i with
    | none => pure i
    | some ch => do
        uartputc me ch fuel
        consolewriteFrom me src fuel n (i + 1)

def consolewrite (me : T) (src : Nat → Option UInt8) (n : Int) (fuel : Nat) : Prog (UartSig T) Int := do
  op (.acquire .cons)
  let i ← consolewriteFrom me src fuel n.toNat 0
  op (.release .cons)
  pure i

/-- The loop of `uartputc_sync` that waits for the device. -/
def syncFrom : Nat → Prog (UartSig T) Unit
  | 0 => .call .halt nofun
  | fuel + 1 => do
      let idle ← txIdle
      if idle then pure () else syncFrom fuel

/-- The echo of one character that `consoleintr` got. -/
def echo (fuel : Nat) : Prog (UartSig T) Unit := do
  op (.acquire .cons)
  op .pushOff
  syncFrom fuel
  op .popOff
  op (.release .cons)

/-- `uartintr`, which gets `n` characters. -/
def uartintr (fuel : Nat) : Nat → Prog (UartSig T) Unit
  | 0 => do
      op (.acquire .uart)
      uartstart
      op (.release .uart)
  | n + 1 => do
      echo fuel
      uartintr fuel n

/-- What a thread does. -/
inductive Call where
  | write (src : Nat → Option UInt8) (n : Int) (fuel : Nat)
  | intr (n fuel : Nat)
  | device (idle : Bool)

def Call.run (me : T) : Call → Prog (UartSig T) Unit
  | write src n fuel => do
      let _ ← consolewrite me src n fuel
      pure ()
  | intr n fuel => uartintr fuel n
  | device idle => op (.device idle)

def runAll (me : T) : List Call → Prog (UartSig T) Unit
  | [] => pure ()
  | c :: cs => do
      c.run me
      runAll me cs

/-! ### What holds in every state -/

/-- The locks that a thread holds, the latest first, and its calls of `push_off` besides. -/
structure Holds (T : Type) where
  locks : List (Lk T)
  offs : Nat

/-- What `sched` finds: the lock of the process and one more. -/
def Holds.TwoLocks (ρ : Holds T) (me : T) : Prop := .proc me ∈ ρ.locks ∧ ρ.locks.length + ρ.offs = 2

/-- The promises of the code, where `room` says that the ring is never found full. The switch to the scheduler has no
answer: it panics. -/
def nesting (room : Bool) : Logic (UartSig T) (Holds T) where
  pre
    | ρ, .acquire l => l ∉ ρ.locks
    | ρ, .release l => l ∈ ρ.locks
    | ρ, .popOff => 0 < ρ.offs
    | ρ, .sched me => room = false ∧ ρ.TwoLocks me
    | _, .resume _ => False
    | _, _ => True
  post
    | ρ, .acquire l, _, ρ' => ρ' = ⟨l :: ρ.locks, ρ.offs⟩
    | ρ, .release l, _, ρ' => ρ' = ⟨ρ.locks.erase l, ρ.offs⟩
    | ρ, .pushOff, _, ρ' => ρ' = ⟨ρ.locks, ρ.offs + 1⟩
    | ρ, .popOff, _, ρ' => ρ' = ⟨ρ.locks, ρ.offs - 1⟩
    | ρ, .full, r, ρ' => ρ' = ρ ∧ (room = true → r = false)
    | _, .sched _, _, _ => False
    | ρ, _, _, ρ' => ρ' = ρ

namespace Uart

/-- `noff` counts the locks of a thread and its calls of `push_off`, and interrupts are off while it is not 0. -/
structure Inv (s : Uart T) (ρ : T → Holds T) : Prop where
  lock : ∀ l p, s.lock l = some p ↔ l ∈ (ρ p).locks
  nodup : ∀ p, (ρ p).locks.Nodup
  noff : ∀ p, s.noff p = (ρ p).locks.length + (ρ p).offs
  intr : ∀ p, 0 < s.noff p → s.intr p = false

/-- The ring is not full where `uartputc` looks. -/
def Room (s : Uart T) (_ : T) (o : UartOp T) : Prop := o = .full → s.isFull = false

section Steps

variable {s s' : Uart T} {ρ : T → Holds T} {p : T}

namespace Inv

omit [DecidableEq T] in
/-- A step that touches no lock and no CPU. -/
theorem same (h : Inv s ρ) (hlock : s'.lock = s.lock) (hnoff : s'.noff = s.noff) (hintr : s'.intr = s.intr) :
    Inv s' ρ := by
  constructor
  · rw [hlock]
    exact h.lock
  · exact h.nodup
  · rw [hnoff]
    exact h.noff
  · rw [hnoff, hintr]
    exact h.intr

/-- A step of one thread on its CPU, which may change one lock. -/
theorem step (h : Inv s ρ) {x : Holds T} (hnodup : x.locks.Nodup)
    (hlock : ∀ l q, s'.lock l = some q ↔ l ∈ (update ρ p x q).locks)
    (hnoff : s'.noff = update s.noff p (x.locks.length + x.offs))
    (hother : ∀ q, q ≠ p → s'.intr q = s.intr q) (hintr : 0 < x.locks.length + x.offs → s'.intr p = false) :
    Inv s' (update ρ p x) := by
  constructor
  · exact hlock
  · intro q
    by_cases hq : q = p
    · rw [hq, update_self]
      exact hnodup
    · rw [update_of_ne hq]
      exact h.nodup q
  · intro q
    rw [hnoff]
    by_cases hq : q = p
    · rw [hq, update_self, update_self]
    · rw [update_of_ne hq, update_of_ne hq]
      exact h.noff q
  · intro q hpos
    rw [hnoff] at hpos
    by_cases hq : q = p
    · rw [hq] at hpos ⊢
      rw [update_self] at hpos
      exact hintr hpos
    · rw [update_of_ne hq] at hpos
      rw [hother q hq]
      exact h.intr q hpos

end Inv

theorem lock_update (h : Inv s ρ) {lock : Lk T → Option T} {x : Holds T} (hp : ∀ l, lock l = some p ↔ l ∈ x.locks)
    (hrest : ∀ l q, q ≠ p → (lock l = some q ↔ s.lock l = some q)) (l : Lk T) (q : T) :
    lock l = some q ↔ l ∈ (update ρ p x q).locks := by
  by_cases hq : q = p
  · rw [hq, update_self, hp]
  · rw [update_of_ne hq, hrest l q hq, h.lock]

theorem lock_acquire (h : Inv s ρ) {l : Lk T} (hfree : s.lock l = none) (l' : Lk T) (q : T) :
    update s.lock l (some p) l' = some q ↔ l' ∈ (update ρ p ⟨l :: (ρ p).locks, (ρ p).offs⟩ q).locks := by
  refine lock_update h (fun l' => ?_) (fun l' q hq => ?_) l' q <;> by_cases hl : l' = l
  · simp [hl]
  · simp [hl, h.lock]
  · simp [hl, hfree, Ne.symm hq]
  · rw [update_of_ne hl]

theorem lock_release (h : Inv s ρ) {l : Lk T} (hheld : l ∈ (ρ p).locks) (l' : Lk T) (q : T) :
    update s.lock l none l' = some q ↔ l' ∈ (update ρ p ⟨(ρ p).locks.erase l, (ρ p).offs⟩ q).locks := by
  have hlock := (h.lock l p).2 hheld
  refine lock_update h (fun l' => ?_) (fun l' q hq => ?_) l' q <;> by_cases hl : l' = l
  · simp [hl, (h.nodup p).not_mem_erase]
  · simp [hl, h.lock, mem_erase_of_ne hl]
  · simp [hl, hlock, Ne.symm hq]
  · rw [update_of_ne hl]

theorem lock_same (h : Inv s ρ) {x : Holds T} (hx : x.locks = (ρ p).locks) (l : Lk T) (q : T) :
    s.lock l = some q ↔ l ∈ (update ρ p x q).locks :=
  lock_update h (fun l => by rw [hx, h.lock]) (fun _ _ _ => Iff.rfl) l q

/-- `pop_off` in a thread that called `push_off`. -/
theorem popOff_eq (hintr : s.intr p = false) (hpos : 0 < s.noff p) : s.popOff p = .ok () (s.popped p) := by
  unfold popOff
  rw [hintr, if_neg Bool.false_ne_true, if_neg (Nat.not_lt.2 hpos)]

theorem release_eq (h : Inv s ρ) {l : Lk T} (hheld : l ∈ (ρ p).locks) :
    s.release p l = .ok () ((s.setLock l none).popped p) := by
  have hpos : 0 < s.noff p := by
    have hlen := length_pos_of_mem hheld
    have hnoff := h.noff p
    omega
  unfold release
  rw [if_pos ((h.lock l p).2 hheld)]
  exact popOff_eq (h.intr p hpos) hpos

theorem popped_intr_of_ne {q : T} (hq : q ≠ p) : (s.popped p).intr q = s.intr q := by
  unfold popped
  dsimp only
  split
  · rw [update_of_ne hq]
  · rfl

theorem popped_intr (hintr : s.intr p = false) (hmore : 1 < s.noff p) : (s.popped p).intr p = false := by
  unfold popped
  dsimp only
  rw [if_neg (by omega)]
  exact hintr

/-- With two locks, `sched` panics. -/
theorem sched_eq (h : Inv s ρ) {me : T} (hmem : .proc me ∈ (ρ p).locks)
    (htwo : (ρ p).locks.length + (ρ p).offs = 2) : s.sched p me = .panic "sched locks" := by
  have hnoff := h.noff p
  unfold sched
  rw [if_neg (not_not.2 ((h.lock _ p).2 hmem)), if_pos (by omega)]

end Steps

theorem sound (room : Bool) : (machine : Machine (UartSig T) T (Uart T)).Sound (nesting room)
    (fun s p o => room = true → s.Room p o) Inv := by
  intro s ρ p o r s' hinv hpre hcond hexec
  have hsame : s'.lock = s.lock → s'.noff = s.noff → s'.intr = s.intr → Inv s' (update ρ p (ρ p)) := by
    intro hlock hnoff hintr
    rw [update_eq_self]
    exact hinv.same hlock hnoff hintr
  have hnoff := hinv.noff p
  cases o with
  | acquire l =>
    simp only [machine, exec] at hexec
    split at hexec
    · cases hexec
    · split at hexec
      · cases hexec
      · rename_i hfree
        cases hexec
        refine ⟨_, rfl, hinv.step ?_ (lock_acquire hinv hfree) ?_ ?_ ?_⟩
        · exact nodup_cons.2 ⟨hpre, hinv.nodup p⟩
        · show update s.noff p (s.noff p + 1) = _
          rw [hnoff]
          congr 1
          show _ = (ρ p).locks.length + 1 + (ρ p).offs
          omega
        · intro q hq
          exact update_of_ne hq ..
        · intro _
          exact update_self ..
  | release l =>
    have hheld : l ∈ (ρ p).locks := hpre
    have hlen := length_erase_of_mem hheld
    have hpos := length_pos_of_mem hheld
    have hrelease : s.release p l = .ok r s' := hexec
    rw [release_eq hinv hheld] at hrelease
    cases hrelease
    refine ⟨_, rfl, hinv.step ((hinv.nodup p).erase l) (lock_release hinv hheld) ?_ ?_ ?_⟩
    · show update s.noff p (s.noff p - 1) = update s.noff p (((ρ p).locks.erase l).length + (ρ p).offs)
      rw [hlen, hnoff]
      congr 1
      omega
    · intro q hq
      exact popped_intr_of_ne (s := s.setLock l none) hq
    · intro hrest
      have hrest' : 0 < ((ρ p).locks.erase l).length + (ρ p).offs := hrest
      refine popped_intr (s := s.setLock l none) (hinv.intr p (by omega)) ?_
      show 1 < s.noff p
      omega
  | pushOff =>
    cases hexec
    refine ⟨_, rfl, hinv.step (hinv.nodup p) (lock_same hinv rfl) ?_ ?_ ?_⟩
    · show update s.noff p (s.noff p + 1) = _
      rw [hnoff]
      rfl
    · intro q hq
      exact update_of_ne hq ..
    · intro _
      exact update_self ..
  | popOff =>
    have hoffs : 0 < (ρ p).offs := hpre
    have hpop : s.popOff p = .ok r s' := hexec
    rw [popOff_eq (hinv.intr p (by omega)) (by omega)] at hpop
    cases hpop
    refine ⟨_, rfl, hinv.step (hinv.nodup p) (lock_same hinv rfl) ?_ ?_ ?_⟩
    · show update s.noff p (s.noff p - 1) = update s.noff p ((ρ p).locks.length + ((ρ p).offs - 1))
      rw [hnoff]
      congr 1
      omega
    · intro q hq
      exact popped_intr_of_ne hq
    · intro hrest
      have hrest' : 0 < (ρ p).locks.length + ((ρ p).offs - 1) := hrest
      exact popped_intr (hinv.intr p (by omega)) (by omega)
  | setSleeping | put | empty | txIdle | next | thr | wakeup | device =>
    cases hexec
    exact ⟨_, rfl, hsame rfl rfl rfl⟩
  | sched me =>
    obtain ⟨-, hmem, htwo⟩ := hpre
    have hsched : s.sched p me = .ok r s' := hexec
    rw [sched_eq hinv hmem htwo] at hsched
    cases hsched
  | resume me => exact hpre.elim
  | full =>
    cases hexec
    exact ⟨_, ⟨rfl, fun hroom => hcond hroom rfl⟩, hsame rfl rfl rfl⟩
  | halt => cases hexec

/-- Nothing but `sched` panics, and that for its locks. -/
theorem panic_sched {room : Bool} {s : Uart T} {ρ : T → Holds T} {p : T} {o : UartOp T} {msg : String} (hinv : Inv s ρ)
    (hpre : (nesting room).pre (ρ p) o) (hpanic : exec p o s = .panic msg) :
    ∃ me, o = .sched me ∧ msg = "sched locks" := by
  have hnoff := hinv.noff p
  cases o with
  | acquire l =>
    simp only [exec] at hpanic
    split at hpanic
    · rename_i hheld
      exact absurd ((hinv.lock l p).1 hheld) hpre
    · split at hpanic <;> cases hpanic
  | release l =>
    have hrelease : s.release p l = .panic msg := hpanic
    rw [release_eq hinv hpre] at hrelease
    cases hrelease
  | popOff =>
    have hoffs : 0 < (ρ p).offs := hpre
    have hpop : s.popOff p = .panic msg := hpanic
    rw [popOff_eq (hinv.intr p (by omega)) (by omega)] at hpop
    cases hpop
  | sched me =>
    obtain ⟨-, hmem, htwo⟩ := hpre
    have hsched : s.sched p me = .panic msg := hpanic
    rw [sched_eq hinv hmem htwo] at hsched
    cases hsched
    exact ⟨me, rfl, rfl⟩
  | resume me => exact hpre.elim
  | _ => cases hpanic

omit [DecidableEq T] in
theorem inv_init (intr : T → Bool) : Inv (init intr) fun _ => ⟨[], 0⟩ := by
  constructor
  · intro l p
    exact iff_of_false nofun not_mem_nil
  · intro p
    exact nodup_nil
  · intro p
    rfl
  · intro p hpos
    exact absurd hpos (Nat.lt_irrefl _)

end Uart

/-! ### The code keeps its promises -/

section Code

variable {room : Bool} {ρ : Holds T} {me : T}

theorem wp_release (l : Lk T) (ls : List (Lk T)) :
    (nesting room).wp (op (.release l)) (fun _ ρ' => ρ' = ⟨ls, 0⟩) ⟨l :: ls, 0⟩ := by
  refine ⟨mem_cons_self .., ?_⟩
  intro _ ρ₁ hρ₁
  obtain rfl : ρ₁ = ⟨(l :: ls).erase l, 0⟩ := hρ₁
  show Holds.mk ((l :: ls).erase l) 0 = ⟨ls, 0⟩
  rw [erase_cons_head]

theorem wp_uartstart (fuel : Nat) : (nesting room).wp (uartstartFrom fuel) (fun _ ρ' => ρ' = ρ) ρ := by
  induction fuel with
  | zero => exact ⟨trivial, nofun⟩
  | succ fuel ih =>
    unfold uartstartFrom
    refine wp_step trivial ?_
    intro empty _ hρ
    rw [hρ]
    split
    · rfl
    · refine wp_step trivial ?_
      intro idle _ hρ
      rw [hρ]
      split
      · rfl
      · refine wp_step trivial ?_
        intro ch _ hρ
        rw [hρ]
        refine wp_step trivial ?_
        intro _ _ hρ
        rw [hρ]
        refine wp_step trivial ?_
        intro _ _ hρ
        rw [hρ]
        exact ih

/-- `uartputc` is called with `cons.lock` held, so that its `sleep` meets two locks in `sched`. -/
theorem wp_uartputc (ch : UInt8) (fuel : Nat) :
    (nesting room).wp (uartputc me ch fuel) (fun _ ρ' => ρ' = ⟨[.cons], 0⟩) ⟨[.cons], 0⟩ := by
  refine wp_step (by simp [nesting]) ?_
  intro _ ρ₁ hρ₁
  obtain rfl : ρ₁ = ⟨[.uart, .cons], 0⟩ := hρ₁
  cases fuel with
  | zero => exact ⟨trivial, nofun⟩
  | succ fuel =>
    refine wp_step trivial ?_
    intro (full : Bool) ρ₂ hρ₂
    obtain ⟨rfl, hfull⟩ : ρ₂ = ⟨[.uart, .cons], 0⟩ ∧ (room = true → full = false) := hρ₂
    cases full with
    | true =>
      have hroom : room = false := by
        cases room with
        | true => cases hfull rfl
        | false => rfl
      refine wp_seq (A := fun _ _ => False) ?_ (fun _ _ hfalse => hfalse.elim)
      refine wp_step (by simp [nesting]) ?_
      intro _ ρ₃ hρ₃
      obtain rfl : ρ₃ = ⟨[.proc me, .uart, .cons], 0⟩ := hρ₃
      refine wp_step (by simp [nesting]) ?_
      intro _ ρ₄ hρ₄
      obtain rfl : ρ₄ = ⟨[.proc me, .cons], 0⟩ := by
        rw [show ρ₄ = _ from hρ₄]
        simp
      refine wp_step trivial ?_
      intro _ ρ₅ hρ₅
      obtain rfl : ρ₅ = ⟨[.proc me, .cons], 0⟩ := hρ₅
      exact wp_step ⟨hroom, by simp [Holds.TwoLocks]⟩ fun _ _ hfalse => hfalse.elim
    | false =>
      refine wp_step trivial ?_
      intro _ ρ₃ hρ₃
      obtain rfl : ρ₃ = ⟨[.uart, .cons], 0⟩ := hρ₃
      refine wp_seq (wp_uartstart _) ?_
      intro _ ρ₄ hρ₄
      obtain rfl : ρ₄ = ⟨[.uart, .cons], 0⟩ := hρ₄
      exact wp_release .uart [.cons]

theorem wp_consolewriteFrom (src : Nat → Option UInt8) (fuel n i : Nat) :
    (nesting room).wp (consolewriteFrom me src fuel n i) (fun _ ρ' => ρ' = ⟨[.cons], 0⟩) ⟨[.cons], 0⟩ := by
  induction n generalizing i with
  | zero => rfl
  | succ n ih =>
    unfold consolewriteFrom
    split
    · rfl
    · refine wp_seq (wp_uartputc _ fuel) ?_
      intro _ _ hρ
      rw [hρ]
      exact ih (i + 1)

theorem wp_sync (fuel : Nat) : (nesting room).wp (syncFrom fuel) (fun _ ρ' => ρ' = ρ) ρ := by
  induction fuel with
  | zero => exact ⟨trivial, nofun⟩
  | succ fuel ih =>
    unfold syncFrom
    refine wp_step trivial ?_
    intro idle _ hρ
    rw [hρ]
    split
    · rfl
    · exact ih

theorem wp_echo (fuel : Nat) : (nesting room).wp (echo fuel) (fun _ ρ' => ρ' = (⟨[], 0⟩ : Holds T)) ⟨[], 0⟩ := by
  refine wp_step not_mem_nil ?_
  intro _ ρ₁ hρ₁
  obtain rfl : ρ₁ = ⟨[.cons], 0⟩ := hρ₁
  refine wp_step trivial ?_
  intro _ ρ₂ hρ₂
  obtain rfl : ρ₂ = ⟨[.cons], 1⟩ := hρ₂
  refine wp_seq (wp_sync fuel) ?_
  intro _ ρ₃ hρ₃
  obtain rfl : ρ₃ = ⟨[.cons], 1⟩ := hρ₃
  refine wp_step Nat.one_pos ?_
  intro _ ρ₄ hρ₄
  obtain rfl : ρ₄ = ⟨[.cons], 0⟩ := hρ₄
  exact wp_release .cons []

theorem wp_uartintr (fuel n : Nat) : (nesting room).wp (uartintr fuel n) (fun _ ρ' => ρ' = (⟨[], 0⟩ : Holds T)) ⟨[], 0⟩ := by
  induction n with
  | zero =>
    refine wp_step not_mem_nil ?_
    intro _ _ hρ
    rw [hρ]
    refine wp_seq (wp_uartstart _) ?_
    intro _ _ hρ
    rw [hρ]
    exact wp_release .uart []
  | succ n ih =>
    refine wp_seq (wp_echo fuel) ?_
    intro _ _ hρ
    rw [hρ]
    exact ih

theorem wp_run (c : Call) : (nesting room).wp (c.run me) (fun _ ρ' => ρ' = ⟨[], 0⟩) ⟨[], 0⟩ := by
  cases c with
  | write src n fuel =>
    refine wp_seq (A := fun _ ρ' => ρ' = ⟨[], 0⟩) ?_ ?_
    · refine wp_step not_mem_nil ?_
      intro _ _ hρ
      rw [hρ]
      refine wp_seq (wp_consolewriteFrom src fuel _ 0) ?_
      intro i _ hρ
      rw [hρ]
      exact wp_seq (wp_release .cons []) fun _ _ hρ => hρ
    · intro _ _ hρ
      exact hρ
  | intr n fuel => exact wp_uartintr fuel n
  | device idle => exact ⟨trivial, fun _ _ hρ => hρ⟩

theorem wp_runAll (cs : List Call) : (nesting room).wp (runAll me cs) (fun _ ρ' => ρ' = ⟨[], 0⟩) ⟨[], 0⟩ := by
  induction cs with
  | nil => rfl
  | cons c cs ih =>
    refine wp_seq (wp_run c) ?_
    intro _ _ hρ
    rw [hρ]
    exact ih

end Code

namespace Uart

theorem inv_of_reach (room : Bool) (intr : T → Bool) (calls : T → List Call) {c : Conf (UartSig T) T (Uart T)}
    (hreach : machine.Reach (fun s p o => room = true → s.Room p o) ⟨init intr, fun p => runAll p (calls p)⟩ c) :
    ∃ ρ, Inv c.st ρ ∧ ∀ p, (nesting room).wp (c.prog p) (fun _ _ => True) (ρ p) :=
  hreach.inv (Q := fun _ => True) (sound room) (inv_init intr) fun p =>
    (nesting room).wp_mono (fun _ _ _ => trivial) (wp_runAll (calls p))

/-- **Output, as long as the ring has room.** Whatever calls of `consolewrite` processes make and whatever the
device and its interrupts do: if `uartputc` never finds the ring full, then nothing panics, and `sched` is not
entered. -/
theorem output_safe (intr : T → Bool) (calls : T → List Call) {c : Conf (UartSig T) T (Uart T)}
    (hreach : machine.Reach Room ⟨init intr, fun p => runAll p (calls p)⟩ c) (p : T) :
    (∀ msg, ¬ machine.Panics c p msg) ∧ ∀ me, (c.prog p).next ≠ some (.sched me) := by
  obtain ⟨ρ, hinv, hwp⟩ := inv_of_reach true intr calls (hreach.mono fun _ _ _ h _ => h)
  have hsched : ∀ me, (c.prog p).next ≠ some (.sched me) := by
    intro me hnext
    cases (Logic.pre_of_next _ (hwp p) hnext).1
  refine ⟨?_, hsched⟩
  intro msg hpanics
  obtain ⟨o, k, hprog, hpanic⟩ := hpanics
  have hnext : (c.prog p).next = some o := Prog.next_eq_some.2 ⟨k, hprog⟩
  obtain ⟨me, rfl, -⟩ := panic_sched hinv (Logic.pre_of_next _ (hwp p) hnext) hpanic
  exact hsched me hnext

/-- One process has written two bytes, the second while the device was busy. -/
theorem output_safe_two : ∃ c : Conf (UartSig (Fin 2)) (Fin 2) (Uart (Fin 2)),
    (c.st.sent = [104] ∧ c.st.w = 2 ∧ c.st.noff 0 = 2) ∧ ∀ msg, ¬ machine.Panics c 0 msg := by
  let calls (p : Fin 2) : List Call :=
    if p = 0 then [.write (fun i => some (UInt8.ofNat (104 + i))) 2 1] else [.device false]
  obtain ⟨c, hreach, htest⟩ : ∃ c, machine.Reach Room ⟨init fun _ => true, fun p => runAll p (calls p)⟩ c ∧
      c.st.sent = [104] ∧ c.st.w = 2 ∧ c.st.noff 0 = 2 :=
    exists_reach (fun s _ _ => !s.isFull) (fun s _ _ hroom _ => by simpa using hroom)
      (List.replicate 11 0 ++ [1] ++ List.replicate 3 0) _ _ (by decide)
  exact ⟨c, htest, (output_safe _ calls hreach 0).1⟩

/-- Process 0 writes 32 bytes to a device that stays busy. -/
def longWrite (p : Fin 2) : List Call := if p = 0 then [.write (fun _ => some 120) 32 1] else [.device false]

/-- The ring takes 31 of the bytes, and `uartputc` sleeps for the last one. -/
theorem output_panics : ∃ c, machine.Reach (fun _ _ _ => True) ⟨init fun _ => true, fun p => runAll p (longWrite p)⟩ c ∧
    c.st.noff 0 = 2 ∧ machine.Panics c 0 "sched locks" := by
  obtain ⟨c, hreach, htest⟩ : ∃ c, machine.Reach (fun _ _ _ => True)
        ⟨init fun _ => true, fun p => runAll p (longWrite p)⟩ c ∧
      c.st.noff 0 = 2 ∧ machine.panicsAt (fun _ => true) 0 "sched locks" c :=
    exists_reach (fun _ _ _ => true) (fun _ _ _ _ => trivial) ([1] ++ List.replicate 192 0) _ _
      (by decide +kernel)
  obtain ⟨o, -, -, hpanics⟩ := panics_of_panicsAt htest.2
  exact ⟨c, hreach, htest.1, hpanics⟩

end Uart

end Output

end Xv6
