import Mathlib.Logic.Function.Basic
import Mathlib.Data.Option.Basic

/-! One lock and what the thread that holds it knows. -/

namespace Xv6.Lib

variable {P X R : Type} [DecidableEq P] {lock : Option P} {held : P → Option X} {p : P}

/-- The holder of the lock, and no other thread, knows something. -/
def Mutex (lock : Option P) (held : P → Option X) : Prop := ∀ p, lock = some p ↔ (held p).isSome

/-- What the holder knows. -/
def holder (lock : Option P) (held : P → Option X) : Option X := lock.bind held

namespace Mutex

omit [DecidableEq P] in
theorem holder_eq (h : Mutex lock held) {x : X} (hx : held p = some x) : holder lock held = some x := by
  have hlock : lock = some p := by
    rw [h, hx]
    rfl
  rw [holder, hlock, Option.bind_some, hx]

omit [DecidableEq P] in
theorem eq_none (h : Mutex lock held) (hlock : lock = none ∨ (held p).isSome) {q : P} (hq : q ≠ p) : held q = none := by
  rw [← Option.not_isSome_iff_eq_none, ← h]
  intro hlock'
  cases hlock with
  | inl hnone =>
    rw [hnone] at hlock'
    cases hlock'
  | inr hsome =>
    rw [(h p).2 hsome] at hlock'
    exact hq (Option.some.inj hlock').symm

/-- A thread takes the lock, gives it up or learns something while it has it. -/
theorem update (h : Mutex lock held) (hlock : lock = none ∨ (held p).isSome) (x : Option X) :
    Mutex (if x.isSome then some p else none) (Function.update held p x) := by
  intro q
  by_cases hq : q = p
  · rw [hq, Function.update_self]
    cases x <;> simp
  · rw [Function.update_of_ne hq, h.eq_none hlock hq]
    cases x <;> simp [Ne.symm hq]

theorem holder_update (x : Option X) : holder (if x.isSome then some p else none) (Function.update held p x) = x := by
  cases x with
  | none => rfl
  | some x =>
    show Function.update held p (some x) p = some x
    rw [Function.update_self]

end Mutex

end Xv6.Lib
