import Mathlib.Algebra.BigOperators.Group.Finset.Basic
import Mathlib.Algebra.Order.BigOperators.Group.Finset
import Mathlib.Data.Fintype.Card

/-! What every thread owns, when one thread changes what it owns. -/

namespace Xv6.Lib

open Function Finset

variable {P R : Type} [Fintype P] [DecidableEq P]

omit [Fintype P] in
theorem apply_update_eq {α : Type} {f : R → α} {ρ : P → R} {p : P} {r : R} (h : f r = f (ρ p)) (q : P) :
    f (update ρ p r q) = f (ρ q) := by
  by_cases hq : q = p
  · rw [hq, update_self, h]
  · rw [update_of_ne hq]

omit [Fintype P] in
theorem forall_update {A : P → R → Prop} {ρ : P → R} {p : P} {r : R} (hp : A p r)
    (hq : ∀ q, q ≠ p → A q (ρ q)) (q : P) : A q (update ρ p r q) := by
  by_cases h : q = p
  · rw [h, update_self]
    exact hp
  · rw [update_of_ne h]
    exact hq q h

theorem sum_update (f : R → Nat) (ρ : P → R) (p : P) (r : R) :
    ∑ q, f (update ρ p r q) + f (ρ p) = ∑ q, f (ρ q) + f r := by
  rw [← add_sum_erase _ _ (mem_univ p), ← add_sum_erase _ (fun q => f (ρ q)) (mem_univ p), update_self]
  have hrest : ∑ q ∈ Finset.univ.erase p, f (update ρ p r q) = ∑ q ∈ Finset.univ.erase p, f (ρ q) :=
    sum_congr rfl fun q hq => by rw [update_of_ne (ne_of_mem_erase hq)]
  omega

theorem sum_update_eq {f : R → Nat} {ρ : P → R} {p : P} {r : R} (h : f r = f (ρ p)) :
    ∑ q, f (update ρ p r q) = ∑ q, f (ρ q) := by
  have := sum_update f ρ p r
  omega

omit [DecidableEq P] in
theorem le_sum (f : R → Nat) (ρ : P → R) (p : P) : f (ρ p) ≤ ∑ q, f (ρ q) :=
  single_le_sum (f := fun q => f (ρ q)) (fun _ _ => Nat.zero_le _) (mem_univ p)

omit [DecidableEq P] in
theorem sum_le_one {f : P → Nat} (hle : ∀ p, f p ≤ 1) (huniq : ∀ p q, f p ≠ 0 → f q ≠ 0 → p = q) : ∑ p, f p ≤ 1 := by
  by_cases h : ∃ p, f p ≠ 0
  · obtain ⟨p, hp⟩ := h
    rw [sum_eq_single_of_mem p (mem_univ p)]
    · exact hle p
    · intro q _ hq
      by_contra hne
      exact hq (huniq q p hne hp)
  · rw [sum_eq_zero]
    · exact Nat.zero_le 1
    · intro p _
      by_contra hp
      exact h ⟨p, hp⟩

theorem eq_zero_of_sum_eq {f : P → Nat} {p q : P} (h : ∑ r, f r = f p) (hq : q ≠ p) : f q = 0 := by
  rw [← add_sum_erase _ _ (mem_univ p)] at h
  have hrest : ∑ r ∈ Finset.univ.erase p, f r = 0 := by omega
  exact sum_eq_zero_iff.1 hrest q (mem_erase.2 ⟨hq, mem_univ q⟩)

end Xv6.Lib
