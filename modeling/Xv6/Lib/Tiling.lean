import Mathlib.Data.List.Basic
import Mathlib.Data.List.Pairwise

/-! Intervals that tile a larger one: no two of them meet, and together they cover it. What is told of the intervals
does not depend on their order. -/

namespace Xv6.Lib

open List

variable {α : Type} {lo hi : α → Nat} {x y z : α} {l l' : List α} {a b c : Nat}

/-- `x` and `y` have nothing in common. -/
def Apart (lo hi : α → Nat) (x y : α) : Prop := hi x ≤ lo y ∨ hi y ≤ lo x

theorem Apart.symm (h : Apart lo hi x y) : Apart lo hi y x := Or.symm h

/-- The nonempty intervals from `lo x` up to `hi x` tile the one from `a` up to `b`. -/
structure Tiles (lo hi : α → Nat) (l : List α) (a b : Nat) : Prop where
  nonempty : ∀ x ∈ l, lo x < hi x
  apart : l.Pairwise (Apart lo hi)
  cover : ∀ i, (∃ x ∈ l, lo x ≤ i ∧ i < hi x) ↔ a ≤ i ∧ i < b

namespace Tiles

theorem perm (h : Tiles lo hi l a b) (hperm : List.Perm l l') : Tiles lo hi l' a b where
  nonempty x hx := h.nonempty x (hperm.mem_iff.2 hx)
  apart := (hperm.pairwise_iff Apart.symm).1 h.apart
  cover i := by
    rw [← h.cover i]
    simp only [hperm.mem_iff]

theorem bounds (h : Tiles lo hi l a b) (hx : x ∈ l) : a ≤ lo x ∧ lo x < hi x ∧ hi x ≤ b := by
  have hlt := h.nonempty x hx
  have hfirst := (h.cover (lo x)).1 ⟨x, hx, Nat.le_refl _, hlt⟩
  have hlast := (h.cover (hi x - 1)).1 ⟨x, hx, by omega, by omega⟩
  omega

theorem apart_of_ne (h : Tiles lo hi l a b) (hx : x ∈ l) (hy : y ∈ l) (hne : x ≠ y) : Apart lo hi x y := by
  have : Std.Symm (Apart lo hi) := ⟨fun _ _ => Apart.symm⟩
  exact h.apart.forall hx hy hne

theorem apart_of_cons (h : Tiles lo hi (x :: l) a b) (hy : y ∈ l) : Apart lo hi x y :=
  rel_of_pairwise_cons h.apart hy

/-- Another name for an interval. -/
theorem rename (h : Tiles lo hi (x :: l) a b) (hlo : lo y = lo x) (hhi : hi y = hi x) : Tiles lo hi (y :: l) a b := by
  obtain ⟨hapart, hrest⟩ := pairwise_cons.1 h.apart
  constructor
  · intro w hw
    rcases mem_cons.1 hw with rfl | hw
    · rw [hlo, hhi]
      exact h.nonempty x (mem_cons_self ..)
    · exact h.nonempty w (mem_cons_of_mem x hw)
  · refine pairwise_cons.2 ⟨?_, hrest⟩
    intro w hw
    have hx := hapart w hw
    unfold Apart at hx ⊢
    rwa [hlo, hhi]
  · intro i
    rw [← h.cover i, exists_mem_cons_iff, exists_mem_cons_iff, hlo, hhi]

/-- Two intervals of which one begins where the other ends become one. -/
theorem join (h : Tiles lo hi (x :: y :: l) a b) (hxy : hi x = lo y) (hlo : lo z = lo x) (hhi : hi z = hi y) :
    Tiles lo hi (z :: l) a b := by
  have hx := h.nonempty x (mem_cons_self ..)
  have hy := h.nonempty y (mem_cons_of_mem x (mem_cons_self ..))
  obtain ⟨hapartx, hrest⟩ := pairwise_cons.1 h.apart
  obtain ⟨haparty, hrest⟩ := pairwise_cons.1 hrest
  constructor
  · intro w hw
    cases mem_cons.1 hw with
    | inl heq =>
      rw [heq]
      omega
    | inr hmem => exact h.nonempty w (mem_cons_of_mem x (mem_cons_of_mem y hmem))
  · refine pairwise_cons.2 ⟨?_, hrest⟩
    intro w hw
    have hw' := h.nonempty w (mem_cons_of_mem x (mem_cons_of_mem y hw))
    have h₁ := hapartx w (mem_cons_of_mem y hw)
    have h₂ := haparty w hw
    unfold Apart at h₁ h₂ ⊢
    omega
  · intro i
    rw [← h.cover i]
    simp only [exists_mem_cons_iff]
    rw [← or_assoc]
    apply or_congr_left
    omega

/-- An interval is cut in two. -/
theorem cut (h : Tiles lo hi (z :: l) a b) (hlo : lo z = lo x) (hhi : hi z = hi y) (hxy : hi x = lo y)
    (hx : lo x < hi x) (hy : lo y < hi y) : Tiles lo hi (x :: y :: l) a b := by
  obtain ⟨hapart, hrest⟩ := pairwise_cons.1 h.apart
  constructor
  · intro w hw
    rcases mem_cons.1 hw with heq | hw
    · rw [heq]
      exact hx
    · rcases mem_cons.1 hw with heq | hw
      · rw [heq]
        exact hy
      · exact h.nonempty w (mem_cons_of_mem z hw)
  · refine pairwise_cons.2 ⟨?_, pairwise_cons.2 ⟨?_, hrest⟩⟩
    · intro w hw
      cases mem_cons.1 hw with
      | inl heq =>
        rw [heq]
        exact Or.inl (Nat.le_of_eq hxy)
      | inr hmem =>
        have hz := hapart w hmem
        unfold Apart at hz ⊢
        omega
    · intro w hw
      have hz := hapart w hw
      unfold Apart at hz ⊢
      omega
  · intro i
    rw [← h.cover i]
    simp only [exists_mem_cons_iff]
    rw [← or_assoc]
    apply or_congr_left
    omega

/-- Another interval at the end. -/
theorem grow (h : Tiles lo hi l a b) (hab : a ≤ b) (hlo : lo x = b) (hhi : hi x = c) (hbc : b < c) :
    Tiles lo hi (x :: l) a c := by
  constructor
  · intro w hw
    cases mem_cons.1 hw with
    | inl heq =>
      rw [heq]
      omega
    | inr hmem => exact h.nonempty w hmem
  · refine pairwise_cons.2 ⟨?_, h.apart⟩
    intro w hw
    have hle := (h.bounds hw).2.2
    right
    omega
  · intro i
    rw [exists_mem_cons_iff, h.cover i]
    omega

end Tiles

end Xv6.Lib
