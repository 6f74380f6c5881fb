import Mathlib.Data.List.Basic

/-! Finite maps in a table of slots. A new binding goes to the first free slot, or to the end if there is
none; a binding is removed by clearing its slot, so that the others stay where they are. -/

namespace Xv6.Lib

/-- A table whose slots have a binding each, or are free. -/
abbrev Slots (K V : Type) := List (Option (K × V))

namespace Slots

variable {K V : Type}

/-- No key is bound twice. -/
def Distinct (t : Slots K V) : Prop :=
  ∀ (i j : Nat) (b c : K × V), t[i]? = some (some b) → t[j]? = some (some c) → b.1 = c.1 → i = j

/-- The first free slot of a table that starts at slot `i`, or its end. -/
def freeFrom : Nat → Slots K V → Nat
  | i, [] => i
  | i, none :: _ => i
  | i, some _ :: t => freeFrom (i + 1) t

def free (t : Slots K V) : Nat := freeFrom 0 t

def put (k : K) (v : V) (t : Slots K V) : Slots K V := t.take (free t) ++ some (k, v) :: t.drop (free t + 1)

def clear (i : Nat) (t : Slots K V) : Slots K V := t.set i none

section Free

theorem le_freeFrom : ∀ (t : Slots K V) (i : Nat), i ≤ freeFrom i t ∧ freeFrom i t ≤ i + t.length := by
  intro t
  induction t with
  | nil => intro i; exact ⟨Nat.le_refl _, Nat.le_refl _⟩
  | cons o t ih =>
    intro i
    cases o with
    | none => exact ⟨Nat.le_refl _, Nat.le_add_right ..⟩
    | some b =>
      have := ih (i + 1)
      rw [freeFrom, List.length_cons]
      omega

theorem getElem?_freeFrom : ∀ (t : Slots K V) (i : Nat),
    t[freeFrom i t - i]? = none ∨ t[freeFrom i t - i]? = some none := by
  intro t
  induction t with
  | nil => intro i; exact Or.inl rfl
  | cons o t ih =>
    intro i
    cases o with
    | none =>
      refine Or.inr ?_
      rw [freeFrom, Nat.sub_self]
      rfl
    | some b =>
      have hle := (le_freeFrom t (i + 1)).1
      have hsub : freeFrom (i + 1) t - i = freeFrom (i + 1) t - (i + 1) + 1 := by omega
      rw [freeFrom, hsub, List.getElem?_cons_succ]
      exact ih (i + 1)

theorem free_le (t : Slots K V) : free t ≤ t.length := by
  have := (le_freeFrom t 0).2
  rwa [Nat.zero_add] at this

theorem getElem?_free (t : Slots K V) : t[free t]? = none ∨ t[free t]? = some none := getElem?_freeFrom t 0

end Free

section Changes

variable (t : Slots K V) (k : K) (v : V)

theorem getElem?_put (j : Nat) : (put k v t)[j]? = if j = free t then some (some (k, v)) else t[j]? := by
  have hlen : (t.take (free t)).length = free t := by rw [List.length_take, Nat.min_eq_left (free_le t)]
  unfold put
  rcases Nat.lt_trichotomy j (free t) with hlt | heq | hgt
  · rw [if_neg (by omega), List.getElem?_append_left (by omega), List.getElem?_take, if_pos hlt]
  · rw [if_pos heq, List.getElem?_append_right (by omega), hlen, heq, Nat.sub_self]
    rfl
  · have hsub : j - free t = j - free t - 1 + 1 := by omega
    rw [if_neg (by omega), List.getElem?_append_right (by omega), hlen, hsub, List.getElem?_cons_succ,
      List.getElem?_drop]
    congr 1
    omega

theorem getElem?_clear {i : Nat} (h : i < t.length) (j : Nat) :
    (clear i t)[j]? = if j = i then some none else t[j]? := by
  unfold clear
  by_cases hj : j = i
  · rw [if_pos hj, hj, List.getElem?_set_self h]
  · rw [if_neg hj, List.getElem?_set_ne (Ne.symm hj)]

variable {t k}

theorem Distinct.clear {i : Nat} (h : Distinct t) (hi : i < t.length) : Distinct (clear i t) := by
  have hkeep : ∀ (j : Nat) (b : K × V), (Slots.clear i t)[j]? = some (some b) → t[j]? = some (some b) := by
    intro j b hj
    rw [getElem?_clear t hi] at hj
    split at hj
    · cases hj
    · exact hj
  exact fun j j' b c hj hj' => h j j' b c (hkeep j b hj) (hkeep j' c hj')

end Changes

variable [DecidableEq K]

/-- The first slot that binds `k`, with the value, in a table that starts at slot `i`. -/
def findFrom (k : K) : Nat → Slots K V → Option (Nat × V)
  | _, [] => none
  | i, none :: t => findFrom k (i + 1) t
  | i, some (k', v) :: t => if k = k' then some (i, v) else findFrom k (i + 1) t

def find (k : K) (t : Slots K V) : Option (Nat × V) := findFrom k 0 t

theorem findFrom_eq_some {k : K} {v : V} : ∀ {t : Slots K V} {i j : Nat}, findFrom k i t = some (j, v) →
    i ≤ j ∧ t[j - i]? = some (some (k, v)) := by
  intro t
  induction t with
  | nil => intro i j h; cases h
  | cons o t ih =>
    intro i j h
    have hstep : findFrom k (i + 1) t = some (j, v) → i ≤ j ∧ (o :: t)[j - i]? = some (some (k, v)) := by
      intro h
      obtain ⟨hle, hget⟩ := ih h
      have hsub : j - i = j - (i + 1) + 1 := by omega
      rw [hsub, List.getElem?_cons_succ]
      exact ⟨by omega, hget⟩
    cases o with
    | none => exact hstep h
    | some b =>
      obtain ⟨k', v'⟩ := b
      rw [findFrom] at h
      split at h
      · rename_i hk
        cases h
        rw [hk, Nat.sub_self]
        exact ⟨Nat.le_refl _, rfl⟩
      · exact hstep h

theorem findFrom_eq_none {k : K} : ∀ {t : Slots K V} {i : Nat}, findFrom k i t = none →
    ∀ (j : Nat) (v : V), t[j]? ≠ some (some (k, v)) := by
  intro t
  induction t with
  | nil => intro i _ j v h; cases h
  | cons o t ih =>
    intro i h j v
    cases o with
    | none =>
      cases j with
      | zero => exact nofun
      | succ j => exact ih h j v
    | some b =>
      obtain ⟨k', v'⟩ := b
      rw [findFrom] at h
      split at h
      · cases h
      · rename_i hk
        cases j with
        | zero =>
          intro heq
          cases heq
          exact hk rfl
        | succ j => exact ih h j v

section Find

variable {t : Slots K V} {k : K}

theorem getElem?_of_find {i : Nat} {v : V} (h : find k t = some (i, v)) : t[i]? = some (some (k, v)) :=
  (findFrom_eq_some h).2

theorem find_eq_none_iff : find k t = none ↔ ∀ (i : Nat) (v : V), t[i]? ≠ some (some (k, v)) := by
  refine ⟨findFrom_eq_none, fun h => ?_⟩
  cases hfind : find k t with
  | none => rfl
  | some r => exact absurd (getElem?_of_find hfind) (h r.1 r.2)

theorem find_eq_some_iff (hd : Distinct t) {i : Nat} {v : V} : find k t = some (i, v) ↔ t[i]? = some (some (k, v)) := by
  refine ⟨getElem?_of_find, fun h => ?_⟩
  cases hfind : find k t with
  | none => exact absurd h (find_eq_none_iff.1 hfind i v)
  | some r =>
    obtain ⟨j, w⟩ := r
    have hj := getElem?_of_find hfind
    have hij : i = j := hd i j _ _ h hj rfl
    rw [hij, hj] at h
    cases h
    rw [hij]

theorem Distinct.put (h : Distinct t) (hk : find k t = none) (v : V) : Distinct (put k v t) := by
  have hnone := find_eq_none_iff.1 hk
  have hold : ∀ (j : Nat) (b : K × V), (Slots.put k v t)[j]? = some (some b) →
      j = Slots.free t ∧ b = (k, v) ∨ t[j]? = some (some b) ∧ b.1 ≠ k := by
    intro j b hj
    rw [getElem?_put] at hj
    split at hj
    · rename_i heq
      cases hj
      exact Or.inl ⟨heq, rfl⟩
    · refine Or.inr ⟨hj, fun heq => hnone j b.2 ?_⟩
      rw [hj, ← heq]
  intro i j b c hi hj heq
  rcases hold i b hi with ⟨rfl, rfl⟩ | ⟨hi, hb⟩ <;> rcases hold j c hj with ⟨rfl, rfl⟩ | ⟨hj, hc⟩
  · rfl
  · exact absurd heq.symm hc
  · exact absurd heq hb
  · exact h i j b c hi hj heq

end Find

end Slots

end Xv6.Lib
