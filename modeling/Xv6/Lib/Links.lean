import Mathlib.Data.List.Nodup

/-! Paths along a `next` pointer, such as the links of a list in memory. A circular list is a path from a node back to
it; it can be entered at every node. -/

namespace Xv6.Lib

open List

variable {α : Type} {next next' : α → α} {p q x : α} {l l₁ l₂ : List α}

/-- The nodes after `p` are `l`, in order. -/
def Links (next : α → α) : α → List α → Prop
  | _, [] => True
  | p, x :: l => next p = x ∧ Links next x l

theorem links_append : Links next p (l₁ ++ l₂) ↔ Links next p l₁ ∧ Links next (l₁.getLastD p) l₂ := by
  induction l₁ generalizing p with
  | nil => exact ⟨fun h => ⟨trivial, h⟩, fun h => h.2⟩
  | cons x l ih =>
    rw [cons_append, Links, Links, ih, and_assoc, getLastD_cons]

/-- A path does not depend on where its last node leads. -/
theorem Links.congr (h : Links next p l) (hnext : ∀ x ∈ (p :: l).dropLast, next' x = next x) : Links next' p l := by
  induction l generalizing p with
  | nil => trivial
  | cons x l ih =>
    rw [dropLast_cons_cons] at hnext
    obtain ⟨hx, hpath⟩ := h
    refine ⟨?_, ih hpath ?_⟩
    · rw [hnext p (mem_cons_self ..), hx]
    · intro y hy
      exact hnext y (mem_cons_of_mem p hy)

/-- A path that starts at another node, which leads to the same one. -/
theorem Links.start (h : Links next p l) (hq : next' q = next p) (hnext : ∀ x ∈ l.dropLast, next' x = next x) :
    Links next' q l := by
  cases l with
  | nil => trivial
  | cons x l => exact ⟨hq.trans h.1, h.2.congr hnext⟩

theorem dropLast_append_getLastD (p : α) (l : List α) : (p :: l).dropLast ++ [l.getLastD p] = p :: l := by
  rw [← getLast_eq_getLastD (cons_ne_nil p l), dropLast_append_getLast]

theorem mem_cons_iff_dropLast : x ∈ p :: l ↔ x ∈ (p :: l).dropLast ∨ x = l.getLastD p := by
  conv_lhs => rw [← dropLast_append_getLastD]
  rw [mem_append, mem_singleton]

theorem Links.next_mem {r : α → α → Prop} (h : Links next p l) (hsorted : (p :: l).Pairwise r)
    (hx : x ∈ (p :: l).dropLast) : r x (next x) ∧ next x ∈ l := by
  induction l generalizing p with
  | nil => exact absurd hx not_mem_nil
  | cons y l ih =>
    rw [dropLast_cons_cons] at hx
    obtain ⟨hy, hpath⟩ := h
    cases mem_cons.1 hx with
    | inl heq =>
      rw [heq, hy]
      exact ⟨rel_of_pairwise_cons hsorted (mem_cons_self ..), mem_cons_self ..⟩
    | inr hmem =>
      obtain ⟨hr, hin⟩ := ih hpath hsorted.of_cons hmem
      exact ⟨hr, mem_cons_of_mem y hin⟩

/-- A circular list with the nodes `p :: l`. -/
def Circular (next : α → α) (p : α) (l : List α) : Prop := Links next p (l ++ [p])

/-- A circular list can be entered at every node. -/
theorem Circular.enter (h : Circular next p l) (hq : q ∈ p :: l) :
    ∃ l', Circular next q l' ∧ List.Perm (q :: l') (p :: l) := by
  cases mem_cons.1 hq with
  | inl heq =>
    rw [heq]
    exact ⟨l, h, List.Perm.refl _⟩
  | inr hmem =>
    obtain ⟨l₁, l₂, rfl⟩ := append_of_mem hmem
    unfold Circular at h
    rw [append_assoc, links_append, cons_append, Links] at h
    obtain ⟨hfirst, hlink, hsecond⟩ := h
    refine ⟨l₂ ++ p :: l₁, ?_, ?_⟩
    · unfold Circular
      have hback : Links next p (l₁ ++ [q]) := links_append.2 ⟨hfirst, hlink, trivial⟩
      have hassoc : l₂ ++ p :: l₁ ++ [q] = (l₂ ++ [p]) ++ (l₁ ++ [q]) := by
        rw [append_assoc, append_assoc, cons_append, singleton_append]
      rw [hassoc, links_append, getLastD_concat]
      exact ⟨hsecond, hback⟩
    · have hswap : List.Perm ((q :: l₂) ++ p :: l₁) ((p :: l₁) ++ (q :: l₂)) := perm_append_comm
      exact hswap

theorem Links.map_next (h : Links next p l) : (p :: l).dropLast.map next = l := by
  induction l generalizing p with
  | nil => rfl
  | cons x l ih =>
    obtain ⟨hx, hpath⟩ := h
    rw [dropLast_cons_cons, map_cons, hx, ih hpath]

theorem Circular.map_next (h : Circular next p l) : (p :: l).map next = l ++ [p] := by
  have hmap := Links.map_next h
  rwa [← cons_append, dropLast_concat] at hmap

theorem Circular.next_mem (h : Circular next p l) (hx : x ∈ p :: l) : next x ∈ p :: l := by
  have hmem : next x ∈ (p :: l).map next := mem_map_of_mem hx
  rw [h.map_next, mem_append, mem_singleton] at hmem
  exact mem_cons.2 hmem.symm

theorem Circular.next_inj (h : Circular next p l) (hnodup : (p :: l).Nodup) (hx : x ∈ p :: l) (hq : q ∈ p :: l)
    (heq : next x = next q) : x = q := by
  have hmap : ((p :: l).map next).Nodup := by
    rw [h.map_next]
    exact (perm_append_singleton p l).nodup_iff.2 hnodup
  exact inj_on_of_nodup_map hmap hx hq heq

end Xv6.Lib
