import Mathlib.Data.List.Induction

/-! Radix trees in memory. The tables of such a tree are nodes, and a table has a link at every index or none; a
key is a path of indices. The nodes are told apart by their paths: no node is at the end of two paths, as long as
these are not longer than the tree is high. What a link or a value in a table of the last level
does to all paths follows from that. -/

namespace Xv6.Lib

namespace Radix

variable {N I : Type} (next : N → I → Option N)

/-- The node at the end of a path. -/
def follow : N → List I → Option N
  | n, [] => some n
  | n, i :: p => (next n i).bind fun m => follow m p

/-- The nodes of the tree of height `h` under `r`. -/
def Node (h : Nat) (r n : N) : Prop := ∃ p, p.length ≤ h ∧ follow next r p = some n

/-- No node is at the end of two paths. -/
def Tree (h : Nat) (r : N) : Prop :=
  ∀ p q n, p.length ≤ h → q.length ≤ h → follow next r p = some n → follow next r q = some n → p = q

variable {next} {next' : N → I → Option N} {h : Nat} {r n m c : N} {p q : List I} {i : I}

theorem follow_append (r : N) (p q : List I) :
    follow next r (p ++ q) = (follow next r p).bind fun m => follow next m q := by
  induction p generalizing r with
  | nil => rfl
  | cons i p ih =>
    rw [List.cons_append, follow, follow]
    cases next r i with
    | none => rfl
    | some m => exact ih m

theorem follow_concat (r : N) (p : List I) (i : I) :
    follow next r (p ++ [i]) = (follow next r p).bind fun m => next m i := by
  rw [follow_append]
  congr 1
  funext m
  show (next m i).bind some = next m i
  exact Option.bind_fun_some _

theorem node_root : Node next h r r := ⟨[], Nat.zero_le h, rfl⟩

section

variable (hsame : ∀ q m, q.length < h → follow next r q = some m → next' m = next m)
include hsame

theorem follow_congr (hp : p.length ≤ h) : follow next' r p = follow next r p := by
  induction p using List.reverseRecOn with
  | nil => rfl
  | append_singleton p i ih =>
    rw [List.length_append, List.length_singleton] at hp
    rw [follow_concat, follow_concat, ih (by omega)]
    cases hm : follow next r p with
    | none => rfl
    | some m =>
      show next' m i = next m i
      rw [hsame p m (by omega) hm]

theorem Tree.congr (ht : Tree next h r) : Tree next' h r := by
  intro p q n hp hq hfollow hfollow'
  rw [follow_congr hsame hp] at hfollow
  rw [follow_congr hsame hq] at hfollow'
  exact ht p q n hp hq hfollow hfollow'

theorem node_congr : Node next' h r n ↔ Node next h r n := by
  constructor
  · rintro ⟨p, hp, hfollow⟩
    rw [follow_congr hsame hp] at hfollow
    exact ⟨p, hp, hfollow⟩
  · rintro ⟨p, hp, hfollow⟩
    rw [← follow_congr hsame hp] at hfollow
    exact ⟨p, hp, hfollow⟩

end

/-- A new node `c` without links becomes the link of node `m` at `i`. -/
structure Linked (next next' : N → I → Option N) (h : Nat) (r : N) (p : List I) (m : N) (i : I) (c : N) : Prop where
  tree : Tree next h r
  above : p.length < h
  path : follow next r p = some m
  none : next m i = none
  new : ¬ Node next h r c
  link : next' m i = some c
  leaf : ∀ j, next' c j = Option.none
  rest : ∀ n j, Node next h r n → (n, j) ≠ (m, i) → next' n j = next n j

namespace Linked

variable [DecidableEq I] (hl : Linked next next' h r p m i c)
include hl

theorem follow_eq (hq : q.length ≤ h) : follow next' r q = if q = p ++ [i] then some c else follow next r q := by
  induction q using List.reverseRecOn with
  | nil => rw [if_neg (by simp)]; rfl
  | append_singleton q j ih =>
    rw [List.length_append, List.length_singleton] at hq
    rw [follow_concat, follow_concat, ih (by omega)]
    by_cases hqp : q = p ++ [i]
    · -- under the new node there is nothing, and under its path there was nothing
      have hlen : q ++ [j] ≠ p ++ [i] := by
        rw [hqp]
        intro heq
        have := congrArg List.length heq
        simp at this
      have hold : follow next r q = Option.none := by
        rw [hqp, follow_concat, hl.path]
        exact hl.none
      rw [if_pos hqp, if_neg hlen, hold]
      exact hl.leaf j
    · rw [if_neg hqp]
      cases hn : follow next r q with
      | none =>
        have hne : q ++ [j] ≠ p ++ [i] := by
          intro heq
          have hq' := (List.append_inj' heq rfl).1
          rw [hq', hl.path] at hn
          cases hn
        rw [if_neg hne]
        rfl
      | some n =>
        show next' n j = if q ++ [j] = p ++ [i] then some c else next n j
        by_cases heq : q ++ [j] = p ++ [i]
        · obtain ⟨rfl, hj⟩ := List.append_inj' heq rfl
          obtain rfl : j = i := by simpa using hj
          rw [hl.path] at hn
          cases hn
          rw [if_pos rfl]
          exact hl.link
        · rw [if_neg heq]
          apply hl.rest n j ⟨q, by omega, hn⟩
          intro hpair
          obtain ⟨rfl, rfl⟩ := Prod.mk.inj hpair
          have hpath := hl.tree q p n (by omega) (Nat.le_of_lt hl.above) hn hl.path
          rw [hpath] at heq
          exact heq rfl

theorem node_iff : Node next' h r n ↔ Node next h r n ∨ n = c := by
  have habove := hl.above
  constructor
  · rintro ⟨q, hq, hfollow⟩
    rw [hl.follow_eq hq] at hfollow
    split at hfollow
    · cases hfollow
      exact Or.inr rfl
    · exact Or.inl ⟨q, hq, hfollow⟩
  · rintro (⟨q, hq, hfollow⟩ | rfl)
    · refine ⟨q, hq, ?_⟩
      rw [hl.follow_eq hq, if_neg, hfollow]
      rintro rfl
      rw [follow_concat, hl.path] at hfollow
      cases hl.none.symm.trans hfollow
    · have hlen : (p ++ [i]).length ≤ h := by simpa [Nat.succ_le_iff] using habove
      refine ⟨p ++ [i], hlen, ?_⟩
      rw [hl.follow_eq hlen, if_pos rfl]

theorem tree' : Tree next' h r := by
  intro q q' n hq hq' hfollow hfollow'
  rw [hl.follow_eq hq] at hfollow
  rw [hl.follow_eq hq'] at hfollow'
  split at hfollow
  · cases hfollow
    split at hfollow'
    · simp [*]
    · exact absurd ⟨q', hq', hfollow'⟩ hl.new
  · split at hfollow'
    · cases hfollow'
      exact absurd ⟨q, hq, hfollow⟩ hl.new
    · exact hl.tree q q' n hq hq' hfollow hfollow'

end Linked

end Radix

end Xv6.Lib
