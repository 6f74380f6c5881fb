import Xv6.User.Match

/-! `grep` reads a stream into a buffer of 1024 bytes, looks at the lines that are complete, and moves the rest to
the front. How many bytes `read` returns is up to the file, so that the results hold for any choice of it. -/

namespace Xv6

namespace Grep

open List

/-! ### The code -/

/-- The characters before the first `c` and those after it. -/
def strchr (c : UInt8) : List UInt8 → Option (List UInt8 × List UInt8)
  | [] => none
  | x :: s => if x = 0 then none else if x = c then some ([], s) else
    (strchr c s).map fun r => (x :: r.1, r.2)

theorem length_of_strchr {c : UInt8} {s : List UInt8} {r : List UInt8 × List UInt8} (h : strchr c s = some r) :
    r.2.length < s.length := by
  induction s generalizing r with
  | nil => cases h
  | cons x s ih =>
    rw [strchr] at h
    split at h
    · cases h
    · split at h
      · cases h
        exact Nat.lt_succ_self _
      · obtain ⟨r', hr', rfl⟩ := Option.map_eq_some_iff.1 h
        have hlt := ih hr'
        exact Nat.lt_succ_of_lt hlt

/-- The inner loop: the lines of the buffer, the output for them, and what is left of the buffer. -/
def grepLines (pattern p : List UInt8) : List UInt8 × List UInt8 :=
  match _h : strchr 10 p with
  | none => ([], p)
  | some (text, rest) =>
    let (out, left) := grepLines pattern rest
    ((if matchRe pattern text then text ++ [10] else []) ++ out, left)
termination_by p.length
decreasing_by exact length_of_strchr _h

/-- The outer loop, where `buf` is what is in the buffer. The call number `i` of `read` returns as many bytes as
`size i` says, but one at least, and not more than are there or asked for. It answers the output and what of the
stream has not been read. -/
def grepFrom (pattern : List UInt8) (size : Nat → Nat) (i : Nat) (buf stream : List UInt8) :
    List UInt8 × List UInt8 :=
  let n := min (max 1 (size i)) (1024 - buf.length - 1)
  if n = 0 ∨ stream = [] then ([], stream) else
    let (out, left) := grepLines pattern (buf ++ stream.take n)
    let (more, unread) := grepFrom pattern size (i + 1) left (stream.drop n)
    (out ++ more, unread)
termination_by stream.length
decreasing_by
  rw [length_drop]
  have := length_pos_of_ne_nil (not_or.1 ‹_›).2
  omega

def grep (pattern : List UInt8) (size : Nat → Nat) (stream : List UInt8) : List UInt8 × List UInt8 :=
  grepFrom pattern size 0 [] stream

/-! ### Lines -/

/-- The text of a line. -/
def Line := {text : List UInt8 // 0 ∉ text ∧ 10 ∉ text}

def stream (ls : List Line) : List UInt8 := ls.flatMap fun l => l.1 ++ [10]

/-- The lines that match, each with its newline. -/
def matching (pattern : List UInt8) (ls : List Line) : List UInt8 := stream (ls.filter fun l => matchRe pattern l.1)

theorem strchr_eq_none {c : UInt8} {s : List UInt8} (h : c ∉ s) : strchr c s = none := by
  induction s with
  | nil => rfl
  | cons x s ih =>
    rw [mem_cons, not_or] at h
    rw [strchr, ih h.2, if_neg (Ne.symm h.1)]
    exact ite_self _

theorem strchr_append {c : UInt8} {text : List UInt8} (rest : List UInt8) (hzero : 0 ∉ text) (hc : c ∉ text)
    (hne : c ≠ 0) : strchr c (text ++ c :: rest) = some (text, rest) := by
  induction text with
  | nil => rw [nil_append, strchr, if_neg hne, if_pos rfl]
  | cons x text ih =>
    rw [mem_cons, not_or] at hzero hc
    rw [cons_append, strchr, if_neg (Ne.symm hzero.1), if_neg (Ne.symm hc.1), ih hzero.2 hc.2]
    rfl

theorem grepLines_none {pattern p : List UInt8} (h : strchr 10 p = none) : grepLines pattern p = ([], p) := by
  rw [grepLines]
  split
  · rfl
  · rename_i heq
    cases h.symm.trans heq

theorem grepLines_some {pattern p text rest : List UInt8} (h : strchr 10 p = some (text, rest)) :
    grepLines pattern p = ((if matchRe pattern text then text ++ [10] else []) ++ (grepLines pattern rest).1,
      (grepLines pattern rest).2) := by
  rw [grepLines]
  split
  · rename_i heq
    cases h.symm.trans heq
  · rename_i heq
    cases h.symm.trans heq
    rfl

theorem stream_cons (l : Line) (ls : List Line) : stream (l :: ls) = l.1 ++ 10 :: stream ls := by
  simp [stream]

theorem matching_append (pattern : List UInt8) (ls ls' : List Line) :
    matching pattern (ls ++ ls') = matching pattern ls ++ matching pattern ls' := by
  simp [matching, stream]

/-- The first bytes of a stream are a part of its first line, or there is more than that line. -/
theorem stream_split {l : Line} {ls : List Line} {p rest : List UInt8} (h : p ++ rest = stream (l :: ls)) :
    (10 ∉ p ∧ ∃ a, l.1 = p ++ a ∧ rest = a ++ 10 :: stream ls) ∨
      ∃ p', p = l.1 ++ 10 :: p' ∧ p' ++ rest = stream ls := by
  have hpart : ∀ {a}, l.1 = p ++ a → 10 ∉ p := fun heq hmem => l.2.2 (heq ▸ mem_append_left _ hmem)
  rw [stream_cons] at h
  rcases append_eq_append_iff.1 h with ⟨a, hl, hrest⟩ | ⟨_ | ⟨x, p'⟩, hp, hrest⟩
  · exact Or.inl ⟨hpart hl, a, hl, hrest⟩
  · rw [append_nil] at hp
    exact Or.inl ⟨hp ▸ l.2.2, [], by rw [hp, append_nil], hrest.symm⟩
  · obtain ⟨rfl, heq⟩ := cons.inj hrest
    exact Or.inr ⟨p', hp, heq.symm⟩

/-- The inner loop is done with the lines that are complete in the buffer. -/
theorem grepLines_spec (pattern : List UInt8) {ls : List Line} : ∀ {p rest : List UInt8}, p ++ rest = stream ls →
    ∃ done todo left, ls = done ++ todo ∧ grepLines pattern p = (matching pattern done, left) ∧
      left ++ rest = stream todo ∧ 10 ∉ left ∧ left.length ≤ p.length ∧ ∀ l ∈ done, l.1.length < p.length := by
  induction ls with
  | nil =>
    intro p rest h
    obtain ⟨rfl, rfl⟩ := append_eq_nil_iff.1 h
    exact ⟨[], [], [], rfl, grepLines_none rfl, rfl, nofun, le_rfl, nofun⟩
  | cons l ls ih =>
    intro p rest h
    rcases stream_split h with ⟨hp, -⟩ | ⟨p', rfl, h'⟩
    · exact ⟨[], l :: ls, p, rfl, grepLines_none (strchr_eq_none hp), h, hp, le_rfl, nofun⟩
    · obtain ⟨done, todo, left, rfl, heq, hleft, hnl, hlen, hdone⟩ := ih h'
      have hfind : strchr 10 (l.1 ++ 10 :: p') = some (l.1, p') := strchr_append p' l.2.1 l.2.2 (by decide)
      refine ⟨l :: done, todo, left, rfl, ?_, hleft, hnl, ?_, ?_⟩
      · rw [grepLines_some hfind, heq]
        cases hm : matchRe pattern l.1 <;> simp [matching, stream, hm]
      · simp only [length_append, length_cons]
        omega
      · intro l' hl'
        simp only [length_append, length_cons]
        rcases mem_cons.1 hl' with rfl | hl'
        · omega
        · have := hdone l' hl'
          omega

/-- From any state of the outer loop, all that is left is done if and only if no line is too long for the buffer. -/
theorem grepFrom_iff (pattern : List UInt8) (size : Nat → Nat) {i : Nat} {buf rest : List UInt8} {ls : List Line}
    (h : buf ++ rest = stream ls) (hbuf : 10 ∉ buf) (hlen : buf.length < 1024) :
    grepFrom pattern size i buf rest = (matching pattern ls, []) ↔ ∀ l ∈ ls, l.1.length < 1023 := by
  induction hn : rest.length using Nat.strong_induction_on generalizing i buf rest ls with
  | h n ih =>
    rw [grepFrom]
    dsimp only
    split
    · rename_i hstop
      cases ls with
      | nil =>
        obtain ⟨-, rfl⟩ := append_eq_nil_iff.1 h
        exact iff_of_true rfl nofun
      | cons l ls =>
        rcases stream_split h with ⟨-, a, hl, hrest⟩ | ⟨p', rfl, -⟩
        · have hne : rest ≠ [] := by simp [hrest]
          refine iff_of_false (fun heq => hne (congrArg Prod.snd heq)) fun hall => ?_
          have hlt := hall l mem_cons_self
          rw [hl, length_append] at hlt
          have := hstop.resolve_right hne
          omega
        · simp at hbuf
    · rename_i hgo
      rw [not_or] at hgo
      have hpos := length_pos_of_ne_nil hgo.2
      generalize hk : min (max 1 (size i)) (1024 - buf.length - 1) = k at hgo ⊢
      have hsplit : (buf ++ rest.take k) ++ rest.drop k = stream ls := by
        rw [append_assoc, take_append_drop, h]
      obtain ⟨done, todo, left, rfl, heq, hleft, hnl, hle, hdone⟩ := grepLines_spec pattern hsplit
      have hfull : (buf ++ rest.take k).length < 1024 := by
        rw [length_append, length_take]
        omega
      have hless : (rest.drop k).length < n := by
        rw [length_drop]
        omega
      have hrec := ih _ hless (i := i + 1) hleft hnl (Nat.lt_of_le_of_lt hle hfull) rfl
      rw [heq, matching_append, Prod.mk.injEq, append_cancel_left_eq, ← Prod.mk.injEq, Prod.mk.eta, hrec,
        forall_mem_append, and_iff_right]
      intro l hl
      have := hdone l hl
      omega

/-- **`grep` writes the lines that match, and reads all of the stream**, if and only if each line and its newline
fit into the buffer. -/
theorem grep_iff (pattern : List UInt8) (size : Nat → Nat) (ls : List Line) :
    grep pattern size (stream ls) = (matching pattern ls, []) ↔ ∀ l ∈ ls, l.1.length < 1023 :=
  grepFrom_iff pattern size rfl nofun (by decide)

/-- Of a line of 1023 characters nothing is written, though the pattern matches any text, and its newline is not read. -/
theorem grep_stops : grep [] (fun _ => 1023) (replicate 1023 97 ++ [10]) = ([], [10]) := by
  have hnone : strchr 10 (replicate 1023 97) = none := strchr_eq_none fun h => by cases eq_of_mem_replicate h
  have hlen : (replicate 1023 (97 : UInt8)).length = 1023 := length_replicate
  have hsize : min (max 1 1023) (1024 - ([] : List UInt8).length - 1) = 1023 := rfl
  have hne : replicate 1023 (97 : UInt8) ++ [10] ≠ [] := append_ne_nil_of_right_ne_nil _ (cons_ne_nil _ _)
  rw [grep, grepFrom]
  dsimp only
  rw [if_neg (not_or.2 ⟨by decide, hne⟩), hsize, nil_append, take_left' hlen, drop_left' hlen, grepLines_none hnone,
    grepFrom]
  dsimp only
  rw [if_pos (Or.inl (by rw [hlen]; rfl))]
  rfl

end Grep

end Xv6
