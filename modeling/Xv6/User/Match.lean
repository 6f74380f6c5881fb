import Mathlib.Computability.Language

/-! The pattern matcher of `grep`. A string is the list of its characters up to the NUL. What a pattern means is
said by regular languages; that `match` decides it is proved along the recursion of `matchhere`. -/

namespace Xv6

namespace Grep

/-! ### The code -/

/-- `matchstar`, where `here` is what `matchhere` answers for the rest of the pattern. -/
def matchstar (here : List UInt8 → Bool) (c : UInt8) : List UInt8 → Bool
  | [] => here []
  | t :: text => here (t :: text) || ((t == c || c == 46) && matchstar here c text)

def matchhere : List UInt8 → List UInt8 → Bool
  | [], _ => true
  | c :: 42 :: re, text => matchstar (matchhere re) c text
  | [36], text => text.isEmpty
  | c :: re, t :: text => (c == 46 || c == t) && matchhere re text
  | _ :: _, [] => false

def matchFrom (re : List UInt8) : List UInt8 → Bool
  | [] => matchhere re []
  | t :: text => matchhere re (t :: text) || matchFrom re text

/-- `match`. -/
def matchRe : List UInt8 → List UInt8 → Bool
  | 94 :: re, text => matchhere re text
  | re, text => matchFrom re text

/-! ### Patterns -/

/-- The words of one character that a character of a pattern stands for. -/
def single (c : UInt8) : Language UInt8 := {w | ∃ x, w = [x] ∧ (c = 46 ∨ x = c)}

/-- The language of a pattern without its anchors, read from left to right. -/
def lang : List UInt8 → Language UInt8
  | [] => 1
  | c :: 42 :: re => KStar.kstar (single c) * lang re
  | [36] => 1
  | c :: re => single c * lang re

/-- The pattern ends in a `$` that is not starred. -/
def AtEnd : List UInt8 → Prop
  | [] => False
  | _ :: 42 :: re => AtEnd re
  | [36] => True
  | _ :: re => AtEnd re

/-- The text starts with a word of the pattern, and ends there if the pattern says so. -/
def Starts (re text : List UInt8) : Prop := ∃ word after, text = word ++ after ∧ word ∈ lang re ∧ (AtEnd re → after = [])

/-- Some part of the text is a word of the pattern, the start of the text if the pattern begins with `^`. -/
def Matches : List UInt8 → List UInt8 → Prop
  | 94 :: re, text => Starts re text
  | re, text => ∃ before rest, text = before ++ rest ∧ Starts re rest

/-! ### Words of starred characters -/

theorem mem_single_iff {c x : UInt8} : [x] ∈ single c ↔ c = 46 ∨ x = c := by
  constructor
  · rintro ⟨y, hy, h⟩
    rwa [List.singleton_inj.1 hy]
  · exact fun h => ⟨x, rfl, h⟩

theorem mem_kstar_single {c : UInt8} {w : List UInt8} : w ∈ KStar.kstar (single c) ↔ ∀ x ∈ w, c = 46 ∨ x = c := by
  rw [Language.mem_kstar]
  constructor
  · rintro ⟨ws, rfl, h⟩ x hx
    obtain ⟨v, hv, hxv⟩ := List.mem_flatten.1 hx
    obtain ⟨y, rfl, hy⟩ := h v hv
    rwa [List.mem_singleton.1 hxv]
  · intro h
    refine ⟨w.map fun x => [x], (List.flatMap_singleton' w).symm, ?_⟩
    simpa [mem_single_iff] using h

/-- The loop of `matchstar` tries the rest of the pattern after every run of characters that the star allows. -/
theorem matchstar_iff {here : List UInt8 → Bool} {c : UInt8} {text : List UInt8} : matchstar here c text = true ↔
    ∃ v rest, text = v ++ rest ∧ v ∈ KStar.kstar (single c) ∧ here rest = true := by
  simp only [mem_kstar_single]
  induction text with
  | nil => simp [matchstar, and_assoc]
  | cons t text ih =>
    rw [matchstar, Bool.or_eq_true, Bool.and_eq_true, ih, Bool.or_eq_true, beq_iff_eq, beq_iff_eq]
    constructor
    · rintro (h | ⟨ht, v, rest, rfl, hv, h⟩)
      · exact ⟨[], t :: text, rfl, nofun, h⟩
      · refine ⟨t :: v, rest, rfl, ?_, h⟩
        simpa using ⟨ht.symm, hv⟩
    · rintro ⟨_ | ⟨x, v⟩, rest, heq, hv, h⟩
      · exact Or.inl (heq ▸ h)
      · obtain ⟨rfl, rfl⟩ := List.cons.inj heq
        rw [List.forall_mem_cons] at hv
        exact Or.inr ⟨hv.1.symm, v, rest, rfl, hv.2, h⟩

/-! ### `matchhere` and `match` -/

theorem starts_mul {L : Language UInt8} {re re' text : List UInt8} (hlang : lang re' = L * lang re)
    (hend : AtEnd re' ↔ AtEnd re) : Starts re' text ↔ ∃ v rest, text = v ++ rest ∧ v ∈ L ∧ Starts re rest := by
  unfold Starts
  rw [hlang, hend]
  constructor
  · rintro ⟨_, after, rfl, ⟨v, hv, word, hword, rfl⟩, h⟩
    exact ⟨v, word ++ after, List.append_assoc .., hv, word, after, rfl, hword, h⟩
  · rintro ⟨v, _, rfl, hv, word, after, rfl, hword, h⟩
    exact ⟨v ++ word, after, (List.append_assoc ..).symm, ⟨v, hv, word, hword, rfl⟩, h⟩

theorem matchhere_iff (re text : List UInt8) : matchhere re text = true ↔ Starts re text := by
  induction re using lang.induct generalizing text with
  | case1 => simp [matchhere, Starts, lang, AtEnd]
  | case2 c re ih =>
    have hlang : lang (c :: 42 :: re) = KStar.kstar (single c) * lang re := rfl
    rw [starts_mul hlang Iff.rfl, matchhere, matchstar_iff]
    simp only [ih]
  | case3 => simp [matchhere, Starts, lang, AtEnd, List.isEmpty_iff]
  | case4 c re hstar hend ih =>
    have hlang : lang (c :: re) = single c * lang re := by rw [lang] <;> assumption
    have hat : AtEnd (c :: re) ↔ AtEnd re := by rw [AtEnd] <;> assumption
    rw [starts_mul hlang hat]
    cases text with
    | nil =>
      rw [matchhere] <;> first | assumption | skip
      refine iff_of_false Bool.false_ne_true ?_
      rintro ⟨_, rest, heq, ⟨x, rfl, _⟩, _⟩
      cases heq
    | cons t text =>
      rw [matchhere, Bool.and_eq_true, ih, Bool.or_eq_true, beq_iff_eq, beq_iff_eq] <;> first | assumption | skip
      constructor
      · rintro ⟨hc, h⟩
        exact ⟨[t], text, rfl, ⟨t, rfl, hc.imp_right Eq.symm⟩, h⟩
      · rintro ⟨_, rest, heq, ⟨x, rfl, hx⟩, h⟩
        obtain ⟨rfl, rfl⟩ := List.cons.inj heq
        exact ⟨hx.imp_right Eq.symm, h⟩

theorem matchFrom_iff (re text : List UInt8) : matchFrom re text = true ↔
    ∃ before rest, text = before ++ rest ∧ Starts re rest := by
  induction text with
  | nil => simp [matchFrom, matchhere_iff]
  | cons t text ih =>
    rw [matchFrom, Bool.or_eq_true, matchhere_iff, ih]
    constructor
    · rintro (h | ⟨before, rest, rfl, h⟩)
      · exact ⟨[], t :: text, rfl, h⟩
      · exact ⟨t :: before, rest, rfl, h⟩
    · rintro ⟨_ | ⟨x, before⟩, rest, heq, h⟩
      · exact Or.inl (heq ▸ h)
      · obtain ⟨rfl, rfl⟩ := List.cons.inj heq
        exact Or.inr ⟨before, rest, rfl, h⟩

/-- **`match` decides what the pattern means.** -/
theorem matchRe_iff (re text : List UInt8) : matchRe re text = true ↔ Matches re text := by
  unfold matchRe Matches
  split
  · exact matchhere_iff _ _
  · exact matchFrom_iff _ _

end Grep

end Xv6
