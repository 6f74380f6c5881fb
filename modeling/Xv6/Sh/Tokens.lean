import Mathlib.Tactic.SplitIfs
import Mathlib.Order.Basic
import Xv6.Sh.Parse

/-! The tokens of a command. From every position the calls of `gettoken` give one list of tokens, on which
`peek` and `gettoken` do what their names say: one looks at the first token, the other takes it. -/

namespace Xv6

namespace Sh

/-- The buffer holds a string that ends at `es`. -/
structure Terminated (buf : Buf) (es : Nat) : Prop where
  nul : buf es = 0
  nonzero : ∀ i, i < es → buf i ≠ 0

section Skip

variable {buf : Buf} {es : Nat} {test : UInt8 → Bool}

theorem skipFrom_ge (n s : Nat) : s ≤ skipFrom buf test n s := by
  induction n generalizing s with
  | zero => exact Nat.le_refl s
  | succ n ih =>
    unfold skipFrom
    split
    · exact Nat.le_trans (Nat.le_succ s) (ih (s + 1))
    · exact Nat.le_refl s

theorem skipFrom_le (n s : Nat) : skipFrom buf test n s ≤ s + n := by
  induction n generalizing s with
  | zero => exact Nat.le_refl s
  | succ n ih =>
    unfold skipFrom
    split
    · have := ih (s + 1)
      omega
    · omega

theorem skipFrom_skips {n s i : Nat} (hs : s ≤ i) (hi : i < skipFrom buf test n s) : test (buf i) = true := by
  induction n generalizing s with
  | zero =>
    have hi' : i < s := hi
    omega
  | succ n ih =>
    unfold skipFrom at hi
    split at hi
    · rename_i htest
      by_cases heq : s = i
      · rw [← heq]
        exact htest
      · exact ih (by omega) hi
    · omega

theorem skipFrom_stops {n s : Nat} (hlt : skipFrom buf test n s < s + n) : test (buf (skipFrom buf test n s)) = false := by
  induction n generalizing s with
  | zero =>
    have hlt' : s < s := hlt
    omega
  | succ n ih =>
    unfold skipFrom at hlt ⊢
    split
    · rename_i htest
      rw [if_pos htest] at hlt
      exact ih (by omega)
    · rename_i htest
      exact Bool.eq_false_iff.2 htest

theorem skipFrom_of_false {n s : Nat} (hstop : test (buf s) = false) : skipFrom buf test n s = s := by
  cases n with
  | zero => rfl
  | succ n =>
    unfold skipFrom
    rw [if_neg (by rw [hstop]; exact Bool.false_ne_true)]

end Skip

section Gettoken

variable {buf : Buf} {es s : Nat}

theorem skipBlanks_ge : s ≤ skipBlanks buf es s := skipFrom_ge ..

theorem skipBlanks_le (hs : s ≤ es) : skipBlanks buf es s ≤ es := by
  have : skipFrom buf isBlank (es - s) s ≤ s + (es - s) := skipFrom_le ..
  unfold skipBlanks
  omega

theorem isBlank_skipBlanks (hlt : skipBlanks buf es s < es) : isBlank (buf (skipBlanks buf es s)) = false := by
  apply skipFrom_stops
  have hge : s ≤ skipBlanks buf es s := skipBlanks_ge
  unfold skipBlanks at hlt hge
  omega

theorem skipBlanks_end : skipBlanks buf es es = es := by
  unfold skipBlanks
  rw [Nat.sub_self]
  rfl

theorem skipBlanks_skipBlanks (hs : s ≤ es) : skipBlanks buf es (skipBlanks buf es s) = skipBlanks buf es s := by
  by_cases hlt : skipBlanks buf es s < es
  · exact skipFrom_of_false (isBlank_skipBlanks hlt)
  · have heq : skipBlanks buf es s = es := Nat.le_antisymm (skipBlanks_le hs) (Nat.le_of_not_lt hlt)
    rw [heq, skipBlanks_end]

theorem gettoken_skipBlanks (hs : s ≤ es) : gettoken buf es (skipBlanks buf es s) = gettoken buf es s := by
  unfold gettoken
  rw [skipBlanks_skipBlanks hs]

/-- The kind of the token at `s`. -/
def kindAt (buf : Buf) (es s : Nat) : Kind := (gettoken buf es s).1.kind

theorem scan_nul (ht : Terminated buf es) (hs : s ≤ es) : (scan buf es s).1 = .nul ↔ s = es := by
  constructor
  · intro hnul
    by_contra hne
    have hz := ht.nonzero s (by omega)
    unfold scan at hnul
    rw [if_neg hz] at hnul
    split_ifs at hnul
  · intro heq
    unfold scan
    rw [heq, if_pos ht.nul]

theorem wordEnd_bounds (hs : s < es) (hchar : isWordChar (buf s) = true) :
    s < wordEnd buf es s ∧ wordEnd buf es s ≤ es := by
  have hle : skipFrom buf isWordChar (es - s) s ≤ s + (es - s) := skipFrom_le ..
  unfold wordEnd
  obtain ⟨n, hn⟩ : ∃ n, es - s = n + 1 := ⟨es - s - 1, by omega⟩
  refine ⟨?_, by omega⟩
  rw [hn, skipFrom, if_pos hchar]
  exact skipFrom_ge n (s + 1)

theorem isWordChar_of_ne (hblank : isBlank (buf s) = false) (h : ∀ c ∈ symbols, buf s ≠ c) :
    isWordChar (buf s) = true := by
  unfold isBlank at hblank
  have hsym : symbols.contains (buf s) = false := by
    rw [Bool.eq_false_iff]
    intro hmem
    exact h _ (List.contains_iff_mem.1 hmem) rfl
  rw [isWordChar, hblank, hsym]
  rfl

/-- The token at a character that is not blank: it has characters, and those of a word are word characters up to
the one that ends it. -/
theorem scan_spec (ht : Terminated buf es) (hs : s < es) (hblank : isBlank (buf s) = false) :
    s < (scan buf es s).2 ∧ (scan buf es s).2 ≤ es ∧
      ((scan buf es s).1 = .word → isWordChar (buf s) = true ∧ (scan buf es s).2 = wordEnd buf es s) := by
  have hone : s < s + 1 ∧ s + 1 ≤ es := ⟨Nat.lt_succ_self s, hs⟩
  unfold scan
  rw [if_neg (ht.nonzero s hs)]
  split_ifs with h₁ h₂ h₃ h₄ h₅ h₆ h₇ h₈
  · exact ⟨hone.1, hone.2, nofun⟩
  · exact ⟨hone.1, hone.2, nofun⟩
  · exact ⟨hone.1, hone.2, nofun⟩
  · exact ⟨hone.1, hone.2, nofun⟩
  · exact ⟨hone.1, hone.2, nofun⟩
  · exact ⟨hone.1, hone.2, nofun⟩
  · have hne : s + 1 ≠ es := by
      intro heq
      rw [heq, ht.nul] at h₈
      cases h₈
    exact ⟨by omega, by show s + 2 ≤ es; omega, nofun⟩
  · exact ⟨hone.1, hone.2, nofun⟩
  · have hchar : isWordChar (buf s) = true := by
      apply isWordChar_of_ne hblank
      simp only [symbols, List.mem_cons, List.not_mem_nil, or_false]
      rintro c (rfl | rfl | rfl | rfl | rfl | rfl | rfl) <;> assumption
    obtain ⟨hlt, hle⟩ := wordEnd_bounds hs hchar
    exact ⟨hlt, hle, fun _ => ⟨hchar, rfl⟩⟩

section

variable (ht : Terminated buf es) (hs : s ≤ es)
include ht hs

theorem kindAt_nul : kindAt buf es s = .nul ↔ skipBlanks buf es s = es :=
  scan_nul ht (skipBlanks_le hs)

/-- Where `gettoken` takes a token from and where it stops. -/
theorem gettoken_bounds (hne : kindAt buf es s ≠ .nul) :
    s ≤ (gettoken buf es s).1.q ∧ (gettoken buf es s).1.q < (gettoken buf es s).1.eq ∧
      (gettoken buf es s).1.eq ≤ (gettoken buf es s).2 ∧ (gettoken buf es s).2 ≤ es := by
  have hlt : skipBlanks buf es s < es :=
    Nat.lt_of_le_of_ne (skipBlanks_le hs) (mt (kindAt_nul ht hs).2 hne)
  obtain ⟨hq, heq, -⟩ := scan_spec ht hlt (isBlank_skipBlanks hlt)
  exact ⟨skipBlanks_ge, hq, skipBlanks_ge, skipBlanks_le heq⟩

theorem gettoken_of_nul (hnul : kindAt buf es s = .nul) : (gettoken buf es s).2 = es := by
  have heq := (kindAt_nul ht hs).1 hnul
  have hscan : scan buf es es = (.nul, es) := by
    unfold scan
    rw [if_pos ht.nul]
  unfold gettoken
  simp only [heq, hscan, skipBlanks_end]

theorem gettoken_le : (gettoken buf es s).2 ≤ es := by
  by_cases hnul : kindAt buf es s = .nul
  · exact Nat.le_of_eq (gettoken_of_nul ht hs hnul)
  · exact (gettoken_bounds ht hs hnul).2.2.2

theorem gettoken_word (hword : kindAt buf es s = .word) :
    (∀ i, (gettoken buf es s).1.q ≤ i → i < (gettoken buf es s).1.eq → isWordChar (buf i) = true) ∧
      ((gettoken buf es s).1.eq = es ∨ isWordChar (buf (gettoken buf es s).1.eq) = false) := by
  have hne : kindAt buf es s ≠ .nul := by
    rw [hword]
    decide
  have hlt : skipBlanks buf es s < es :=
    Nat.lt_of_le_of_ne (skipBlanks_le hs) (mt (kindAt_nul ht hs).2 hne)
  obtain ⟨-, hle, hchars⟩ := scan_spec ht hlt (isBlank_skipBlanks hlt)
  obtain ⟨-, hend⟩ := hchars hword
  refine ⟨?_, ?_⟩
  · intro i hq hi
    have hi' : i < wordEnd buf es (skipBlanks buf es s) := by
      rw [← hend]
      exact hi
    exact skipFrom_skips hq hi'
  · by_cases heq : (gettoken buf es s).1.eq = es
    · exact Or.inl heq
    · right
      have hstop : (gettoken buf es s).1.eq = wordEnd buf es (skipBlanks buf es s) := hend
      rw [hstop] at heq ⊢
      apply skipFrom_stops
      have hle' : wordEnd buf es (skipBlanks buf es s) ≤ es := by
        rw [← hend]
        exact hle
      unfold wordEnd at heq hle'
      omega

end

end Gettoken

/-! ### The list of tokens -/

/-- The tokens from `s` on, at most `n` of them. -/
def tokensFrom (buf : Buf) (es : Nat) : Nat → Nat → List Token
  | 0, _ => []
  | n + 1, s =>
      if kindAt buf es s = .nul then []
      else (gettoken buf es s).1 :: tokensFrom buf es n (gettoken buf es s).2

def tokens (buf : Buf) (es s : Nat) : List Token := tokensFrom buf es (es - s) s

def first : List Token → Kind
  | [] => .nul
  | t :: _ => t.kind

section Tokens

variable {buf : Buf} {es s : Nat}

theorem tokensFrom_of_nul (n : Nat) (hnul : kindAt buf es s = .nul) : tokensFrom buf es n s = [] := by
  cases n with
  | zero => rfl
  | succ n =>
    unfold tokensFrom
    rw [if_pos hnul]

theorem kindAt_end (ht : Terminated buf es) : kindAt buf es es = .nul :=
  (kindAt_nul ht (Nat.le_refl es)).2 skipBlanks_end

theorem tokensFrom_eq (ht : Terminated buf es) {n m : Nat} (hs : s ≤ es) (hn : es - s ≤ n) (hm : es - s ≤ m) :
    tokensFrom buf es n s = tokensFrom buf es m s := by
  induction n generalizing m s with
  | zero =>
    have heq : s = es := by omega
    have hnul : kindAt buf es s = .nul := by
      rw [heq]
      exact kindAt_end ht
    rw [tokensFrom_of_nul m hnul, tokensFrom_of_nul 0 hnul]
  | succ n ih =>
    by_cases hnul : kindAt buf es s = .nul
    · rw [tokensFrom_of_nul (n + 1) hnul, tokensFrom_of_nul m hnul]
    · obtain ⟨hq, hlt, heq, hle⟩ := gettoken_bounds ht hs hnul
      obtain ⟨m, rfl⟩ : ∃ k, m = k + 1 := ⟨m - 1, by omega⟩
      unfold tokensFrom
      rw [if_neg hnul, if_neg hnul, ih (m := m) hle (by omega) (by omega)]

theorem tokens_of_nul (hnul : kindAt buf es s = .nul) : tokens buf es s = [] := tokensFrom_of_nul _ hnul

theorem tokens_end (ht : Terminated buf es) : tokens buf es es = [] := tokens_of_nul (kindAt_end ht)

section

variable (ht : Terminated buf es) (hs : s ≤ es)
include ht hs

theorem tokens_cons (hne : kindAt buf es s ≠ .nul) :
    tokens buf es s = (gettoken buf es s).1 :: tokens buf es (gettoken buf es s).2 := by
  obtain ⟨hq, hlt, heq, hle⟩ := gettoken_bounds ht hs hne
  unfold tokens
  obtain ⟨n, hn⟩ : ∃ k, es - s = k + 1 := ⟨es - s - 1, by omega⟩
  rw [hn, tokensFrom, if_neg hne, tokensFrom_eq ht hle (by omega) (Nat.le_refl _)]

theorem first_tokens : first (tokens buf es s) = kindAt buf es s := by
  by_cases hnul : kindAt buf es s = .nul
  · rw [tokens_of_nul hnul, hnul]
    rfl
  · rw [tokens_cons ht hs hnul]
    rfl

theorem tokens_skipBlanks : tokens buf es (skipBlanks buf es s) = tokens buf es s := by
  have hget : gettoken buf es (skipBlanks buf es s) = gettoken buf es s := gettoken_skipBlanks hs
  have hkind : kindAt buf es (skipBlanks buf es s) = kindAt buf es s := by
    unfold kindAt
    rw [hget]
  by_cases hnul : kindAt buf es s = .nul
  · rw [tokens_of_nul hnul, tokens_of_nul (hkind.trans hnul)]
  · rw [tokens_cons ht hs hnul, tokens_cons ht (skipBlanks_le hs) (by rwa [hkind]), hget]

theorem length_tokens_le : (tokens buf es s).length ≤ es - s := by
  generalize hn : es - s = n
  induction n using Nat.strongRecOn generalizing s with
  | _ n ih =>
    by_cases hnul : kindAt buf es s = .nul
    · rw [tokens_of_nul hnul]
      exact Nat.zero_le n
    · obtain ⟨hq, hlt, heq, hle⟩ := gettoken_bounds ht hs hnul
      have hrest := ih (es - (gettoken buf es s).2) (by omega) hle rfl
      rw [tokens_cons ht hs hnul, List.length_cons]
      omega

end

/-! ### What `peek` tells about the first token -/

/-- The symbol that a token starts with. -/
def Kind.symbol : Kind → Option UInt8
  | .bar => some 124
  | .lpar => some 40
  | .rpar => some 41
  | .semi => some 59
  | .amp => some 38
  | .lt => some 60
  | .gt | .plus => some 62
  | .nul | .word => none

theorem scan_symbol : (scan buf es s).1.symbol = if buf s ∈ symbols then some (buf s) else none := by
  unfold scan
  split_ifs with h₀ h₁ h₂ h₃ h₄ h₅ h₆ h₇ h₈ h₉ h₁₀ <;> simp_all [Kind.symbol, symbols]

theorem peek_iff (ht : Terminated buf es) (hs : s ≤ es) {toks : List UInt8} (hall : toks.all symbols.contains = true) :
    (peek buf es toks s).1 = true ↔ ∃ c ∈ toks, (first (tokens buf es s)).symbol = some c := by
  have hsym : ∀ c ∈ toks, c ∈ symbols := by
    intro c hc
    exact List.contains_iff_mem.1 (List.all_eq_true.1 hall c hc)
  have hpeek : (peek buf es toks s).1 = true ↔ buf (skipBlanks buf es s) ≠ 0 ∧ buf (skipBlanks buf es s) ∈ toks := by
    unfold peek
    rw [Bool.and_eq_true, decide_eq_true_iff, List.contains_iff_mem]
  have hkind : (first (tokens buf es s)).symbol =
      if buf (skipBlanks buf es s) ∈ symbols then some (buf (skipBlanks buf es s)) else none := by
    rw [first_tokens ht hs]
    exact scan_symbol
  rw [hpeek, hkind]
  constructor
  · intro h
    exact ⟨_, h.2, if_pos (hsym _ h.2)⟩
  · intro h
    obtain ⟨c, hc, hfirst⟩ := h
    rw [if_pos] at hfirst
    · rw [Option.some.inj hfirst]
      refine ⟨?_, hc⟩
      intro hzero
      have hnot : (0 : UInt8) ∉ symbols := by decide
      exact hnot (hzero ▸ hsym c hc)
    · by_contra hnot
      rw [if_neg hnot] at hfirst
      cases hfirst

theorem peek_snd (toks : List UInt8) : (peek buf es toks s).2 = skipBlanks buf es s := rfl

section Peek

variable (ht : Terminated buf es) (hs : s ≤ es)

include ht hs

theorem peek_amp : (peek buf es [38] s).1 = true ↔ first (tokens buf es s) = .amp := by
  rw [peek_iff ht hs rfl]
  cases first (tokens buf es s) <;> simp [Kind.symbol]

theorem peek_semi : (peek buf es [59] s).1 = true ↔ first (tokens buf es s) = .semi := by
  rw [peek_iff ht hs rfl]
  cases first (tokens buf es s) <;> simp [Kind.symbol]

theorem peek_bar : (peek buf es [124] s).1 = true ↔ first (tokens buf es s) = .bar := by
  rw [peek_iff ht hs rfl]
  cases first (tokens buf es s) <;> simp [Kind.symbol]

theorem peek_lpar : (peek buf es [40] s).1 = true ↔ first (tokens buf es s) = .lpar := by
  rw [peek_iff ht hs rfl]
  cases first (tokens buf es s) <;> simp [Kind.symbol]

theorem peek_rpar : (peek buf es [41] s).1 = true ↔ first (tokens buf es s) = .rpar := by
  rw [peek_iff ht hs rfl]
  cases first (tokens buf es s) <;> simp [Kind.symbol]

theorem peek_redir : (peek buf es [60, 62] s).1 = true ↔ first (tokens buf es s) ∈ [Kind.lt, .gt, .plus] := by
  rw [peek_iff ht hs rfl]
  cases first (tokens buf es s) <;> simp [Kind.symbol]

theorem peek_stop :
    (peek buf es [124, 41, 38, 59] s).1 = true ↔ first (tokens buf es s) ∈ [Kind.bar, .rpar, .amp, .semi] := by
  rw [peek_iff ht hs rfl]
  cases first (tokens buf es s) <;> simp [Kind.symbol]

end Peek

end Tokens

end Sh

end Xv6
