import Xv6.Sh.Complete

/-! What `parsecmd` makes of a command: a tree for exactly the commands of the grammar, whose words are strings of the
buffer once `nulterminate` has written their ends into it. -/

namespace Xv6

open Function List

namespace Sh

/-! ### The words of a tree -/

/-- Every `argv[i]` and every file of a redirection, in the order of `nulterminate`. -/
def Cmd.words : Cmd → List Word
  | .exec argv => argv
  | .redir cmd r => cmd.words ++ [r.file]
  | .pipe left right => left.words ++ right.words
  | .list left right => left.words ++ right.words
  | .back cmd => cmd.words

/-- Writes a NUL at the end of each word. -/
def cut (ws : List Word) (buf : Buf) : Buf := ws.foldl (fun buf w => update buf w.eq 0) buf

theorem cut_append (ws ws' : List Word) (buf : Buf) : cut (ws ++ ws') buf = cut ws' (cut ws buf) :=
  foldl_append ..

theorem nulterminate_eq (c : Cmd) (buf : Buf) : nulterminate c buf = cut c.words buf := by
  induction c generalizing buf with
  | exec argv => rfl
  | redir cmd r ih =>
    rw [nulterminate, Cmd.words, cut_append, ih]
    rfl
  | pipe left right ihl ihr => rw [nulterminate, Cmd.words, cut_append, ihl, ihr]
  | list left right ihl ihr => rw [nulterminate, Cmd.words, cut_append, ihl, ihr]
  | back cmd ih => exact ih buf

theorem cut_apply (ws : List Word) (buf : Buf) (i : Nat) : cut ws buf i = if ∃ w ∈ ws, w.eq = i then 0 else buf i := by
  induction ws generalizing buf with
  | nil => simp only [cut, foldl_nil, not_mem_nil, false_and, exists_false, if_false]
  | cons w ws ih =>
    have hcut : cut (w :: ws) buf = cut ws (update buf w.eq 0) := rfl
    rw [hcut, ih]
    by_cases hmem : ∃ w' ∈ ws, w'.eq = i
    · obtain ⟨w', hw', heq⟩ := hmem
      rw [if_pos ⟨w', hw', heq⟩, if_pos ⟨w', mem_cons_of_mem w hw', heq⟩]
    · rw [if_neg hmem]
      by_cases heq : w.eq = i
      · rw [if_pos ⟨w, mem_cons_self .., heq⟩, ← heq, update_self]
      · have hnone : ¬ ∃ w' ∈ w :: ws, w'.eq = i := by
          intro h
          obtain ⟨w', hw', heq'⟩ := h
          cases mem_cons.1 hw' with
          | inl h => exact heq (h ▸ heq')
          | inr h => exact hmem ⟨w', h, heq'⟩
        rw [if_neg hnone, update_of_ne (Ne.symm heq)]

theorem words_wrap (rs : List Redir) (c : Cmd) : (wrap rs c).words = c.words ++ rs.map Redir.file := by
  induction rs generalizing c with
  | nil => exact (append_nil _).symm
  | cons r rs ih =>
    calc (wrap rs (.redir c r)).words = (c.words ++ [r.file]) ++ rs.map Redir.file := ih (.redir c r)
      _ = c.words ++ (r :: rs).map Redir.file := append_assoc ..

theorem words_backs (n : Nat) (c : Cmd) : (backs n c).words = c.words := by
  induction n generalizing c with
  | zero => rfl
  | succ n ih => exact ih (.back c)

/-- A word of the tree is one of the tokens. -/
def IsTokenOf (ts : List Token) (w : Word) : Prop := ∃ t ∈ ts, t.kind = .word ∧ t.toWord = w

variable {w : Word} {ts : List Token}

theorem IsTokenOf.mono {ts us : List Token} (h : IsTokenOf ts w) (hsub : ∀ t ∈ ts, t ∈ us) : IsTokenOf us w := by
  obtain ⟨t, ht, hword⟩ := h
  exact ⟨t, hsub t ht, hword⟩

theorem IsTokenOf.left (us : List Token) (h : IsTokenOf ts w) : IsTokenOf (ts ++ us) w :=
  h.mono fun _ => mem_append_left us

theorem IsTokenOf.right (ts : List Token) {us : List Token} (h : IsTokenOf us w) : IsTokenOf (ts ++ us) w :=
  h.mono fun _ => mem_append_right ts

theorem IsTokenOf.tail (t : Token) (h : IsTokenOf ts w) : IsTokenOf (t :: ts) w :=
  h.mono fun _ => mem_cons_of_mem t

theorem file_of_redirOf {k : Kind} {f : Token} {r : Redir} (h : redirOf k f = some r) : r.file = f.toWord := by
  cases k <;> simp_all [redirOf] <;> rw [← h]

theorem Redirs.isTokenOf {rs : List Redir} (h : Redirs ts rs) : ∀ w ∈ rs.map Redir.file, IsTokenOf ts w := by
  induction h with
  | nil => exact nofun
  | @cons t f ts r rs hredir hword _ ih =>
    intro w hw
    cases mem_cons.1 hw with
    | inl heq =>
      have hfile : f.toWord = w := (file_of_redirOf hredir).symm.trans heq.symm
      exact ⟨f, mem_cons_of_mem t (mem_cons_self ..), hword, hfile⟩
    | inr hmem => exact ((ih w hmem).tail f).tail t

theorem Args.isTokenOf {ws : List Word} {rs : List Redir} (h : Args ts ws rs) :
    ∀ w ∈ ws ++ rs.map Redir.file, IsTokenOf ts w := by
  induction h with
  | nil => exact nofun
  | @cons t ts us ws rs rs' hword hredirs _ ih =>
    intro w hw
    rw [map_append, cons_append, mem_cons, mem_append, mem_append] at hw
    rcases hw with heq | hws | hrs | hrs'
    · exact ⟨t, mem_cons_self .., hword, heq.symm⟩
    · exact ((ih w (mem_append_left _ hws)).right ts).tail t
    · exact ((hredirs.isTokenOf w hrs).left us).tail t
    · exact ((ih w (mem_append_right _ hrs')).right ts).tail t

theorem Derives.isTokenOf {nt : Nonterminal} {c : Cmd} (h : Derives nt ts c) : ∀ w ∈ c.words, IsTokenOf ts w := by
  induction h with
  | @block l r ts us c rs _ _ _ hredirs ih =>
    intro w hw
    rw [words_wrap, mem_append] at hw
    apply IsTokenOf.tail
    cases hw with
    | inl hc => exact (ih w hc).left _
    | inr hrs => exact ((hredirs.isTokenOf w hrs).tail r).right ts
  | @simple ts us ws rs rs' hredirs hargs _ =>
    intro w hw
    rw [words_wrap, map_append, mem_append, mem_append] at hw
    rcases hw with hws | hrs | hrs'
    · exact (hargs.isTokenOf w (mem_append_left _ hws)).right ts
    · exact (hredirs.isTokenOf w hrs).left us
    · exact (hargs.isTokenOf w (mem_append_right _ hrs')).right ts
  | last _ ih => exact ih
  | @pipe b ts us c c' _ _ _ ih ih' =>
    intro w hw
    cases mem_append.1 hw with
    | inl hc => exact (ih w hc).left _
    | inr hc' => exact ((ih' w hc').tail b).right ts
  | @single ts as c _ _ ih =>
    intro w hw
    rw [words_backs] at hw
    exact (ih w hw).left as
  | @list s ts as us c c' _ _ _ _ ih ih' =>
    intro w hw
    cases mem_append.1 hw with
    | inl hc =>
      rw [words_backs] at hc
      exact (ih w hc).left _
    | inr hc' => exact (((ih' w hc').tail s).right as).right ts

/-! ### Words as strings -/

section Strings

variable {buf : Buf} {es s : Nat}

def text (buf : Buf) (w : Word) : List UInt8 := (List.range' w.q (w.eq - w.q)).map buf

/-- The string at `p`, read up to its NUL, is `cs`. -/
def IsString (buf : Buf) (p : Nat) : List UInt8 → Prop
  | [] => buf p = 0
  | c :: cs => c ≠ 0 ∧ buf p = c ∧ IsString buf (p + 1) cs

theorem isString_range {buf' : Buf} (n p : Nat) (hchars : ∀ i, p ≤ i → i < p + n → buf i ≠ 0 ∧ buf' i = buf i)
    (hend : buf' (p + n) = 0) : IsString buf' p ((List.range' p n).map buf) := by
  induction n generalizing p with
  | zero => exact hend
  | succ n ih =>
    obtain ⟨hne, heq⟩ := hchars p (Nat.le_refl p) (by omega)
    refine ⟨hne, heq, ih (p + 1) ?_ ?_⟩
    · intro i hp hi
      exact hchars i (by omega) (by omega)
    · rw [Nat.add_assoc, Nat.add_comm 1 n]
      exact hend

theorem word_of_tokens (ht : Terminated buf es) {t : Token} (hmem : t ∈ tokens buf es s) (hs : s ≤ es)
    (hword : t.kind = .word) :
    t.q < t.eq ∧ t.eq ≤ es ∧ (∀ i, t.q ≤ i → i < t.eq → isWordChar (buf i) = true) ∧
      (t.eq = es ∨ isWordChar (buf t.eq) = false) := by
  generalize hn : es - s = n
  induction n using Nat.strongRecOn generalizing s with
  | ind n ih =>
    by_cases hnul : kindAt buf es s = .nul
    · rw [tokens_of_nul hnul] at hmem
      exact absurd hmem (not_mem_nil)
    · rw [tokens_cons ht hs hnul] at hmem
      obtain ⟨hq, hlt, heq, hle⟩ := gettoken_bounds ht hs hnul
      cases mem_cons.1 hmem with
      | inl hfirst =>
        rw [hfirst] at hword ⊢
        obtain ⟨hchars, hend⟩ := gettoken_word ht hs hword
        exact ⟨by omega, by omega, hchars, hend⟩
      | inr hrest => exact ih (es - (gettoken buf es s).2) (by omega) hrest hle rfl

theorem isString_cut (ht : Terminated buf es) {ws : List Word} (hws : ∀ w ∈ ws, IsTokenOf (tokens buf es 0) w)
    (hw : w ∈ ws) : IsString (cut ws buf) w.q (text buf w) := by
  obtain ⟨t, hmem, hword, rfl⟩ := hws w hw
  obtain ⟨hlt, hle, hchars, -⟩ := word_of_tokens ht hmem (Nat.zero_le es) hword
  have hq : t.toWord.q = t.q := rfl
  have heq : t.toWord.eq = t.eq := rfl
  apply isString_range
  · intro i hqi hi
    have hlt' : i < es := by omega
    refine ⟨ht.nonzero i hlt', ?_⟩
    rw [cut_apply, if_neg]
    -- the end of another word is no character of this one
    intro h
    obtain ⟨w', hw', hend⟩ := h
    obtain ⟨t', hmem', hword', rfl⟩ := hws w' hw'
    obtain ⟨-, -, -, hstop⟩ := word_of_tokens ht hmem' (Nat.zero_le es) hword'
    have hend' : t'.eq = i := hend
    rw [hend'] at hstop
    cases hstop with
    | inl hes => omega
    | inr hno =>
      rw [hchars i hqi (by omega)] at hno
      cases hno
  · rw [cut_apply, if_pos]
    exact ⟨t.toWord, hw, by omega⟩

end Strings

/-! ### The whole command -/

section Command

variable {buf : Buf} {es : Nat}

section

variable (ht : Terminated buf es)
include ht

theorem parseline_start : Parses buf es 0 (Derives .line) (parseline buf es (4 * es + 4) 0) := by
  apply (descends ht _).line 0 (Nat.zero_le es)
  have := length_tokens_le ht (Nat.zero_le es)
  omega

theorem tokens_eq_nil {s : Nat} (hs : s ≤ es) : tokens buf es s = [] ↔ skipBlanks buf es s = es := by
  rw [← kindAt_nul ht hs]
  constructor
  · intro hnil
    rw [← first_tokens ht hs, hnil]
    rfl
  · exact tokens_of_nul

theorem derives_of_parsecmd {c : Cmd} {buf' : Buf} (h : parsecmd buf es = .ok (c, buf')) :
    Derives .line (tokens buf es 0) c ∧ buf' = nulterminate c buf := by
  have hline := parseline_start ht
  unfold parsecmd at h
  cases hparse : parseline buf es (4 * es + 4) 0 with
  | error e =>
    rw [hparse] at h
    cases h
  | ok x =>
    rw [hparse] at hline h
    obtain ⟨hle, ts, htokens, hderives⟩ := hline
    have h' : (if skipBlanks buf es x.2 ≠ es then Except.error (Error.panic "syntax")
      else .ok (x.1, nulterminate x.1 buf)) = Except.ok (c, buf') := h
    by_cases hend : skipBlanks buf es x.2 = es
    · rw [if_neg (not_not.2 hend)] at h'
      rw [(tokens_eq_nil ht hle).2 hend, append_nil] at htokens
      rw [htokens]
      cases h'
      exact ⟨hderives, rfl⟩
    · rw [if_pos hend] at h'
      cases h'

theorem parsecmd_of_derives {c : Cmd} (h : Derives .line (tokens buf es 0) c) :
    parsecmd buf es = .ok (c, nulterminate c buf) := by
  have hlen := length_tokens_le ht (Nat.zero_le es)
  obtain ⟨s, hs, htokens, hparse⟩ := accepts_of_derives ht h 0 [] (4 * es + 4) (Nat.zero_le es)
    (append_nil _).symm (by decide) (by simp only [Nonterminal.need]; omega)
  have hparse' : parseline buf es (4 * es + 4) 0 = .ok (c, s) := hparse
  have hend : skipBlanks buf es s = es := (tokens_eq_nil ht hs).1 htokens
  unfold parsecmd
  rw [hparse']
  show (if skipBlanks buf es s ≠ es then _ else _) = _
  rw [if_neg (not_not.2 hend)]
  rfl

theorem parsecmd_stops :
    (∃ e ∈ syntaxErrors, parsecmd buf es = .error e) ∨ ∃ c buf', parsecmd buf es = .ok (c, buf') := by
  have hline := parseline_start ht
  unfold parsecmd
  cases hparse : parseline buf es (4 * es + 4) 0 with
  | error e =>
    rw [hparse] at hline
    exact Or.inl ⟨e, hline, rfl⟩
  | ok x =>
    show (∃ e ∈ syntaxErrors, (if skipBlanks buf es x.2 ≠ es then _ else _) = _) ∨
      ∃ c buf', (if skipBlanks buf es x.2 ≠ es then _ else _) = _
    by_cases hend : skipBlanks buf es x.2 = es
    · right
      rw [if_neg (not_not.2 hend)]
      exact ⟨x.1, nulterminate x.1 buf, rfl⟩
    · left
      rw [if_pos hend]
      exact ⟨.panic "syntax", by decide, rfl⟩

end

/-- `parsecmd` reports an error or returns a tree, it returns exactly the trees of the grammar, and each word of the
tree is a string of the buffer that it leaves. -/
theorem parsecmd_grammar (ht : Terminated buf es) :
    ((∃ e ∈ syntaxErrors, parsecmd buf es = .error e) ∨ ∃ c buf', parsecmd buf es = .ok (c, buf')) ∧
    (∀ c, (∃ buf', parsecmd buf es = .ok (c, buf')) ↔ Derives .line (tokens buf es 0) c) ∧
    ∀ c buf', parsecmd buf es = .ok (c, buf') → ∀ w ∈ c.words,
      IsTokenOf (tokens buf es 0) w ∧ IsString buf' w.q (text buf w) := by
  refine ⟨parsecmd_stops ht, ?_, ?_⟩
  · intro c
    constructor
    · intro h
      obtain ⟨buf', h⟩ := h
      exact (derives_of_parsecmd ht h).1
    · intro h
      exact ⟨_, parsecmd_of_derives ht h⟩
  · intro c buf' h w hw
    obtain ⟨hderives, rfl⟩ := derives_of_parsecmd ht h
    refine ⟨hderives.isTokenOf w hw, ?_⟩
    rw [nulterminate_eq]
    exact isString_cut ht hderives.isTokenOf hw

/-- `a>b|c&` -/
def backgroundPipe : Buf := fun i => [97, 62, 98, 124, 99, 38].getD i 0

def backgroundPipeTree : Cmd :=
  .back (.pipe (.redir (.exec [⟨0, 1⟩]) ⟨⟨2, 3⟩, O_WRONLY ||| O_CREATE ||| O_TRUNC, 1⟩) (.exec [⟨4, 5⟩]))

theorem parsecmd_grammar_pipe :
    Terminated backgroundPipe 6 ∧ Derives .line (tokens backgroundPipe 6 0) backgroundPipeTree := by
  have ht : Terminated backgroundPipe 6 := ⟨by decide, by decide⟩
  have hparse : (parsecmd backgroundPipe 6).map Prod.fst = .ok backgroundPipeTree := by decide +kernel
  refine ⟨ht, ((parsecmd_grammar ht).2.1 backgroundPipeTree).1 ?_⟩
  cases h : parsecmd backgroundPipe 6 with
  | error e =>
      rw [h] at hparse
      cases hparse
  | ok x =>
      rw [h] at hparse
      exact ⟨x.2, congrArg Except.ok (Prod.ext (Except.ok.inj hparse) rfl)⟩

end Command

end Sh

end Xv6
