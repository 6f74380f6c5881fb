import Xv6.Sh.Tokens

/-! The grammar of commands, and that the parser keeps to it: it stops for every command, and it reports an error or
finds a tree that the grammar assigns to the tokens that it took. -/

namespace Xv6

open List

namespace Sh

/-! ### The grammar -/

/-- `redir*`, with `redir ::= ('<'|'>'|'>>') word`. -/
inductive Redirs : List Token → List Redir → Prop where
  | nil : Redirs [] []
  | cons {t f : Token} {ts : List Token} {r : Redir} {rs : List Redir} (hredir : redirOf t.kind f = some r)
      (hword : f.kind = .word) (hrest : Redirs ts rs) : Redirs (t :: f :: ts) (r :: rs)

inductive Args : List Token → List Word → List Redir → Prop where
  | nil : Args [] [] []
  | cons {w : Token} {ts us : List Token} {ws : List Word} {rs rs' : List Redir} (hword : w.kind = .word)
      (hredirs : Redirs ts rs) (hrest : Args us ws rs') : Args (w :: (ts ++ us)) (w.toWord :: ws) (rs ++ rs')

inductive Nonterminal where
  | line
  | pipe
  | exec

/-- A command in the background, `n` times. -/
def backs : Nat → Cmd → Cmd
  | 0, c => c
  | n + 1, c => backs n (.back c)

/-- `line ::= pipe '&'* [';' line]`, `pipe ::= exec ['|' pipe]` and
`exec ::= '(' line ')' redir* | redir* (word redir*)*`, with the tree of each. -/
inductive Derives : Nonterminal → List Token → Cmd → Prop where
  | block {l r : Token} {ts us : List Token} {c : Cmd} {rs : List Redir} (hl : l.kind = .lpar)
      (hline : Derives .line ts c) (hr : r.kind = .rpar) (hredirs : Redirs us rs) :
      Derives .exec (l :: (ts ++ r :: us)) (wrap rs c)
  | simple {ts us : List Token} {ws : List Word} {rs rs' : List Redir} (hredirs : Redirs ts rs)
      (hargs : Args us ws rs') (hmax : ws.length ≤ MAXARGS - 1) :
      Derives .exec (ts ++ us) (wrap (rs ++ rs') (.exec ws))
  | last {ts : List Token} {c : Cmd} (hexec : Derives .exec ts c) : Derives .pipe ts c
  | pipe {b : Token} {ts us : List Token} {c c' : Cmd} (hexec : Derives .exec ts c) (hb : b.kind = .bar)
      (hpipe : Derives .pipe us c') : Derives .pipe (ts ++ b :: us) (.pipe c c')
  | single {ts as : List Token} {c : Cmd} (hpipe : Derives .pipe ts c) (has : ∀ a ∈ as, a.kind = .amp) :
      Derives .line (ts ++ as) (backs as.length c)
  | list {s : Token} {ts as us : List Token} {c c' : Cmd} (hpipe : Derives .pipe ts c)
      (has : ∀ a ∈ as, a.kind = .amp) (hs : s.kind = .semi) (hline : Derives .line us c') :
      Derives .line (ts ++ (as ++ s :: us)) (.list (backs as.length c) c')

/-! ### What is parsed is in the grammar -/

section Sound

variable {buf : Buf} {es s : Nat} {α β : Type}

/-- The errors in a command that the parser reports. -/
def syntaxErrors : List Error :=
  [.panic "missing file for redirection", .panic "syntax", .panic "too many args", .panic "syntax - missing )"]

/-- A parser that starts at `s` reports an error, or it takes tokens with a result as described. -/
def Parses (buf : Buf) (es s : Nat) (Q : List Token → α → Prop) : Except Error (α × Nat) → Prop
  | .ok (a, s') => s' ≤ es ∧ ∃ ts, tokens buf es s = ts ++ tokens buf es s' ∧ Q ts a
  | .error e => e ∈ syntaxErrors

variable {m : Except Error (α × Nat)} {Q : List Token → α → Prop}

theorem Parses.mono {Q Q' : List Token → α → Prop} (hm : Parses buf es s Q m)
    (hQ : ∀ ts a, Q ts a → Q' ts a) : Parses buf es s Q' m := by
  cases m with
  | error e => exact hm
  | ok x =>
    obtain ⟨hle, ts, htokens, ha⟩ := hm
    exact ⟨hle, ts, htokens, hQ ts x.1 ha⟩

theorem Parses.pure {a : α} (hs : s ≤ es) (ha : Q [] a) : Parses buf es s Q (.ok (a, s)) := ⟨hs, [], rfl, ha⟩

theorem Parses.report {e : Error} (he : e ∈ syntaxErrors) : Parses buf es s Q (.error e) := he

/-- One parser after another. -/
theorem Parses.bind {Q' : List Token → β → Prop} {f : α × Nat → Except Error (β × Nat)} (hm : Parses buf es s Q m)
    (hf : ∀ a s' ts, s' ≤ es → tokens buf es s = ts ++ tokens buf es s' → Q ts a →
      Parses buf es s' (fun us b => Q' (ts ++ us) b) (f (a, s'))) : Parses buf es s Q' (m >>= f) := by
  cases m with
  | error e => exact hm
  | ok x =>
    obtain ⟨a, s'⟩ := x
    obtain ⟨hle, ts, htokens, ha⟩ := hm
    have hnext := hf a s' ts hle htokens ha
    show Parses buf es s Q' (f (a, s'))
    cases hres : f (a, s') with
    | error e =>
      rw [hres] at hnext
      exact hnext
    | ok y =>
      rw [hres] at hnext
      obtain ⟨hle', us, htokens', hb⟩ := hnext
      refine ⟨hle', ts ++ us, ?_, hb⟩
      rw [htokens, htokens', append_assoc]

/-- `peek` moves on over blanks. -/
theorem Parses.skip (ht : Terminated buf es) (hs : s ≤ es)
    (hm : Parses buf es (skipBlanks buf es s) Q m) : Parses buf es s Q m := by
  cases m with
  | error e => exact hm
  | ok x =>
    obtain ⟨hle, ts, htokens, ha⟩ := hm
    rw [tokens_skipBlanks ht hs] at htokens
    exact ⟨hle, ts, htokens, ha⟩

/-- `gettoken` takes the first token. -/
theorem Parses.token (ht : Terminated buf es) (hs : s ≤ es) (hne : kindAt buf es s ≠ .nul)
    (hm : Parses buf es (gettoken buf es s).2 (fun ts a => Q ((gettoken buf es s).1 :: ts) a) m) :
    Parses buf es s Q m := by
  cases m with
  | error e => exact hm
  | ok x =>
    obtain ⟨hle, ts, htokens, ha⟩ := hm
    refine ⟨hle, (gettoken buf es s).1 :: ts, ?_, ha⟩
    rw [tokens_cons ht hs hne, htokens]
    rfl

theorem redirOf_isSome {k : Kind} (f : Token) (hk : k ∈ [Kind.lt, .gt, .plus]) : ∃ r, redirOf k f = some r := by
  simp only [mem_cons, not_mem_nil, or_false] at hk
  rcases hk with rfl | rfl | rfl <;> exact ⟨_, rfl⟩

section

variable (ht : Terminated buf es)
include ht

theorem kindAt_skipBlanks (hs : s ≤ es) : kindAt buf es (skipBlanks buf es s) = first (tokens buf es s) := by
  rw [first_tokens ht hs]
  unfold kindAt
  rw [gettoken_skipBlanks hs]

theorem length_gettoken (hs : s ≤ es) (hne : kindAt buf es s ≠ .nul) :
    (tokens buf es s).length = (tokens buf es (gettoken buf es s).2).length + 1 := by
  rw [tokens_cons ht hs hne]
  rfl

/-- What `gettoken` takes after `peek` has seen a token of a kind. -/
theorem taken (hs : s ≤ es) {k : Kind} (hfirst : first (tokens buf es s) = k) (hk : k ≠ .nul) :
    kindAt buf es (skipBlanks buf es s) = k ∧ kindAt buf es (skipBlanks buf es s) ≠ .nul ∧
      (gettoken buf es (skipBlanks buf es s)).2 ≤ es ∧ (tokens buf es (skipBlanks buf es s)).length =
        (tokens buf es (gettoken buf es (skipBlanks buf es s)).2).length + 1 := by
  have hs₁ : skipBlanks buf es s ≤ es := skipBlanks_le hs
  have hkind := (kindAt_skipBlanks ht hs).trans hfirst
  have hne : kindAt buf es (skipBlanks buf es s) ≠ .nul := hkind ▸ hk
  exact ⟨hkind, hne, gettoken_le ht hs₁, length_gettoken ht hs₁ hne⟩

theorem parses_redirs (fuel : Nat) (rs : List Redir) (hs : s ≤ es) (hfuel : (tokens buf es s).length < fuel) :
    Parses buf es s (fun ts rs' => ∃ rs₁, rs' = rs ++ rs₁ ∧ Redirs ts rs₁) (parseredirs buf es fuel rs s) := by
  induction fuel generalizing rs s with
  | zero => exact absurd hfuel (Nat.not_lt_zero _)
  | succ fuel ih =>
    have hs₁ : skipBlanks buf es s ≤ es := skipBlanks_le hs
    apply Parses.skip ht hs
    rw [← tokens_skipBlanks ht hs] at hfuel
    unfold parseredirs
    dsimp only
    rw [peek_snd]
    split
    · rename_i hmore
      have hkind : kindAt buf es (skipBlanks buf es s) ∈ [Kind.lt, .gt, .plus] := by
        rw [kindAt_skipBlanks ht hs]
        exact (peek_redir ht hs).1 hmore
      have hne : kindAt buf es (skipBlanks buf es s) ≠ .nul := by
        intro heq
        rw [heq] at hkind
        exact absurd hkind (by decide)
      rw [length_gettoken ht hs₁ hne] at hfuel
      have hs₂ := gettoken_le ht hs₁
      apply Parses.token ht hs₁ hne
      split
      · exact Parses.report (by decide)
      · rename_i hword
        rw [not_not] at hword
        have hne₂ : kindAt buf es (gettoken buf es (skipBlanks buf es s)).2 ≠ .nul := by
          unfold kindAt
          rw [hword]
          decide
        rw [length_gettoken ht hs₂ hne₂] at hfuel
        apply Parses.token ht hs₂ hne₂
        obtain ⟨r, hr⟩ := redirOf_isSome (gettoken buf es (gettoken buf es (skipBlanks buf es s)).2).1 hkind
        have hr' : redirOf (gettoken buf es (skipBlanks buf es s)).1.kind
            (gettoken buf es (gettoken buf es (skipBlanks buf es s)).2).1 = some r := hr
        rw [hr']
        refine (ih (rs ++ [r]) (gettoken_le ht hs₂) (by omega)).mono ?_
        intro ts rs' hrs'
        obtain ⟨rs₁, rfl, hrs₁⟩ := hrs'
        exact ⟨r :: rs₁, append_assoc .., .cons hr' hword hrs₁⟩
    · refine Parses.pure hs₁ ⟨[], ?_, .nil⟩
      rw [append_nil]

theorem parses_args (fuel : Nat) (argv : List Word) (rs : List Redir) (hs : s ≤ es)
    (hmax : argv.length ≤ MAXARGS - 1) (hfuel : (tokens buf es s).length < fuel) :
    Parses buf es s (fun ts c => ∃ ws rs₁, Args ts ws rs₁ ∧ (argv ++ ws).length ≤ MAXARGS - 1 ∧
      c = wrap (rs ++ rs₁) (.exec (argv ++ ws))) (parseargs buf es fuel argv rs s) := by
  induction fuel generalizing argv rs s with
  | zero => exact absurd hfuel (Nat.not_lt_zero _)
  | succ fuel ih =>
    have hs₁ : skipBlanks buf es s ≤ es := skipBlanks_le hs
    have hdone : Args [] [] [] ∧ (argv ++ []).length ≤ MAXARGS - 1 ∧
        wrap rs (.exec argv) = wrap (rs ++ []) (.exec (argv ++ [])) := by
      rw [append_nil, append_nil]
      exact ⟨.nil, hmax, rfl⟩
    apply Parses.skip ht hs
    rw [← tokens_skipBlanks ht hs] at hfuel
    unfold parseargs
    dsimp only
    rw [peek_snd]
    split
    · exact Parses.pure hs₁ ⟨[], [], hdone⟩
    · split
      · rename_i hnul
        have hlast : tokens buf es (skipBlanks buf es s) = [] := tokens_of_nul hnul
        refine ⟨gettoken_le ht hs₁, [], ?_, [], [], hdone⟩
        rw [hlast, gettoken_of_nul ht hs₁ hnul, tokens_end ht]
        rfl
      · rename_i hne
        split
        · exact Parses.report (by decide)
        · rename_i hword
          rw [not_not] at hword
          split
          · exact Parses.report (by decide)
          · rename_i hroom
            rw [length_gettoken ht hs₁ hne] at hfuel
            have hs₂ := gettoken_le ht hs₁
            apply Parses.token ht hs₁ hne
            refine Parses.bind (parses_redirs ht fuel rs hs₂ (by omega)) ?_
            intro rs' s₃ ts hs₃ htokens hrs'
            obtain ⟨rs₁, rfl, hrs₁⟩ := hrs'
            rw [htokens, length_append] at hfuel
            have hmax' : (argv ++ [(gettoken buf es (skipBlanks buf es s)).1.toWord]).length ≤ MAXARGS - 1 := by
              rw [length_append, length_singleton]
              unfold MAXARGS at hroom ⊢
              omega
            refine (ih _ (rs ++ rs₁) hs₃ hmax' (by omega)).mono ?_
            intro us c hc
            obtain ⟨ws, rs₂, hargs, hlen, rfl⟩ := hc
            refine ⟨(gettoken buf es (skipBlanks buf es s)).1.toWord :: ws, rs₁ ++ rs₂, ?_, ?_, ?_⟩
            · exact .cons hword hrs₁ hargs
            · rw [append_assoc] at hlen
              exact hlen
            · rw [append_assoc, append_assoc]
              rfl

theorem parses_backs (fuel : Nat) (c : Cmd) (hs : s ≤ es) (hfuel : (tokens buf es s).length < fuel) :
    Parses buf es s (fun ts c' => (∀ a ∈ ts, a.kind = .amp) ∧ c' = backs ts.length c) (parsebacks buf es fuel c s) := by
  induction fuel generalizing c s with
  | zero => exact absurd hfuel (Nat.not_lt_zero _)
  | succ fuel ih =>
    have hs₁ : skipBlanks buf es s ≤ es := skipBlanks_le hs
    apply Parses.skip ht hs
    rw [← tokens_skipBlanks ht hs] at hfuel
    unfold parsebacks
    dsimp only
    rw [peek_snd]
    split
    · rename_i hmore
      obtain ⟨hkind, hne, hs₂, hlen⟩ := taken ht hs ((peek_amp ht hs).1 hmore) (by decide)
      apply Parses.token ht hs₁ hne
      refine (ih (.back c) hs₂ (by omega)).mono ?_
      intro ts c' hts
      refine ⟨?_, hts.2⟩
      intro a ha
      cases mem_cons.1 ha with
      | inl heq =>
        rw [heq]
        exact hkind
      | inr hmem => exact hts.1 a hmem
    · exact Parses.pure hs₁ ⟨nofun, rfl⟩

end

/-- The four functions of the descent, with enough fuel. -/
structure Descends (buf : Buf) (es fuel : Nat) : Prop where
  line : ∀ s, s ≤ es → 4 * (tokens buf es s).length + 4 ≤ fuel →
    Parses buf es s (Derives .line) (parseline buf es fuel s)
  pipe : ∀ s, s ≤ es → 4 * (tokens buf es s).length + 3 ≤ fuel →
    Parses buf es s (Derives .pipe) (parsepipe buf es fuel s)
  exec : ∀ s, s ≤ es → 4 * (tokens buf es s).length + 2 ≤ fuel →
    Parses buf es s (Derives .exec) (parseexec buf es fuel s)
  block : ∀ s, s ≤ es → first (tokens buf es s) = .lpar → 4 * (tokens buf es s).length + 1 ≤ fuel →
    Parses buf es s (Derives .exec) (parseblock buf es fuel s)

variable (ht : Terminated buf es)
include ht

theorem Descends.parseline {fuel : Nat} (ih : Descends buf es fuel) (hs : s ≤ es)
    (hfuel : 4 * (tokens buf es s).length + 4 ≤ fuel + 1) :
    Parses buf es s (Derives .line) (parseline buf es (fuel + 1) s) := by
  unfold Sh.parseline
  refine Parses.bind (ih.pipe s hs (by omega)) ?_
  intro c s₁ ts hs₁ htokens hpipe
  rw [htokens, length_append] at hfuel
  refine Parses.bind (parses_backs ht fuel c hs₁ (by omega)) ?_
  intro c' s₂ as hs₂ htokens₂ hbacks
  obtain ⟨has, rfl⟩ := hbacks
  rw [htokens₂, length_append] at hfuel
  have hs₃ : skipBlanks buf es s₂ ≤ es := skipBlanks_le hs₂
  apply Parses.skip ht hs₂
  rw [← tokens_skipBlanks ht hs₂] at hfuel
  dsimp only
  rw [peek_snd]
  split
  · rename_i hmore
    obtain ⟨hkind, hne, hs₄, hlen⟩ := taken ht hs₂ ((peek_semi ht hs₂).1 hmore) (by decide)
    apply Parses.token ht hs₃ hne
    refine Parses.bind (ih.line _ hs₄ (by omega)) ?_
    intro right s₅ us hs₅ _ hline
    refine Parses.pure hs₅ ?_
    rw [append_nil]
    exact .list hpipe has hkind hline
  · refine Parses.pure hs₃ ?_
    rw [append_nil]
    exact .single hpipe has

theorem Descends.parsepipe {fuel : Nat} (ih : Descends buf es fuel) (hs : s ≤ es)
    (hfuel : 4 * (tokens buf es s).length + 3 ≤ fuel + 1) :
    Parses buf es s (Derives .pipe) (parsepipe buf es (fuel + 1) s) := by
  unfold Sh.parsepipe
  refine Parses.bind (ih.exec s hs (by omega)) ?_
  intro c s₁ ts hs₁ htokens hexec
  rw [htokens, length_append] at hfuel
  have hs₂ : skipBlanks buf es s₁ ≤ es := skipBlanks_le hs₁
  apply Parses.skip ht hs₁
  rw [← tokens_skipBlanks ht hs₁] at hfuel
  dsimp only
  rw [peek_snd]
  split
  · rename_i hmore
    obtain ⟨hkind, hne, hs₃, hlen⟩ := taken ht hs₁ ((peek_bar ht hs₁).1 hmore) (by decide)
    apply Parses.token ht hs₂ hne
    refine Parses.bind (ih.pipe _ hs₃ (by omega)) ?_
    intro right s₄ us hs₄ _ hpipe
    refine Parses.pure hs₄ ?_
    rw [append_nil]
    exact .pipe hexec hkind hpipe
  · refine Parses.pure hs₂ ?_
    rw [append_nil]
    exact .last hexec

theorem Descends.parseblock {fuel : Nat} (ih : Descends buf es fuel) (hs : s ≤ es)
    (hlpar : first (tokens buf es s) = .lpar) (hfuel : 4 * (tokens buf es s).length + 1 ≤ fuel + 1) :
    Parses buf es s (Derives .exec) (parseblock buf es (fuel + 1) s) := by
  unfold Sh.parseblock
  have hs₁ : skipBlanks buf es s ≤ es := skipBlanks_le hs
  apply Parses.skip ht hs
  rw [← tokens_skipBlanks ht hs] at hfuel
  dsimp only
  rw [peek_snd]
  split
  · rename_i hopen
    rw [Bool.not_eq_true', Bool.eq_false_iff, Ne, peek_lpar ht hs] at hopen
    exact absurd hlpar hopen
  · obtain ⟨hkind, hne, hs₂, hlen⟩ := taken ht hs hlpar (by decide)
    apply Parses.token ht hs₁ hne
    refine Parses.bind (ih.line _ hs₂ (by omega)) ?_
    intro c s₃ ts hs₃ htokens hline
    rw [hlen, htokens, length_append] at hfuel
    have hs₄ : skipBlanks buf es s₃ ≤ es := skipBlanks_le hs₃
    apply Parses.skip ht hs₃
    rw [← tokens_skipBlanks ht hs₃] at hfuel
    dsimp only
    rw [peek_snd]
    split
    · exact Parses.report (by decide)
    · rename_i hclosed
      rw [Bool.not_eq_true', Bool.not_eq_false] at hclosed
      obtain ⟨hkind₄, hne₄, hs₅, hlen₄⟩ := taken ht hs₃ ((peek_rpar ht hs₃).1 hclosed) (by decide)
      apply Parses.token ht hs₄ hne₄
      refine Parses.bind (parses_redirs ht fuel [] hs₅ (by omega)) ?_
      intro rs s₆ us hs₆ _ hrs
      obtain ⟨rs₁, rfl, hredirs⟩ := hrs
      refine Parses.pure hs₆ ?_
      rw [append_nil]
      exact .block hkind hline hkind₄ hredirs

theorem Descends.parseexec {fuel : Nat} (ih : Descends buf es fuel) (hs : s ≤ es)
    (hfuel : 4 * (tokens buf es s).length + 2 ≤ fuel + 1) :
    Parses buf es s (Derives .exec) (parseexec buf es (fuel + 1) s) := by
  unfold Sh.parseexec
  have hs₁ : skipBlanks buf es s ≤ es := skipBlanks_le hs
  apply Parses.skip ht hs
  rw [← tokens_skipBlanks ht hs] at hfuel
  dsimp only
  rw [peek_snd]
  split
  · rename_i hblock
    apply ih.block _ hs₁ _ (by omega)
    rw [tokens_skipBlanks ht hs]
    exact (peek_lpar ht hs).1 hblock
  · refine Parses.bind (parses_redirs ht fuel [] hs₁ (by omega)) ?_
    intro rs s₂ ts hs₂ htokens hrs
    obtain ⟨rs₁, rfl, hredirs⟩ := hrs
    rw [htokens, length_append] at hfuel
    refine (parses_args ht fuel [] rs hs₂ (Nat.zero_le _) (by omega)).mono ?_
    intro us c hc
    obtain ⟨ws, rs₂, hargs, hmax, rfl⟩ := hc
    exact .simple hredirs hargs hmax

/-- With enough fuel, the parser stops, and what it takes is in the grammar. -/
theorem descends (fuel : Nat) : Descends buf es fuel := by
  induction fuel with
  | zero => exact ⟨fun s _ h => by omega, fun s _ h => by omega, fun s _ h => by omega, fun s _ _ h => by omega⟩
  | succ fuel ih =>
    exact ⟨fun s hs h => ih.parseline ht hs h, fun s hs h => ih.parsepipe ht hs h,
      fun s hs h => ih.parseexec ht hs h, fun s hs hlpar h => ih.parseblock ht hs hlpar h⟩

end Sound

end Sh

end Xv6
