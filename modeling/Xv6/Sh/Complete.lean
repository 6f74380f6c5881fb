import Xv6.Sh.Grammar

/-! The parser takes every command of the grammar. With one token to look ahead it knows where each part of a command
ends, because of what can follow that part. -/

namespace Xv6

open List Bool

namespace Sh

section Complete

variable {buf : Buf} {es s fuel : Nat} {rest : List Token}

/-- The parser takes the tokens up to `rest`, with result `a`. -/
def Takes (buf : Buf) (es : Nat) (rest : List Token) {α : Type} (a : α) (m : Except Error (α × Nat)) : Prop :=
  ∃ s', s' ≤ es ∧ tokens buf es s' = rest ∧ m = .ok (a, s')

variable {ts : List Token} {ws : List Word} {c : Cmd}

theorem gettoken_of_tokens (ht : Terminated buf es) (hs : s ≤ es) {t : Token} (htokens : tokens buf es s = t :: ts) :
    (gettoken buf es s).1 = t ∧ tokens buf es (gettoken buf es s).2 = ts ∧ (gettoken buf es s).2 ≤ es := by
  have hne : kindAt buf es s ≠ .nul := by
    intro hnul
    rw [tokens_of_nul hnul] at htokens
    cases htokens
  rw [tokens_cons ht hs hne] at htokens
  obtain ⟨h₁, h₂⟩ := List.cons.inj htokens
  exact ⟨h₁, h₂, gettoken_le ht hs⟩

/-- Behind the blanks that `peek` skips. -/
theorem gettoken_of_peek (ht : Terminated buf es) (hs : s ≤ es) {t : Token} (htokens : tokens buf es s = t :: ts) :
    (gettoken buf es (skipBlanks buf es s)).1 = t ∧ tokens buf es (gettoken buf es (skipBlanks buf es s)).2 = ts ∧
      (gettoken buf es (skipBlanks buf es s)).2 ≤ es :=
  gettoken_of_tokens ht (skipBlanks_le hs) ((tokens_skipBlanks ht hs).trans htokens)

theorem takes_redirs (ht : Terminated buf es) (fuel : Nat) {rs₁ : List Redir} (h : Redirs ts rs₁)
    (rs : List Redir) (hs : s ≤ es) (htokens : tokens buf es s = ts ++ rest)
    (hrest : first rest ∉ [Kind.lt, .gt, .plus]) (hfuel : ts.length < fuel) :
    Takes buf es rest (rs ++ rs₁) (parseredirs buf es fuel rs s) := by
  obtain ⟨fuel, rfl⟩ : ∃ k, fuel = k + 1 := ⟨fuel - 1, by omega⟩
  induction h generalizing rs s fuel with
  | nil =>
    refine ⟨skipBlanks buf es s, skipBlanks_le hs, (tokens_skipBlanks ht hs).trans htokens, ?_⟩
    have hpeek : (peek buf es [60, 62] s).1 = false := by
      rw [eq_false_iff, Ne, peek_redir ht hs, htokens]
      exact hrest
    unfold parseredirs
    dsimp only
    rw [hpeek, if_neg Bool.false_ne_true, append_nil]
    rfl
  | @cons t f ts r rs₁ hredir hword hredirs ih =>
    have hkind : t.kind ∈ [Kind.lt, .gt, .plus] := by
      cases hk : t.kind <;> simp_all [redirOf]
    have hpeek : (peek buf es [60, 62] s).1 = true := by
      rw [peek_redir ht hs, htokens]
      exact hkind
    obtain ⟨h₁, htokens₁, hs₁⟩ := gettoken_of_peek ht hs htokens
    obtain ⟨h₂, htokens₂, hs₂⟩ := gettoken_of_tokens ht hs₁ htokens₁
    rw [length_cons, length_cons] at hfuel
    obtain ⟨fuel, rfl⟩ : ∃ k, fuel = k + 1 := ⟨fuel - 1, by omega⟩
    obtain ⟨s', hs', htokens', hparse⟩ := ih (rs ++ [r]) hs₂ htokens₂ fuel (by omega)
    refine ⟨s', hs', htokens', ?_⟩
    rw [append_assoc] at hparse
    unfold parseredirs
    dsimp only
    rw [hpeek, if_pos rfl, peek_snd, h₁, h₂, if_neg (not_not.2 hword), hredir]
    exact hparse

theorem first_args {us : List Token} {rs : List Redir} (h : Args us ws rs) : us = [] ∨ first us = .word := by
  cases h with
  | nil => exact Or.inl rfl
  | cons hword _ _ => exact Or.inr hword

theorem first_append (hne : ts ≠ []) : first (ts ++ rest) = first ts := by
  cases ts with
  | nil => exact absurd rfl hne
  | cons t ts => rfl

theorem takes_args (ht : Terminated buf es) (fuel : Nat) {rs₁ : List Redir}
    (h : Args ts ws rs₁) (argv : List Word) (rs : List Redir) (hs : s ≤ es) (htokens : tokens buf es s = ts ++ rest)
    (hrest : first rest ∈ [Kind.nul, .bar, .rpar, .amp, .semi]) (hmax : (argv ++ ws).length ≤ MAXARGS - 1)
    (hfuel : ts.length < fuel) :
    Takes buf es rest (wrap (rs ++ rs₁) (.exec (argv ++ ws))) (parseargs buf es fuel argv rs s) := by
  obtain ⟨fuel, rfl⟩ : ∃ k, fuel = k + 1 := ⟨fuel - 1, by omega⟩
  induction h generalizing argv rs s fuel with
  | nil =>
    have htokens' : tokens buf es s = rest := htokens
    unfold parseargs
    dsimp only
    rw [peek_snd, append_nil, append_nil]
    by_cases hstop : (peek buf es [124, 41, 38, 59] s).1 = true
    · rw [if_pos hstop]
      exact ⟨skipBlanks buf es s, skipBlanks_le hs, (tokens_skipBlanks ht hs).trans htokens', rfl⟩
    · rw [if_neg hstop]
      have hnul : first rest = .nul := by
        rw [peek_stop ht hs, htokens'] at hstop
        simp only [mem_cons] at hrest hstop
        exact hrest.resolve_right hstop
      have hkind : kindAt buf es (skipBlanks buf es s) = .nul := by
        rw [kindAt_skipBlanks ht hs, htokens', hnul]
      have hnil : rest = [] := by
        rw [← htokens', ← tokens_skipBlanks ht hs, tokens_of_nul hkind]
      have hkind' : (gettoken buf es (skipBlanks buf es s)).1.kind = .nul := hkind
      rw [if_pos hkind']
      refine ⟨_, gettoken_le ht (skipBlanks_le hs), ?_, rfl⟩
      rw [gettoken_of_nul ht (skipBlanks_le hs) hkind, tokens_end ht, hnil]
  | @cons w ts us ws rs₁ rs₂ hword hredirs hargs ih =>
    have htokens₀ : tokens buf es s = w :: (ts ++ (us ++ rest)) := by
      rw [htokens, cons_append, append_assoc]
    have hstop : (peek buf es [124, 41, 38, 59] s).1 = false := by
      rw [eq_false_iff, Ne, peek_stop ht hs, htokens₀]
      show ¬ w.kind ∈ _
      rw [hword]
      decide
    obtain ⟨h₁, htokens₁, hs₁⟩ := gettoken_of_peek ht hs htokens₀
    have hne : w.kind ≠ .nul := by
      rw [hword]
      decide
    have hroom : ¬ argv.length + 1 ≥ MAXARGS := by
      rw [length_append, length_cons] at hmax
      unfold MAXARGS at hmax ⊢
      omega
    rw [length_cons, length_append] at hfuel
    have hfirst : first (us ++ rest) ∉ [Kind.lt, .gt, .plus] := by
      cases first_args hargs with
      | inl hnil =>
        rw [hnil, nil_append]
        intro hmem
        generalize first rest = k at hrest hmem
        cases k <;> simp_all
      | inr hfirst =>
        have hne' : us ≠ [] := by
          intro hnil
          rw [hnil] at hfirst
          cases hfirst
        rw [first_append hne', hfirst]
        decide
    obtain ⟨s₂, hs₂, htokens₂, hparse₂⟩ := takes_redirs ht fuel hredirs rs hs₁ htokens₁ hfirst (by omega)
    obtain ⟨fuel, rfl⟩ : ∃ k, fuel = k + 1 := ⟨fuel - 1, by omega⟩
    have hmax' : ((argv ++ [w.toWord]) ++ ws).length ≤ MAXARGS - 1 := by
      rw [append_assoc]
      exact hmax
    obtain ⟨s₃, hs₃, htokens₃, hparse₃⟩ := ih (argv ++ [w.toWord]) (rs ++ rs₁) hs₂ htokens₂ hmax' fuel (by omega)
    refine ⟨s₃, hs₃, htokens₃, ?_⟩
    rw [append_assoc, append_assoc] at hparse₃
    unfold parseargs
    dsimp only
    rw [hstop, if_neg Bool.false_ne_true, peek_snd, h₁, if_neg hne, if_neg (not_not.2 hword), if_neg hroom, hparse₂]
    exact hparse₃

theorem takes_backs (ht : Terminated buf es) (as : List Token) (has : ∀ a ∈ as, a.kind = .amp) (c : Cmd) (hs : s ≤ es)
    (htokens : tokens buf es s = as ++ rest) (hrest : first rest ≠ .amp) (hfuel : as.length < fuel) :
    Takes buf es rest (backs as.length c) (parsebacks buf es fuel c s) := by
  obtain ⟨fuel, rfl⟩ : ∃ k, fuel = k + 1 := ⟨fuel - 1, by omega⟩
  induction as generalizing c s fuel with
  | nil =>
    refine ⟨skipBlanks buf es s, skipBlanks_le hs, (tokens_skipBlanks ht hs).trans htokens, ?_⟩
    have hpeek : (peek buf es [38] s).1 = false := by
      rw [eq_false_iff, Ne, peek_amp ht hs, htokens]
      exact hrest
    unfold parsebacks
    dsimp only
    rw [hpeek, if_neg Bool.false_ne_true]
    rfl
  | cons a as ih =>
    have hpeek : (peek buf es [38] s).1 = true := by
      rw [peek_amp ht hs, htokens]
      exact has a (mem_cons_self ..)
    obtain ⟨-, htokens₁, hs₁⟩ := gettoken_of_peek ht hs htokens
    rw [length_cons] at hfuel
    obtain ⟨fuel, rfl⟩ : ∃ k, fuel = k + 1 := ⟨fuel - 1, by omega⟩
    obtain ⟨s', hs', htokens', hparse⟩ := ih (fun a' ha' => has a' (mem_cons_of_mem a ha')) (.back c) hs₁
      htokens₁ fuel (by omega)
    refine ⟨s', hs', htokens', ?_⟩
    unfold parsebacks
    dsimp only
    rw [hpeek, if_pos rfl, peek_snd]
    exact hparse

/-- What can follow a part of a command. -/
def Nonterminal.follow : Nonterminal → List Kind
  | .line => [.nul, .rpar]
  | .pipe => [.nul, .rpar, .amp, .semi]
  | .exec => [.nul, .rpar, .amp, .semi, .bar]

/-- The fuel for a part of a command with `k` tokens. -/
def Nonterminal.need : Nonterminal → Nat → Nat
  | .line, k => 4 * k + 4
  | .pipe, k => 4 * k + 3
  | .exec, k => 4 * k + 2

/-- The function for a part of a command. -/
def Nonterminal.parse (buf : Buf) (es : Nat) : Nonterminal → Nat → Nat → Except Error (Cmd × Nat)
  | .line => parseline buf es
  | .pipe => parsepipe buf es
  | .exec => parseexec buf es

/-- The function for a part of a command takes the tokens `ts`, whatever can follow them. -/
def Accepts (buf : Buf) (es : Nat) (nt : Nonterminal) (ts : List Token) (c : Cmd) : Prop :=
  ∀ s rest fuel, s ≤ es → tokens buf es s = ts ++ rest → first rest ∈ nt.follow → nt.need ts.length ≤ fuel →
    Takes buf es rest c (nt.parse buf es fuel s)

theorem not_mem_redir_of_follow {nt : Nonterminal} {k : Kind} (hk : k ∈ nt.follow) : k ∉ [Kind.lt, .gt, .plus] := by
  cases nt <;> cases k <;> simp_all [Nonterminal.follow]

theorem accepts_block (ht : Terminated buf es) {l r : Token} {ts us : List Token} {rs : List Redir}
    (hl : l.kind = .lpar) (hline : Accepts buf es .line ts c) (hr : r.kind = .rpar) (hredirs : Redirs us rs) :
    Accepts buf es .exec (l :: (ts ++ r :: us)) (wrap rs c) := by
  intro s rest fuel hs htokens hrest hfuel
  have hfuel' : 4 * (ts.length + (us.length + 1) + 1) + 2 ≤ fuel := by
    simpa [Nonterminal.need] using hfuel
  obtain ⟨fuel, rfl⟩ : ∃ k, fuel = k + 2 := ⟨fuel - 2, by omega⟩
  have htokens₀ : tokens buf es s = l :: (ts ++ (r :: (us ++ rest))) := by
    rw [htokens, cons_append, append_assoc]
    rfl
  have hq : skipBlanks buf es s ≤ es := skipBlanks_le hs
  have htokensq := (tokens_skipBlanks ht hs).trans htokens₀
  have hpeek : (peek buf es [40] s).1 = true := by
    rw [peek_lpar ht hs, htokens₀]
    exact hl
  have hpeekq : (peek buf es [40] (skipBlanks buf es s)).1 = true := by
    rw [peek_lpar ht hq, htokensq]
    exact hl
  obtain ⟨-, htokens₁, hs₁⟩ := gettoken_of_peek ht hq htokensq
  obtain ⟨s₂, hs₂, htokens₂, hparse₂⟩ := hline _ (r :: (us ++ rest)) fuel hs₁ htokens₁
    (by rw [show first (r :: (us ++ rest)) = .rpar from hr]; decide) (by simp only [Nonterminal.need]; omega)
  have hpeek₂ : (peek buf es [41] s₂).1 = true := by
    rw [peek_rpar ht hs₂, htokens₂]
    exact hr
  obtain ⟨-, htokens₃, hs₃⟩ := gettoken_of_peek ht hs₂ htokens₂
  obtain ⟨s₄, hs₄, htokens₄, hparse₄⟩ := takes_redirs ht fuel hredirs [] hs₃ htokens₃
    (not_mem_redir_of_follow hrest) (by omega)
  refine ⟨s₄, hs₄, htokens₄, ?_⟩
  show parseexec buf es (fuel + 2) s = _
  unfold parseexec
  dsimp only
  rw [hpeek, if_pos rfl, peek_snd]
  unfold parseblock
  dsimp only
  rw [hpeekq, peek_snd]
  have hparse₂' : parseline buf es fuel (gettoken buf es (skipBlanks buf es (skipBlanks buf es s))).2 = .ok (c, s₂) :=
    hparse₂
  simp only [Bool.not_true, false_eq_true, if_false, hparse₂', hparse₄, hpeek₂, peek_snd, bind, Except.bind,
    pure, Except.pure, nil_append]

theorem first_redirs {rs : List Redir} (h : Redirs ts rs) : ts = [] ∨ first ts ∈ [Kind.lt, .gt, .plus] := by
  cases h with
  | nil => exact Or.inl rfl
  | @cons t f ts r rs hredir hword hrest =>
    right
    show t.kind ∈ _
    cases hk : t.kind <;> simp_all [redirOf]

/-- The tokens of redirections and words start with neither a parenthesis nor, once the redirections are taken,
with another redirection. -/
theorem first_simple {ts us : List Token} {rs rs' : List Redir} (hredirs : Redirs ts rs)
    (hargs : Args us ws rs') (hrest : first rest ∈ Nonterminal.exec.follow) :
    first (ts ++ (us ++ rest)) ≠ .lpar ∧ first (us ++ rest) ∉ [Kind.lt, .gt, .plus] := by
  have hargs' : first (us ++ rest) ≠ .lpar ∧ first (us ++ rest) ∉ [Kind.lt, .gt, .plus] := by
    cases us with
    | nil =>
      rw [nil_append]
      refine ⟨?_, not_mem_redir_of_follow hrest⟩
      intro heq
      rw [heq] at hrest
      exact absurd hrest (by decide)
    | cons u us =>
      have hword : u.kind = .word := (first_args hargs).resolve_left (cons_ne_nil u us)
      show u.kind ≠ .lpar ∧ u.kind ∉ _
      rw [hword]
      decide
  refine ⟨?_, hargs'.2⟩
  cases ts with
  | nil => exact hargs'.1
  | cons t ts =>
    have hkind : t.kind ∈ [Kind.lt, .gt, .plus] := (first_redirs hredirs).resolve_left (cons_ne_nil t ts)
    show t.kind ≠ .lpar
    intro heq
    rw [heq] at hkind
    exact absurd hkind (by decide)

variable (ht : Terminated buf es)
include ht

theorem accepts_simple {ts us : List Token} {rs rs' : List Redir}
    (hredirs : Redirs ts rs) (hargs : Args us ws rs') (hmax : ws.length ≤ MAXARGS - 1) :
    Accepts buf es .exec (ts ++ us) (wrap (rs ++ rs') (.exec ws)) := by
  intro s rest fuel hs htokens hrest hfuel
  have hfuel' : 4 * (ts.length + us.length) + 2 ≤ fuel := by
    simpa [Nonterminal.need] using hfuel
  obtain ⟨fuel, rfl⟩ : ∃ k, fuel = k + 1 := ⟨fuel - 1, by omega⟩
  rw [append_assoc] at htokens
  obtain ⟨hlpar, hfirst⟩ := first_simple hredirs hargs hrest
  have hpeek : (peek buf es [40] s).1 = false := by
    rw [eq_false_iff, Ne, peek_lpar ht hs, htokens]
    exact hlpar
  obtain ⟨s₁, hs₁, htokens₁, hparse₁⟩ := takes_redirs ht fuel hredirs [] (skipBlanks_le hs)
    ((tokens_skipBlanks ht hs).trans htokens) hfirst (by omega)
  have hstop : first rest ∈ [Kind.nul, .bar, .rpar, .amp, .semi] :=
    (by decide : ∀ k ∈ Nonterminal.exec.follow, k ∈ [Kind.nul, .bar, .rpar, .amp, .semi]) _ hrest
  obtain ⟨s₂, hs₂, htokens₂, hparse₂⟩ := takes_args ht fuel hargs [] ([] ++ rs) hs₁ htokens₁ hstop hmax (by omega)
  refine ⟨s₂, hs₂, htokens₂, ?_⟩
  show parseexec buf es (fuel + 1) s = _
  unfold parseexec
  dsimp only
  rw [hpeek, if_neg Bool.false_ne_true, peek_snd, hparse₁]
  exact hparse₂

theorem accepts_last (hexec : Accepts buf es .exec ts c) : Accepts buf es .pipe ts c := by
  intro s rest fuel hs htokens hrest hfuel
  have hfuel' : 4 * ts.length + 3 ≤ fuel := hfuel
  obtain ⟨fuel, rfl⟩ : ∃ k, fuel = k + 1 := ⟨fuel - 1, by omega⟩
  have hfollow : first rest ∈ Nonterminal.exec.follow :=
    (by decide : ∀ k ∈ Nonterminal.pipe.follow, k ∈ Nonterminal.exec.follow) _ hrest
  obtain ⟨s₁, hs₁, htokens₁, hparse₁⟩ := hexec s rest fuel hs htokens hfollow (by simp only [Nonterminal.need]; omega)
  have hpeek : (peek buf es [124] s₁).1 = false := by
    rw [eq_false_iff, Ne, peek_bar ht hs₁, htokens₁]
    intro heq
    rw [heq] at hrest
    exact absurd hrest (by decide)
  refine ⟨skipBlanks buf es s₁, skipBlanks_le hs₁, (tokens_skipBlanks ht hs₁).trans htokens₁, ?_⟩
  have hparse₁' : parseexec buf es fuel s = .ok (c, s₁) := hparse₁
  show parsepipe buf es (fuel + 1) s = _
  unfold parsepipe
  simp only [hparse₁', hpeek, peek_snd, bind, Except.bind, pure, Except.pure, false_eq_true, if_false]

theorem accepts_pipe {b : Token} {ts us : List Token} {c c' : Cmd}
    (hexec : Accepts buf es .exec ts c) (hb : b.kind = .bar) (hpipe : Accepts buf es .pipe us c') :
    Accepts buf es .pipe (ts ++ b :: us) (.pipe c c') := by
  intro s rest fuel hs htokens hrest hfuel
  have hfuel' : 4 * (ts.length + (us.length + 1)) + 3 ≤ fuel := by
    simpa [Nonterminal.need] using hfuel
  obtain ⟨fuel, rfl⟩ : ∃ k, fuel = k + 1 := ⟨fuel - 1, by omega⟩
  rw [append_assoc] at htokens
  obtain ⟨s₁, hs₁, htokens₁, hparse₁⟩ := hexec s (b :: (us ++ rest)) fuel hs htokens
    (by rw [show first (b :: (us ++ rest)) = .bar from hb]; decide) (by simp only [Nonterminal.need]; omega)
  have hpeek : (peek buf es [124] s₁).1 = true := by
    rw [peek_bar ht hs₁, htokens₁]
    exact hb
  obtain ⟨-, htokens₂, hs₂⟩ := gettoken_of_peek ht hs₁ htokens₁
  obtain ⟨s₃, hs₃, htokens₃, hparse₃⟩ := hpipe _ rest fuel hs₂ htokens₂ hrest (by simp only [Nonterminal.need]; omega)
  refine ⟨s₃, hs₃, htokens₃, ?_⟩
  have hparse₁' : parseexec buf es fuel s = .ok (c, s₁) := hparse₁
  have hparse₃' : parsepipe buf es fuel (gettoken buf es (skipBlanks buf es s₁)).2 = .ok (c', s₃) := hparse₃
  show parsepipe buf es (fuel + 1) s = _
  unfold parsepipe
  simp only [hparse₁', hpeek, peek_snd, hparse₃', bind, Except.bind, pure, Except.pure, if_true]

/-- A pipeline and the `&` behind it. -/
theorem takes_backs_of_pipe (fuel : Nat) {ts as : List Token}
    (hpipe : Accepts buf es .pipe ts c) (has : ∀ a ∈ as, a.kind = .amp) (hs : s ≤ es)
    (htokens : tokens buf es s = ts ++ (as ++ rest)) (hrest : first rest ∈ [Kind.nul, .rpar, .semi])
    (hfuel : 4 * (ts.length + as.length) + 3 ≤ fuel) :
    ∃ s₁, parsepipe buf es fuel s = .ok (c, s₁) ∧ Takes buf es rest (backs as.length c) (parsebacks buf es fuel c s₁) := by
  have hfollow : first (as ++ rest) ∈ Nonterminal.pipe.follow := by
    cases as with
    | nil =>
      exact (by decide : ∀ k ∈ [Kind.nul, .rpar, .semi], k ∈ Nonterminal.pipe.follow) _ hrest
    | cons a as =>
      rw [show first (a :: as ++ rest) = .amp from has a (mem_cons_self ..)]
      decide
  obtain ⟨s₁, hs₁, htokens₁, hparse₁⟩ := hpipe s (as ++ rest) fuel hs htokens hfollow
    (by simp only [Nonterminal.need]; omega)
  have hamp : first rest ≠ .amp := by
    intro heq
    rw [heq] at hrest
    exact absurd hrest (by decide)
  exact ⟨s₁, hparse₁, takes_backs ht as has c hs₁ htokens₁ hamp (by omega)⟩

theorem accepts_single {ts as : List Token} (hpipe : Accepts buf es .pipe ts c)
    (has : ∀ a ∈ as, a.kind = .amp) : Accepts buf es .line (ts ++ as) (backs as.length c) := by
  intro s rest fuel hs htokens hrest hfuel
  have hfuel' : 4 * (ts.length + as.length) + 4 ≤ fuel := by
    simpa [Nonterminal.need] using hfuel
  obtain ⟨fuel, rfl⟩ : ∃ k, fuel = k + 1 := ⟨fuel - 1, by omega⟩
  rw [append_assoc] at htokens
  have hend : first rest ∈ [Kind.nul, .rpar, .semi] :=
    (by decide : ∀ k ∈ Nonterminal.line.follow, k ∈ [Kind.nul, .rpar, .semi]) _ hrest
  obtain ⟨s₁, hparse₁, s₂, hs₂, htokens₂, hparse₂⟩ := takes_backs_of_pipe ht fuel hpipe has hs htokens hend (by omega)
  have hpeek : (peek buf es [59] s₂).1 = false := by
    rw [eq_false_iff, Ne, peek_semi ht hs₂, htokens₂]
    intro heq
    rw [heq] at hrest
    exact absurd hrest (by decide)
  refine ⟨skipBlanks buf es s₂, skipBlanks_le hs₂, (tokens_skipBlanks ht hs₂).trans htokens₂, ?_⟩
  show parseline buf es (fuel + 1) s = _
  unfold parseline
  simp only [hparse₁, hparse₂, hpeek, peek_snd, bind, Except.bind, pure, Except.pure, false_eq_true, if_false]

theorem accepts_list {t : Token} {ts as us : List Token} {c c' : Cmd}
    (hpipe : Accepts buf es .pipe ts c) (has : ∀ a ∈ as, a.kind = .amp) (hsemi : t.kind = .semi)
    (hline : Accepts buf es .line us c') :
    Accepts buf es .line (ts ++ (as ++ t :: us)) (.list (backs as.length c) c') := by
  intro s rest fuel hs htokens hrest hfuel
  have hfuel' : 4 * (ts.length + (as.length + (us.length + 1))) + 4 ≤ fuel := by
    simpa [Nonterminal.need] using hfuel
  obtain ⟨fuel, rfl⟩ : ∃ k, fuel = k + 1 := ⟨fuel - 1, by omega⟩
  rw [append_assoc, append_assoc] at htokens
  obtain ⟨s₁, hparse₁, s₂, hs₂, htokens₂, hparse₂⟩ := takes_backs_of_pipe ht fuel hpipe has hs htokens
    (by rw [show first (t :: us ++ rest) = .semi from hsemi]; decide) (by omega)
  have hpeek : (peek buf es [59] s₂).1 = true := by
    rw [peek_semi ht hs₂, htokens₂]
    exact hsemi
  obtain ⟨-, htokens₃, hs₃⟩ := gettoken_of_peek ht hs₂ htokens₂
  obtain ⟨s₄, hs₄, htokens₄, hparse₄⟩ := hline _ rest fuel hs₃ htokens₃ hrest (by simp only [Nonterminal.need]; omega)
  refine ⟨s₄, hs₄, htokens₄, ?_⟩
  have hparse₄' : parseline buf es fuel (gettoken buf es (skipBlanks buf es s₂)).2 = .ok (c', s₄) := hparse₄
  show parseline buf es (fuel + 1) s = _
  unfold parseline
  simp only [hparse₁, hparse₂, hpeek, peek_snd, hparse₄', bind, Except.bind, pure, Except.pure, if_true]

theorem accepts_of_derives {nt : Nonterminal} (h : Derives nt ts c) : Accepts buf es nt ts c := by
  induction h with
  | block hl _ hr hredirs ih => exact accepts_block ht hl ih hr hredirs
  | simple hredirs hargs hmax => exact accepts_simple ht hredirs hargs hmax
  | last _ ih => exact accepts_last ht ih
  | pipe _ hb _ ih₁ ih₂ => exact accepts_pipe ht ih₁ hb ih₂
  | single _ has ih => exact accepts_single ht ih has
  | list _ has hsemi _ ih₁ ih₂ => exact accepts_list ht ih₁ has hsemi ih₂

end Complete

end Sh

end Xv6
