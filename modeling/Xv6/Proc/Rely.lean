import Xv6.Proc.Invariant

/-! What a thread may rely on while other threads run: the locks it holds, the slots under them, and what
is its own. Everything it knows stays so. -/

namespace Xv6

open Lib
open Function (update update_of_ne update_self)

namespace Table

variable {N C : Nat}

/-- The slot is as the thread knows it. -/
structure Matches (s : Table N C) (i : Fin N) (h : Slot N) : Prop where
  val : s.proc i = h.val
  exec : h.exec = true ↔ ∃ c, s.cur c = .proc i
  saved : s.saved i = h.saved
  nap : s.nap i = h.nap

/-- The process neither sleeps on address `a` nor is about to, with lock `k` given up. -/
def Quiet (s : Table N C) (k a : Nat) (j : Fin N) : Prop := s.nap j ≠ some k ∧ ¬ (s.proc j).Sleeps k a

/-- CPU `c` was switched to thread `t`, with the lock of the process it was switched to or from; `o` is `c->proc`. -/
def Arrives (s : Table N C) (o : Option (Fin N)) (c : Fin C) : Thread N C → Prop
  | .proc p => (∀ l, s.lock l = some c ↔ l = .proc p) ∧ (s.proc p).state = .running ∧ s.saved p = false
  | .sched _ => ∃ i, o = some i ∧ (∀ l, s.lock l = some c ↔ l = .proc i) ∧ (∀ c', s.cur c' ≠ .proc i) ∧
      s.saved i = true ∧ (s.proc i).state ≠ .running ∧ (s.proc i).state ≠ .unused

/-- What a process knows of itself and its children is so. -/
structure Owns (init : Fin N) (s : Table N C) (p : Fin N) (ρ : Know N C) : Prop where
  live : ρ.live = true → (s.proc p).Live ∧ (s.proc p).birth = ρ.birth ∧
    ((s.proc p).parent = ρ.orig ∨ (s.proc p).parent = some init)
  kid : ∀ {i}, ρ.kid i = some true → (s.proc i).parent = some p
  nokid : ∀ {i}, ρ.kid i = some false → p ≠ init ∧ (s.proc i).parent ≠ some p
  seen : ∀ {i}, ρ.seen i → (ρ.held p).isSome = true ∧
    (p ≠ init → (s.proc i).parent = some p → (s.proc i).state ≠ .zombie)
  arg : s.arg p = ρ.arg
  wait : s.wait p = ρ.wait
  proc : ρ.proc = none

/-- What a thread knows is so. -/
structure Knows (init : Fin N) (s : Table N C) (t : Thread N C) (ρ : Know N C) : Prop where
  me : ρ.me = t
  on : ρ.on = true → ∃ c, s.cur c = t ∧ ∀ l, s.lock l = some c ↔ ρ.has l = true
  off : ρ.on = false → ρ.Bare ∧ ∀ c, s.cur c = t → s.Arrives ρ.proc c t
  slot : ∀ {i h}, ρ.held i = some h → s.Matches i h
  own : ∀ {p}, t = .proc p → Owns init s p ρ
  proc : ∀ {c}, t = .sched c → s.cproc c = ρ.proc
  quiet : ∀ {k}, ρ.lk = some k → ∀ {j a}, ρ.quiet j a → s.Quiet k a j

/-- A slot that stays as it is. -/
structure Same (s s' : Table N C) (i : Fin N) : Prop where
  proc : s'.proc i = s.proc i
  cur : ∀ c, s'.cur c = .proc i ↔ s.cur c = .proc i
  saved : s'.saved i = s.saved i
  nap : s'.nap i = s.nap i

/-- What stays of a process and its children. -/
structure OwnStays (init : Fin N) (s s' : Table N C) (p : Fin N) : Prop where
  live : (s.proc p).Live → (s'.proc p).Live ∧ (s'.proc p).birth = (s.proc p).birth ∧
    ((s'.proc p).parent = (s.proc p).parent ∨ (s'.proc p).parent = some init)
  kid : ∀ {i}, (s.proc i).parent = some p → (s'.proc i).parent = some p
  nokid : p ≠ init → ∀ {i}, (s.proc i).parent ≠ some p → (s'.proc i).parent ≠ some p
  seen : p ≠ init → ∀ {c}, s.cur c = .proc p → s.lock (.proc p) = some c → ∀ {i},
    ((s.proc i).parent = some p → (s.proc i).state ≠ .zombie) →
      (s'.proc i).parent = some p → (s'.proc i).state ≠ .zombie
  arg : s'.arg p = s.arg p
  wait : s'.wait p = s.wait p

/-- What a thread may rely on. -/
structure Rely (init : Fin N) (q : Thread N C) (s s' : Table N C) : Prop where
  cur : ∀ {c}, s.cur c = q → s'.cur c = q
  lock : ∀ {c}, s.cur c = q → ∀ l, s'.lock l = some c ↔ s.lock l = some c
  slot : ∀ {c i}, s.cur c = q → s.lock (.proc i) = some c → s.Same s' i
  arrive : ∀ {c}, s'.cur c = q → s.cur c = q ∨
    ∀ o, (∀ d, q = .sched d → s.cproc d = o) → s'.Arrives o c q
  own : ∀ {p}, q = .proc p → OwnStays init s s' p
  cproc : ∀ {c}, q = .sched c → s'.cproc c = s.cproc c
  quiet : ∀ {c k}, s.cur c = q → s.lock (.lk k) = some c → ∀ {j a}, s.Quiet k a j → s'.Quiet k a j

variable {s s' s'' : Table N C} {init : Fin N} {q : Thread N C} {ρ : Know N C} {c : Fin C} {i p : Fin N} {tidy : Prop}

theorem Matches.same {h : Slot N} (hm : s.Matches i h) (hs : s.Same s' i) : s'.Matches i h where
  val := hs.proc.trans hm.val
  exec := by
    rw [hm.exec]
    exact exists_congr fun c => (hs.cur c).symm
  saved := hs.saved.trans hm.saved
  nap := hs.nap.trans hm.nap

theorem Arrives.same {o : Option (Fin N)} (h : s.Arrives o c q) (hcur : s.cur c = q)
    (hr : Rely init q s s') : s'.Arrives o c q := by
  cases q with
  | proc p =>
    obtain ⟨hlock, hstate, hsaved⟩ := h
    have hs := hr.slot hcur ((hlock _).2 rfl)
    refine ⟨fun l => (hr.lock hcur l).trans (hlock l), ?_, hs.saved.trans hsaved⟩
    rw [hs.proc]
    exact hstate
  | sched d =>
    obtain ⟨i, ho, hlock, hexec, hsaved, hrun, hused⟩ := h
    have hs := hr.slot hcur ((hlock _).2 rfl)
    refine ⟨i, ho, fun l => (hr.lock hcur l).trans (hlock l), fun c' h' => hexec c' ((hs.cur c').1 h'),
      hs.saved.trans hsaved, ?_⟩
    rw [hs.proc]
    exact ⟨hrun, hused⟩

theorem Owns.stays (h : Owns init s p ρ) (hr : OwnStays init s s' p)
    (hself : (ρ.held p).isSome = true → ∃ c, s.cur c = .proc p ∧ s.lock (.proc p) = some c) :
    Owns init s' p ρ where
  live := by
    intro hlive
    obtain ⟨hl, hbirth, hparent⟩ := h.live hlive
    obtain ⟨hl', hbirth', hparent'⟩ := hr.live hl
    refine ⟨hl', hbirth'.trans hbirth, ?_⟩
    rcases hparent' with hsame | hinit
    · rw [hsame]
      exact hparent
    · exact Or.inr hinit
  kid := fun hi => hr.kid (h.kid hi)
  nokid := fun hi => ⟨(h.nokid hi).1, hr.nokid (h.nokid hi).1 (h.nokid hi).2⟩
  seen := by
    intro i hi
    obtain ⟨hheld, hz⟩ := h.seen hi
    obtain ⟨c, hcur, hlock⟩ := hself hheld
    exact ⟨hheld, fun hp => hr.seen hp hcur hlock (hz hp)⟩
  arg := hr.arg.trans h.arg
  wait := hr.wait.trans h.wait
  proc := h.proc

section

variable (h : Knows init s q ρ)
include h

theorem Knows.of_has {l : LockId N} (hl : ρ.has l = true) : ∃ c, s.cur c = q ∧ s.lock l = some c := by
  cases hon : ρ.on with
  | true =>
    obtain ⟨c, hcur, hlock⟩ := h.on hon
    exact ⟨c, hcur, (hlock l).2 hl⟩
  | false =>
    obtain ⟨⟨hheld, hpid, hlk⟩, _⟩ := h.off hon
    cases l with
    | proc i => rw [Know.has, hheld] at hl; cases hl
    | pid => rw [Know.has, hpid] at hl; cases hl
    | lk k => rw [Know.has, hlk] at hl; cases hl

theorem Knows.of_held {hs : Slot N} (hheld : ρ.held i = some hs) : ∃ c, s.cur c = q ∧ s.lock (.proc i) = some c := by
  apply h.of_has
  rw [Know.has, hheld]
  rfl

theorem Knows.of_lk {k : Nat} (hlk : ρ.lk = some k) : ∃ c, s.cur c = q ∧ s.lock (.lk k) = some c := by
  apply h.of_has
  rw [Know.has, hlk]
  exact beq_self_eq_true _

/-- What a thread knows stays so while others run. -/
theorem Knows.rely (hr : Rely init q s s') : Knows init s' q ρ where
  me := h.me
  on := by
    intro hon
    obtain ⟨c, hcur, hlock⟩ := h.on hon
    exact ⟨c, hr.cur hcur, fun l => (hr.lock hcur l).trans (hlock l)⟩
  off := by
    intro hoff
    refine ⟨(h.off hoff).1, ?_⟩
    intro c hcur'
    rcases hr.arrive hcur' with hcur | hnew
    · exact ((h.off hoff).2 c hcur).same hcur hr
    · exact hnew _ fun d hd => h.proc hd
  slot := by
    intro i hs hheld
    obtain ⟨c, hcur, hlock⟩ := h.of_held hheld
    exact (h.slot hheld).same (hr.slot hcur hlock)
  own := by
    intro p hp
    apply (h.own hp).stays (hr.own hp)
    intro hself
    rw [← hp]
    exact h.of_has hself
  proc := fun hc => (hr.cproc hc).trans (h.proc hc)
  quiet := by
    intro k hk j a hj
    obtain ⟨c, hcur, hlock⟩ := h.of_lk hk
    exact hr.quiet hcur hlock (h.quiet hk hj)

end

/-! ### What other threads do -/

theorem OwnStays.of_eq (hproc : s'.proc = s.proc) (harg : s'.arg p = s.arg p)
    (hwait : s'.wait p = s.wait p) : OwnStays init s s' p := by
  constructor
  case live => rw [hproc]; exact fun hl => ⟨hl, rfl, Or.inl rfl⟩
  case kid => rw [hproc]; exact fun hi => hi
  case nokid => rw [hproc]; exact fun _ _ hi => hi
  case seen => rw [hproc]; exact fun _ _ _ _ _ hi => hi
  case arg => exact harg
  case wait => exact hwait

/-- A step on CPU `c` that changes neither slots nor what the CPUs execute. -/
structure Frame (c : Fin C) (s s' : Table N C) : Prop where
  proc : s'.proc = s.proc
  cur : s'.cur = s.cur
  cproc : s'.cproc = s.cproc
  lock : ∀ {c'}, c' ≠ c → ∀ l, s'.lock l = some c' ↔ s.lock l = some c'
  saved : ∀ i, s.lock (.proc i) = some c ∨ s'.saved i = s.saved i
  nap : ∀ i, s.lock (.proc i) = some c ∨ s'.nap i = s.nap i
  note : ∀ {i k}, s'.nap i = some k → s.nap i = some k ∨ s.lock (.lk k) = some c
  arg : ∀ i, s.cur c = .proc i ∨ s'.arg i = s.arg i
  wait : ∀ i, s.cur c = .proc i ∨ s'.wait i = s.wait i

theorem Frame.rely (h : Frame c s s') (hq : s.cur c ≠ q) : Rely init q s s' := by
  have hne : ∀ {c'}, s.cur c' = q → c' ≠ c := by
    rintro c' hc' rfl
    exact hq hc'
  have hlock : ∀ {c' l}, s.cur c' = q → s.lock l = some c' → s.lock l ≠ some c := by
    intro c' l hc' hl hl'
    rw [hl] at hl'
    exact hne hc' (Option.some.inj hl')
  constructor
  case cur => intro c' hc'; rw [h.cur]; exact hc'
  case lock => exact fun hc' => h.lock (hne hc')
  case slot =>
    intro c' i hc' hl
    constructor
    case proc => rw [h.proc]
    case cur => intro c''; rw [h.cur]
    case saved => exact (h.saved i).resolve_left (hlock hc' hl)
    case nap => exact (h.nap i).resolve_left (hlock hc' hl)
  case arrive => intro c' hc'; rw [h.cur] at hc'; exact Or.inl hc'
  case own =>
    rintro p rfl
    exact .of_eq h.proc ((h.arg p).resolve_left hq) ((h.wait p).resolve_left hq)
  case cproc => intro c' _; rw [h.cproc]
  case quiet =>
    intro c' k hc' hl j a hj
    refine ⟨?_, by rw [h.proc]; exact hj.2⟩
    intro hnap
    rcases h.note hnap with hold | hk
    · exact hj.1 hold
    · exact hlock hc' hl hk

/-- When other threads need not notice that the CPU that has the lock writes a slot. -/
structure Polite (init : Fin N) (c : Fin C) (i : Fin N) (s : Table N C) (v : Proc N) : Prop where
  lock : s.lock (.proc i) = some c
  alive : s.cur c ≠ .proc i → (s.proc i).Live → v.Live ∧ v.birth = (s.proc i).birth ∧
    (v.parent = (s.proc i).parent ∨ v.parent = some init)
  kid : ∀ {p}, s.cur c ≠ .proc p → (s.proc i).parent = some p → v.parent = some p
  nokid : ∀ {p}, p ≠ init → s.cur c ≠ .proc p → v.parent = some p → (s.proc i).parent = some p
  seen : ∀ {p}, p ≠ init → s.lock (.proc p) ≠ some c → v.parent = some p → v.state = .zombie →
    (s.proc i).state = .zombie
  note : ∀ {k a}, v.Sleeps k a → (s.proc i).Sleeps k a ∨ s.nap i = some k

theorem Allowed.polite {v : Proc N} (h : Allowed init tidy c i s v) : Polite init c i s v where
  lock := h.lock
  alive := by
    intro hne hlive
    exact ⟨(h.alive hlive).resolve_right fun hself => hne hself.1,
      h.birth.resolve_right fun hnew => hlive.1 hnew.1, h.kept hne hlive⟩
  kid := fun hne hp => (h.orphan _ hp).resolve_right hne
  nokid := by
    intro p hp hne hparent
    rcases h.parent p hparent with hold | ⟨_, _, _, hinit | hself⟩
    · exact hold
    · exact absurd hinit hp
    · exact absurd hself.1 hne
  seen := by
    intro p hp hlock hparent hz
    apply (h.zombie hz).resolve_right
    intro hnew
    rcases hnew p hparent with hinit | ⟨_, hlock', _⟩
    · exact hp hinit
    · exact hlock hlock'
  note := fun hs => h.note _ _ hs

theorem Polite.rely {v : Proc N} (h : Polite init c i s v) (hq : s.cur c ≠ q) : Rely init q s (s.setProcess i v) := by
  have hother : ∀ {c' l}, s.cur c' = q → s.lock l = some c' → s.lock l ≠ some c := by
    intro c' l hc' hl hl'
    rw [hl, Option.some.injEq] at hl'
    exact hq (hl' ▸ hc')
  have hself : ((s.setProcess i v).proc i) = v := update_self ..
  have hne : ∀ {j}, j ≠ i → (s.setProcess i v).proc j = s.proc j := fun hj => update_of_ne hj ..
  constructor
  case cur => exact fun hc' => hc'
  case lock => exact fun _ _ => Iff.rfl
  case slot =>
    intro c' j hc' hl
    refine ⟨hne ?_, fun _ => Iff.rfl, rfl, rfl⟩
    rintro rfl
    exact hother hc' hl h.lock
  case arrive => exact fun hc' => Or.inl hc'
  case own =>
    rintro p rfl
    constructor
    case live =>
      intro hlive
      by_cases hp : p = i
      · subst hp
        rw [hself]
        exact h.alive hq hlive
      · rw [hne hp]
        exact ⟨hlive, rfl, Or.inl rfl⟩
    case kid =>
      intro j hj
      by_cases hji : j = i
      · subst hji
        rw [hself]
        exact h.kid hq hj
      · rwa [hne hji]
    case nokid =>
      intro hp j hj
      by_cases hji : j = i
      · subst hji
        rw [hself]
        exact fun hv => hj (h.nokid hp hq hv)
      · rwa [hne hji]
    case seen =>
      intro hp c' hc' hl j hj
      by_cases hji : j = i
      · subst hji
        rw [hself]
        intro hv hz
        exact hj (h.nokid hp hq hv) (h.seen hp (hother hc' hl) hv hz)
      · rwa [hne hji]
    case arg => rfl
    case wait => rfl
  case cproc => exact fun _ => rfl
  case quiet =>
    intro c' k hc' hl j a hj
    refine ⟨hj.1, ?_⟩
    by_cases hji : j = i
    · subst hji
      rw [hself]
      intro hs
      exact (h.note hs).elim hj.2 hj.1
    · rw [hne hji]
      exact hj.2

theorem Frame.trans_rely (h : Frame c s s') (hq : s.cur c ≠ q) (hr : Rely init q s' s'') : Rely init q s s'' := by
  have h₁ : Rely init q s s' := h.rely hq
  constructor
  case cur => exact fun hc' => hr.cur (h₁.cur hc')
  case lock => exact fun hc' l => (hr.lock (h₁.cur hc') l).trans (h₁.lock hc' l)
  case slot =>
    intro c' i hc' hl
    have hs := h₁.slot hc' hl
    have hs' := hr.slot (h₁.cur hc') ((h₁.lock hc' _).2 hl)
    exact ⟨hs'.proc.trans hs.proc, fun c'' => (hs'.cur c'').trans (hs.cur c''), hs'.saved.trans hs.saved,
      hs'.nap.trans hs.nap⟩
  case arrive =>
    intro c' hc'
    rw [← h.cur, ← h.cproc]
    exact hr.arrive hc'
  case own =>
    intro p hp
    have ho := h₁.own hp
    have ho' := hr.own hp
    constructor
    case live => rw [← h.proc]; exact ho'.live
    case kid => exact fun hi => ho'.kid (ho.kid hi)
    case nokid => exact fun hp _ hi => ho'.nokid hp (ho.nokid hp hi)
    case seen =>
      intro hp' c' hc' hl i hi
      have hc := h₁.cur (hp ▸ hc')
      rw [hp] at hc
      exact ho'.seen hp' hc ((h₁.lock (hp ▸ hc') _).2 hl) (ho.seen hp' hc' hl hi)
    case arg => exact ho'.arg.trans ho.arg
    case wait => exact ho'.wait.trans ho.wait
  case cproc => exact fun hc => (hr.cproc hc).trans (h₁.cproc hc)
  case quiet =>
    exact fun hc' hl _ _ hj => hr.quiet (h₁.cur hc') ((h₁.lock hc' _).2 hl) (h₁.quiet hc' hl hj)

/-! ### Switching -/

theorem Cpus.sched_ne (h : s.Cpus) {d : Fin C} (hcur : s.cur c = .sched d) (hq : s.cur c ≠ q) : q ≠ .sched c := by
  rintro rfl
  exact hq (h.home hcur ▸ hcur)

/-- A scheduler sets `c->proc`. -/
theorem Cpus.rely_setProc (h : s.Cpus) {d : Fin C} (hcur : s.cur c = .sched d) (hq : s.cur c ≠ q) (o : Option (Fin N)) :
    Rely init q s { s with cproc := update s.cproc c o } where
  cur := fun hc' => hc'
  lock := fun _ _ => Iff.rfl
  slot := fun _ _ => ⟨rfl, fun _ => Iff.rfl, rfl, rfl⟩
  arrive := fun hc' => Or.inl hc'
  own := fun _ => .of_eq rfl rfl rfl
  cproc := by
    intro c' hc'
    have hne : c' ≠ c := by
      rintro rfl
      exact h.sched_ne hcur hq hc'
    exact update_of_ne hne ..
  quiet := fun _ _ _ _ hj => hj

/-- CPU `c` switches to thread `u`, with no lock but that of slot `i`. -/
theorem rely_swtch {u : Thread N C} {saved : Fin N → Bool} (hq : s.cur c ≠ q)
    (hlock : ∀ l, s.lock l = some c ↔ l = .proc i) (hsaved : ∀ j, j ≠ i → saved j = s.saved j)
    (hproc : ∀ {j}, s.cur c = .proc j ∨ u = .proc j → j = i)
    (harrive : ∀ o, (∀ d, u = .sched d → s.cproc d = o) →
      { s with cur := update s.cur c u, saved := saved }.Arrives o c u) :
    Rely init q s { s with cur := update s.cur c u, saved := saved } := by
  have hne : ∀ {c'}, s.cur c' = q → c' ≠ c := by
    rintro c' hc' rfl
    exact hq hc'
  constructor
  case cur => exact fun hc' => (update_of_ne (hne hc') ..).trans hc'
  case lock => exact fun _ _ => Iff.rfl
  case slot =>
    intro c' j hc' hl
    have hj : j ≠ i := by
      rintro rfl
      rw [(hlock _).2 rfl] at hl
      exact hne hc' (Option.some.inj hl).symm
    exact ⟨rfl, update_cur_iff (fun hold => hj (hproc (Or.inl hold))) (fun hu => hj (hproc (Or.inr hu))), hsaved j hj, rfl⟩
  case arrive =>
    intro c' hc'
    by_cases hc : c' = c
    · subst hc
      obtain rfl : u = q := (update_self c' u s.cur).symm.trans hc'
      exact Or.inr harrive
    · exact Or.inl ((update_of_ne hc ..).symm.trans hc')
  case own => exact fun _ => .of_eq rfl rfl rfl
  case cproc => exact fun _ => rfl
  case quiet => exact fun _ _ _ _ hj => hj

end Table

end Xv6
