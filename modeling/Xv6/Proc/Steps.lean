import Xv6.Proc.Sound

/-! The assignments to slots, the switches between threads, and the proof that the promises of the code are
enough: every step keeps the invariant and what all threads know. -/

namespace Xv6

open Lib Option
open Function (update update_apply update_idem update_of_ne update_self)

variable {N C : Nat}

namespace Table

variable {init : Fin N} {ord tidy : Prop} {s s' : Table N C} {ρ ρ' : Know N C} {t q : Thread N C} {c : Fin C}
  {i p : Fin N} {h : Slot N}

/-! ### Assignments -/

section

variable (hinv : s.Inv init tidy)
include hinv

section

variable (hlock : s.lock (.proc i) = some c)
include hlock

theorem allowed_same {v : Proc N} (hstate : v.state = (s.proc i).state) (hparent : v.parent = (s.proc i).parent)
    (hbirth : v.birth = (s.proc i).birth ∨ (s.proc i).state = .unused ∧ v.parent = none ∧ v.birth ≤ s.clock ∧
      (s.proc init).birth ≤ v.birth) (hxstate : v.state = .zombie → v.xstate = (s.proc i).xstate)
    (hchan : v.state = .sleeping → v.chan = (s.proc i).chan)
    (hnamed : tidy → v.killed = true → v.pid ∈ s.named i) : Allowed init tidy c i s v where
  lock := hlock
  run := fun _ hrun => hstate.trans hrun
  alive := fun hlive => Or.inl (by rwa [Proc.Live, hstate])
  birth := hbirth
  parent := fun m hm => Or.inl (hparent ▸ hm)
  orphan := fun m hm => Or.inl (hparent.trans hm)
  kept := fun _ _ => Or.inl hparent
  first := by
    intro hunused hused
    rw [hstate] at hused
    exact absurd hunused hused
  zombie := fun hz => Or.inl (hstate ▸ hz)
  waits := by
    intro hw
    left
    exact ⟨hstate ▸ hw.1, hchan hw.1 ▸ hw.2⟩
  status := by
    intro hz
    rw [hxstate hz]
    exact hinv.family.status (hstate ▸ hz)
  note := by
    intro k a hs
    left
    exact ⟨hstate ▸ hs.1, hchan hs.1 ▸ hs.2⟩
  named := hnamed

theorem allowed_awake {w : ProcState} (hw : w = .runnable ∨ w = .running)
    (hrun : s.cur c ≠ .proc i → (s.proc i).state = .running → w = .running)
    (hfirst : (s.proc i).state = .unused → (s.proc init).birth ≤ (s.proc i).birth) :
    Allowed init tidy c i s { s.proc i with state := w } where
  lock := hlock
  run := hrun
  alive := by
    intro _
    left
    rcases hw with rfl | rfl <;> simp [Proc.Live]
  birth := Or.inl rfl
  parent := fun m hm => Or.inl hm
  orphan := fun m hm => Or.inl hm
  kept := fun _ _ => Or.inl rfl
  first := fun hunused _ => hfirst hunused
  zombie := fun hz => by simp [show w = _ from hz] at hw
  waits := fun hs => by simp [show w = _ from hs.1] at hw
  status := fun hz => by simp [show w = _ from hz] at hw
  note := fun k a hs => by simp [show w = _ from hs.1] at hw
  named := fun htidy hk => hinv.kills.named htidy hk

theorem allowed_sleep (hcur : s.cur c = .proc i) (hrun : (s.proc i).state = .running)
    (hself : (s.proc i).chan = some (.proc i) → i ≠ init → ∀ j, (s.proc j).parent = some i →
      (s.proc j).state ≠ .zombie) (hother : ∀ k a, (s.proc i).chan = some (.other k a) → s.nap i = some k) :
    Allowed init tidy c i s { s.proc i with state := .sleeping } where
  lock := hlock
  run := fun hne => absurd hcur hne
  alive := fun _ => Or.inl (by simp [Proc.Live])
  birth := Or.inl rfl
  parent := fun m hm => Or.inl hm
  orphan := fun m hm => Or.inl hm
  kept := fun hne => absurd hcur hne
  first := by
    intro hunused
    rw [hunused] at hrun
    cases hrun
  zombie := fun h => by cases h
  waits := fun hw => Or.inr (hself hw.2)
  status := fun h => by cases h
  note := fun k a hs => Or.inr (hother k a hs.2)
  named := fun htidy hk => hinv.kills.named htidy hk

theorem allowed_exit (hcur : s.cur c = .proc i)
    (hrun : (s.proc i).state = .running) (hinit : i ≠ init) (hkid : ∀ j, (s.proc j).parent ≠ some i)
    (harg : (s.proc i).xstate = s.arg i)
    (hparent : ∀ q, (s.proc i).parent = some q → q = init ∨ s.lock (.proc q) = some c ∧ ¬ (s.proc q).Waits q) :
    Allowed init tidy c i s { s.proc i with state := .zombie } where
  lock := hlock
  run := fun hne => absurd hcur hne
  alive := fun _ => Or.inr ⟨hcur, hinit, hkid⟩
  birth := Or.inl rfl
  parent := fun m hm => Or.inl hm
  orphan := fun m hm => Or.inl hm
  kept := fun hne => absurd hcur hne
  first := by
    intro hunused
    rw [hunused] at hrun
    cases hrun
  zombie := by
    intro _
    right
    intro q hq
    exact (hparent q hq).imp_right fun h => ⟨hinv.family.parent_ne hq, h⟩
  waits := fun hw => by cases hw.1
  status := fun _ => harg
  note := fun k a hs => by cases hs.1
  named := fun htidy hk => hinv.kills.named htidy hk

/-- `fork` makes the new process a child of its caller, and `reparent` gives a child to `initproc`. -/
theorem allowed_parent {m : Fin N}
    (hcur : s.cur c = .proc p) (hlive : (s.proc m).Live) (hbirth : (s.proc m).birth < (s.proc i).birth)
    (hm : m = p ∧ (s.proc i).parent = none ∧ (s.proc i).state = .unused ∨ m = init ∧ (s.proc i).parent = some p) :
    Allowed init tidy c i s { s.proc i with parent := some m } where
  lock := hlock
  run := fun _ hrun => hrun
  alive := fun hl => Or.inl hl
  birth := Or.inl rfl
  parent := by
    intro m' hm'
    cases hm'
    right
    refine ⟨?_, hlive, hbirth, ?_⟩
    · rintro rfl
      exact Nat.lt_irrefl _ hbirth
    · rcases hm with ⟨rfl, _, hunused⟩ | ⟨hinit, _⟩
      · exact Or.inr ⟨hcur, by simp [hunused]⟩
      · exact Or.inl hinit
  orphan := by
    intro m' hm'
    rcases hm with ⟨_, hnone, _⟩ | ⟨_, hp⟩
    · rw [hnone] at hm'
      cases hm'
    · cases hp.symm.trans hm'
      exact Or.inr hcur
  kept := by
    intro _ hl
    rcases hm with ⟨_, _, hunused⟩ | ⟨rfl, _⟩
    · exact absurd hunused hl.1
    · exact Or.inr rfl
  first := fun hunused hused => absurd hunused hused
  zombie := fun hz => Or.inl hz
  waits := fun hw => Or.inl hw
  status := fun hz => hinv.family.status hz
  note := fun k a hs => Or.inl hs
  named := fun htidy hk => hinv.kills.named htidy hk

end

end

/-- `freeproc` of a slot that is no live process. -/
theorem allowed_free (hlock : s.lock (.proc i) = some c) (hlive : ¬ (s.proc i).Live)
    (hparent : ∀ m, (s.proc i).parent = some m → s.cur c = .proc m) : Allowed init tidy c i s (s.proc i).free where
  lock := hlock
  run := by
    intro _ hrun
    exact absurd (by simp [Proc.Live, hrun]) hlive
  alive := fun hl => absurd hl hlive
  birth := Or.inl rfl
  parent := fun m hm => by cases hm
  orphan := fun m hm => Or.inr (hparent m hm)
  kept := fun _ hl => absurd hl hlive
  first := fun _ h => absurd rfl h
  zombie := fun h => by cases h
  waits := fun hw => by cases hw.1
  status := fun h => by cases h
  note := fun k a hs => by cases hs.1
  named := fun _ h => by cases h

/-- What a process knows of others when a slot is assigned, of which it then knows whether it is a child. -/
theorem Owns.assign (hown : Owns init s p ρ) {v : Proc N} {o : Option Bool} (hproc : s'.proc = update s.proc i v)
    (hlive : ρ.live = true → p ≠ i) (hkid : o = some true → v.parent = some p)
    (hnokid : o = some false → p ≠ init ∧ v.parent ≠ some p)
    (hseen : p ≠ init → v.parent = some p → v.state ≠ .zombie) (hs : Slot N) (harg : s'.arg = s.arg)
    (hwait : s'.wait = s.wait) :
    Owns init s' p { ρ.hold i hs with kid := update ρ.kid i o } := by
  have hself : s'.proc i = v := by rw [hproc, update_self]
  have hne : ∀ {j}, j ≠ i → s'.proc j = s.proc j := fun hj => by rw [hproc, update_of_ne hj]
  constructor
  case live =>
    intro hl
    rw [hne (hlive hl)]
    exact hown.live hl
  case kid =>
    intro j hj
    by_cases hji : j = i
    · simp only [hji, update_self] at hj
      rw [hji, hself]
      exact hkid hj
    · simp only [update_of_ne hji] at hj
      rw [hne hji]
      exact hown.kid hj
  case nokid =>
    intro j hj
    by_cases hji : j = i
    · simp only [hji, update_self] at hj
      rw [hji, hself]
      exact hnokid hj
    · simp only [update_of_ne hji] at hj
      rw [hne hji]
      exact hown.nokid hj
  case seen =>
    intro j hj
    refine ⟨((hown.hold (i := i) hs).seen hj).1, ?_⟩
    by_cases hji : j = i
    · rw [hji, hself]
      exact hseen
    · rw [hne hji]
      exact (hown.seen hj).2
  case arg => rw [harg]; exact hown.arg
  case wait => rw [hwait]; exact hown.wait
  case proc => exact hown.proc

/-- What a process without children knows when it exits. -/
theorem Owns.exit (hown : Owns init s i ρ) (hkid : ∀ j, ρ.kid j = some false) (hs : Slot N) :
    Owns init (s.setProcess i { s.proc i with state := .zombie }) i { ρ.hold i hs with live := false } := by
  have hsame : ∀ j, ((s.setProcess i { s.proc i with state := .zombie }).proc j).parent = (s.proc j).parent :=
    apply_update_eq rfl
  have hhold := hown.hold (i := i) hs
  constructor
  case live => exact fun h => by cases h
  case kid =>
    intro j hj
    rw [hsame]
    exact hown.kid hj
  case nokid =>
    intro j hj
    rw [hsame]
    exact hown.nokid hj
  case seen =>
    intro j hj
    refine ⟨(hhold.seen hj).1, ?_⟩
    rw [hsame]
    exact fun _ hp => absurd hp (hown.nokid (hkid j)).2
  case arg => exact hown.arg
  case wait => exact hown.wait
  case proc => exact hown.proc

/-! ### Records -/

variable {w : Option Waited}

theorem Knows.record (hk : Knows init s t ρ) {a : Int} (hproc : s'.proc = s.proc)
    (hlock : s'.lock = s.lock) (hcur : s'.cur = s.cur) (hcproc : s'.cproc = s.cproc) (hsaved : s'.saved = s.saved)
    (hnap : s'.nap = s.nap) (harg : ∀ p, t = .proc p → s'.arg p = a) (hwait : ∀ p, t = .proc p → s'.wait p = w) :
    Knows init s' t { ρ with arg := a, wait := w } := by
  have harrives : ∀ {o c}, s.Arrives o c t → s'.Arrives o c t := by
    intro o c h
    unfold Arrives at h ⊢
    rw [hproc, hlock, hcur, hsaved]
    exact h
  constructor
  case me => exact hk.me
  case on => rw [hcur, hlock]; exact hk.on
  case off =>
    rw [hcur]
    exact fun hoff => ⟨(hk.off hoff).1, fun c hc => harrives ((hk.off hoff).2 c hc)⟩
  case slot =>
    exact fun hh => (hk.slot hh).congr (by rw [hproc]) hcur (by rw [hsaved]) (by rw [hnap])
  case own =>
    intro p hp
    have hown := hk.own hp
    constructor
    case live => rw [hproc]; exact hown.live
    case kid => rw [hproc]; exact hown.kid
    case nokid => rw [hproc]; exact hown.nokid
    case seen => rw [hproc]; exact hown.seen
    case arg => exact harg p hp
    case wait => exact hwait p hp
    case proc => exact hown.proc
  case proc => rw [hcproc]; exact hk.proc
  case quiet =>
    unfold Quiet
    rw [hnap, hproc]
    exact hk.quiet

/-- A step that only records something. -/
structure Records (t : Thread N C) (s s' : Table N C) : Prop where
  proc : s'.proc = s.proc
  lock : s'.lock = s.lock
  cur : s'.cur = s.cur
  cproc : s'.cproc = s.cproc
  saved : s'.saved = s.saved
  nap : s'.nap = s.nap
  arg : ∀ i, t = .proc i ∨ s'.arg i = s.arg i
  wait : ∀ i, t = .proc i ∨ s'.wait i = s.wait i

theorem Records.frame (h : Records t s s') (hcur : s.cur c = t) : Frame c s s' where
  proc := h.proc
  cur := h.cur
  cproc := h.cproc
  lock := fun _ _ => by rw [h.lock]
  saved := fun _ => Or.inr (by rw [h.saved])
  nap := fun _ => Or.inr (by rw [h.nap])
  note := fun hn => Or.inl (by rwa [h.nap] at hn)
  arg := fun i => (h.arg i).imp_left hcur.trans
  wait := fun i => (h.wait i).imp_left hcur.trans

theorem kept_record (hk : Knows init s t ρ) (hcur : s.cur c = t) (hr : Records t s s') (hinv : s'.Inv init tidy)
    {a : Int} (harg : ∀ p, t = .proc p → s'.arg p = a)
    (hwait : ∀ p, t = .proc p → s'.wait p = w) : Kept init tidy t s s' { ρ with arg := a, wait := w } where
  inv := hinv
  knows := hk.record hr.proc hr.lock hr.cur hr.cproc hr.saved hr.nap harg hwait
  rely := fun hq => (hr.frame hcur).rely (by rw [hcur]; exact Ne.symm hq)

theorem Inv.record (hinv : s.Inv init tidy) (hr : Records t s s') (hclock : s'.clock = s.clock)
    (harg : ∀ i, (s.proc i).state = .zombie → s'.arg i = s.arg i) (hnoted : s'.noted = s.noted)
    (hwoken : s'.woken = s.woken) (hkills : s'.Kills tidy) (hwaits : ∀ {i w}, w ∈ s'.waits i → w.Good) :
    s'.Inv init tidy where
  cpus := hinv.cpus.congr hr.proc hr.lock hr.cur hr.cproc hr.saved
  family := hinv.family.congr hr.proc hclock.ge harg
  notes := by
    constructor
    case free => rw [hr.lock, hr.nap]; exact hinv.notes.free
    case nap => rw [hr.nap, hnoted, hwoken]; exact hinv.notes.nap
    case sleep => rw [hr.proc, hnoted, hwoken]; exact hinv.notes.sleep
  kills := hkills
  waits := hwaits

theorem Kept.after (hf : Frame c s s') (hcur : s.cur c = t) {s'' : Table N C} (h : Kept init tidy t s' s'' ρ') :
    Kept init tidy t s s'' ρ' where
  inv := h.inv
  knows := h.knows
  rely := fun hq => hf.trans_rely (by rw [hcur]; exact Ne.symm hq) (h.rely hq)

theorem kept_idle (hk : Knows init s t ρ) (hcur : s.cur c = t) (hr : Records t s s') (hinv : s'.Inv init tidy)
    (harg : s'.arg = s.arg) (hwait : s'.wait = s.wait) : Kept init tidy t s s' ρ := by
  have h : Kept init tidy t s s' { ρ with arg := ρ.arg, wait := ρ.wait } := by
    apply kept_record hk hcur hr hinv
    · intro p hp
      rw [harg]
      exact (hk.own hp).arg
    · intro p hp
      rw [hwait]
      exact (hk.own hp).wait
  exact h

/-- A step on what no thread knows about. -/
theorem kept_silent (hinv : s.Inv init tidy) (hk : Knows init s t ρ) (hcur : s.cur c = t) {pid : Int}
    {fresh : Fin N → Bool} {irq : Thread N C → List (List Interrupt)} :
    Kept init tidy t s { s with nextpid := pid, fresh := fresh, irq := irq } ρ := by
  have hr : Records t s { s with nextpid := pid, fresh := fresh, irq := irq } :=
    ⟨rfl, rfl, rfl, rfl, rfl, rfl, fun _ => Or.inr rfl, fun _ => Or.inr rfl⟩
  exact kept_idle hk hcur hr (hinv.record hr rfl (fun _ _ => rfl) rfl rfl
    (hinv.kills.congr rfl (fun _ h => h) rfl rfl) hinv.waits) rfl rfl

/-! ### Assignments by a thread that has the lock of the slot -/

section

variable (hinv : s.Inv init tidy) (hk : Knows init s t ρ) (hcur : s.cur c = t) (hon : ρ.on = true)
  (hheld : ρ.held i = some h)
include hinv hk hcur hon hheld

theorem kept_state {w : ProcState} (hw : Moves init ρ i h w) :
    Kept init tidy t s (s.setProcess i ((s.proc i).set (.state w))) (ρ.assign i h (.state w)) := by
  have hval := (hk.slot hheld).val
  have hlock := hk.lock_held hinv hcur hheld
  have hassign : w ≠ .zombie → ρ.assign i h (.state w) = ρ.hold i { h with val := { s.proc i with state := w } } := by
    intro hz
    rw [hval]
    cases w <;> first | rfl | exact absurd rfl hz
  have hown : ∀ {p}, w ≠ .zombie → w ≠ .unused → t = .proc p → Owns init (s.setProcess i { s.proc i with state := w }) p
        (ρ.hold i { h with val := { s.proc i with state := w } }) := by
    intro p hz hu hp
    apply ((hk.own hp).write (v := { s.proc i with state := w }) rfl ?_ ?_).hold
    · exact fun _ _ => ⟨⟨hu, hz⟩, rfl⟩
    · exact fun h => absurd h hz
  have hme : ∀ {u}, ρ.me = u → s.cur c = u := fun hu => hcur.trans (hk.me.symm.trans hu)
  cases hw with
  | wake hstate =>
    rw [hassign (by simp)]
    refine kept_write hinv hk hcur hon hheld (allowed_awake hinv hlock (Or.inl rfl) ?_ ?_) (hown (by simp) (by simp))
    · rw [hval, hstate]
      simp
    · rw [hval, hstate]
      simp
  | fork hstate hparent =>
    rw [hassign (by simp)]
    rw [← hval] at hparent
    refine kept_write hinv hk hcur hon hheld (allowed_awake hinv hlock (Or.inl rfl) ?_ ?_) (hown (by simp) (by simp))
    · rw [hval, hstate]
      simp
    · obtain ⟨hlive, hlt⟩ := hinv.family.parent hparent
      exact fun _ => Nat.le_of_lt (Nat.lt_of_le_of_lt (hinv.family.first hlive.1) hlt)
  | run _ hstate =>
    rw [hassign (by simp)]
    refine kept_write hinv hk hcur hon hheld (allowed_awake hinv hlock (Or.inr rfl) (fun _ _ => rfl) ?_)
      (hown (by simp) (by simp))
    rw [hval, hstate]
    simp
  | yield hme' hstate =>
    rw [hassign (by simp)]
    refine kept_write hinv hk hcur hon hheld
      (allowed_awake hinv hlock (Or.inl rfl) (fun hne => absurd (hme hme') hne) ?_) (hown (by simp) (by simp))
    rw [hval, hstate]
    simp
  | sleep hme' hstate hself hother =>
    rw [hassign (by simp)]
    have hi := hk.own (hk.me.symm.trans hme')
    refine kept_write hinv hk hcur hon hheld (allowed_sleep hinv hlock (hme hme') ?_ ?_ ?_) (hown (by simp) (by simp))
    · rw [hval, hstate]
    · rw [hval]
      intro hchan hinit j hj
      rcases hself hchan hinit j with hno | hseen
      · exact absurd hj (hi.nokid hno).2
      · exact (hi.seen hseen).2 hinit hj
    · rw [hval, (hk.slot hheld).nap]
      exact hother
  | exit hme' hstate hinit hkid harg hparent =>
    have hi := hk.own (hk.me.symm.trans hme')
    have hρ : ρ.assign i h (.state .zombie) =
        { ρ.hold i { h with val := { s.proc i with state := .zombie } } with live := false } := by
      rw [hval]
      rfl
    rw [hρ]
    refine kept_write hinv hk hcur hon hheld (allowed_exit hinv hlock (hme hme') ?_ hinit ?_ ?_ ?_) ?_
    · rw [hval, hstate]
    · exact fun j => (hi.nokid (hkid j)).2
    · rw [hval, harg, hi.arg]
    · rw [hval]
      intro q hq
      apply (hparent q hq).imp_right
      rintro ⟨h', hheld', hwaits⟩
      refine ⟨hk.lock_held hinv hcur hheld', ?_⟩
      rw [(hk.slot hheld').val]
      exact hwaits
    · intro p hp
      cases (hk.me.symm.trans hme').symm.trans hp
      exact hi.exit hkid _

theorem kept_store {f : Field N} (hf : Assigns init tidy ρ i h f) :
    Kept init tidy t s (s.setProcess i ((s.proc i).set f)) (ρ.assign i h f) := by
  have hval := (hk.slot hheld).val
  have hlock := hk.lock_held hinv hcur hheld
  have hnamed : tidy → (s.proc i).killed = true → (s.proc i).pid ∈ s.named i := fun htidy => hinv.kills.named htidy
  -- the fields that others do not look at
  have hsame : ∀ {v : Proc N}, ρ.assign i h f = ρ.hold i { h with val := v } → v.state = (s.proc i).state →
      v.parent = (s.proc i).parent → v.birth = (s.proc i).birth →
      (v.state = .zombie → v.xstate = (s.proc i).xstate) → (v.state = .sleeping → v.chan = (s.proc i).chan) →
      (tidy → v.killed = true → v.pid ∈ s.named i) →
      Kept init tidy t s (s.setProcess i v) (ρ.assign i h f) := by
    intro v hρ hstate hparent hbirth hx hchan hn
    rw [hρ]
    refine kept_write hinv hk hcur hon hheld (allowed_same hinv hlock hstate hparent (Or.inl hbirth) hx hchan hn) ?_
    intro p hp
    apply ((hk.own hp).write hparent ?_ ?_).hold
    · rintro rfl hl
      rw [Proc.Live, hstate]
      exact ⟨((hk.own hp).live hl).1, hbirth⟩
    · exact fun h => hstate ▸ h
  cases f with
  | state w => exact kept_state hinv hk hcur hon hheld hf
  | parent v =>
    obtain ⟨p, hme, hp⟩ := hf
    have ht := hk.me.symm.trans hme
    have hown := hk.own ht
    have hcur' := hcur.trans ht
    obtain ⟨m, rfl, hm⟩ : ∃ m, v = some m ∧ (m = p ∧ ρ.live = true ∧ h.val.state = .unused ∧
        h.val.parent = none ∧ ρ.birth < h.val.birth ∨ m = init ∧ p ≠ init ∧ h.val.parent = some p) := by
      rcases hp with ⟨rfl, hfork⟩ | ⟨rfl, hrep⟩
      · exact ⟨p, rfl, Or.inl ⟨rfl, hfork⟩⟩
      · exact ⟨init, rfl, Or.inr ⟨rfl, hrep⟩⟩
    have hρ : ρ.assign i h (.parent (some m)) =
        { ρ.hold i { h with val := { s.proc i with parent := some m } } with
          kid := update ρ.kid i (some (decide (m = p))) } := by
      rw [hval]
      simp [Know.assign, hme, Slot.set, Proc.set]
    rw [hρ]
    rw [← hval] at hm
    obtain ⟨hi, hlive, hbirth, hinit, hz⟩ : i ≠ p ∧ (s.proc m).Live ∧ (s.proc m).birth < (s.proc i).birth ∧
        (m = p ∨ p ≠ init) ∧ (m = p → (s.proc i).state ≠ .zombie) := by
      rcases hm with ⟨rfl, hl, hunused, _, hlt⟩ | ⟨rfl, hne, hparent⟩
      · obtain ⟨hl', hb, _⟩ := hown.live hl
        refine ⟨?_, hl', by rw [hb]; exact hlt, Or.inl rfl, by simp [hunused]⟩
        rintro rfl
        exact hl'.1 hunused
      · obtain ⟨hl', hlt⟩ := hinv.family.parent hparent
        refine ⟨(hinv.family.parent_ne hparent).symm, hinv.family.live, ?_, Or.inr hne, ?_⟩
        · exact Nat.lt_of_le_of_lt (hinv.family.first hl'.1) hlt
        · exact fun h => absurd h.symm hne
    refine kept_write hinv hk hcur hon hheld (allowed_parent hinv hlock hcur' hlive hbirth ?_) ?_
    · exact hm.imp (fun h => ⟨h.1, h.2.2.2.1, h.2.2.1⟩) fun h => ⟨h.1, h.2.2⟩
    · intro p' hp'
      cases ht.symm.trans hp'
      refine hown.assign (v := { s.proc i with parent := some m }) rfl (fun _ => hi.symm) ?_ ?_
        (fun _ h => hz (Option.some.inj h)) _ rfl rfl
      · exact fun h => congrArg some (of_decide_eq_true (Option.some.inj h))
      · intro h
        have hne := of_decide_eq_false (Option.some.inj h)
        exact ⟨hinit.resolve_left hne, fun h => hne (Option.some.inj h)⟩
  | chan v =>
    refine hsame (by rw [hval]; rfl) rfl rfl rfl ?_ ?_ hnamed
    · exact fun _ => rfl
    · intro hs
      change (s.proc i).state = .sleeping at hs
      rw [hval, hf.2] at hs
      cases hs
  | xstate v =>
    refine hsame (by rw [hval]; rfl) rfl rfl rfl ?_ ?_ hnamed
    · intro hz
      change (s.proc i).state = .zombie at hz
      rw [hval, hf.2] at hz
      cases hz
    · exact fun _ => rfl
  | pid v =>
    refine hsame (by rw [hval]; rfl) rfl rfl rfl (fun _ => rfl) (fun _ => rfl) ?_
    intro htidy hkilled
    change (s.proc i).killed = true at hkilled
    rw [hval, hf.2 htidy] at hkilled
    cases hkilled
  | sz | trapframe | pagetable => exact hsame (by rw [hval]; rfl) rfl rfl rfl (fun _ => rfl) (fun _ => rfl) hnamed
  | killed v => exact hf.elim

theorem kept_mark {pid : Int} (hpid : h.val.pid = pid) (hused : tidy → h.val.state ≠ .unused) :
    Kept init tidy t s (s.mark i pid) (ρ.hold i { h with val := { h.val with killed := true } }) := by
  have hval := (hk.slot hheld).val
  have hlock := hk.lock_held hinv hcur hheld
  let s₁ : Table N C := { s with
    named := update s.named i (pid :: s.named i)
    kills := (pid, s.proc i) :: s.kills }
  have hr : Records t s s₁ := ⟨rfl, rfl, rfl, rfl, rfl, rfl, fun _ => Or.inr rfl, fun _ => Or.inr rfl⟩
  have hkills : s₁.Kills tidy := by
    refine ⟨hinv.kills.clean, ?_, ?_⟩
    · intro htidy j hj
      show (s.proc j).pid ∈ update s.named i (pid :: s.named i) j
      by_cases hji : j = i
      · rw [hji, update_self]
        exact List.mem_cons_of_mem _ (hji ▸ hinv.kills.named htidy hj)
      · rw [update_of_ne hji]
        exact hinv.kills.named htidy hj
    · intro x hx
      rcases List.mem_cons.1 hx with rfl | hold
      · rw [hval]
        exact ⟨hpid, hused⟩
      · exact hinv.kills.kills hold
  have hinv₁ : s₁.Inv init tidy := hinv.record hr rfl (fun _ _ => rfl) rfl rfl hkills hinv.waits
  have hk₁ : Knows init s₁ t ρ :=
    hk.record rfl rfl rfl rfl rfl rfl (fun _ hp => (hk.own hp).arg) (fun _ hp => (hk.own hp).wait)
  apply Kept.after (hr.frame hcur) hcur
  rw [← hval]
  refine kept_write (s := s₁) (v := { s.proc i with killed := true }) hinv₁ hk₁ hcur hon hheld
    (allowed_same hinv₁ hlock rfl rfl (Or.inl rfl) (fun _ => rfl) (fun _ => rfl) ?_) ?_
  · intro _ _
    show (s.proc i).pid ∈ update s.named i (pid :: s.named i) i
    rw [update_self, hval, hpid]
    exact List.mem_cons_self
  · intro p hp
    apply ((hk₁.own hp).write (v := { s.proc i with killed := true }) rfl ?_ ?_).hold
    · rintro rfl hl
      exact ⟨((hk.own hp).live hl).1, rfl⟩
    · exact fun h => h

/-- The registers of a process whose slot is locked are saved. -/
theorem kept_save {n : Nat} (hclock : s.clock ≤ n) (fresh : Fin N → Bool) {named : Fin N → List Int}
    (hnamed : tidy → ∀ {j}, (s.proc j).killed = true → (s.proc j).pid ∈ named j) :
    Frame c s { s with saved := update s.saved i true, clock := n, fresh := fresh, named := named } ∧
    Kept init tidy t s { s with saved := update s.saved i true, clock := n, fresh := fresh, named := named }
      (ρ.hold i { h with saved := true }) := by
  have hlock := hk.lock_held hinv hcur hheld
  have hf : Frame c s { s with saved := update s.saved i true, clock := n, fresh := fresh, named := named } := by
    refine ⟨rfl, rfl, rfl, fun _ _ => Iff.rfl, fun j => ?_, fun _ => Or.inr rfl, Or.inl, fun _ => Or.inr rfl,
      fun _ => Or.inr rfl⟩
    by_cases hji : j = i
    · exact Or.inl (hji ▸ hlock)
    · exact Or.inr (update_of_ne hji ..)
  refine ⟨hf, .of_on hk hcur hon ?inv hf.rely ?lock ?slot ?own hk.quiet ⟨rfl, rfl, rfl, rfl, rfl⟩⟩
  case inv =>
    exact ⟨(hinv.cpus.save hlock true).congr rfl rfl rfl rfl rfl, hinv.family.congr rfl hclock fun _ _ => rfl, ⟨hinv.notes.free, hinv.notes.nap,
      hinv.notes.sleep⟩, ⟨hinv.kills.clean, hnamed, hinv.kills.kills⟩, hinv.waits⟩
  case lock => exact fun l => (hk.lock_iff hinv hcur hon l).trans (Know.has_hold_of_held hheld).symm
  case slot =>
    intro j h' hj
    have hm := hk.slot hheld
    rcases Know.held_hold hj with ⟨rfl, rfl⟩ | ⟨hji, hold⟩
    · exact ⟨hm.val, hm.exec, update_self .., hm.nap⟩
    · exact (hk.slot hold).congr rfl rfl (update_of_ne hji ..) rfl
  case own => exact fun hp => ((hk.own hp).hold (i := i) { h with saved := true }).congr rfl rfl rfl

/-- The end of `allocproc`: the registers are set up, and the new process is younger than all others. -/
theorem kept_context (hunused : h.val.state = .unused) (hparent : h.val.parent = none)
    (hkilled : tidy → h.val.killed = false) :
    Kept init tidy t s (s.context i)
      (ρ.hold i { h with val := { h.val with birth := s.clock + 1 }, saved := true }) := by
  have hval := (hk.slot hheld).val
  have hlock := hk.lock_held hinv hcur hheld
  rw [← hval] at hunused hparent hkilled ⊢
  have hnamed : tidy → ∀ {j}, (s.proc j).killed = true → (s.proc j).pid ∈ update s.named i [] j := by
    intro htidy j hj
    have hne : j ≠ i := by
      rintro rfl
      cases (hkilled htidy).symm.trans hj
    rw [update_of_ne hne]
    exact hinv.kills.named htidy hj
  obtain ⟨hf, hkept⟩ := kept_save hinv hk hcur hon hheld (Nat.le_succ s.clock) (update s.fresh i true) hnamed
  apply Kept.after hf hcur
  have hv := allowed_same (v := { s.proc i with birth := s.clock + 1 }) hkept.inv hlock rfl rfl
    (Or.inr ⟨hunused, hparent, Nat.le_refl _, Nat.le_succ_of_le (hinv.family.clock init)⟩) (fun _ => rfl) (fun _ => rfl)
    fun htidy hk => by cases (hkilled htidy).symm.trans hk
  have hwrite := kept_write hkept.inv hkept.knows hcur hon (update_self ..) hv fun {p} hp => by
    apply ((hkept.knows.own hp).write (v := { s.proc i with birth := s.clock + 1 }) rfl ?_ fun hz => hz).hold
    rintro rfl hl
    exact absurd hunused ((hk.own hp).live hl).1.1
  simp only [Know.hold, update_idem] at hwrite
  exact hwrite

end

/-! ### `freeproc` -/

/-- What a process knows of others when it frees a slot. -/
theorem Owns.free (hown : Owns init s p ρ) (hlive : ¬ (s.proc i).Live) (hs : Slot N) :
    Owns init (s.setProcess i (s.proc i).free) p { ρ.hold i hs with kid := update ρ.kid i none } := by
  refine hown.assign (i := i) (v := (s.proc i).free) (o := none) rfl ?_ nofun nofun ?_ hs rfl rfl
  · rintro hl rfl
    exact hlive (hown.live hl).1
  · exact fun _ hparent => by cases hparent

/-- A thread returns from `swtch` with the lock of slot `i`. -/
theorem Knows.arrive (hk : Knows init s t ρ) (hcur : s.cur c = t) (hbare : ρ.Bare)
    (hlock : ∀ l, s.lock l = some c ↔ l = .proc i) (hm : s.Matches i h) : Knows init s t ({ ρ with on := true }.hold i h) := by
  obtain ⟨hheld, hpid, hlk⟩ := hbare
  refine Knows.of_on (c := c) hcur hk.me rfl ?_ ?_ ?_ hk.proc ?_
  · intro l
    rw [hlock, Know.has_hold]
    cases l with
    | proc j => simp [Know.has, hheld]
    | pid => simp [Know.has, hpid]
    | lk k => simp [Know.has, hlk]
  · intro j h' hj
    rcases Know.held_hold hj with ⟨rfl, rfl⟩ | ⟨_, hold⟩
    · exact hm
    · cases (hheld j).symm.trans hold
  · intro p hp
    have h := hk.own hp
    apply Owns.hold
    exact ⟨h.live, h.kid, h.nokid, h.seen, h.arg, h.wait, h.proc⟩
  · intro k hk'
    cases hlk.symm.trans hk'

section

variable (hinv : s.Inv init tidy)
include hinv

theorem kept_free (hk : Knows init s (.proc p) ρ) (hcur : s.cur c = .proc p)
    (hon : ρ.on = true) (hheld : ρ.held i = some h) (hf : Frees ρ h) :
    Kept init tidy (.proc p) s (s.free p i) (ρ.free i h) := by
  have hval := (hk.slot hheld).val
  have hlock := hk.lock_held hinv hcur hheld
  obtain ⟨p', hme, hf⟩ := hf
  cases hk.me.symm.trans hme
  have hlive : ¬ (s.proc i).Live := by
    rw [hval]
    rcases hf with ⟨hstate, _⟩ | ⟨hstate, _⟩ <;> simp [Proc.Live, hstate]
  have hparent : ∀ m, (s.proc i).parent = some m → s.cur c = .proc m := by
    intro m hm
    rw [hval] at hm
    rcases hf with ⟨_, hnone⟩ | ⟨_, hp, _⟩
    · rw [hnone] at hm
      cases hm
    · cases hp.symm.trans hm
      exact hcur
  have hown := hk.own rfl
  by_cases hz : h.val.state = .zombie
  · let g : Waited → Waited := fun w => { w with reaped := w.reaped ++ [((s.proc i).pid, s.arg i)] }
    let s₁ : Table N C := s.setWait p g
    have hr : Records (.proc p) s s₁ := by
      refine ⟨rfl, rfl, rfl, rfl, rfl, rfl, fun _ => Or.inr rfl, ?_⟩
      intro j
      by_cases hj : j = p
      · exact Or.inl (by rw [hj])
      · exact Or.inr (update_of_ne hj ..)
    have hinv₁ : s₁.Inv init tidy :=
      hinv.record hr rfl (fun _ _ => rfl) rfl rfl (hinv.kills.congr rfl (fun _ h => h) rfl rfl) hinv.waits
    have hwait : ∀ p', (.proc p : Thread N C) = .proc p' → s₁.wait p' = ρ.wait.map g := by
      rintro p' ⟨⟩
      rw [← hown.wait]
      exact update_self ..
    have hk₁ : Knows init s₁ (.proc p) { ρ with wait := ρ.wait.map g } :=
      hk.record rfl rfl rfl rfl rfl rfl (fun p' hp => by cases hp; exact hown.arg) hwait
    have hfree : s.free p i = s₁.setProcess i (s.proc i).free := by
      rw [Table.free, if_pos (by rw [hval, hz])]
      rfl
    have hρ : ρ.free i h = { { ρ with wait := ρ.wait.map g }.hold i { h with val := (s.proc i).free } with
        kid := update ρ.kid i none } := by
      have harg : s.arg i = (s.proc i).xstate := (hinv.family.status (by rw [hval, hz])).symm
      simp only [Know.free, if_pos hz, g, harg, hval]
      rfl
    rw [hfree, hρ]
    apply Kept.after (hr.frame hcur) hcur
    refine kept_write (s := s₁) hinv₁ hk₁ hcur hon hheld (allowed_free hlock hlive hparent) ?_
    rintro p' ⟨⟩
    exact (hk₁.own rfl).free hlive _
  · have hfree : s.free p i = s.setProcess i (s.proc i).free := by
      rw [Table.free, if_neg (by rw [hval]; exact hz)]
    have hρ : ρ.free i h = { ρ.hold i { h with val := (s.proc i).free } with
        kid := update ρ.kid i none } := by
      simp only [Know.free, if_neg hz, hval]
      rfl
    rw [hfree, hρ]
    refine kept_write hinv hk hcur hon hheld (allowed_free hlock hlive hparent) ?_
    rintro p' ⟨⟩
    exact hown.free hlive _

/-! ### The CPUs -/

theorem Inv.of_cpus {cur : Fin C → Thread N C} {cproc : Fin C → Option (Fin N)}
    {saved : Fin N → Bool} (hcpus : ({ s with cur := cur, cproc := cproc, saved := saved } : Table N C).Cpus) :
    ({ s with cur := cur, cproc := cproc, saved := saved } : Table N C).Inv init tidy where
  cpus := hcpus
  family := hinv.family.congr rfl (Nat.le_refl _) fun _ _ => rfl
  notes := ⟨hinv.notes.free, hinv.notes.nap, hinv.notes.sleep⟩
  kills := hinv.kills.congr rfl (fun _ h => h) rfl rfl
  waits := hinv.waits

theorem kept_setProc {d : Fin C} (hk : Knows init s (.sched d) ρ)
    (hcur : s.cur c = .sched d) (hon : ρ.on = true) {o : Option (Fin N)}
    (ho : ∀ i, o = some i → (ρ.held i).isSome = true) :
    Kept init tidy (.sched d) s { s with cproc := update s.cproc c o } { ρ with proc := o } := by
  constructor
  case inv =>
    refine hinv.of_cpus (hinv.cpus.setProc hcur fun i hi => ?_)
    obtain ⟨h, hheld⟩ := isSome_iff_exists.1 (ho i hi)
    exact hk.lock_held hinv hcur hheld
  case knows =>
    apply Knows.of_on (c := c)
    case hcur => exact hcur
    case hme => exact hk.me
    case hon => exact hon
    case hlock =>
      intro l
      rw [hk.lock_iff hinv hcur hon]
      cases l <;> rfl
    case hslot => exact fun hh => (hk.slot hh).congr rfl rfl rfl rfl
    case hown => exact fun hp => by cases hp
    case hproc =>
      rintro c' ⟨⟩
      cases hinv.cpus.home hcur
      exact update_self ..
    case hquiet => exact hk.quiet
  case rely => exact fun hq => hinv.cpus.rely_setProc hcur (by rw [hcur]; exact Ne.symm hq) o

theorem Knows.lock_single (hk : Knows init s t ρ) (hcur : s.cur c = t) (hon : ρ.on = true)
    (hpid : ρ.pid = false) (hlk : ρ.lk = none) (hheld : ρ.held i = some h) (hone : ∀ j, j ≠ i → ρ.held j = none)
    (l : LockId N) : s.lock l = some c ↔ l = .proc i := by
  rw [hk.lock_iff hinv hcur hon]
  cases l with
  | proc j =>
    by_cases hj : j = i
    · simp [Know.has, hj, hheld]
    · simp [Know.has, hj, hone j hj]
  | pid => simp [Know.has, hpid]
  | lk k => simp [Know.has, hlk]

/-- A thread leaves its CPU when it has no lock but that of a slot. -/
theorem Knows.left (hk : Knows init s t ρ) (hcur : s.cur c = t) (hpid : ρ.pid = false)
    (hlk : ρ.lk = none) {u : Thread N C} (hu : u ≠ t) (saved : Fin N → Bool) :
    Knows init { s with cur := update s.cur c u, saved := saved } t ρ.leave := by
  constructor
  case me => exact hk.me
  case on => exact fun h => by cases h
  case off =>
    intro _
    refine ⟨⟨fun _ => rfl, hpid, hlk⟩, ?_⟩
    intro c' hc'
    simp only [update_apply] at hc'
    split at hc'
    · exact absurd hc' hu
    · rename_i hne
      exact absurd (hinv.cpus.inj (hc'.trans hcur.symm)) hne
  case slot => exact fun h => by cases h
  case own =>
    intro p hp
    have hown := hk.own hp
    exact ⟨hown.live, hown.kid, hown.nokid, False.elim, hown.arg, hown.wait, hown.proc⟩
  case proc => exact hk.proc
  case quiet =>
    intro k hk'
    rw [show ρ.lk = some k from hk'] at hlk
    cases hlk

/-- `swtch` with no lock but that of slot `i`. -/
theorem kept_swtch (hk : Knows init s t ρ) (hcur : s.cur c = t) (hon : ρ.on = true) (hpid : ρ.pid = false)
    (hlk : ρ.lk = none) (hone : ∀ j, j ≠ i → ρ.held j = none) (hheld : ρ.held i = some h) {u : Thread N C}
    {saved : Fin N → Bool} (hsaved : ∀ j, j ≠ i → saved j = s.saved j) (hnew : ∀ c', s.cur c' ≠ u)
    (hhome : ∀ {d}, u = .sched d → d = c) (hproc : ∀ {j}, t = .proc j ∨ u = .proc j → j = i)
    (hcproc : s.cproc c = some i) (harrive : (∀ l, s.lock l = some c ↔ l = .proc i) → ∀ o,
      (∀ d, u = .sched d → s.cproc d = o) → { s with cur := update s.cur c u, saved := saved }.Arrives o c u) :
    Kept init tidy t s { s with cur := update s.cur c u, saved := saved } ρ.leave := by
  have hlock := hk.lock_single hinv hcur hon hpid hlk hheld hone
  rw [← hcur] at hproc
  constructor
  case inv => exact hinv.of_cpus (hinv.cpus.swtch ((hlock _).2 rfl) hsaved hnew hhome hproc hcproc)
  case knows => exact hk.left hinv hcur hpid hlk (fun hu => hnew c (hcur.trans hu.symm)) _
  case rely =>
    intro q hq
    apply rely_swtch _ hlock hsaved hproc (harrive hlock)
    rw [hcur]
    exact Ne.symm hq

theorem kept_swtchProc {d : Fin C} (hk : Knows init s (.sched d) ρ)
    (hcur : s.cur c = .sched d) (hon : ρ.on = true) (hproc : ρ.proc = some i) (hpid : ρ.pid = false)
    (hlk : ρ.lk = none) (hone : ∀ j, j ≠ i → ρ.held j = none) (hheld : ρ.held i = some h)
    (hrun : h.val.state = .running) (hexec : h.exec = false) :
    Kept init tidy (.sched d) s { s with
      cur := update s.cur c (.proc i)
      saved := update s.saved i false } ρ.leave := by
  have hm := hk.slot hheld
  have hd := hinv.cpus.home hcur
  refine kept_swtch hinv hk hcur hon hpid hlk hone hheld (fun j hj => update_of_ne hj ..) ?_ nofun ?_ ?_ ?_
  · intro c' hc'
    rw [hm.exec.2 ⟨c', hc'⟩] at hexec
    cases hexec
  · rintro j (hj | hj) <;> cases hj
    rfl
  · rw [← hproc, ← hd]
    exact hk.proc rfl
  · intro hlock o _
    exact ⟨hlock, hm.val ▸ hrun, update_self ..⟩

theorem kept_swtchSched (hk : Knows init s (.proc p) ρ) (hcur : s.cur c = .proc p)
    (hon : ρ.on = true) (hpid : ρ.pid = false) (hlk : ρ.lk = none) (hone : ∀ j, j ≠ p → ρ.held j = none)
    (hheld : ρ.held p = some h) (hrun : h.val.state ≠ .running) (hused : h.val.state ≠ .unused)
    (hsaved : h.saved = true) :
    Kept init tidy (.proc p) s { s with cur := update s.cur c (.sched c) } ρ.leave := by
  have hm := hk.slot hheld
  have hcproc := hinv.cpus.cproc hcur
  refine kept_swtch hinv hk hcur hon hpid hlk hone hheld (fun _ _ => rfl) ?_ ?_ ?_ hcproc ?_
  · intro c' hc'
    rw [hinv.cpus.home hc', hc'] at hcur
    cases hcur
  · rintro d ⟨⟩
    rfl
  · rintro j (hj | hj) <;> cases hj
    rfl
  · intro hlock o ho
    refine ⟨p, (ho c rfl).symm.trans hcproc, hlock, ?_, hm.saved.trans hsaved, hm.val ▸ hrun, hm.val ▸ hused⟩
    intro c' hc'
    by_cases hc : c' = c
    · rw [hc] at hc'
      cases (update_self c (Thread.sched c) s.cur).symm.trans hc'
    · have hcur' : s.cur c' = .proc p := (update_of_ne hc ..).symm.trans hc'
      exact hc (hinv.cpus.inj (hcur'.trans hcur.symm))

theorem kept_resume (hk : Knows init s t ρ) (hcur : s.cur c = t) (hoff : ρ.on = false) :
    ∃ ρ', ρ.Resumed init ρ' ∧ Kept init tidy t s s ρ' := by
  obtain ⟨hbare, harr⟩ := hk.off hoff
  have harr := harr c hcur
  have hrely : ∀ {q}, q ≠ t → Rely init q s s := (kept_silent hinv hk hcur).rely
  cases t with
  | proc p =>
    obtain ⟨hlock, hrun, hsaved⟩ := harr
    have hm : s.Matches p ⟨s.proc p, true, false, s.nap p⟩ := ⟨rfl, iff_of_true rfl ⟨c, hcur⟩, hsaved, rfl⟩
    refine ⟨_, ?_, hinv, (hk.arrive hcur hbare hlock hm).remember (i := p) (by simp [Proc.Live, hrun]), hrely⟩
    rw [Know.Resumed, hk.me]
    exact ⟨_, rfl, hrun, rfl, rfl, fun hl => ((hk.own rfl).live hl).2⟩
  | sched d =>
    obtain ⟨i, ho, hlock, hnone, hsaved, hrun, hused⟩ := harr
    have hm : s.Matches i ⟨s.proc i, false, true, s.nap i⟩ := by
      refine ⟨rfl, iff_of_false Bool.false_ne_true ?_, hsaved, rfl⟩
      rintro ⟨c', hc'⟩
      exact hnone c' hc'
    refine ⟨_, ?_, hinv, hk.arrive hcur hbare hlock hm, hrely⟩
    rw [Know.Resumed, hk.me]
    exact ⟨i, _, ho, rfl, hrun, hused, rfl, rfl⟩

end

/-! ### All steps -/

/-- A thread that reads the parent of a slot knows whether it is a child. -/
theorem Knows.learn (hk : Knows init s t ρ) : Knows init s t (ρ.learn init i (s.proc i).parent) := by
  have hkid : ∀ {p : Fin N} {b : Bool}, t = .proc p → (b = true → (s.proc i).parent = some p) →
      (b = false → p ≠ init ∧ (s.proc i).parent ≠ some p) →
      Knows init s t { ρ with kid := update ρ.kid i (some b) } := by
    intro p b ht htrue hfalse
    refine ⟨hk.me, hk.on, hk.off, hk.slot, ?_, hk.proc, hk.quiet⟩
    intro p' hp'
    cases ht.symm.trans hp'
    have hown := hk.own ht
    refine ⟨hown.live, ?_, ?_, hown.seen, hown.arg, hown.wait, hown.proc⟩
    · intro j hj
      by_cases hji : j = i
      · simp only [hji, update_self, Option.some.injEq] at hj
        exact hji ▸ htrue hj
      · simp only [update_of_ne hji] at hj
        exact hown.kid hj
    · intro j hj
      by_cases hji : j = i
      · simp only [hji, update_self, Option.some.injEq] at hj
        exact hji ▸ hfalse hj
      · simp only [update_of_ne hji] at hj
        exact hown.nokid hj
  unfold Know.learn
  split
  · rename_i p hme
    have ht := hk.me.symm.trans hme
    split
    · rename_i heq
      exact hkid ht (fun _ => heq) (fun h => by cases h)
    · rename_i hne
      split
      · exact hk
      · rename_i hinit
        exact hkid ht (fun h => by cases h) (fun _ => ⟨hinit, hne⟩)
  · exact hk

theorem records_own {a : Fin N → Int} {w : Fin N → Option Waited} (ha : ∀ i, i ≠ p → a i = s.arg i)
    (hw : ∀ i, i ≠ p → w i = s.wait i) (ws : Fin N → List Waited) :
    Records (.proc p) s { s with arg := a, wait := w, waits := ws } := by
  refine ⟨rfl, rfl, rfl, rfl, rfl, rfl, ?_, ?_⟩
  · intro i
    by_cases hi : i = p
    · exact Or.inl (by rw [hi])
    · exact Or.inr (ha i hi)
  · intro i
    by_cases hi : i = p
    · exact Or.inl (by rw [hi])
    · exact Or.inr (hw i hi)

theorem kept_wait (hinv : s.Inv init tidy) (hk : Knows init s (.proc p) ρ) (hcur : s.cur c = .proc p)
    {ws : Fin N → List Waited} (hws : ∀ {i w'}, w' ∈ ws i → w'.Good) :
    Kept init tidy (.proc p) s { s with wait := update s.wait p w, waits := ws } { ρ with wait := w } := by
  have hr : Records (.proc p) s { s with wait := update s.wait p w, waits := ws } :=
    records_own (a := s.arg) (fun _ _ => rfl) (fun _ hi => update_of_ne hi ..) ws
  refine kept_record (a := ρ.arg) hk hcur hr ?_ ?_ ?_
  · exact hinv.record hr rfl (fun _ _ => rfl) rfl rfl (hinv.kills.congr rfl (fun _ h => h) rfl rfl) hws
  · exact fun _ hp => (hk.own hp).arg
  · rintro p' ⟨⟩
    exact update_self ..

theorem kept_woke (hinv : s.Inv init tidy) (hk : Knows init s t ρ) (hcur : s.cur c = t) {k a : Nat}
    (hquiet : ∀ j, s.Quiet k a j) : Kept init tidy t s { s with
      woken := update s.woken k (update (s.woken k) a (s.woken k a + 1)) } ρ := by
  have hother : ∀ {k' a'}, ¬ (k' = k ∧ a' = a) →
      update s.woken k (update (s.woken k) a (s.woken k a + 1)) k' a' = s.woken k' a' := by
    intro k' a' hne
    by_cases hk' : k' = k
    · have ha' : a' ≠ a := fun h => hne ⟨hk', h⟩
      rw [hk', update_self, update_of_ne ha']
    · rw [update_of_ne hk']
  have hr : Records t s { s with
      woken := update s.woken k (update (s.woken k) a (s.woken k a + 1)) } :=
    ⟨rfl, rfl, rfl, rfl, rfl, rfl, fun _ => Or.inr rfl, fun _ => Or.inr rfl⟩
  refine kept_idle hk hcur hr ?_ rfl rfl
  constructor
  case cpus => exact hinv.cpus.congr rfl rfl rfl rfl rfl
  case family => exact hinv.family.congr rfl (Nat.le_refl _) fun _ _ => rfl
  case notes =>
    refine ⟨hinv.notes.free, ?_, ?_⟩
    · intro j k' hj a'
      rw [hinv.notes.nap hj a']
      apply (hother _).symm
      rintro ⟨rfl, _⟩
      exact (hquiet j).1 hj
    · intro j k' a' hj
      rw [hinv.notes.sleep hj]
      apply (hother _).symm
      rintro ⟨rfl, rfl⟩
      exact (hquiet j).2 hj
  case kills => exact hinv.kills.congr rfl (fun _ h => h) rfl rfl
  case waits => exact hinv.waits

theorem cur_of_cpu (h : s.cpu t = some c) : s.cur c = t := by
  have := List.find?_some h
  simpa using this

theorem step_kept (hinv : s.Inv init tidy) (hk : Knows init s t ρ) (hcur : s.cur c = t) {o : ProcOp N}
    {r : (ProcSig N).Ret o} (hpre : (discipline init ord tidy).pre ρ o) (hcond : Condition ord tidy s t o)
    (hstep : step c t o s = .ok r s') :
    ∃ ρ', (discipline init ord tidy).post ρ o r ρ' ∧ Kept init tidy t s s' ρ' := by
  have hidle : Kept init tidy t s s ρ := kept_silent hinv hk hcur
  cases o with
  | acquire l =>
    simp only [step, acquire] at hstep
    split at hstep
    · cases hstep
    · rename_i hnone
      cases hstep
      cases l with
      | proc i =>
        obtain ⟨ρ', hlocked, _, hkept⟩ := kept_acquire hinv hk hcur hpre.1 hnone (s.noff c + 1)
        exact ⟨ρ', hlocked, hkept⟩
      | pid => exact ⟨_, rfl, kept_acquirePid hinv hk hcur hpre.1 hnone _⟩
      | lk k => exact ⟨_, rfl, kept_acquireCond hinv hk hcur hpre.1 hnone hpre.2.2.2 _⟩
  | acquireParent i =>
    simp only [step, acquire] at hstep
    split at hstep
    · cases hstep
    · rename_i hnone
      cases hstep
      obtain ⟨ρ', hlocked, hval, hkept⟩ := kept_acquire hinv hk hcur hpre.1 hnone (s.noff c + 1)
      refine ⟨ρ', ⟨hlocked, ?_⟩, hkept⟩
      intro hord hlive p h hme hheld
      have ht := hk.me.symm.trans hme
      rw [hval h hheld, ← ((hk.own ht).live hlive).2.1]
      have hlt := hcond.1 hord
      rw [ht] at hlt
      exact hlt
  | release l =>
    cases hstep
    cases l with
    | proc i =>
      obtain ⟨hon, hproc, h, hheld, hready⟩ := hpre
      refine ⟨ρ.unlock i h, ?_, kept_release hinv hk hcur hon hproc hheld hready⟩
      intro h' hheld'
      cases hheld.symm.trans hheld'
      rfl
    | pid => exact ⟨_, rfl, kept_releasePid hinv hk hcur hpre.1 hpre.2⟩
    | lk k => exact ⟨_, rfl, kept_releaseCond hinv hk hcur hpre.1 hpre.2⟩
  | holding l =>
    cases hstep
    refine ⟨ρ, ⟨rfl, Bool.eq_iff_iff.2 ?_⟩, hidle⟩
    rw [decide_eq_true_iff]
    exact hk.lock_iff hinv hcur hpre l
  | noff =>
    cases hstep
    exact ⟨ρ, rfl, hidle⟩
  | load i =>
    cases hstep
    refine ⟨_, ⟨rfl, fun h hh => (hk.slot hh).val, ?_⟩, hinv, hk.learn, hidle.rely⟩
    exact fun hi => hinv.family.parent_ne hi rfl
  | store i f =>
    cases hstep
    obtain ⟨hon, h, hheld, hf⟩ := hpre
    refine ⟨ρ.assign i h f, ⟨?_, ?_⟩, kept_store hinv hk hcur hon hheld hf⟩
    · intro h' hheld'
      cases hheld.symm.trans hheld'
      rfl
    · rintro htidy rfl
      cases hcond.2 htidy
  | mark i pid =>
    cases hstep
    obtain ⟨hon, h, hheld, hpid, hzero⟩ := hpre
    have hused : tidy → h.val.state ≠ .unused := fun htidy hu => hcond.2 htidy (hzero htidy hu)
    refine ⟨_, ?_, kept_mark hinv hk hcur hon hheld hpid hused⟩
    intro h' hheld'
    cases hheld.symm.trans hheld'
    exact ⟨rfl, hused⟩
  | free i =>
    cases t with
    | sched d => cases hstep
    | proc p =>
      cases hstep
      obtain ⟨hon, h, hheld, hf⟩ := hpre
      refine ⟨ρ.free i h, ?_, kept_free hinv hk hcur hon hheld hf⟩
      intro h' hheld'
      cases hheld.symm.trans hheld'
      rfl
  | allocpid | interrupts =>
    cases hstep
    exact ⟨ρ, rfl, kept_silent hinv hk hcur⟩
  | context i =>
    cases hstep
    obtain ⟨hon, h, hheld, hunused, hparent, hkilled⟩ := hpre
    refine ⟨_, ?_, kept_context hinv hk hcur hon hheld hunused hparent hkilled⟩
    intro h' hheld'
    cases hheld.symm.trans hheld'
    refine ⟨s.clock + 1, ?_, rfl⟩
    intro p hme hlive
    rw [← ((hk.own (hk.me.symm.trans hme)).live hlive).2.1]
    exact Nat.lt_succ_of_le (hinv.family.clock p)
  | setProc o =>
    cases hstep
    obtain ⟨hon, ⟨d, hme⟩, ho⟩ := hpre
    cases hk.me.symm.trans hme
    exact ⟨_, rfl, kept_setProc hinv hk hcur hon ho⟩
  | save =>
    cases t with
    | sched d =>
      cases hstep
      refine ⟨ρ, ?_, hidle⟩
      simp only [discipline, hk.me]
    | proc p =>
      cases hstep
      obtain ⟨hon, hself⟩ := hpre
      obtain ⟨h, hheld⟩ := isSome_iff_exists.1 (hself p hk.me)
      refine ⟨_, ?_, (kept_save hinv hk hcur hon hheld (Nat.le_refl _) s.fresh hinv.kills.named).2⟩
      simp only [discipline, hk.me]
      intro h' hheld'
      cases hheld.symm.trans hheld'
      rfl
  | swtchProc i =>
    cases hstep
    obtain ⟨hon, ⟨d, hme⟩, hproc, hpid, hlk, hone, h, hheld, hrun, hexec, _⟩ := hpre
    cases hk.me.symm.trans hme
    exact ⟨_, rfl, kept_swtchProc hinv hk hcur hon hproc hpid hlk hone hheld hrun hexec⟩
  | swtchSched =>
    cases hstep
    obtain ⟨hon, hpid, hlk, p, hme, hone, h, hheld, hrun, hused, hsaved⟩ := hpre
    cases hk.me.symm.trans hme
    exact ⟨_, rfl, kept_swtchSched hinv hk hcur hon hpid hlk hone hheld hrun hused hsaved⟩
  | resume =>
    cases hstep
    exact kept_resume hinv hk hcur hpre
  | fresh =>
    cases t with
    | sched d => cases hstep
    | proc p =>
      cases hstep
      exact ⟨ρ, rfl, kept_silent hinv hk hcur⟩
  | woke k a =>
    cases hstep
    exact ⟨ρ, rfl, kept_woke hinv hk hcur fun j => hk.quiet hpre.2.1 (hpre.2.2 j)⟩
  | exiting status =>
    cases t with
    | sched d => cases hstep
    | proc p =>
      cases hstep
      refine ⟨_, rfl, ?_⟩
      have hr : Records (.proc p) s { s with arg := update s.arg p status } :=
        records_own (w := s.wait) (fun _ hi => update_of_ne hi ..) (fun _ _ => rfl) s.waits
      refine kept_record hk hcur hr (hinv.record hr rfl ?_ rfl rfl
        (hinv.kills.congr rfl (fun _ h => h) rfl rfl) hinv.waits) ?_ (fun _ hp => (hk.own hp).wait)
      · intro i hz
        have hi : i ≠ p := by
          rintro rfl
          exact ((hk.own rfl).live hpre.2).1.2 hz
        exact update_of_ne hi ..
      · rintro p' ⟨⟩
        exact update_self ..
  | waiting addr =>
    cases t with
    | sched d => cases hstep
    | proc p =>
      cases hstep
      exact ⟨_, rfl, kept_wait hinv hk hcur hinv.waits⟩
  | copyout status ok =>
    cases t with
    | sched d => cases hstep
    | proc p =>
      cases hstep
      refine ⟨_, ⟨rfl, rfl⟩, ?_⟩
      rw [← (hk.own rfl).wait]
      exact kept_wait hinv hk hcur hinv.waits
  | waited result =>
    cases t with
    | sched d => cases hstep
    | proc p =>
      cases hstep
      refine ⟨_, rfl, kept_wait hinv hk hcur ?_⟩
      intro i w hw
      by_cases hi : i = p
      · rw [hi, update_self, List.mem_append, mem_toList, map_eq_some_iff] at hw
        rcases hw with hold | ⟨w', hw', rfl⟩
        · exact hinv.waits hold
        · exact hpre.2 w' ((hk.own rfl).wait.symm.trans hw')
      · rw [update_of_ne hi] at hw
        exact hinv.waits hw
  | panic msg => cases hstep
  | halt => cases hstep

end Table

namespace Proc

variable {init : Fin N} {ord tidy : Prop}

/-- **The promises of the code are enough**: every step keeps the invariant. -/
theorem sound : Table.machine.Sound (discipline init ord tidy) (Table.Condition (C := C) ord tidy)
    (Table.Sane init tidy) := by
  intro s ρ t o r s' hsane hpre hcond hexec
  obtain ⟨hinv, hk⟩ := hsane
  change Table.exec t o s = .ok r s' at hexec
  unfold Table.exec at hexec
  split at hexec
  · rename_i c hcpu
    obtain ⟨ρ', hpost, hkept⟩ := Table.step_kept hinv (hk t) (Table.cur_of_cpu hcpu) hpre hcond hexec
    refine ⟨ρ', hpost, hkept.inv, ?_⟩
    intro q
    by_cases hq : q = t
    · subst hq
      rw [update_self]
      exact hkept.knows
    · rw [update_of_ne hq]
      exact (hk q).rely (hkept.rely hq)
  · cases hexec

end Proc

end Xv6
