import Xv6.Proc.Rules

/-! The code of `proc.c` keeps its promises. -/

namespace Xv6

open Lib Logic

variable {N C : Nat}

namespace Know

variable {ρ ρ' : Know N C} {init i p : Fin N} {h : Slot N}

@[simp] theorem held_hold_self : (ρ.hold i h).held i = some h := Function.update_self ..

theorem held_learn {j : Fin N} (o : Option (Fin N)) : (ρ.learn init j o).held = ρ.held := by
  obtain ⟨kid, heq, _⟩ := ρ.learn_eq init j o
  rw [heq]

theorem Stands.unlockCond (h : ρ.Stands) (k : Nat) : (ρ.unlockCond k).Stands where
  on := h.on
  held := by
    intro i
    simp only [Know.unlockCond, h.held i, Option.map_none, ite_self]
  pid := h.pid
  proc := h.proc
  live := h.live

end Know

namespace Proc

open Know

variable {init i p : Fin N} {ord tidy : Prop} {ρ : Know N C} {h : Slot N}

/-! ### Giving up the CPU -/

/-- A process comes back from `sched` as it left, holding its own lock, or as a new process. -/
theorem sched_spec (ha : ρ.Alone p h) (hused : h.val.state ≠ .unused) : (discipline init ord tidy).wp (sched p)
      (fun _ ρ' => ∃ h', ρ'.Awake p h' ∧ (ρ.live = true → Keeps init ρ ρ')) ρ := by
  unfold sched
  apply wp_bind.2
  apply wp_holding ha.on
  rw [if_pos (show ρ.has (.proc p) = true by rw [has, ha.self]; rfl)]
  apply wp_bind.2
  apply wp_noff ha.on
  intro n
  split
  · exact wp_panic _
  · apply wp_bind.2
    apply wp_load_held ha.on ha.self
    intro _
    split
    · exact wp_panic _
    · rename_i hrun
      have hu : Upto init p ρ (ρ.learn init p h.val.parent) := upto_learn
      have ha' := ha.upto hu (by rw [held_learn]; exact ha.self)
      apply wp_bind.2
      apply wp_save ha'.on ha'.me ha'.self
      apply wp_bind.2
      refine wp_swtchSched ha'.on ha'.pid ha'.lk ha'.me ?_ held_hold_self hrun hused rfl ?_
      · exact fun j hj => (Function.update_of_ne hj ..).trans (ha'.held hj)
      · refine wp_resume (p := p) rfl ha'.me ?_
        intro h' hrun' hexec' hown'
        refine ⟨h', ⟨⟨ha'.me, rfl, held_hold_self, ?_, ha'.pid, ha'.lk, ha'.proc⟩, hrun', hexec', rfl, rfl⟩, ?_⟩
        · exact fun hj => Function.update_of_ne hj ..
        · intro hlive
          obtain ⟨hbirth, hparent⟩ := hown' (hu.live hlive)
          have horig : h'.val.parent = ρ.orig ∨ h'.val.parent = some init := by
            rcases hparent with heq | hinit
            · exact hu.orig.imp (fun h => heq.trans h) (fun h => heq.trans h)
            · exact Or.inr hinit
          exact ⟨hu.me, horig, hbirth.trans hu.birth, hu.arg, hu.wait⟩

variable {Q : Unit → Know N C → Prop} {is : List (Fin N)} {o : Option (Fin N)}

theorem wp_releaseSelf (ha : ρ.Awake p h)
    (hQ : (ρ.unlock p h).Stands → (ρ.unlock p h).lk = none → Keeps init ρ (ρ.unlock p h) → Q () (ρ.unlock p h)) :
    (discipline init ord tidy).wp (release (.proc p)) Q ρ := by
  apply wp_release ha.on _ ha.self (Slot.ready_running ha.exec ha.run)
  · exact hQ ha.stands ha.lk upto_unlock.keeps
  · rw [ha.proc]
    simp

theorem yield_spec (hs : ρ.Stands) (hlk : ρ.lk = none) (hme : ρ.me = .proc p) : (discipline init ord tidy).wp (yield p)
      (fun _ ρ' => ρ'.Stands ∧ ρ'.lk = none ∧ Keeps init ρ ρ') ρ := by
  unfold yield
  apply wp_bind.2
  apply wp_acquire hs.on hs.pid fun _ => hs.under p
  intro h hf
  have ha := hs.lock hlk hme hf
  have hu := hf.upto hs.live
  apply wp_bind.2
  refine wp_store ha.on ha.self (.yield ha.me ha.run) fun _ => ?_
  have hu' : Upto init p ((ρ.hold p h).own p h.val)
      (((ρ.hold p h).own p h.val).assign p h (.state .runnable)) := upto_assign (by simp)
  apply wp_seq (sched_spec (ha.toAlone.upto hu' (held_assign_self _)) (by simp [Slot.set, Proc.set]))
  rintro _ ρ₂ ⟨h', ha', hkeep⟩
  apply wp_releaseSelf ha'
  intro hs₃ hlk₃ hkeep₃
  exact ⟨hs₃, hlk₃, ((hu.trans hu').keeps.trans (hkeep (hu'.live ha.live))).trans hkeep₃⟩

/-! ### `wakeup` -/

theorem wp_visit {α : Type} {Q : α → Know N C → Prop} {f : Proc N → ProcM N α} (hs : ρ.Stands)
    (hQ : ∀ (h : Slot N) (ρ' : Know N C), Upto init i ρ ρ' → ρ'.held i = some h → ρ.Finds init tidy i h →
      (discipline init ord tidy).wp (f h.val) Q ρ') :
    (discipline init ord tidy).wp (do acquire (.proc i); let v ← load i; f v) Q ρ := by
  apply wp_bind.2
  apply wp_acquire hs.on hs.pid fun _ => hs.under i
  intro h hf
  have hu := hf.upto hs.live
  apply wp_bind.2
  apply wp_load_held (hu.on.trans hs.on) held_locked
  intro _
  apply hQ h _ (hu.trans upto_learn) _ hf
  rw [held_learn]
  exact held_locked

theorem wp_leave {ρ' : Know N C} (hs : ρ.Stands) (hu : Upto init i ρ ρ')
    (hheld : ρ'.held i = some h) (hready : h.Ready tidy)
    (hQ : (ρ'.unlock i h).Stands → Upto init i ρ (ρ'.unlock i h) → Q () (ρ'.unlock i h)) :
    (discipline init ord tidy).wp (release (.proc i)) Q ρ' := by
  apply wp_release (hu.on.trans hs.on) _ hheld hready
  · apply hQ _ (hu.trans upto_unlock)
    exact hs.upto (hu.trans upto_unlock) (Function.update_self ..)
  · rw [hu.proc, hs.proc]
    simp

theorem wakeupFrom_spec {k a : Nat} : ∀ {ρ : Know N C}, ρ.Stands → ρ.lk = some k →
    (discipline init ord tidy).wp (wakeupFrom (.other k a) is) (fun _ ρ' => ρ'.Stands ∧ ρ'.lk = some k ∧
      Keeps init ρ ρ' ∧ ∀ j, j ∈ is ∨ ρ.quiet j a → ρ'.quiet j a) ρ := by
  induction is with
  | nil => exact fun hs hlk => ⟨hs, hlk, .refl _, fun j hj => hj.resolve_left (by simp)⟩
  | cons i is ih =>
    intro ρ hs hlk
    unfold wakeupFrom
    apply wp_visit hs
    intro h ρ₁ hu hheld hf
    have hready := hf.ready
    have hbody : (discipline init ord tidy).wp (if h.val.state = .sleeping ∧ h.val.chan = some (.other k a) then
        store i (.state .runnable) else pure () : ProcM N Unit)
        (fun _ ρ₂ => ∃ h', Upto init i ρ ρ₂ ∧ ρ₂.held i = some h' ∧ h'.Ready tidy ∧ ¬ h'.val.Sleeps k a) ρ₁ := by
      split
      · rename_i hsleep
        refine wp_store (hu.on.trans hs.on) hheld (.wake hsleep.1) fun _ => ?_
        refine ⟨_, hu.trans (upto_assign (by simp)), held_assign_self _, hready.wake hsleep.1, ?_⟩
        rintro ⟨hstate, _⟩
        simp [Slot.set, Proc.set] at hstate
      · rename_i hsleep
        exact ⟨h, hu, hheld, hready, hsleep⟩
    apply wp_seq hbody
    rintro _ ρ₂ ⟨h', hu', hheld', hready', hquiet⟩
    apply wp_bind.2
    apply wp_leave hs hu' hheld' hready'
    intro hs₃ hu₃
    apply wp_mono _ (ih hs₃ (hu₃.lk.trans hlk))
    rintro _ ρ₄ ⟨hs₄, hlk₄, hkeep₄, hq₄⟩
    refine ⟨hs₄, hlk₄, hu₃.keeps.trans hkeep₄, ?_⟩
    intro j hj
    apply hq₄
    by_cases hji : j = i
    · right
      simp only [unlock, if_pos hji]
      intro k' hk'
      rw [hu'.lk, hlk, Option.some.injEq] at hk'
      exact hk' ▸ hquiet
    · rcases hj with hmem | hold
      · exact Or.inl ((List.mem_cons.1 hmem).resolve_left hji)
      · exact Or.inr (hu₃.quiet hji hold)

theorem wakeup_spec {k a : Nat} (hs : ρ.Stands) (hlk : ρ.lk = some k) : (discipline init ord tidy).wp (wakeup k a)
      (fun _ ρ' => ρ'.Stands ∧ ρ'.lk = some k ∧ Keeps init ρ ρ') ρ := by
  apply wp_seq (wakeupFrom_spec hs hlk)
  rintro _ ρ₁ ⟨hs₁, hlk₁, hkeep₁, hquiet⟩
  refine ⟨⟨hs₁.on, hlk₁, fun j => hquiet j (Or.inl (List.mem_finRange j))⟩, ?_⟩
  rintro _ _ rfl
  exact ⟨hs₁, hlk₁, hkeep₁⟩

theorem wakeupAll_spec {k : Nat} {as : List Nat} : ∀ {ρ : Know N C}, ρ.Stands → ρ.lk = some k →
    (discipline init ord tidy).wp (wakeupAll k as) (fun _ ρ' => ρ'.Stands ∧ ρ'.lk = some k ∧ Keeps init ρ ρ') ρ := by
  induction as with
  | nil => exact fun hs hlk => ⟨hs, hlk, .refl _⟩
  | cons a as ih =>
    intro ρ hs hlk
    apply wp_seq (wakeup_spec hs hlk)
    rintro _ ρ₁ ⟨hs₁, hlk₁, hkeep₁⟩
    apply wp_mono _ (ih hs₁ hlk₁)
    rintro _ ρ₂ ⟨hs₂, hlk₂, hkeep₂⟩
    exact ⟨hs₂, hlk₂, hkeep₁.trans hkeep₂⟩

/-! ### Interrupts -/

theorem kerneltrap_spec {is : List Interrupt} : ∀ {ρ : Know N C}, ρ.Stands → ρ.lk = none →
    (∀ p, o = some p → ρ.me = .proc p) → (discipline init ord tidy).wp (kerneltrap o is)
      (fun _ ρ' => ρ'.Stands ∧ ρ'.lk = none ∧ Keeps init ρ ρ') ρ := by
  induction is with
  | nil => exact fun hs hlk _ => ⟨hs, hlk, .refl _⟩
  | cons e is ih =>
    intro ρ hs hlk hme
    -- what one interrupt does
    have hrest : ∀ {m : ProcM N Unit}, (discipline init ord tidy).wp m (fun _ ρ' => ρ'.Stands ∧ ρ'.lk = none ∧ Keeps init ρ ρ') ρ →
        (discipline init ord tidy).wp (m >>= fun _ => kerneltrap o is) (fun _ ρ' => ρ'.Stands ∧ ρ'.lk = none ∧ Keeps init ρ ρ') ρ := by
      intro m hm
      apply wp_seq hm
      rintro _ ρ₁ ⟨hs₁, hlk₁, hkeep₁⟩
      apply wp_mono _ (ih hs₁ hlk₁ fun p hp => hkeep₁.me.trans (hme p hp))
      rintro _ ρ₂ ⟨hs₂, hlk₂, hkeep₂⟩
      exact ⟨hs₂, hlk₂, hkeep₁.trans hkeep₂⟩
    cases e with
    | timer =>
      apply hrest
      cases o with
      | none => exact ⟨hs, hlk, .refl _⟩
      | some p => exact yield_spec hs hlk (hme p rfl)
    | device k as =>
      unfold kerneltrap
      have hdevice : (discipline init ord tidy).wp (do acquire (.lk k); wakeupAll k as; release (.lk k))
          (fun _ ρ' => ρ'.Stands ∧ ρ'.lk = none ∧ Keeps init ρ ρ') ρ := by
        apply wp_bind.2
        apply wp_acquireCond hs.on ⟨hs.held, hs.pid, hlk⟩
        have hs₁ : ({ ρ with lk := some k, quiet := fun _ _ => False } : Know N C).Stands :=
          ⟨hs.on, hs.held, hs.pid, hs.proc, hs.live⟩
        apply wp_seq (wakeupAll_spec hs₁ rfl)
        rintro _ ρ₂ ⟨hs₂, hlk₂, hkeep₂⟩
        apply wp_releaseCond hs₂.on hlk₂
        refine ⟨hs₂.unlockCond k, rfl, ?_⟩
        exact ⟨hkeep₂.me, hkeep₂.orig, hkeep₂.birth, hkeep₂.arg, hkeep₂.wait⟩
      have hassoc := hrest hdevice
      rw [bind_assoc] at hassoc
      simpa [bind_assoc] using hassoc

theorem enter_spec {l : LockId N} (hs : ρ.Stands) (hlk : ρ.lk = none) (hme : ∀ p, o = some p → ρ.me = .proc p)
    (hQ : ∀ ρ', ρ'.Stands → ρ'.lk = none → Keeps init ρ ρ' → (discipline init ord tidy).wp (acquire l) Q ρ') :
    (discipline init ord tidy).wp (enter o l) Q ρ := by
  refine wp_bind.2 ⟨hs.on, ?_⟩
  rintro is _ rfl
  apply wp_seq (kerneltrap_spec hs hlk hme)
  rintro _ ρ₁ ⟨hs₁, hlk₁, hkeep₁⟩
  exact hQ ρ₁ hs₁ hlk₁ hkeep₁

theorem enterParent_spec {q : Fin N} (hs : ρ.Stands) (hlk : ρ.lk = none)
    (hme : ρ.me = .proc p) (hQ : ∀ ρ', ρ'.Stands → ρ'.lk = none → Keeps init ρ ρ' →
      (discipline init ord tidy).wp (acquireParent q) Q ρ') :
    (discipline init ord tidy).wp (enterParent p q) Q ρ := by
  refine wp_bind.2 ⟨hs.on, ?_⟩
  rintro is _ rfl
  apply wp_seq (kerneltrap_spec hs hlk fun p' hp' => by cases hp'; exact hme)
  rintro _ ρ₁ ⟨hs₁, hlk₁, hkeep₁⟩
  exact hQ ρ₁ hs₁ hlk₁ hkeep₁

theorem wp_lookup {α : Type} {Q : α → Know N C → Prop} {f : Proc N → ProcM N α} (hs : ρ.Stands)
    (hlk : ρ.lk = none) (hme : ∀ p, o = some p → ρ.me = .proc p)
    (hQ : ∀ (ρ₀ : Know N C) (h : Slot N) (ρ' : Know N C), ρ₀.Stands → ρ₀.lk = none → Keeps init ρ ρ₀ →
      Upto init i ρ₀ ρ' → ρ'.held i = some h → ρ₀.Finds init tidy i h →
      (discipline init ord tidy).wp (f h.val) Q ρ') :
    (discipline init ord tidy).wp (do enter o (.proc i); let v ← load i; f v) Q ρ := by
  apply wp_bind.2
  apply enter_spec hs hlk hme
  intro ρ₀ hs₀ hlk₀ hkeep₀
  apply wp_bind.1
  exact wp_visit hs₀ fun h ρ' => hQ ρ₀ h ρ' hs₀ hlk₀ hkeep₀

/-! ### `sleep` -/

/-- A process sleeps on its own channel when it saw no zombie child, and on another one when it released
the lock under its own. -/
theorem sleepOn_spec {chan : Chan N} (ha : ρ.Awake p h)
    (hself : chan = .proc p → p ≠ init → ∀ j, ρ.kid j = some false ∨ ρ.seen j)
    (hother : ∀ k a, chan = .other k a → h.nap = some k) :
    (discipline init ord tidy).wp (sleepOn p chan) (fun _ ρ' => ∃ h', ρ'.Awake p h' ∧ Keeps init ρ ρ') ρ := by
  unfold sleepOn
  apply wp_bind.2
  refine wp_store ha.on ha.self ⟨ha.me, ha.run⟩ fun _ => ?_
  have hu : Upto init p ρ (ρ.assign p h (.chan (some chan))) := upto_assign (by simp)
  apply wp_bind.2
  refine wp_store ha.on (held_assign_self _) (.sleep ha.me ha.run ?_ ?_) fun _ => ?_
  · intro hchan
    exact hself (Option.some.inj hchan)
  · intro k a hchan
    exact hother k a (Option.some.inj hchan)
  have hu' := hu.trans (upto_assign (h := h.set (.chan (some chan))) (f := .state .sleeping) (by simp))
  apply wp_seq (sched_spec (ha.toAlone.upto hu' (held_assign_self _)) (by simp [Slot.set, Proc.set]))
  rintro _ ρ₂ ⟨h', ha', hkeep⟩
  refine wp_store ha'.on ha'.self ⟨ha'.me, ha'.run⟩ fun _ => ?_
  have hu₃ : Upto init p ρ₂ (ρ₂.assign p h' (.chan none)) := upto_assign (by simp)
  exact ⟨_, ha'.upto hu₃ (held_assign_self _) rfl rfl rfl, (hu'.keeps.trans (hkeep (hu'.live ha.live))).trans hu₃.keeps⟩

theorem sleep_spec {k a : Nat} (hs : ρ.Stands) (hlk : ρ.lk = some k) (hme : ρ.me = .proc p) :
    (discipline init ord tidy).wp (sleep p (.other k a) k)
      (fun _ ρ' => ρ'.Stands ∧ ρ'.lk = some k ∧ Keeps init ρ ρ') ρ := by
  unfold sleep
  apply wp_bind.2
  apply wp_acquire hs.on hs.pid fun _ => hs.under p
  intro h hf
  have hu := hf.upto hs.live
  have hheld : ((ρ.hold p h).own p h.val).held p = some h := held_locked
  apply wp_bind.2
  apply wp_releaseCond (hu.on.trans hs.on) (hu.lk.trans hlk)
  generalize (ρ.hold p h).own p h.val = ρ₁ at hu hheld
  have hme₁ := hu.me.trans hme
  have hkeep₁ : Keeps init ρ (ρ₁.unlockCond k) := ⟨hu.me, hu.orig, hu.birth, hu.arg, hu.wait⟩
  have ha₁ : (ρ₁.unlockCond k).Awake p { h with nap := some k } := by
    refine ⟨⟨hme₁, hu.on.trans hs.on, ?_, ?_, hu.pid.trans hs.pid, rfl, hu.proc.trans hs.proc⟩,
      hf.ready.exec.1 (hf.exec hme), hf.exec hme, hu.live (hs.live hme), ?_⟩
    · simp only [unlockCond, if_pos hme₁, hheld, Option.map_some]
    · intro j hj
      have hne : ρ₁.me ≠ .proc j := by
        rw [hme₁]
        simp [Ne.symm hj]
      simp only [unlockCond, if_neg hne]
      exact (hu.held hj).trans (hs.held j)
    · exact (hf.own hme (hs.live hme)).1.trans hu.birth.symm
  have hnap : ∀ k' a', Chan.other (N := N) k a = .other k' a' → some k = some k' := by
    rintro k' a' ⟨⟩
    rfl
  apply wp_seq (sleepOn_spec ha₁ (fun h => by cases h) hnap)
  rintro _ ρ₂ ⟨h₂, ha₂, hkeep₂⟩
  apply wp_bind.2
  apply wp_releaseSelf ha₂
  intro hs₃ hlk₃ hkeep₃
  have hkeep := (hkeep₁.trans hkeep₂).trans hkeep₃
  apply enter_spec hs₃ hlk₃ (fun p' hp' => by cases hp'; exact ha₂.me)
  intro ρ₄ hs₄ hlk₄ hkeep₄
  apply wp_acquireCond hs₄.on ⟨hs₄.held, hs₄.pid, hlk₄⟩
  have hkeep' := hkeep.trans hkeep₄
  exact ⟨⟨hs₄.on, hs₄.held, hs₄.pid, hs₄.proc, hs₄.live⟩, rfl,
    ⟨hkeep'.me, hkeep'.orig, hkeep'.birth, hkeep'.arg, hkeep'.wait⟩⟩

/-! ### `fork` and `kill` -/

theorem allocpid_spec (hon : ρ.on = true) (hpid : ρ.pid = false) :
    (discipline init ord tidy).wp allocpid (fun _ ρ' => ρ' = ρ) ρ := by
  refine wp_bind.2 ⟨⟨hon, hpid⟩, ?_⟩
  rintro _ _ rfl
  refine wp_bind.2 ⟨hon, ?_⟩
  rintro pid _ rfl
  refine wp_bind.2 ⟨⟨hon, rfl⟩, ?_⟩
  rintro _ _ rfl
  show ({ ρ with pid := false } : Know N C) = ρ
  rw [← hpid]

/-- A slot that `allocproc` returns, with its lock held. -/
structure Fresh (ρ : Know N C) (h : Slot N) : Prop where
  unused : h.val.state = .unused
  parent : h.val.parent = none
  exec : h.exec = false
  saved : h.saved = true
  birth : ρ.birth < h.val.birth

/-- What a call of `allocproc` leaves: the lock of a new process, or no lock. -/
def Allocated (init : Fin N) (ρ : Know N C) (r : Option (Fin N)) (ρ' : Know N C) : Prop :=
  match r with
  | none => ρ'.Stands ∧ ρ'.lk = none ∧ Keeps init ρ ρ'
  | some np => ∃ (ρ₀ : Know N C) (h : Slot N), ρ₀.Stands ∧ ρ₀.lk = none ∧ Keeps init ρ ρ₀ ∧
      Upto init np ρ₀ ρ' ∧ ρ'.held np = some h ∧ Fresh ρ' h

theorem Allocated.keeps {ρ ρ₀ ρ' : Know N C} {r : Option (Fin N)} (hkeep : Keeps init ρ ρ₀)
    (h : Allocated init ρ₀ r ρ') : Allocated init ρ r ρ' := by
  cases r with
  | none => exact ⟨h.1, h.2.1, hkeep.trans h.2.2⟩
  | some np =>
    obtain ⟨ρ₁, hs, hs₁, hlk₁, hkeep₁, hrest⟩ := h
    exact ⟨ρ₁, hs, hs₁, hlk₁, hkeep.trans hkeep₁, hrest⟩

theorem Slot.ready_free {h : Slot N} (hexec : h.exec = false) : ({ h with val := h.val.free } : Slot N).Ready tidy where
  exec := iff_of_false (by rw [hexec]; exact Bool.false_ne_true) (by simp [Proc.free])
  saved := by simp [Proc.free]
  clean := fun _ => ⟨rfl, rfl, rfl, rfl, rfl, fun _ => rfl, fun _ => rfl⟩

theorem upto_free (hz : h.val.state ≠ .zombie) : Upto init i ρ (ρ.free i h) := by
  unfold Know.free
  rw [if_neg hz]
  exact { upto_hold init i ρ _ with }

theorem wp_free (hon : ρ.on = true) (hheld : ρ.held i = some h) (hf : Frees ρ h)
    (hQ : Q () (ρ.free i h)) : (discipline init ord tidy).wp (freeproc i) Q ρ := by
  refine ⟨⟨hon, h, hheld, hf⟩, ?_⟩
  intro _ ρ' hpost
  rw [hpost h hheld]
  exact hQ

/-- `allocproc` has found an unused slot. -/
theorem allocprocAt_spec {trapframe pagetable : Bool} {ρ₁ : Know N C} (hs : ρ.Stands) (hlk : ρ.lk = none)
    (hme : ρ.me = .proc p) (hu : Upto init i ρ ρ₁) (hheld : ρ₁.held i = some h) (hf : ρ.Finds init tidy i h)
    (hunused : h.val.state = .unused) :
    (discipline init ord tidy).wp (allocprocAt trapframe pagetable i) (Allocated init ρ) ρ₁ := by
  have hclean := hf.ready.clean hunused
  have hexec : h.exec = false := by
    rw [Bool.eq_false_iff]
    intro he
    rw [hf.ready.exec.1 he] at hunused
    cases hunused
  unfold allocprocAt
  apply wp_seq (allocpid_spec (hu.on.trans hs.on) (hu.pid.trans hs.pid))
  rintro pid _ rfl
  apply wp_bind.2
  refine wp_store (hu.on.trans hs.on) hheld ⟨hunused, hclean.killed⟩ fun _ => ?_
  have hu₂ := hu.trans (upto_assign (h := h) (f := .pid pid) (by simp))
  apply wp_bind.2
  refine wp_store (hu₂.on.trans hs.on) (held_assign_self _) hunused fun htrap => ?_
  have hu₃ := hu₂.trans (upto_assign (h := h.set (.pid pid)) (f := .trapframe trapframe) (by simp))
  -- the slot is given back
  have hback : ∀ {h' : Slot N} {ρ' : Know N C}, Upto init i ρ ρ' → ρ'.held i = some h' → h'.Ready tidy →
      (discipline init ord tidy).wp (do release (.proc i); pure none) (Allocated init ρ) ρ' := by
    intro h' ρ' hu' hheld' hready'
    apply wp_bind.2
    apply wp_leave hs hu' hheld' hready'
    intro hs₄ hu₄
    exact ⟨hs₄, hu₄.lk.trans hlk, hu₄.keeps⟩
  cases trapframe with
  | false =>
    apply hback hu₃ (held_assign_self _)
    refine ⟨iff_of_false (by simp [Slot.set, hexec]) (by simp [Slot.set, Proc.set, hunused]), ?_, ?_⟩
    · simp [Slot.set, Proc.set, hunused]
    · exact fun _ => ⟨hclean.parent, hclean.chan, hclean.sz, rfl, hclean.pagetable,
        fun ht => absurd rfl (htrap ht), hclean.killed⟩
  | true =>
    apply wp_bind.2
    refine wp_store (hu₃.on.trans hs.on) (held_assign_self _) hunused fun _ => ?_
    have hu₄ := hu₃.trans (upto_assign (h := (h.set (.pid pid)).set (.trapframe true))
      (f := .pagetable pagetable) (by simp))
    cases pagetable with
    | false =>
      apply wp_bind.2
      apply wp_free (hu₄.on.trans hs.on) (held_assign_self _)
      · exact ⟨p, hu₄.me.trans hme, Or.inl ⟨hunused, hclean.parent⟩⟩
      · refine hback (hu₄.trans (upto_free ?_)) held_hold_self (Slot.ready_free hexec)
        simp [Slot.set, Proc.set, hunused]
    | true =>
      refine wp_bind.2 ⟨⟨hu₄.on.trans hs.on, _, held_assign_self _, hunused, hclean.parent,
        hclean.killed⟩, ?_⟩
      intro _ ρ' hpost
      obtain ⟨b, hb, rfl⟩ := hpost _ (held_assign_self _)
      refine ⟨ρ, _, hs, hlk, .refl _, hu₄.trans (upto_hold init i _ _), held_hold_self, hunused, hclean.parent, hexec,
        rfl, ?_⟩
      exact hb p (hu₄.me.trans hme) (hu₄.live (hs.live hme))

theorem allocprocFrom_spec {trapframe pagetable : Bool} : ∀ {ρ : Know N C}, ρ.Stands → ρ.lk = none → ρ.me = .proc p →
    (discipline init ord tidy).wp (allocprocFrom p trapframe pagetable is) (Allocated init ρ) ρ := by
  induction is with
  | nil => exact fun hs hlk _ => ⟨hs, hlk, .refl _⟩
  | cons i is ih =>
    intro ρ hs hlk hme
    unfold allocprocFrom
    apply wp_lookup hs hlk (fun p' hp' => by cases hp'; exact hme)
    intro ρ₀ h ρ₁ hs₀ hlk₀ hkeep₀ hu hheld hf
    have hme₀ := hkeep₀.me.trans hme
    split
    · rename_i hunused
      exact wp_mono (fun _ _ => Allocated.keeps hkeep₀) (allocprocAt_spec hs₀ hlk₀ hme₀ hu hheld hf hunused)
    · apply wp_bind.2
      apply wp_leave hs₀ hu hheld hf.ready
      intro hs₂ hu₂
      apply wp_mono _ (ih hs₂ (hu₂.lk.trans hlk₀) (hu₂.me.trans hme₀))
      exact fun _ _ => Allocated.keeps (hkeep₀.trans hu₂.keeps)

theorem fork_spec {trapframe pagetable copied : Bool} (hs : ρ.Stands) (hlk : ρ.lk = none) (hme : ρ.me = .proc p) :
    (discipline init ord tidy).wp (fork p trapframe pagetable copied)
      (fun _ ρ' => ρ'.Stands ∧ ρ'.lk = none ∧ Keeps init ρ ρ') ρ := by
  unfold fork
  apply wp_seq (allocprocFrom_spec hs hlk hme)
  intro r ρ₁ halloc
  cases r with
  | none => exact halloc
  | some np =>
    obtain ⟨ρ₀, h, hs₀, hlk₀, hkeep₀, hu, hheld, hfresh⟩ := halloc
    have hme₀ := hkeep₀.me.trans hme
    have hkeep : ∀ {ρ' : Know N C}, ρ'.Stands → Upto init np ρ₀ ρ' → ρ'.Stands ∧ ρ'.lk = none ∧ Keeps init ρ ρ' :=
      fun hs' hu' => ⟨hs', hu'.lk.trans hlk₀, hkeep₀.trans hu'.keeps⟩
    cases copied with
    | false =>
      apply wp_bind.2
      apply wp_free (hu.on.trans hs₀.on) hheld ⟨p, hu.me.trans hme₀, Or.inl ⟨hfresh.unused, hfresh.parent⟩⟩
      apply wp_bind.2
      apply wp_leave hs₀ (hu.trans (upto_free (by rw [hfresh.unused]; simp))) held_hold_self
        (Slot.ready_free hfresh.exec)
      exact hkeep
    | true =>
      apply wp_bind.2
      apply wp_load (hu.on.trans hs₀.on)
      intro v _ _
      have hu₁ := hu.trans (upto_learn (o := v.parent) (j := p))
      have hheld₁ : (ρ₁.learn init p v.parent).held np = some h := by
        rw [held_learn]
        exact hheld
      have hbirth₁ : (ρ₁.learn init p v.parent).birth < h.val.birth := by
        rw [hu₁.birth, ← hu.birth]
        exact hfresh.birth
      generalize ρ₁.learn init p v.parent = ρ₂ at hu₁ hheld₁ hbirth₁
      have hme₂ := hu₁.me.trans hme₀
      apply wp_bind.2
      refine wp_store (hu₁.on.trans hs₀.on) hheld₁ hfresh.unused fun _ => ?_
      have hu₃ := hu₁.trans (upto_assign (h := h) (f := .sz v.sz) (by simp))
      apply wp_bind.2
      refine wp_store (hu₃.on.trans hs₀.on) (held_assign_self _) ⟨p, hme₂, Or.inl ⟨rfl, ?_, hfresh.unused,
        hfresh.parent, hbirth₁⟩⟩ fun _ => ?_
      · exact hu₁.live (hs₀.live hme₀)
      have hu₄ := hu₃.trans (upto_assign (h := h.set (.sz v.sz)) (f := .parent (some p)) (by simp))
      apply wp_bind.2
      apply wp_load_held (hu₄.on.trans hs₀.on) (held_assign_self _)
      intro _
      have hu₅ := hu₄.trans (upto_learn (j := np) (o := some p))
      apply wp_bind.2
      refine wp_store (h := (h.set (.sz v.sz)).set (.parent (some p))) (hu₅.on.trans hs₀.on) ?_
        (.fork (p := p) hfresh.unused rfl) fun _ => ?_
      · rw [held_learn]
        exact held_assign_self _
      apply wp_bind.2
      refine wp_leave hs₀ (hu₅.trans (upto_assign (by simp))) (held_assign_self _) ?_ hkeep
      refine ⟨iff_of_false (by simp [Slot.set, hfresh.exec]) (by simp [Slot.set, Proc.set]), ?_, ?_⟩
      · exact fun _ => hfresh.saved
      · simp [Slot.set, Proc.set]

theorem killFrom_spec {pid : Int} : ∀ {ρ : Know N C}, ρ.Stands → ρ.lk = none →
    ρ.me = .proc p → (discipline init ord tidy).wp (killFrom p pid is)
      (fun _ ρ' => ρ'.Stands ∧ ρ'.lk = none ∧ Keeps init ρ ρ') ρ := by
  induction is with
  | nil => exact fun hs hlk _ => ⟨hs, hlk, .refl _⟩
  | cons i is ih =>
    intro ρ hs hlk hme
    unfold killFrom
    apply wp_lookup hs hlk (fun p' hp' => by cases hp'; exact hme)
    intro ρ₀ h ρ₁ hs₀ hlk₀ hkeep₀ hu hheld hf
    have hready := hf.ready
    split
    · rename_i hpid
      refine wp_bind.2 ⟨⟨hu.on.trans hs₀.on, h, hheld, hpid, fun htidy hunused => ?_⟩, ?_⟩
      · rw [← hpid]
        exact (hready.clean hunused).pid htidy
      intro _ ρ₂ hpost
      obtain ⟨rfl, hused⟩ := hpost h hheld
      have hu₂ := hu.trans (upto_hold init i ρ₁ { h with val := { h.val with killed := true } })
      have hbody : (discipline init ord tidy).wp (if h.val.state = .sleeping then store i (.state .runnable) else pure () : ProcM N Unit)
          (fun _ ρ₃ => ∃ h', Upto init i ρ₀ ρ₃ ∧ ρ₃.held i = some h' ∧ h'.Ready tidy)
          (ρ₁.hold i { h with val := { h.val with killed := true } }) := by
        split
        · rename_i hsleep
          refine wp_store (hu₂.on.trans hs₀.on) held_hold_self (.wake hsleep) fun _ => ?_
          refine ⟨_, hu₂.trans (upto_assign (by simp)), held_assign_self _, ?_, ?_, ?_⟩
          · exact (hready.wake hsleep).exec
          · exact (hready.wake hsleep).saved
          · simp [Slot.set, Proc.set]
        · refine ⟨_, hu₂, held_hold_self, hready.exec, hready.saved, ?_⟩
          intro hunused
          have hclean := hready.clean hunused
          exact ⟨hclean.parent, hclean.chan, hclean.sz, hclean.trapframe, hclean.pagetable, hclean.pid,
            fun htidy => absurd hunused (hused htidy)⟩
      apply wp_seq hbody
      rintro _ ρ₃ ⟨h', hu₃, hheld₃, hready₃⟩
      apply wp_bind.2
      apply wp_leave hs₀ hu₃ hheld₃ hready₃
      intro hs₄ hu₄
      exact ⟨hs₄, hu₄.lk.trans hlk₀, hkeep₀.trans hu₄.keeps⟩
    · apply wp_bind.2
      apply wp_leave hs₀ hu hheld hready
      intro hs₂ hu₂
      apply wp_mono _ (ih hs₂ (hu₂.lk.trans hlk₀) (hu₂.me.trans (hkeep₀.me.trans hme)))
      rintro _ ρ₃ ⟨hs₃, hlk₃, hkeep₃⟩
      exact ⟨hs₃, hlk₃, (hkeep₀.trans hu₂.keeps).trans hkeep₃⟩

end Proc

end Xv6
