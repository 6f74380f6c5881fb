import Xv6.Proc.Family

/-! The threads keep their promises, so that the invariant holds in every state that a run of the machine
reaches. -/

namespace Xv6

open Lib Logic

variable {N C : Nat}

namespace Proc

open Know

variable {init i p : Fin N} {ord tidy : Prop} {ρ : Know N C} {h : Slot N} {c : Fin C}

/-! ### `scheduler` -/

section Switch

variable {Q : Unit → Know N C → Prop}

theorem wp_setProc {o : Option (Fin N)} (hon : ρ.on = true) (hme : ρ.me = .sched c)
    (ho : ∀ i, o = some i → (ρ.held i).isSome) (hQ : Q () { ρ with proc := o }) :
    (discipline init ord tidy).wp (setProc o) Q ρ := by
  refine ⟨⟨hon, ⟨c, hme⟩, ho⟩, ?_⟩
  rintro _ _ rfl
  exact hQ

theorem wp_saveSched (hon : ρ.on = true) (hme : ρ.me = .sched c) (hQ : Q () ρ) :
    (discipline init ord tidy).wp save Q ρ := by
  refine ⟨⟨hon, ?_⟩, ?_⟩
  · intro p hp
    cases hme.symm.trans hp
  · intro _ ρ' hpost
    simp only [discipline, hme] at hpost
    rw [hpost]
    exact hQ

/-- A scheduler returns from `swtch` with the lock of the process it ran. -/
theorem wp_resumeSched (hoff : ρ.on = false) (hme : ρ.me = .sched c) (hproc : ρ.proc = some i)
    (hQ : ∀ h : Slot N, h.Ready tidy → Q () ({ ρ with on := true }.hold i h)) :
    (discipline init ord tidy).wp resume Q ρ := by
  refine ⟨hoff, ?_⟩
  intro _ ρ' hpost
  change ρ.Resumed init ρ' at hpost
  unfold Know.Resumed at hpost
  split at hpost
  · rename_i p hp
    cases hme.symm.trans hp
  · obtain ⟨j, h, hj, rfl, hrun, hused, hexec, hsaved⟩ := hpost
    cases hproc.symm.trans hj
    apply hQ h
    refine ⟨iff_of_false ?_ hrun, fun _ => hsaved, fun hunused => absurd hunused hused⟩
    rw [hexec]
    exact Bool.false_ne_true

end Switch

theorem runProcess_spec {ρ' : Know N C} (hs : ρ.Stands) (hlk : ρ.lk = none) (hme : ρ.me = .sched c)
    (hu : Upto init i ρ ρ') (hheld : ρ'.held i = some h) (hready : h.Ready tidy) (hrun : h.val.state = .runnable) :
    (discipline init ord tidy).wp (runProcess i) (fun _ ρ₁ => ∃ h', Upto init i ρ ρ₁ ∧ ρ₁.held i = some h' ∧ h'.Ready tidy) ρ' := by
  have hme' := hu.me.trans hme
  have hexec : h.exec = false := by
    rw [Bool.eq_false_iff]
    intro he
    rw [hready.exec.1 he] at hrun
    cases hrun
  apply wp_bind.2
  refine wp_store (hu.on.trans hs.on) hheld (.run hme' hrun) fun _ => ?_
  have hu₁ := hu.trans (upto_assign (h := h) (f := .state .running) (by simp))
  have hheld₁ := held_assign_self (ρ := ρ') (i := i) (h := h) (.state .running)
  generalize ρ'.assign i h (.state .running) = ρ₁ at hu₁ hheld₁
  have hon₁ := hu₁.on.trans hs.on
  have hme₁ := hu₁.me.trans hme
  apply wp_bind.2
  apply wp_setProc hon₁ hme₁
  · rintro _ ⟨⟩
    rw [hheld₁]
    rfl
  apply wp_bind.2
  refine wp_saveSched (ρ := { ρ₁ with proc := some i }) hon₁ hme₁ ?_
  have hothers : ∀ j, j ≠ i → ρ₁.held j = none := fun j hj => (hu₁.held hj).trans (hs.held j)
  refine wp_bind.2 ⟨⟨hon₁, ⟨c, hme₁⟩, rfl, hu₁.pid.trans hs.pid, hu₁.lk.trans hlk, hothers, _, hheld₁, rfl, hexec,
    hready.saved (Or.inr hrun)⟩, ?_⟩
  rintro _ _ rfl
  apply wp_bind.2
  refine wp_resumeSched (ρ := leave { ρ₁ with proc := some i }) rfl hme₁ rfl fun h' hready' => ?_
  refine wp_setProc (c := c) rfl hme₁ (fun j hj => by cases hj) ?_
  refine ⟨h', ?_, held_hold_self, hready'⟩
  exact { hu₁ with
    on := hs.on.symm
    held := fun hj => (Function.update_of_ne hj ..).trans (hs.held _).symm
    proc := hs.proc.symm }

theorem schedulerFrom_spec {is : List (Fin N)} : ∀ {ρ : Know N C}, ρ.Stands → ρ.lk = none → ρ.me = .sched c →
    (discipline init ord tidy).wp (schedulerFrom is) (fun _ ρ' => ρ'.Stands ∧ ρ'.lk = none ∧ ρ'.me = .sched c) ρ := by
  induction is with
  | nil => exact fun hs hlk hme => ⟨hs, hlk, hme⟩
  | cons i is ih =>
    intro ρ hs hlk hme
    unfold schedulerFrom
    apply wp_lookup hs hlk fun p hp => by cases hp
    intro ρ₀ h ρ₁ hs₀ hlk₀ hkeep₀ hu hheld hf
    have hbody : (discipline init ord tidy).wp (if h.val.state = .runnable then runProcess i else pure ())
        (fun _ ρ₂ => ∃ h', Upto init i ρ₀ ρ₂ ∧ ρ₂.held i = some h' ∧ h'.Ready tidy) ρ₁ := by
      split
      · rename_i hrun
        exact runProcess_spec hs₀ hlk₀ (hkeep₀.me.trans hme) hu hheld hf.ready hrun
      · exact ⟨h, hu, hheld, hf.ready⟩
    apply wp_seq hbody
    rintro _ ρ₂ ⟨h', hu₂, hheld₂, hready₂⟩
    apply wp_bind.2
    apply wp_leave hs₀ hu₂ hheld₂ hready₂
    intro hs₃ hu₃
    exact ih hs₃ (hu₃.lk.trans hlk₀) (hu₃.me.trans (hkeep₀.me.trans hme))

theorem scheduler_spec {fuel : Nat} : ∀ {ρ : Know N C}, ρ.Stands → ρ.lk = none → ρ.me = .sched c →
    (discipline init ord tidy).wp (scheduler fuel) (fun _ _ => True) ρ := by
  induction fuel with
  | zero => exact fun _ _ _ => wp_halt
  | succ fuel ih =>
    intro ρ hs hlk hme
    apply wp_seq (schedulerFrom_spec hs hlk hme)
    rintro _ ρ₁ ⟨hs₁, hlk₁, hme₁⟩
    exact ih hs₁ hlk₁ hme₁

/-! ### Processes -/

theorem section_spec {k : Nat} {steps : List Section} : ∀ {ρ : Know N C}, ρ.Stands → ρ.lk = some k →
    ρ.me = .proc p → (discipline init ord tidy).wp (Section.run p k steps)
      (fun _ ρ' => ρ'.Stands ∧ ρ'.lk = some k ∧ ρ'.me = .proc p) ρ := by
  induction steps with
  | nil => exact fun hs hlk hme => ⟨hs, hlk, hme⟩
  | cons step steps ih =>
    intro ρ hs hlk hme
    cases step with
    | sleep a =>
      apply wp_seq (sleep_spec hs hlk hme)
      rintro _ ρ₁ ⟨hs₁, hlk₁, hkeep₁⟩
      exact ih hs₁ hlk₁ (hkeep₁.me.trans hme)
    | wakeup a =>
      apply wp_seq (wakeup_spec hs hlk)
      rintro _ ρ₁ ⟨hs₁, hlk₁, hkeep₁⟩
      exact ih hs₁ hlk₁ (hkeep₁.me.trans hme)

theorem call_spec {call : Call} (hs : ρ.Stands) (hlk : ρ.lk = none) (hme : ρ.me = .proc p) :
    (discipline init ord tidy).wp (call.run p) (fun _ ρ' => ρ'.Stands ∧ ρ'.lk = none ∧ ρ'.me = .proc p) ρ := by
  have hkeeps : ∀ {α : Type} {m : ProcM N α},
      (discipline init ord tidy).wp m (fun _ ρ' => ρ'.Stands ∧ ρ'.lk = none ∧ Keeps init ρ ρ') ρ →
      (discipline init ord tidy).wp m (fun _ ρ' => ρ'.Stands ∧ ρ'.lk = none ∧ ρ'.me = .proc p) ρ := by
    intro α m hm
    exact wp_mono (fun _ ρ' ⟨hs', hlk', hkeep'⟩ => ⟨hs', hlk', hkeep'.me.trans hme⟩) hm
  cases call with
  | yield => exact hkeeps (yield_spec hs hlk hme)
  | under k steps =>
    apply wp_bind.2
    apply enter_spec hs hlk fun r hr => by cases hr; exact hme
    intro ρ₁ hs₁ hlk₁ hkeep₁
    apply wp_acquireCond hs₁.on ⟨hs₁.held, hs₁.pid, hlk₁⟩
    have hs₂ : ({ ρ₁ with lk := some k, quiet := fun _ _ => False } : Know N C).Stands :=
      ⟨hs₁.on, hs₁.held, hs₁.pid, hs₁.proc, hs₁.live⟩
    apply wp_seq (section_spec hs₂ rfl (hkeep₁.me.trans hme))
    rintro _ ρ₃ ⟨hs₃, hlk₃, hme₃⟩
    apply wp_releaseCond hs₃.on hlk₃
    exact ⟨hs₃.unlockCond k, rfl, hme₃⟩
  | fork trapframe pagetable copied =>
    apply wp_seq (hkeeps (fork_spec hs hlk hme))
    exact fun _ _ h => h
  | kill pid =>
    apply wp_seq (hkeeps (killFrom_spec hs hlk hme))
    exact fun _ _ h => h
  | wait addr copied fuel => exact wait_spec hs hlk hme

theorem runAll_spec {calls : List Call} : ∀ {ρ : Know N C}, ρ.Stands → ρ.lk = none → ρ.me = .proc p →
    (discipline init ord tidy).wp (runAll p calls) (fun _ ρ' => ρ'.Stands ∧ ρ'.lk = none ∧ ρ'.me = .proc p) ρ := by
  induction calls with
  | nil => exact fun hs hlk hme => ⟨hs, hlk, hme⟩
  | cons call calls ih =>
    intro ρ hs hlk hme
    apply wp_seq (call_spec hs hlk hme)
    rintro _ ρ₁ ⟨hs₁, hlk₁, hme₁⟩
    exact ih hs₁ hlk₁ hme₁

theorem lives_spec {ls : List (List Call × Int)} : ∀ {h : Slot N} {ρ : Know N C}, ρ.Awake p h →
    (discipline init ord tidy).wp (lives init p ls) (fun _ _ => True) ρ := by
  induction ls with
  | nil => exact fun _ => wp_halt
  | cons life ls ih =>
    intro h ρ ha
    apply wp_bind.2
    apply wp_releaseSelf ha
    intro hs₁ hlk₁ _
    apply wp_seq (runAll_spec hs₁ hlk₁ ha.me)
    rintro _ ρ₂ ⟨hs₂, hlk₂, hme₂⟩
    apply wp_seq (exit_spec hs₂ hlk₂ hme₂)
    rintro _ ρ₃ ⟨h', ha'⟩
    exact ih ha'

theorem thread_spec {ls : List (List Call × Int)} (hoff : ρ.on = false) (hbare : ρ.Bare) (hproc : ρ.proc = none)
    (hme : ρ.me = .proc p) :
    (discipline init ord tidy).wp (thread init p ls) (fun _ _ => True) ρ := by
  apply wp_bind.2
  apply wp_resume hoff hme
  intro h hrun hexec _
  refine wp_bind.2 ⟨rfl, ?_⟩
  rintro _ _ rfl
  apply lives_spec (h := h)
  refine ⟨⟨hme, rfl, held_hold_self, ?_, hbare.2.1, hbare.2.2, hproc⟩, hrun, hexec, rfl, rfl⟩
  exact fun hj => (Function.update_of_ne hj ..).trans (hbare.1 _)

theorem threads_spec {ls : Fin N → List (List Call × Int)} {rounds : Fin C → Nat} {t : Thread N C} (hme : ρ.me = t)
    (hon : ρ.on = true ↔ ∃ c, t = .sched c) (hbare : ρ.Bare) (hproc : ρ.proc = none) :
    (discipline init ord tidy).wp (threads init ls rounds t) (fun _ _ => True) ρ := by
  cases t with
  | proc p =>
    have hoff : ρ.on = false := by
      rw [Bool.eq_false_iff]
      intro h
      obtain ⟨c, hc⟩ := hon.1 h
      cases hc
    exact thread_spec hoff hbare hproc hme
  | sched c =>
    refine scheduler_spec ⟨hon.2 ⟨c, rfl⟩, hbare.1, hbare.2.1, hproc, ?_⟩ hbare.2.2 hme
    intro p hp
    cases hme.symm.trans hp

end Proc

/-- What the threads know when the machine starts. -/
def Know.start (t : Thread N C) : Know N C where
  me := t
  on := match t with
    | .proc _ => false
    | .sched _ => true
  held _ := none
  pid := false
  lk := none
  proc := none
  kid _ := none
  seen _ := False
  orig := none
  birth := 0
  live := false
  arg := 0
  wait := none
  quiet _ _ := False

namespace Table

variable {init : Fin N} {ord tidy : Prop} {irq : Thread N C → List (List Interrupt)}

/-- `initproc` when the machine starts. -/
theorem proc_init_self : (Table.init init irq : Table N C).proc init =
    ⟨.runnable, none, none, false, 0, 1, 4096, true, true, 1⟩ := if_pos rfl

theorem proc_init_other {i : Fin N} (hi : i ≠ init) : (Table.init init irq : Table N C).proc i =
    ⟨.unused, none, none, false, 0, 0, 0, false, false, 0⟩ := if_neg hi

theorem state_init (init : Fin N) (irq : Thread N C → List (List Interrupt)) (i : Fin N) :
    ((Table.init init irq : Table N C).proc i).state = .runnable ∧ i = init ∨
    ((Table.init init irq : Table N C).proc i).state = .unused := by
  by_cases hi : i = init
  · rw [hi, proc_init_self]
    exact Or.inl ⟨rfl, rfl⟩
  · rw [proc_init_other hi]
    exact Or.inr rfl

theorem parent_init (i : Fin N) : ((Table.init init irq : Table N C).proc i).parent = none := by
  by_cases hi : i = init
  · rw [hi, proc_init_self]
  · rw [proc_init_other hi]

theorem cpus_init : (Table.init init irq : Table N C).Cpus where
  inj := fun _ _ h => Thread.sched.inj h
  home := fun h => (Thread.sched.inj h).symm
  cproc := fun h => by cases h
  owner := fun h => by cases h
  busy := fun h => by cases h
  idle := by
    intro i _
    refine ⟨iff_of_false ?_ ?_, fun _ => rfl⟩
    · rintro ⟨c, hc⟩
      cases hc
    · rcases state_init init irq i with ⟨h, _⟩ | h <;> simp [h]

theorem family_init : (Table.init init irq : Table N C).Family init where
  live := by
    rw [proc_init_self]
    exact ⟨nofun, nofun⟩
  parent := by
    intro i j hj
    rw [parent_init] at hj
    cases hj
  clock := by
    intro i
    by_cases hi : i = init
    · rw [hi, proc_init_self]
      exact Nat.le_refl 1
    · rw [proc_init_other hi]
      exact Nat.zero_le 1
  first := by
    intro i hi
    rcases state_init init irq i with ⟨_, rfl⟩ | h
    · exact Nat.le_refl _
    · exact absurd h hi
  asleep := by
    intro i j _ _ hj
    rw [parent_init] at hj
    cases hj
  status := by
    intro i hi
    rcases state_init init irq i with ⟨h, _⟩ | h <;> cases h.symm.trans hi

theorem inv_init : (Table.init init irq : Table N C).Inv init tidy where
  cpus := cpus_init
  family := family_init
  notes := by
    constructor
    case free => exact fun _ => rfl
    case nap => exact fun _ _ => rfl
    case sleep => exact fun _ => rfl
  kills := by
    refine ⟨?_, ?_, fun h => by cases h⟩
    · intro i _ hunused
      rcases state_init init irq i with ⟨h, _⟩ | _
      · cases h.symm.trans hunused
      · have hi : i ≠ init := by
          rintro rfl
          rw [proc_init_self] at hunused
          cases hunused
        rw [proc_init_other hi]
        exact ⟨rfl, rfl, rfl, rfl, rfl, fun _ => rfl, fun _ => rfl⟩
    · intro _ i hkilled
      by_cases hi : i = init
      · rw [hi, proc_init_self] at hkilled
        cases hkilled
      · rw [proc_init_other hi] at hkilled
        cases hkilled
  waits := fun h => by cases h

theorem knows_init (t : Thread N C) : Knows init (Table.init init irq) t (.start t) where
  me := rfl
  on := by
    intro hon
    cases t with
    | proc p => cases hon
    | sched c =>
      refine ⟨c, rfl, fun l => iff_of_false nofun ?_⟩
      cases l <;> exact Bool.false_ne_true
  off := by
    intro hoff
    cases t with
    | sched c => cases hoff
    | proc p => exact ⟨⟨fun _ => rfl, rfl, rfl⟩, fun c hc => by cases hc⟩
  slot := fun h => by cases h
  own := by
    rintro p rfl
    exact ⟨nofun, nofun, nofun, nofun, rfl, rfl, rfl⟩
  proc := fun _ => rfl
  quiet := fun h => by cases h

/-- **The invariant holds in every state of a run**, and every thread keeps its promises from there on. -/
theorem sane_of_reach {ls : Fin N → List (List Proc.Call × Int)} {rounds : Fin C → Nat}
    {c : Conf (ProcSig N) (Thread N C) (Table N C)}
    (hreach : machine.Reach (Condition ord tidy) (boot init irq ls rounds) c) :
    ∃ ρ, Sane init tidy c.st ρ ∧ ∀ t, (discipline init ord tidy).wp (c.prog t) (fun _ _ => True) (ρ t) := by
  have hstart : Sane init tidy (boot init irq ls rounds).st .start := ⟨inv_init, knows_init⟩
  refine Machine.Reach.inv (Q := fun _ => True) Proc.sound hstart ?_ hreach
  intro t
  refine Proc.threads_spec (t := t) rfl ?_ ⟨fun _ => rfl, rfl, rfl⟩ rfl
  cases t with
  | proc p => exact iff_of_false nofun (fun ⟨c, hc⟩ => by cases hc)
  | sched c => exact iff_of_true rfl ⟨c, rfl⟩

/-- A schedule: each thread makes the given number of steps. -/
def schedule (turns : List (Nat × Thread N C)) : List (Thread N C) :=
  turns.flatMap fun turn => List.replicate turn.1 turn.2

theorem exists_run {cond : Table N C → Thread N C → ProcOp N → Prop} (ok : Table N C → Thread N C → ProcOp N → Bool)
    (hok : ∀ s t o, ok s t o → cond s t o) (init : Fin N) (ls : Fin N → List (List Proc.Call × Int))
    (rounds : Fin C → Nat) (turns : List (Nat × Thread N C)) (test : Conf (ProcSig N) (Thread N C) (Table N C) → Prop)
    [DecidablePred test] (h : (machine.sched ok (schedule turns) (boot init (fun _ => []) ls rounds)).any
      fun c => decide (test c)) :
    ∃ c, machine.Reach cond (boot init (fun _ => []) ls rounds) c ∧ test c :=
  Machine.exists_reach ok hok (schedule turns) _ test h

end Table

end Xv6
