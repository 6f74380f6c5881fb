import Xv6.Proc.Steps

/-! Rules for the code of `proc.c`, one for every operation, and what a thread still knows after it visited a
slot. -/

namespace Xv6

open Lib
open Function (update_of_ne update_self)

variable {N C : Nat} {p : Fin N}

namespace Know

variable {ρ : Know N C} {init i : Fin N} {o : Option (Fin N)}

/-! ### Reading a slot -/

theorem learn_eq (ρ : Know N C) (init i : Fin N) (o : Option (Fin N)) :
    ∃ kid, ρ.learn init i o = { ρ with kid := kid } ∧ ∀ j, j ≠ i → kid j = ρ.kid j := by
  unfold learn
  split
  · split
    · exact ⟨_, rfl, fun _ hj => update_of_ne hj ..⟩
    · split
      · exact ⟨ρ.kid, rfl, fun _ _ => rfl⟩
      · exact ⟨_, rfl, fun _ hj => update_of_ne hj ..⟩
  · exact ⟨ρ.kid, rfl, fun _ _ => rfl⟩

theorem kid_learn_self (hme : ρ.me = .proc p) (ho : o = some p) : (ρ.learn init i o).kid i = some true := by
  unfold learn
  rw [hme]
  dsimp only
  rw [if_pos ho]
  exact update_self ..

theorem kid_learn_other (hme : ρ.me = .proc p) (hp : p ≠ init) (ho : o ≠ some p) :
    (ρ.learn init i o).kid i = some false := by
  unfold learn
  rw [hme]
  dsimp only
  rw [if_neg ho, if_neg hp]
  exact update_self ..

theorem own_self (v : Proc N) (hme : ρ.me = .proc i) :
    ρ.own i v = { ρ with live := true, orig := v.parent, birth := v.birth } := if_pos hme

theorem held_locked {h : Slot N} : ((ρ.hold i h).own i h.val).held i = some h := by
  rw [held_own]
  exact update_self ..

/-! ### One slot at a time -/

/-- What a thread knows besides slot `i` is as before. -/
structure Upto (init i : Fin N) (ρ ρ' : Know N C) : Prop where
  me : ρ'.me = ρ.me
  on : ρ'.on = ρ.on
  held : ∀ {j}, j ≠ i → ρ'.held j = ρ.held j
  pid : ρ'.pid = ρ.pid
  lk : ρ'.lk = ρ.lk
  proc : ρ'.proc = ρ.proc
  orig : ρ'.orig = ρ.orig ∨ ρ'.orig = some init
  birth : ρ'.birth = ρ.birth
  live : ρ.live = true → ρ'.live = true
  arg : ρ'.arg = ρ.arg
  wait : ρ'.wait = ρ.wait
  quiet : ∀ {j a}, j ≠ i → ρ.quiet j a → ρ'.quiet j a

variable {ρ' ρ'' : Know N C}

theorem Upto.refl (init i : Fin N) (ρ : Know N C) : Upto init i ρ ρ :=
  ⟨rfl, rfl, fun _ => rfl, rfl, rfl, rfl, Or.inl rfl, rfl, fun h => h, rfl, rfl, fun _ h => h⟩

theorem Upto.trans (h : Upto init i ρ ρ') (h' : Upto init i ρ' ρ'') : Upto init i ρ ρ'' where
  me := h'.me.trans h.me
  on := h'.on.trans h.on
  held := fun hj => (h'.held hj).trans (h.held hj)
  pid := h'.pid.trans h.pid
  lk := h'.lk.trans h.lk
  proc := h'.proc.trans h.proc
  orig := by
    rcases h'.orig with heq | hinit
    · rw [heq]
      exact h.orig
    · exact Or.inr hinit
  birth := h'.birth.trans h.birth
  live := fun hl => h'.live (h.live hl)
  arg := h'.arg.trans h.arg
  wait := h'.wait.trans h.wait
  quiet := fun hj hq => h'.quiet hj (h.quiet hj hq)

theorem upto_hold (init i : Fin N) (ρ : Know N C) (h : Slot N) : Upto init i ρ (ρ.hold i h) :=
  { Upto.refl init i ρ with held := fun hj => update_of_ne hj .. }

theorem upto_learn {j : Fin N} : Upto init i ρ (ρ.learn init j o) := by
  obtain ⟨kid, heq, _⟩ := ρ.learn_eq init j o
  rw [heq]
  exact { Upto.refl init i ρ with }

/-- A slot that was locked, perhaps the process's own. -/
theorem Finds.upto {tidy : Prop} {h : Slot N} (hf : ρ.Finds init tidy i h)
    (hlive : ∀ {p}, ρ.me = .proc p → ρ.live = true) : Upto init i ρ ((ρ.hold i h).own i h.val) := by
  unfold Know.own
  split
  · rename_i hme
    obtain ⟨hbirth, hparent⟩ := hf.own hme (hlive hme)
    exact { upto_hold init i ρ h with
      orig := hparent
      birth := hbirth
      live := fun _ => rfl }
  · exact upto_hold init i ρ h

theorem held_assign_self {h : Slot N} (f : Field N) : (ρ.assign i h f).held i = some (h.set f) := by
  unfold assign
  split <;> exact update_self ..

theorem upto_assign {h : Slot N} {f : Field N} (hf : f ≠ .state .zombie) : Upto init i ρ (ρ.assign i h f) := by
  unfold assign
  split
  · exact absurd rfl hf
  · exact { upto_hold init i ρ _ with }
  · exact upto_hold init i ρ _

theorem upto_unlock {h : Slot N} : Upto init i ρ (ρ.unlock i h) :=
  { Upto.refl init i ρ with
    held := fun hj => update_of_ne hj ..
    quiet := fun hj hq => by simpa [unlock, hj] using hq }

/-- What holds of a thread that gave up its last lock of a slot. -/
structure Keeps (init : Fin N) (ρ ρ' : Know N C) : Prop where
  me : ρ'.me = ρ.me
  orig : ρ'.orig = ρ.orig ∨ ρ'.orig = some init
  birth : ρ'.birth = ρ.birth
  arg : ρ'.arg = ρ.arg
  wait : ρ'.wait = ρ.wait

theorem Keeps.refl (ρ : Know N C) : Keeps init ρ ρ := ⟨rfl, Or.inl rfl, rfl, rfl, rfl⟩

theorem Keeps.trans (h : Keeps init ρ ρ') (h' : Keeps init ρ' ρ'') : Keeps init ρ ρ'' where
  me := h'.me.trans h.me
  orig := by
    rcases h'.orig with heq | hinit
    · rw [heq]
      exact h.orig
    · exact Or.inr hinit
  birth := h'.birth.trans h.birth
  arg := h'.arg.trans h.arg
  wait := h'.wait.trans h.wait

theorem Upto.keeps (h : Upto init i ρ ρ') : Keeps init ρ ρ' := ⟨h.me, h.orig, h.birth, h.arg, h.wait⟩

/-- A thread that holds no lock of a slot, and not `pid_lock`. -/
structure Stands (ρ : Know N C) : Prop where
  on : ρ.on = true
  held : ∀ i, ρ.held i = none
  pid : ρ.pid = false
  proc : ρ.proc = none
  live : ∀ {p}, ρ.me = .proc p → ρ.live = true

theorem Stands.upto (h : ρ.Stands) (hu : Upto init i ρ ρ') (hi : ρ'.held i = none) : ρ'.Stands where
  on := hu.on.trans h.on
  held := by
    intro j
    by_cases hj : j = i
    · rw [hj]
      exact hi
    · rw [hu.held hj]
      exact h.held j
  pid := hu.pid.trans h.pid
  proc := hu.proc.trans h.proc
  live := fun hp => hu.live (h.live (hu.me.symm.trans hp))

/-- A process that holds its own lock and no other. -/
structure Alone (p : Fin N) (h : Slot N) (ρ : Know N C) : Prop where
  me : ρ.me = .proc p
  on : ρ.on = true
  self : ρ.held p = some h
  held : ∀ {j}, j ≠ p → ρ.held j = none
  pid : ρ.pid = false
  lk : ρ.lk = none
  proc : ρ.proc = none

/-- A running process that holds its own lock and no other. -/
structure Awake (p : Fin N) (h : Slot N) (ρ : Know N C) : Prop extends Alone p h ρ where
  run : h.val.state = .running
  exec : h.exec = true
  live : ρ.live = true
  birth : h.val.birth = ρ.birth

theorem Alone.upto {h h' : Slot N} (ha : ρ.Alone p h) (hu : Upto init p ρ ρ')
    (hheld : ρ'.held p = some h') : ρ'.Alone p h' where
  me := hu.me.trans ha.me
  on := hu.on.trans ha.on
  self := hheld
  held := fun hj => (hu.held hj).trans (ha.held hj)
  pid := hu.pid.trans ha.pid
  lk := hu.lk.trans ha.lk
  proc := hu.proc.trans ha.proc

theorem Awake.upto {h h' : Slot N} (ha : ρ.Awake p h) (hu : Upto init p ρ ρ')
    (hheld : ρ'.held p = some h') (hrun : h'.val.state = h.val.state) (hexec : h'.exec = h.exec)
    (hbirth : h'.val.birth = h.val.birth) : ρ'.Awake p h' where
  toAlone := ha.toAlone.upto hu hheld
  run := hrun.trans ha.run
  exec := hexec.trans ha.exec
  live := hu.live ha.live
  birth := hbirth.trans (ha.birth.trans hu.birth.symm)

/-- A process locks itself. -/
theorem Stands.lock {tidy : Prop} {h : Slot N} (hs : ρ.Stands) (hlk : ρ.lk = none)
    (hme : ρ.me = .proc p) (hf : ρ.Finds init tidy p h) : ((ρ.hold p h).own p h.val).Awake p h := by
  have hu := hf.upto hs.live
  refine ⟨⟨hu.me.trans hme, hu.on.trans hs.on, held_locked, ?_, hu.pid.trans hs.pid, hu.lk.trans hlk,
    hu.proc.trans hs.proc⟩, hf.ready.exec.1 (hf.exec hme), hf.exec hme, hu.live (hs.live hme), ?_⟩
  · exact fun hj => (hu.held hj).trans (hs.held _)
  · rw [hu.birth]
    exact (hf.own hme (hs.live hme)).1

/-- A process unlocks itself. -/
theorem Awake.stands {h : Slot N} (ha : ρ.Awake p h) : (ρ.unlock p h).Stands where
  on := ha.on
  held := by
    intro j
    by_cases hj : j = p
    · rw [hj]
      exact update_self ..
    · exact (update_of_ne hj ..).trans (ha.held hj)
  pid := ha.pid
  proc := ha.proc
  live := fun _ => ha.live

theorem Stands.under (h : ρ.Stands) (j : Fin N) : ρ.Under j := by
  intro i hs hheld
  rw [h.held i] at hheld
  cases hheld

end Know

theorem Slot.ready_running {tidy : Prop} {h : Slot N} (hexec : h.exec = true) (hrun : h.val.state = .running) :
    h.Ready tidy where
  exec := iff_of_true hexec hrun
  saved := by
    rw [hrun]
    simp
  clean := by
    rw [hrun]
    simp

/-- A sleeper that was woken. -/
theorem Slot.Ready.wake {tidy : Prop} {h : Slot N} (hr : h.Ready tidy) (hs : h.val.state = .sleeping) :
    (h.set (.state .runnable)).Ready tidy where
  exec := by
    rw [show (h.set (.state .runnable)).exec = h.exec from rfl, hr.exec, hs]
    simp [Slot.set, Proc.set]
  saved := fun _ => hr.saved (Or.inl hs)
  clean := fun h => by cases h

namespace Proc

variable {init i : Fin N} {ord tidy : Prop} {ρ : Know N C} {h : Slot N}

/-! ### Rules -/

section Rules

variable {Q : Unit → Know N C → Prop}

section

variable (hon : ρ.on = true)
include hon

theorem wp_acquire (hpid : ρ.pid = false) (hunder : ord → ρ.Under i)
    (hQ : ∀ h, ρ.Finds init tidy i h → Q () ((ρ.hold i h).own i h.val)) :
    (discipline init ord tidy).wp (acquire (.proc i)) Q ρ := by
  refine ⟨⟨hon, hpid, hunder⟩, ?_⟩
  rintro _ _ ⟨h, rfl, hfinds⟩
  exact hQ h hfinds

theorem wp_acquireParent (hbare : ρ.Bare) (hQ : ∀ h, ρ.Finds init tidy i h →
      (ord → ρ.live = true → ∀ p, ρ.me = .proc p → h.val.birth < ρ.birth) → Q () ((ρ.hold i h).own i h.val)) :
    (discipline init ord tidy).wp (acquireParent i) Q ρ := by
  refine ⟨⟨hon, hbare⟩, ?_⟩
  rintro _ _ ⟨⟨h, rfl, hfinds⟩, hbirth⟩
  apply hQ h hfinds
  intro hord hlive p hme
  apply hbirth hord hlive p h hme
  rw [Know.held_own]
  exact update_self ..

theorem wp_acquireCond {k : Nat} (hbare : ρ.Bare) (hQ : Q () { ρ with lk := some k, quiet := fun _ _ => False }) :
    (discipline init ord tidy).wp (acquire (.lk k)) Q ρ := by
  refine ⟨⟨hon, hbare⟩, ?_⟩
  rintro _ _ rfl
  exact hQ

theorem wp_release (hproc : ρ.proc ≠ some i) (hheld : ρ.held i = some h) (hready : h.Ready tidy)
    (hQ : Q () (ρ.unlock i h)) : (discipline init ord tidy).wp (release (.proc i)) Q ρ := by
  refine ⟨⟨hon, hproc, h, hheld, hready⟩, ?_⟩
  intro _ ρ' hpost
  rw [hpost h hheld]
  exact hQ

theorem wp_releaseCond {k : Nat} (hlk : ρ.lk = some k) (hQ : Q () (ρ.unlockCond k)) :
    (discipline init ord tidy).wp (release (.lk k)) Q ρ := by
  refine ⟨⟨hon, hlk⟩, ?_⟩
  rintro _ _ rfl
  exact hQ

omit hon in
theorem wp_store {f : Field N} (hon : ρ.on = true) (hheld : ρ.held i = some h) (hf : Assigns init tidy ρ i h f)
    (hQ : (tidy → f ≠ .trapframe false) → Q () (ρ.assign i h f)) :
    (discipline init ord tidy).wp (store i f) Q ρ := by
  refine ⟨⟨hon, h, hheld, hf⟩, ?_⟩
  intro _ ρ' hpost
  rw [hpost.1 h hheld]
  exact hQ hpost.2

theorem wp_load {Q : Proc N → Know N C → Prop}
    (hQ : ∀ v, (∀ h, ρ.held i = some h → v = h.val) → v.parent ≠ some i → Q v (ρ.learn init i v.parent)) :
    (discipline init ord tidy).wp (load i) Q ρ := by
  refine ⟨hon, ?_⟩
  rintro v _ ⟨rfl, hv, hparent⟩
  exact hQ v hv hparent

theorem wp_load_held {Q : Proc N → Know N C → Prop} (hheld : ρ.held i = some h)
    (hQ : h.val.parent ≠ some i → Q h.val (ρ.learn init i h.val.parent)) :
    (discipline init ord tidy).wp (load i) Q ρ := by
  apply wp_load hon
  intro v hv hparent
  rw [hv h hheld] at hparent ⊢
  exact hQ hparent

theorem wp_holding {Q : Bool → Know N C → Prop} {l : LockId N} (hQ : Q (ρ.has l) ρ) :
    (discipline init ord tidy).wp (holding l) Q ρ := by
  refine ⟨hon, ?_⟩
  rintro _ _ ⟨rfl, rfl⟩
  exact hQ

theorem wp_noff {Q : Nat → Know N C → Prop} (hQ : ∀ n, Q n ρ) : (discipline init ord tidy).wp noff Q ρ := by
  refine ⟨hon, ?_⟩
  rintro n _ rfl
  exact hQ n

theorem wp_save (hme : ρ.me = .proc p) (hheld : ρ.held p = some h)
    (hQ : Q () (ρ.hold p { h with saved := true })) : (discipline init ord tidy).wp save Q ρ := by
  refine ⟨⟨hon, ?_⟩, ?_⟩
  · intro p' hme'
    cases hme.symm.trans hme'
    rw [hheld]
    rfl
  · intro _ ρ' hpost
    simp only [discipline, hme] at hpost
    rw [hpost h hheld]
    exact hQ

theorem wp_swtchSched (hpid : ρ.pid = false) (hlk : ρ.lk = none)
    (hme : ρ.me = .proc p) (hone : ∀ j, j ≠ p → ρ.held j = none) (hheld : ρ.held p = some h)
    (hrun : h.val.state ≠ .running) (hused : h.val.state ≠ .unused) (hsaved : h.saved = true) (hQ : Q () ρ.leave) :
    (discipline init ord tidy).wp swtchSched Q ρ := by
  refine ⟨⟨hon, hpid, hlk, p, hme, hone, h, hheld, hrun, hused, hsaved⟩, ?_⟩
  rintro _ _ rfl
  exact hQ

end

/-- A process returns from `swtch`. -/
theorem wp_resume (hoff : ρ.on = false) (hme : ρ.me = .proc p)
    (hQ : ∀ h : Slot N, h.val.state = .running → h.exec = true → (ρ.live = true → h.val.birth = ρ.birth ∧
      (h.val.parent = ρ.orig ∨ h.val.parent = some init)) →
      Q () ({ ρ with on := true, live := true, orig := h.val.parent, birth := h.val.birth }.hold p h)) :
    (discipline init ord tidy).wp resume Q ρ := by
  refine ⟨hoff, ?_⟩
  intro _ ρ' hpost
  change ρ.Resumed init ρ' at hpost
  unfold Know.Resumed at hpost
  split at hpost
  · rename_i p' hme'
    cases hme.symm.trans hme'
    obtain ⟨h, rfl, hrun, hexec, _, hown⟩ := hpost
    change Q () (({ ρ with on := true }.hold p h).own p h.val)
    have hme' : ({ ρ with on := true }.hold p h).me = .proc p := hme
    rw [Know.own_self h.val hme']
    exact hQ h hrun hexec hown
  · rename_i d hme'
    cases hme.symm.trans hme'

theorem wp_panic {α : Type} {Q : α → Know N C → Prop} (msg : String) :
    (discipline init ord tidy).wp (panic msg) Q ρ := ⟨trivial, fun r => nomatch r⟩

theorem wp_halt {α : Type} {Q : α → Know N C → Prop} : (discipline init ord tidy).wp halt Q ρ :=
  ⟨trivial, fun r => nomatch r⟩

end Rules

end Proc

end Xv6
