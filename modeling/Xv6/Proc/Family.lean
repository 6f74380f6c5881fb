import Xv6.Proc.Promises

/-! `exit` and `wait` keep their promises. An exiting process gives all its children away before it becomes a
zombie, and wakes its parent under the lock of the parent. A process that waits looks at all its
children under its own lock before it sleeps. -/

namespace Xv6

open Lib Logic
open Function (update update_eq_self update_idem update_of_ne update_self)

variable {N C : Nat}

namespace Know

variable {ρ ρ' : Know N C} {init i p : Fin N} {h : Slot N}

theorem kid_learn_of_ne {j : Fin N} (hj : j ≠ i) (o : Option (Fin N)) : (ρ.learn init i o).kid j = ρ.kid j := by
  obtain ⟨kid, heq, hkid⟩ := ρ.learn_eq init i o
  rw [heq]
  exact hkid j hj

theorem seen_learn (o : Option (Fin N)) : (ρ.learn init i o).seen = ρ.seen := by
  obtain ⟨kid, heq, _⟩ := ρ.learn_eq init i o
  rw [heq]

theorem orig_learn (o : Option (Fin N)) : (ρ.learn init i o).orig = ρ.orig := by
  obtain ⟨kid, heq, _⟩ := ρ.learn_eq init i o
  rw [heq]

theorem Awake.learn (ha : ρ.Awake p h) (init i : Fin N) (o : Option (Fin N)) : (ρ.learn init i o).Awake p h := by
  have hu : Upto init p ρ (ρ.learn init i o) := upto_learn
  apply ha.upto hu _ rfl rfl rfl
  rw [held_learn]
  exact ha.self

theorem kid_learn_false (hme : ρ.me = .proc p) (hp : p ≠ init) {o : Option (Fin N)} (ho : o ≠ some p)
    (hkid : ∀ j, ρ.kid j = some false) (j : Fin N) : (ρ.learn init i o).kid j = some false := by
  by_cases hj : j = i
  · rw [hj]
    exact kid_learn_other hme hp ho
  · rw [kid_learn_of_ne hj]
    exact hkid j

end Know

namespace Proc

open Know

variable {init i p : Fin N} {ord tidy : Prop} {ρ : Know N C} {h : Slot N}

/-! ### `exit` -/

theorem wakeup1_spec (hon : ρ.on = true) (hheld : ρ.held i = some h) :
    (discipline init ord tidy).wp (wakeup1 i) (fun _ ρ' => ∃ h', Upto init i ρ ρ' ∧ ρ'.held i = some h' ∧
      ¬ h'.val.Waits i ∧ (h.Ready tidy → h'.Ready tidy) ∧ ρ'.kid = (ρ.learn init i h.val.parent).kid) ρ := by
  unfold wakeup1
  apply wp_bind.2
  apply wp_holding hon
  rw [if_pos (show ρ.has (.proc i) = true by rw [has, hheld]; rfl)]
  apply wp_bind.2
  apply wp_load_held hon hheld
  intro _
  have hu : Upto init i ρ (ρ.learn init i h.val.parent) := upto_learn
  have hheld' : (ρ.learn init i h.val.parent).held i = some h := by
    rw [held_learn]
    exact hheld
  split
  · rename_i hw
    refine wp_store (hu.on.trans hon) hheld' (.wake hw.2) fun _ => ?_
    refine ⟨_, hu.trans (upto_assign (by simp)), held_assign_self _, ?_, fun hr => hr.wake hw.2, rfl⟩
    rintro ⟨hstate, _⟩
    simp [Slot.set, Proc.set] at hstate
  · rename_i hw
    exact ⟨h, hu, hheld', fun hwaits => hw ⟨hwaits.2, hwaits.1⟩, fun hr => hr, rfl⟩

/-- An exiting process, in `reparent`. -/
structure Exits (init : Fin N) (ord : Prop) (p : Fin N) (ρ : Know N C) : Prop where
  me : ρ.me = .proc p
  ne : p ≠ init
  on : ρ.on = true
  pid : ρ.pid = false
  proc : ρ.proc = none
  live : ρ.live = true
  old : ord → ∀ {j h}, ρ.held j = some h → h.val.birth ≤ ρ.birth

/-- An exiting process gives a child to `initproc`. -/
theorem giveAway_spec (he : Exits init ord p ρ) (hkid : ρ.kid i = some true) :
    (discipline init ord tidy).wp (do acquire (.proc i); store i (.parent (some init)); release (.proc i))
      (fun _ ρ' => Exits init ord p ρ' ∧ Keeps init ρ ρ' ∧ ρ'.held = ρ.held ∧ ρ'.lk = ρ.lk ∧
        ρ'.kid = update ρ.kid i (some false) ∧ ρ.held i = none) ρ := by
  apply wp_bind.2
  apply wp_acquire he.on he.pid fun hord j h hheld => Or.inr ⟨⟨p, he.me⟩, hkid, he.live, he.old hord hheld⟩
  intro h hf
  have hparent := hf.kid he.me hkid
  have hne : (ρ.hold i h).me ≠ .proc i := by
    intro hi
    cases he.me.symm.trans hi
    exact hf.parent hparent
  rw [show (ρ.hold i h).own i h.val = ρ.hold i h from if_neg hne]
  apply wp_bind.2
  refine wp_store he.on held_hold_self ⟨p, he.me, Or.inr ⟨rfl, he.ne, hparent⟩⟩ fun _ => ?_
  have hready : (h.set (.parent (some init))).Ready tidy := by
    refine ⟨hf.ready.exec, hf.ready.saved, ?_⟩
    intro hunused
    cases (hf.ready.clean hunused).parent.symm.trans hparent
  have hon : ((ρ.hold i h).assign i h (.parent (some init))).on = true := he.on
  apply wp_release hon _ (held_assign_self _) hready
  · have hheld : update (update (update ρ.held i (some h)) i
        (some (h.set (.parent (some init))))) i none = ρ.held := by
      rw [update_idem, update_idem, ← hf.free, update_eq_self]
    have hkid' : some (decide ((some init).map Thread.proc = some ρ.me)) = some false := by
      rw [he.me]
      simp [Ne.symm he.ne]
    refine ⟨⟨he.me, he.ne, he.on, he.pid, he.proc, he.live, ?_⟩, ⟨rfl, Or.inl rfl, rfl, rfl, rfl⟩, hheld, rfl, ?_,
      hf.free⟩
    · intro hord j h' hj
      change update (update (update ρ.held i (some h)) i
        (some (h.set (.parent (some init))))) i none j = some h' at hj
      rw [hheld] at hj
      exact he.old hord hj
    · rw [← hkid']
      rfl
  · show ρ.proc ≠ some i
    rw [he.proc]
    simp

variable {is : List (Fin N)} {status : Int} {ρ₀ : Know N C}

theorem reparentFrom_spec : ∀ {ρ : Know N C}, Exits init ord p ρ →
    (discipline init ord tidy).wp (reparentFrom init p is) (fun _ ρ' => Exits init ord p ρ' ∧ Keeps init ρ ρ' ∧
      ρ'.held = ρ.held ∧ ρ'.lk = ρ.lk ∧ (∀ j, j ∈ is ∨ ρ.kid j = some false → ρ'.kid j = some false) ∧
      ∀ j h, j ∈ is → ρ.held j = some h → h.val.parent ≠ some p) ρ := by
  induction is with
  | nil =>
    intro ρ he
    exact ⟨he, .refl _, rfl, rfl, fun j hj => hj.resolve_left (by simp), fun j h hj => by simp at hj⟩
  | cons i is ih =>
    intro ρ he
    unfold reparentFrom
    apply wp_bind.2
    apply wp_load he.on
    intro v hv _
    -- the slot is not a child any more, and not one that is locked
    have hbody : (discipline init ord tidy).wp (if v.parent = some p then do
          acquire (.proc i)
          store i (.parent (some init))
          release (.proc i)
        else pure () : ProcM N Unit)
        (fun _ ρ₁ => Exits init ord p ρ₁ ∧ Keeps init ρ ρ₁ ∧ ρ₁.held = ρ.held ∧ ρ₁.lk = ρ.lk ∧
          (∀ j, j = i ∨ ρ.kid j = some false → ρ₁.kid j = some false) ∧
          ∀ h, ρ.held i = some h → h.val.parent ≠ some p) (ρ.learn init i v.parent) := by
      have hu : Upto init i ρ (ρ.learn init i v.parent) := upto_learn
      have hl : (ρ.learn init i v.parent).held = ρ.held := held_learn _
      have he₁ : Exits init ord p (ρ.learn init i v.parent) := by
        refine ⟨hu.me.trans he.me, he.ne, hu.on.trans he.on, hu.pid.trans he.pid, hu.proc.trans he.proc,
          hu.live he.live, ?_⟩
        rw [hl, hu.birth]
        exact he.old
      split
      · rename_i hchild
        apply wp_mono _ (giveAway_spec he₁ (kid_learn_self he.me hchild))
        rintro _ ρ₁ ⟨he₂, hkeep, hheld, hlk, hkid, hfree⟩
        refine ⟨he₂, hu.keeps.trans hkeep, hheld.trans hl, hlk.trans hu.lk, ?_, ?_⟩
        · intro j hj
          rw [hkid]
          by_cases hji : j = i
          · rw [hji, update_self]
          · rw [update_of_ne hji, kid_learn_of_ne hji]
            exact hj.resolve_left hji
        · intro h hheld'
          rw [hl, hheld'] at hfree
          cases hfree
      · rename_i hother
        refine ⟨he₁, hu.keeps, hl, hu.lk, ?_, ?_⟩
        · intro j hj
          by_cases hji : j = i
          · rw [hji]
            exact kid_learn_other he.me he.ne hother
          · rw [kid_learn_of_ne hji]
            exact hj.resolve_left hji
        · intro h hheld
          rw [← hv h hheld]
          exact hother
    apply wp_seq hbody
    rintro _ ρ₁ ⟨he₁, hkeep₁, hheld₁, hlk₁, hkid₁, hpar₁⟩
    apply wp_mono _ (ih he₁)
    rintro _ ρ₂ ⟨he₂, hkeep₂, hheld₂, hlk₂, hkid₂, hpar₂⟩
    refine ⟨he₂, hkeep₁.trans hkeep₂, hheld₂.trans hheld₁, hlk₂.trans hlk₁, ?_, ?_⟩
    · intro j hj
      apply hkid₂
      rcases hj with hmem | hold
      · rcases List.mem_cons.1 hmem with rfl | hmem'
        · exact Or.inr (hkid₁ j (Or.inl rfl))
        · exact Or.inl hmem'
      · exact Or.inr (hkid₁ j (Or.inr hold))
    · intro j h hmem hheld
      rcases List.mem_cons.1 hmem with rfl | hmem'
      · exact hpar₁ h hheld
      · exact hpar₂ j h hmem' (by rw [hheld₁]; exact hheld)

/-- An exiting process with its lock and that of the parent it read. -/
structure Dies (init : Fin N) (ord tidy : Prop) (p q : Fin N) (hp hq : Slot N) (ρ : Know N C) : Prop
    extends Exits init ord p ρ where
  self : ρ.held p = some hp
  parent : ρ.held q = some hq
  held : ∀ {j}, j ≠ p → j ≠ q → ρ.held j = none
  lk : ρ.lk = none
  run : hp.val.state = .running
  exec : hp.exec = true
  orig : ∀ r, hp.val.parent = some r → r = q ∨ r = init
  ready : hq.Ready tidy

theorem lockBoth_spec {q : Fin N} (hs : ρ.Stands) (hlk : ρ.lk = none) (hme : ρ.me = .proc p) (hne : p ≠ init)
    (hq : q ≠ p) (horig : ρ.orig = some q ∨ ρ.orig = some init) :
    (discipline init ord tidy).wp (do acquireParent q; acquire (.proc p))
      (fun _ ρ' => ∃ hp hq, Dies init ord tidy p q hp hq ρ' ∧ ρ'.arg = ρ.arg) ρ := by
  apply wp_bind.2
  apply wp_acquireParent hs.on ⟨hs.held, hs.pid, hlk⟩
  intro hparent hfq hbirth
  have hne' : (ρ.hold q hparent).me ≠ .proc q := by
    intro hi
    exact hq (Thread.proc.inj (hi.symm.trans hme))
  rw [show (ρ.hold q hparent).own q hparent.val = ρ.hold q hparent from if_neg hne']
  have hlive := hs.live hme
  have honly : ∀ j, j ≠ q → (ρ.hold q hparent).held j = none :=
    fun j hj => (update_of_ne hj ..).trans (hs.held j)
  have hold : ord → ∀ j h, (ρ.hold q hparent).held j = some h → h.val.birth < ρ.birth := by
    intro hord j h hheld
    by_cases hj : j = q
    · subst hj
      rw [held_hold_self, Option.some.injEq] at hheld
      rw [← hheld]
      exact hbirth hord hlive p hme
    · rw [honly j hj] at hheld
      cases hheld
  refine wp_acquire hs.on hs.pid (fun hord j h hheld => Or.inl ⟨hme, hlive, hold hord j h hheld⟩) ?_
  intro h hf
  obtain ⟨hb, hpar⟩ := hf.own hme hlive
  have hu : Upto init p (ρ.hold q hparent) (((ρ.hold q hparent).hold p h).own p h.val) := hf.upto fun _ => hlive
  refine ⟨h, hparent, ⟨⟨hu.me.trans hme, hne, hu.on.trans hs.on, hu.pid.trans hs.pid, hu.proc.trans hs.proc,
    hu.live hlive, ?_⟩, held_locked, ?_, ?_, hu.lk.trans hlk, hf.ready.exec.1 (hf.exec hme), hf.exec hme, ?_,
    hfq.ready⟩, hu.arg⟩
  · intro hord j h' hheld
    rw [hu.birth]
    by_cases hj : j = p
    · subst hj
      rw [held_locked, Option.some.injEq] at hheld
      rw [← hheld]
      exact Nat.le_of_eq hb
    · rw [hu.held hj] at hheld
      exact Nat.le_of_lt (hold hord j h' hheld)
  · rw [hu.held hq]
    exact held_hold_self
  · intro j hjp hjq
    rw [hu.held hjp]
    exact honly j hjq
  · intro r hr
    have horig' : (ρ.hold q hparent).orig = some q ∨ (ρ.hold q hparent).orig = some init := horig
    rw [hr] at hpar
    rcases hpar with heq | hinit
    · exact horig'.imp (fun h => Option.some.inj (heq.trans h)) (fun h => Option.some.inj (heq.trans h))
    · exact Or.inr (Option.some.inj hinit)

theorem becomeZombie_spec {q : Fin N} {hp hq : Slot N} (hd : Dies init False tidy p q hp hq ρ)
    (hpq : q ≠ p) (hkid : ∀ j, ρ.kid j = some false) (hwaits : ¬ hq.val.Waits q) (harg : ρ.arg = status) :
    (discipline init ord tidy).wp (becomeZombie p q status) (fun _ ρ' => ∃ h', ρ'.Awake p h') ρ := by
  apply wp_bind.2
  refine wp_store hd.on hd.self ⟨hd.me, hd.run⟩ fun _ => ?_
  apply wp_bind.2
  have hparent₁ : (ρ.assign p hp (.xstate status)).held q = some hq :=
    (update_of_ne hpq ..).trans hd.parent
  refine wp_store hd.on (held_assign_self _) (.exit hd.me hd.run hd.ne hkid harg.symm ?_) fun _ => ?_
  · intro r hr
    rcases hd.orig r hr with rfl | rfl
    · exact Or.inr ⟨hq, hparent₁, hwaits⟩
    · exact Or.inl rfl
  generalize hρ : (ρ.assign p hp (.xstate status)).assign p (hp.set (.xstate status)) (.state .zombie) = ρ₂
  have hself₂ : ρ₂.held p = some ((hp.set (.xstate status)).set (.state .zombie)) := hρ ▸ held_assign_self _
  have hheld₂ : ∀ {j}, j ≠ p → ρ₂.held j = ρ.held j := by
    intro j hj
    rw [← hρ]
    exact (update_of_ne hj ..).trans (update_of_ne hj ..)
  have hon₂ : ρ₂.on = true := hρ ▸ hd.on
  have hproc₂ : ρ₂.proc = none := hρ ▸ hd.proc
  apply wp_bind.2
  apply wp_release hon₂ _ ((hheld₂ hpq).trans hd.parent) hd.ready
  · have ha : (ρ₂.unlock q hq).Alone p ((hp.set (.xstate status)).set (.state .zombie)) := by
      refine ⟨hρ ▸ hd.me, hon₂, (update_of_ne hpq.symm ..).trans hself₂, ?_, hρ ▸ hd.pid, hρ ▸ hd.lk, hproc₂⟩
      intro j hj
      by_cases hjq : j = q
      · rw [hjq]
        exact update_self ..
      · exact (update_of_ne hjq ..).trans ((hheld₂ hj).trans (hd.held hj hjq))
    apply wp_seq (sched_spec ha (by simp [Slot.set, Proc.set]))
    rintro _ ρ₃ ⟨h', ha', _⟩
    refine wp_bind.2 ⟨ha'.on, ?_⟩
    rintro fresh _ rfl
    cases fresh with
    | false => exact wp_panic _
    | true => exact ⟨h', ha'⟩
  · rw [hproc₂]
    simp

/-- The end of `exit`, with the lock of the parent. -/
theorem exitUnder_spec {q : Fin N} (hs : ρ.Stands) (hlk : ρ.lk = none) (hme : ρ.me = .proc p)
    (hne : p ≠ init) (hpq : q ≠ p) (horig : ρ.orig = some q ∨ ρ.orig = some init) (harg : ρ.arg = status) :
    (discipline init ord tidy).wp (do
        acquireParent q
        acquire (.proc p)
        reparent init p
        wakeup1 q
        becomeZombie p q status) (fun _ ρ' => ∃ h', ρ'.Awake p h') ρ := by
  have hlock : (discipline init ord tidy).wp (do acquireParent q; acquire (.proc p)) _ ρ := lockBoth_spec hs hlk hme hne hpq horig
  apply wp_bind.2
  apply wp_mono _ (wp_bind.1 hlock)
  rintro _ ρ₁ hlock₁
  apply wp_seq hlock₁
  rintro _ ρ₂ ⟨hp, hq, hd, harg₂⟩
  apply wp_seq (reparentFrom_spec hd.toExits)
  rintro _ ρ₃ ⟨he₃, hkeep₃, hheld₃, hlk₃, hkid₃, hpar₃⟩
  have hparent₃ : ρ₃.held q = some hq := by
    rw [hheld₃]
    exact hd.parent
  apply wp_seq (wakeup1_spec he₃.on hparent₃)
  rintro _ ρ₄ ⟨hq', hu₄, hheld₄, hwaits₄, hready₄, hkid₄⟩
  have hkid : ∀ j, ρ₄.kid j = some false := by
    rw [hkid₄]
    apply kid_learn_false he₃.me he₃.ne (hpar₃ q hq (List.mem_finRange q) hd.parent)
    exact fun j => hkid₃ j (Or.inl (List.mem_finRange j))
  have hheld : ∀ {j}, j ≠ q → ρ₄.held j = ρ₂.held j := fun hj => (hu₄.held hj).trans (congrFun hheld₃ _)
  have hd₄ : Dies init False tidy p q hp hq' ρ₄ :=
    { hd with
      me := hu₄.me.trans he₃.me
      on := hu₄.on.trans he₃.on
      pid := hu₄.pid.trans he₃.pid
      proc := hu₄.proc.trans he₃.proc
      live := hu₄.live he₃.live
      old := False.elim
      self := (hheld hpq.symm).trans hd.self
      parent := hheld₄
      held := fun hjp hjq => (hheld hjq).trans (hd.held hjp hjq)
      lk := hu₄.lk.trans (hlk₃.trans hd.lk)
      ready := hready₄ hd.ready }
  apply becomeZombie_spec hd₄ hpq hkid hwaits₄
  exact hu₄.arg.trans (hkeep₃.arg.trans (harg₂.trans harg))

theorem exit_spec (hs : ρ.Stands) (hlk : ρ.lk = none) (hme : ρ.me = .proc p) :
    (discipline init ord tidy).wp (exit init p status) (fun _ ρ' => ∃ h', ρ'.Awake p h') ρ := by
  unfold exit
  split
  · exact wp_panic _
  · rename_i hne
    refine wp_bind.2 ⟨⟨hs.on, hs.live hme⟩, ?_⟩
    rintro _ _ rfl
    have hs₀ : ({ ρ with arg := status } : Know N C).Stands := ⟨hs.on, hs.held, hs.pid, hs.proc, hs.live⟩
    have hself : ∀ r, some p = some r → ({ ρ with arg := status } : Know N C).me = .proc r := by
      rintro _ ⟨⟩
      exact hme
    -- `wakeup1(initproc)`
    apply wp_bind.2
    apply enter_spec hs₀ hlk hself
    intro ρ₁ hs₁ hlk₁ hkeep₁
    apply wp_acquire hs₁.on hs₁.pid fun _ => hs₁.under init
    intro h₁ hf₁
    have hu₁ := hf₁.upto hs₁.live
    apply wp_seq (wakeup1_spec (hu₁.on.trans hs₁.on) held_locked)
    rintro _ ρ₂ ⟨h₂, hu₂, hheld₂, _, hready₂, _⟩
    apply wp_bind.2
    apply wp_leave hs₁ (hu₁.trans hu₂) hheld₂ (hready₂ hf₁.ready)
    intro hs₃ hu₃
    -- the parent is read under the lock of the process
    have hkeep₃ := hkeep₁.trans hu₃.keeps
    apply wp_bind.2
    apply enter_spec hs₃ (hu₃.lk.trans hlk₁) fun r hr => hkeep₃.me.trans (hself r hr)
    intro ρ₄ hs₄ hlk₄ hkeep₄
    have hme₄ : ρ₄.me = .proc p := (hkeep₃.trans hkeep₄).me.trans hme
    apply wp_acquire hs₄.on hs₄.pid fun _ => hs₄.under p
    intro h hf
    have ha := hs₄.lock hlk₄ hme₄ hf
    apply wp_bind.2
    apply wp_load_held ha.on ha.self
    intro _
    have hu : Upto init p ρ₄ (((ρ₄.hold p h).own p h.val).learn init p h.val.parent) :=
      (hf.upto hs₄.live).trans upto_learn
    have horig : (((ρ₄.hold p h).own p h.val).learn init p h.val.parent).orig = h.val.parent := by
      rw [orig_learn, own_self h.val (show (ρ₄.hold p h).me = .proc p from hme₄)]
    have ha' := ha.learn init p h.val.parent
    apply wp_bind.2
    apply wp_releaseSelf ha'
    intro hs₆ hlk₆ hkeep₆
    split
    · exact wp_panic _
    · rename_i q hq
      have hkeep := (hkeep₃.trans hkeep₄).trans (hu.keeps.trans hkeep₆)
      apply wp_bind.2
      apply enterParent_spec hs₆ hlk₆ (hkeep.me.trans hme)
      intro ρ₇ hs₇ hlk₇ hkeep₇
      apply wp_bind.1
      refine exitUnder_spec hs₇ hlk₇ (hkeep₇.me.trans (hkeep.me.trans hme)) hne ?_ ?_ ((hkeep.trans hkeep₇).arg)
      · rintro rfl
        exact hf.parent hq
      · apply hkeep₇.orig.imp_left
        intro heq
        exact heq.trans (horig.trans hq)

/-! ### `wait` -/

/-- How the loop of `wait` over the slots `is` ends: with a result, or with no zombie among the slots. -/
def Scanned (init p : Fin N) (h : Slot N) (is : List (Fin N)) (ρ : Know N C) : Int ⊕ Bool → Know N C → Prop
  | .inl r, ρ' => ρ'.Stands ∧ ρ'.lk = none ∧ ρ'.me = .proc p ∧ ∃ w, ρ'.wait = some w ∧ { w with result := r }.Good
  | .inr _, ρ' => ρ'.Awake p h ∧ ρ'.wait = ρ.wait ∧
      (p ≠ init → ∀ j, j ∈ is ∨ ρ.kid j = some false ∨ ρ.seen j → ρ'.kid j = some false ∨ ρ'.seen j)

theorem Scanned.mono {is is' : List (Fin N)} {r : Int ⊕ Bool} {ρ' : Know N C}
    (hwait : ρ₀.wait = ρ.wait) (hclear : p ≠ init → ∀ j, j ∈ is' ∨ ρ.kid j = some false ∨ ρ.seen j →
      j ∈ is ∨ ρ₀.kid j = some false ∨ ρ₀.seen j)
    (h' : Scanned init p h is ρ₀ r ρ') : Scanned init p h is' ρ r ρ' := by
  cases r with
  | inl r => exact h'
  | inr havekids =>
    obtain ⟨ha, hw, hkids⟩ := h'
    exact ⟨ha, hw.trans hwait, fun hp j hj => hkids hp j (hclear hp j hj)⟩

section Waits

variable {hi : Slot N}

section

variable (hheld : ρ.held i = some hi) (ha : (ρ.unlock i hi).Awake p h)
include hheld ha

theorem wp_releaseChild {Q : Unit → Know N C → Prop} (hready : hi.Ready tidy) (hQ : Q () (ρ.unlock i hi)) :
    (discipline init ord tidy).wp (release (.proc i)) Q ρ := by
  refine wp_release ha.on ?_ hheld hready hQ
  rw [show ρ.proc = none from ha.proc]
  simp

theorem waitReturn_spec {r : Int} {w : Waited} (hready : hi.Ready tidy) (hw : ρ.wait = some w)
    (hgood : { w with result := r }.Good) :
    (discipline init ord tidy).wp (waitReturn p i r) (Scanned init p h is ρ₀) ρ := by
  apply wp_bind.2
  apply wp_releaseChild hheld ha hready
  apply wp_bind.2
  apply wp_releaseSelf ha
  intro hs hlk _
  exact ⟨hs, hlk, ha.me, w, hw, hgood⟩

theorem waitFree_spec {w : Waited} (hexec : hi.exec = false) (hz : hi.val.state = .zombie)
    (hparent : hi.val.parent = some p) (hw : ρ.wait = some w) (hreaped : w.reaped = []) (hfailed : w.failed = false)
    (hcopied : w.addr = true → w.copied = some hi.val.xstate) :
    (discipline init ord tidy).wp (waitFree p i hi.val.pid) (Scanned init p h is ρ₀) ρ := by
  have hon : ρ.on = true := ha.on
  have hfree : Frees ρ hi := ⟨p, ha.me, Or.inr ⟨hz, hparent, w, hw, hreaped⟩⟩
  apply wp_bind.2
  apply wp_free hon hheld hfree
  have hw₁ : (ρ.free i hi).wait = some { w with reaped := [(hi.val.pid, hi.val.xstate)] } := by
    simp only [Know.free, if_pos hz, hw, Option.map_some, hreaped, List.nil_append]
  have hheld₁ : (ρ.free i hi).held i = some { hi with val := hi.val.free } := held_hold_self
  have ha₁ : ((ρ.free i hi).unlock i { hi with val := hi.val.free }).Awake p h := by
    have heq : ((ρ.free i hi).unlock i { hi with val := hi.val.free }).held = (ρ.unlock i hi).held :=
      update_idem ..
    exact { ha with
      self := (congrFun heq p).trans ha.self
      held := fun hj => (congrFun heq _).trans (ha.held hj) }
  apply waitReturn_spec hheld₁ ha₁ (Slot.ready_free hexec) hw₁
  exact Or.inr ⟨_, _, rfl, rfl, hfailed, hcopied⟩

end

theorem wp_copyout {Q : Bool → Know N C → Prop} {ok : Bool} {w : Waited} (hon : ρ.on = true) (hw : ρ.wait = some w)
    (hQ : Q ok { ρ with wait := some (if ok then { w with copied := some status } else { w with failed := true }) }) :
    (discipline init ord tidy).wp (copyout status ok) Q ρ := by
  refine ⟨hon, ?_⟩
  intro r ρ' hpost
  obtain ⟨hr, rfl⟩ := hpost
  change Q r _
  rw [hr, hw]
  exact hQ

variable {addr copied : Bool}

theorem reap_spec (hheld : ρ.held i = some hi)
    (ha : (ρ.unlock i hi).Awake p h) (hready : hi.Ready tidy) (hz : hi.val.state = .zombie)
    (hparent : hi.val.parent = some p) (hw : ρ.wait = some ⟨-1, addr, [], none, false⟩) :
    (discipline init ord tidy).wp (reap p i hi.val addr copied) (Scanned init p h is ρ₀) ρ := by
  have hexec : hi.exec = false := by
    rw [Bool.eq_false_iff]
    intro he
    rw [hready.exec.1 he] at hz
    cases hz
  cases addr with
  | false => exact waitFree_spec hheld ha hexec hz hparent hw rfl rfl nofun
  | true =>
    have hheld₁ : ∀ o, ({ ρ with wait := o } : Know N C).held i = some hi := fun _ => hheld
    have ha₁ : ∀ o, (({ ρ with wait := o } : Know N C).unlock i hi).Awake p h := fun _ => { ha with }
    have hon : ρ.on = true := ha.on
    unfold reap
    rw [if_pos rfl]
    apply wp_bind.2
    apply wp_copyout hon hw
    cases copied with
    | false => exact waitReturn_spec (hheld₁ _) (ha₁ _) hready rfl (Or.inl ⟨rfl, rfl⟩)
    | true => exact waitFree_spec (hheld₁ _) (ha₁ _) hexec hz hparent rfl rfl rfl fun _ => rfl

theorem wp_acquireChild {Q : Unit → Know N C → Prop} (ha : ρ.Awake p h) (hkid : ρ.kid i = some true)
    (hQ : ∀ hi : Slot N, i ≠ p → hi.Ready tidy → hi.val.parent = some p → ((ρ.hold i hi).unlock i hi).Awake p h →
      Q () (ρ.hold i hi)) : (discipline init ord tidy).wp (acquire (.proc i)) Q ρ := by
  have hone : ∀ {j hj}, ρ.held j = some hj → hj = h := by
    intro j hj hheld
    by_cases hjp : j = p
    · rw [hjp, ha.self, Option.some.injEq] at hheld
      exact hheld.symm
    · rw [ha.held hjp] at hheld
      cases hheld
  refine wp_acquire ha.on ha.pid (fun _ j hj hheld => Or.inr ⟨⟨p, ha.me⟩, hkid, ha.live, ?_⟩) ?_
  · rw [hone hheld]
    exact Nat.le_of_eq ha.birth
  · intro hi hf
    have hparent := hf.kid ha.me hkid
    have hne : i ≠ p := by
      rintro rfl
      exact hf.parent hparent
    have hme : (ρ.hold i hi).me ≠ .proc i := by
      intro hi
      exact hne (Thread.proc.inj (hi.symm.trans ha.me))
    rw [show (ρ.hold i hi).own i hi.val = ρ.hold i hi from if_neg hme]
    apply hQ hi hne hf.ready hparent
    have hheld : ((ρ.hold i hi).unlock i hi).held = ρ.held := by
      show update (update ρ.held i (some hi)) i none = ρ.held
      rw [update_idem, ← hf.free, update_eq_self]
    exact { ha with
      self := (congrFun hheld p).trans ha.self
      held := fun hj => (congrFun hheld _).trans (ha.held hj) }

/-- `wait` looks at a child. -/
theorem waitChild_spec {rest : ProcM N (Int ⊕ Bool)}
    (ha : ρ.Awake p h) (hw : ρ.wait = some ⟨-1, addr, [], none, false⟩) (hkid : ρ.kid i = some true)
    (hrest : ∀ ρ' : Know N C, ρ'.Awake p h → ρ'.wait = ρ.wait → ρ'.seen i →
      (∀ j, j ≠ i → ρ'.kid j = ρ.kid j ∧ (ρ.seen j → ρ'.seen j)) →
      (discipline init ord tidy).wp rest (Scanned init p h is ρ₀) ρ') :
    (discipline init ord tidy).wp (do
        acquire (.proc i)
        let v ← load i
        if v.state = .zombie then reap p i v addr copied
        else
          release (.proc i)
          rest) (Scanned init p h is ρ₀) ρ := by
  apply wp_bind.2
  apply wp_acquireChild ha hkid
  intro hi hne hready hparent ha₁
  have hon : (ρ.hold i hi).on = true := ha.on
  apply wp_bind.2
  apply wp_load_held hon held_hold_self
  intro _
  obtain ⟨kid, heq, hkid₂⟩ := (ρ.hold i hi).learn_eq init i hi.val.parent
  rw [heq]
  generalize hρ : ({ ρ.hold i hi with kid := kid } : Know N C) = ρ₂
  have hheld₂ : ρ₂.held i = some hi := hρ ▸ held_hold_self
  have hw₂ : ρ₂.wait = ρ.wait := hρ ▸ rfl
  have ha₂ : (ρ₂.unlock i hi).Awake p h := by
    rw [← hρ]
    exact { ha₁ with }
  split
  · rename_i hz
    exact reap_spec hheld₂ ha₂ hready hz hparent (hw₂.trans hw)
  · rename_i hz
    apply wp_bind.2
    apply wp_releaseChild hheld₂ ha₂ hready
    have hme : ρ₂.me ≠ .proc i := by
      intro hi
      exact hne (Thread.proc.inj (hi.symm.trans ha₂.me))
    apply hrest _ ha₂ hw₂
    · have hself : ρ₂.Self := by
        refine ⟨p, ha₂.me, ?_⟩
        rw [← hρ]
        show (update ρ.held i (some hi) p).isSome = true
        rw [update_of_ne hne.symm, ha.self]
        rfl
      simp only [unlock, if_neg hme, if_true]
      exact ⟨hself, hz⟩
    · intro j hj
      constructor
      · rw [← hρ]
        exact hkid₂ j hj
      · intro hseen
        simp only [unlock, if_neg hme, if_neg hj]
        rw [← hρ]
        exact hseen

theorem waitFrom_spec : ∀ {havekids : Bool} {ρ : Know N C}, ρ.Awake p h → ρ.wait = some ⟨-1, addr, [], none, false⟩ →
    (discipline init ord tidy).wp (waitFrom p addr copied is havekids) (Scanned init p h is ρ) ρ := by
  induction is with
  | nil => exact fun ha _ => ⟨ha, rfl, fun _ j hj => hj.resolve_left (by simp)⟩
  | cons i is ih =>
    intro havekids ρ ha hw
    unfold waitFrom
    apply wp_bind.2
    apply wp_load ha.on
    intro v _ _
    have ha₁ := ha.learn init i v.parent
    have hu₁ : Upto init i ρ (ρ.learn init i v.parent) := upto_learn
    -- what is known of the other slots stays
    have hothers : ∀ {ρ' : Know N C} {j : Fin N}, j ≠ i → ρ'.kid j = (ρ.learn init i v.parent).kid j →
        ((ρ.learn init i v.parent).seen j → ρ'.seen j) → j ∈ i :: is ∨ ρ.kid j = some false ∨ ρ.seen j →
        j ∈ is ∨ ρ'.kid j = some false ∨ ρ'.seen j := by
      intro ρ' j hj hkid hseen hclear
      rw [kid_learn_of_ne hj] at hkid
      rw [seen_learn] at hseen
      rw [hkid]
      exact hclear.imp (fun hmem => (List.mem_cons.1 hmem).resolve_left hj) (Or.imp_right hseen)
    split
    · rename_i hchild
      apply waitChild_spec ha₁ (hu₁.wait.trans hw) (kid_learn_self ha.me hchild)
      intro ρ₂ ha₂ hw₂ hseen₂ hrest₂
      apply wp_mono _ (ih ha₂ (hw₂.trans (hu₁.wait.trans hw)))
      intro r ρ' hscan
      apply hscan.mono (hw₂.trans hu₁.wait)
      intro _ j hclear
      by_cases hj : j = i
      · rw [hj]
        exact Or.inr (Or.inr hseen₂)
      · exact hothers hj (hrest₂ j hj).1 (hrest₂ j hj).2 hclear
    · rename_i hother
      apply wp_mono _ (ih ha₁ (hu₁.wait.trans hw))
      intro r ρ' hscan
      apply hscan.mono hu₁.wait
      intro hp j hclear
      by_cases hj : j = i
      · rw [hj]
        exact Or.inr (Or.inl (kid_learn_other ha.me hp hother))
      · exact hothers hj rfl (fun h => h) hclear

theorem waitLoop_spec {fuel : Nat} : ∀ {h : Slot N} {ρ : Know N C}, ρ.Awake p h →
    ρ.wait = some ⟨-1, addr, [], none, false⟩ →
    (discipline init ord tidy).wp (waitLoop p addr copied fuel) (fun r ρ' => ρ'.Stands ∧ ρ'.lk = none ∧
      ρ'.me = .proc p ∧ ∃ w, ρ'.wait = some w ∧ { w with result := r }.Good) ρ := by
  induction fuel with
  | zero => exact fun _ _ => wp_halt
  | succ fuel ih =>
    intro h ρ ha hw
    unfold waitLoop
    apply wp_seq (waitFrom_spec ha hw)
    intro r ρ₁ hscan
    cases r with
    | inl result => exact hscan
    | inr havekids =>
      obtain ⟨ha₁, hw₁, hclear⟩ := hscan
      apply wp_bind.2
      apply wp_load_held ha₁.on ha₁.self
      intro hparent
      have ha₂ := ha₁.learn init p h.val.parent
      have hu₂ : Upto init p ρ₁ (ρ₁.learn init p h.val.parent) := upto_learn
      have hw₂ := hu₂.wait.trans (hw₁.trans hw)
      split
      · apply wp_bind.2
        apply wp_releaseSelf ha₂
        intro hs₃ hlk₃ _
        exact ⟨hs₃, hlk₃, ha₂.me, _, hw₂, Or.inl ⟨rfl, rfl⟩⟩
      · have hsleep : (discipline init ord tidy).wp (sleepSelf p) _ (ρ₁.learn init p h.val.parent) := sleepOn_spec ha₂ ?_ nofun
        · apply wp_seq hsleep
          rintro _ ρ₃ ⟨h₃, ha₃, hkeep₃⟩
          exact ih ha₃ (hkeep₃.wait.trans hw₂)
        · intro _ hp j
          by_cases hj : j = p
          · rw [hj]
            exact Or.inl (kid_learn_other ha₁.me hp hparent)
          · rw [kid_learn_of_ne hj, seen_learn]
            exact hclear hp j (Or.inl (List.mem_finRange j))

theorem wait_spec {fuel : Nat} (hs : ρ.Stands) (hlk : ρ.lk = none) (hme : ρ.me = .proc p) :
    (discipline init ord tidy).wp (wait p addr copied fuel)
      (fun _ ρ' => ρ'.Stands ∧ ρ'.lk = none ∧ ρ'.me = .proc p) ρ := by
  refine wp_bind.2 ⟨hs.on, ?_⟩
  rintro _ _ rfl
  apply wp_bind.2
  have hs₀ : ({ ρ with wait := some ⟨-1, addr, [], none, false⟩ } : Know N C).Stands :=
    ⟨hs.on, hs.held, hs.pid, hs.proc, hs.live⟩
  apply enter_spec hs₀ hlk fun r hr => by cases hr; exact hme
  intro ρ₁ hs₁ hlk₁ hkeep₁
  apply wp_acquire hs₁.on hs₁.pid fun _ => hs₁.under p
  intro h hf
  have ha := hs₁.lock hlk₁ (hkeep₁.me.trans hme) hf
  apply wp_seq (waitLoop_spec ha ((hf.upto hs₁.live).wait.trans hkeep₁.wait))
  rintro r ρ₂ ⟨hs₂, hlk₂, hme₂, w, hw₂, hgood⟩
  refine ⟨⟨hs₂.on, ?_⟩, ?_⟩
  · intro w' hw'
    cases hw₂.symm.trans hw'
    exact hgood
  · rintro _ _ rfl
    exact ⟨⟨hs₂.on, hs₂.held, hs₂.pid, hs₂.proc, hs₂.live⟩, hlk₂, hme₂⟩

end Waits

end Proc

end Xv6
