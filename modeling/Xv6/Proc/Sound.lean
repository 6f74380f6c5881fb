import Xv6.Proc.Rely

/-! Every step that keeps the promises of the code keeps the invariant and what all threads know. -/

namespace Xv6

open Lib
open Function (update update_of_ne update_self)

variable {N C : Nat}

namespace Know

variable {ρ : Know N C} {i : Fin N} {h : Slot N} {l : LockId N}

theorem has_lk {k : Nat} : ρ.has (.lk k) = true ↔ ρ.lk = some k := beq_iff_eq

theorem has_hold : (ρ.hold i h).has l = true ↔ l = .proc i ∨ ρ.has l = true := by
  cases l with
  | proc j =>
    by_cases hj : j = i
    · simp [has, hold, hj]
    · simp [has, hold, hj]
  | pid => simp [has, hold]
  | lk k => simp [has, hold]

theorem has_hold_of_held {h' : Slot N} (hheld : ρ.held i = some h') : (ρ.hold i h).has l = true ↔ ρ.has l = true := by
  rw [has_hold, or_iff_right_of_imp]
  rintro rfl
  rw [has, hheld]
  rfl

@[simp] theorem held_own (v : Proc N) : (ρ.own i v).held = ρ.held := by
  unfold own
  split <;> rfl

theorem held_hold {j : Fin N} {h' : Slot N} (hj : (ρ.hold i h).held j = some h') :
    j = i ∧ h' = h ∨ j ≠ i ∧ ρ.held j = some h' := by
  by_cases hji : j = i
  · simp only [hold, hji, update_self, Option.some.injEq] at hj
    exact Or.inl ⟨hji, hj.symm⟩
  · simp only [hold, update_of_ne hji] at hj
    exact Or.inr ⟨hji, hj⟩

end Know

namespace Table

variable {init : Fin N} {ord tidy : Prop} {s s' : Table N C} {ρ ρ' : Know N C} {t q : Thread N C} {c : Fin C}
  {i p : Fin N}

/-- When `exit` locks the parent it read, the slot does not hold a younger process. -/
def Ordered (s : Table N C) : Thread N C → ProcOp N → Prop
  | .proc p, .acquireParent q => (s.proc q).birth < (s.proc p).birth
  | _, _ => True

/-- `kalloc` finds a page for the trap frame, and `kill` is not called for `pid` 0. -/
def Tidy (_ : Table N C) (_ : Thread N C) : ProcOp N → Prop
  | .store _ (.trapframe v) => v = true
  | .mark _ pid => pid ≠ 0
  | _ => True

instance (s : Table N C) (t : Thread N C) (o : ProcOp N) : Decidable (s.Ordered t o) := by
  unfold Ordered
  split <;> infer_instance

instance (s : Table N C) (t : Thread N C) (o : ProcOp N) : Decidable (s.Tidy t o) := by
  unfold Tidy
  split <;> infer_instance

/-- The steps of the runs that are looked at. -/
def Condition (ord tidy : Prop) (s : Table N C) (t : Thread N C) (o : ProcOp N) : Prop :=
  (ord → s.Ordered t o) ∧ (tidy → s.Tidy t o)

/-- The invariant of the table and of what the threads know. -/
def Sane (init : Fin N) (tidy : Prop) (s : Table N C) (ρ : Thread N C → Know N C) : Prop :=
  s.Inv init tidy ∧ ∀ t, Knows init s t (ρ t)

/-- What a step of thread `t` keeps. -/
structure Kept (init : Fin N) (tidy : Prop) (t : Thread N C) (s s' : Table N C) (ρ' : Know N C) : Prop where
  inv : s'.Inv init tidy
  knows : Knows init s' t ρ'
  rely : ∀ {q}, q ≠ t → Rely init q s s'

/-! ### Parts that a step does not touch -/

theorem Family.congr (h : s.Family init) (hproc : s'.proc = s.proc) (hclock : s.clock ≤ s'.clock)
    (harg : ∀ i, (s.proc i).state = .zombie → s'.arg i = s.arg i) : s'.Family init := by
  constructor
  case live => rw [hproc]; exact h.live
  case parent => rw [hproc]; exact h.parent
  case clock => rw [hproc]; exact fun i => Nat.le_trans (h.clock i) hclock
  case first => rw [hproc]; exact h.first
  case asleep => rw [hproc]; exact h.asleep
  case status =>
    intro i hi
    rw [hproc] at hi ⊢
    rw [harg i hi]
    exact h.status hi

theorem Kills.congr (h : s.Kills tidy) (hproc : s'.proc = s.proc)
    (hlock : ∀ i, s'.lock (.proc i) = none → s.lock (.proc i) = none) (hnamed : s'.named = s.named)
    (hkills : s'.kills = s.kills) : s'.Kills tidy := by
  constructor
  case clean => rw [hproc]; exact fun hnone => h.clean (hlock _ hnone)
  case named => rw [hproc, hnamed]; exact h.named
  case kills => rw [hkills]; exact h.kills

theorem Matches.congr {h : Slot N} (hm : s.Matches i h) (hproc : s'.proc i = s.proc i) (hcur : s'.cur = s.cur)
    (hsaved : s'.saved i = s.saved i) (hnap : s'.nap i = s.nap i) : s'.Matches i h :=
  hm.same ⟨hproc, fun _ => by rw [hcur], hsaved, hnap⟩

theorem Owns.congr (h : Owns init s p ρ) (hproc : s'.proc = s.proc) (harg : s'.arg p = s.arg p)
    (hwait : s'.wait p = s.wait p) : Owns init s' p ρ := by
  constructor
  case live => rw [hproc]; exact h.live
  case kid => rw [hproc]; exact h.kid
  case nokid => rw [hproc]; exact h.nokid
  case seen => rw [hproc]; exact h.seen
  case arg => rw [harg]; exact h.arg
  case wait => rw [hwait]; exact h.wait
  case proc => exact h.proc

theorem Owns.hold (h : Owns init s p ρ) (hs : Slot N) : Owns init s p (ρ.hold i hs) where
  live := h.live
  kid := h.kid
  nokid := h.nokid
  seen := by
    intro j hj
    refine ⟨?_, (h.seen hj).2⟩
    show (update ρ.held i (some hs) p).isSome = true
    by_cases hp : p = i
    · rw [hp, update_self]
      rfl
    · rw [update_of_ne hp]
      exact (h.seen hj).1
  arg := h.arg
  wait := h.wait
  proc := h.proc

/-- A process that looks at its own slot knows its parent. -/
theorem Knows.remember (hk : Knows init s t ρ) (hlive : ρ.me = .proc i → (s.proc i).Live) :
    Knows init s t (ρ.own i (s.proc i)) := by
  unfold Know.own
  split
  · rename_i hme
    refine ⟨hk.me, hk.on, hk.off, hk.slot, ?_, hk.proc, hk.quiet⟩
    intro p hp
    have h := hk.own hp
    cases (hk.me.symm.trans hme).symm.trans hp
    exact ⟨fun _ => ⟨hlive hme, rfl, Or.inl rfl⟩, h.kid, h.nokid, h.seen, h.arg, h.wait, h.proc⟩
  · exact hk

theorem Knows.of_on (hcur : s.cur c = t) (hme : ρ.me = t) (hon : ρ.on = true)
    (hlock : ∀ l, s.lock l = some c ↔ ρ.has l = true) (hslot : ∀ {i h}, ρ.held i = some h → s.Matches i h)
    (hown : ∀ {p}, t = .proc p → Owns init s p ρ) (hproc : ∀ {c}, t = .sched c → s.cproc c = ρ.proc)
    (hquiet : ∀ {k}, ρ.lk = some k → ∀ {j a}, ρ.quiet j a → s.Quiet k a j) : Knows init s t ρ where
  me := hme
  on := fun _ => ⟨c, hcur, hlock⟩
  off := by
    intro hoff
    rw [hon] at hoff
    cases hoff
  slot := hslot
  own := hown
  proc := hproc
  quiet := hquiet

/-- A step that switches no thread. -/
structure Stays (s s' : Table N C) (ρ ρ' : Know N C) : Prop where
  cur : s'.cur = s.cur
  cproc : s'.cproc = s.cproc
  me : ρ'.me = ρ.me
  on : ρ'.on = ρ.on
  proc : ρ'.proc = ρ.proc

theorem Kept.of_on (hk : Knows init s t ρ) (hcur : s.cur c = t) (hon : ρ.on = true) (hinv : s'.Inv init tidy)
    (hrely : ∀ {q}, s.cur c ≠ q → Rely init q s s') (hlock : ∀ l, s'.lock l = some c ↔ ρ'.has l = true)
    (hslot : ∀ {i h}, ρ'.held i = some h → s'.Matches i h) (hown : ∀ {p}, t = .proc p → Owns init s' p ρ')
    (hquiet : ∀ {k}, ρ'.lk = some k → ∀ {j a}, ρ'.quiet j a → s'.Quiet k a j)
    (hstays : Stays s s' ρ ρ') : Kept init tidy t s s' ρ' where
  inv := hinv
  knows := by
    refine Knows.of_on (c := c) (by rw [hstays.cur, hcur]) (hstays.me.trans hk.me) (hstays.on.trans hon) hlock hslot hown
      ?_ hquiet
    rw [hstays.cproc, hstays.proc]
    exact hk.proc
  rely := fun hq => hrely (by rw [hcur]; exact Ne.symm hq)

variable {l : LockId N}

section

variable (hinv : s.Inv init tidy)
include hinv

theorem Knows.lock_iff (hk : Knows init s t ρ) (hcur : s.cur c = t) (hon : ρ.on = true)
    (l : LockId N) : s.lock l = some c ↔ ρ.has l = true := by
  obtain ⟨c', hcur', hlock⟩ := hk.on hon
  rw [hinv.cpus.inj (hcur.trans hcur'.symm)]
  exact hlock l

theorem Knows.lock_held (hk : Knows init s t ρ) (hcur : s.cur c = t) {h : Slot N}
    (hheld : ρ.held i = some h) : s.lock (.proc i) = some c := by
  obtain ⟨c', hcur', hlock⟩ := hk.of_held hheld
  rwa [hinv.cpus.inj (hcur.trans hcur'.symm)]

/-! ### Locks -/

theorem Inv.free_slot (hnone : s.lock (.proc i) = none) :
    ∃ h : Slot N, s.Matches i h ∧ h.Ready tidy ∧ h.nap = none := by
  classical
  have hidle := hinv.cpus.idle hnone
  refine ⟨⟨s.proc i, decide (∃ c, s.cur c = .proc i), s.saved i, s.nap i⟩,
    ⟨rfl, decide_eq_true_iff, rfl, rfl⟩, ⟨?_, hidle.saved, hinv.kills.clean hnone⟩, hinv.notes.free hnone⟩
  rw [decide_eq_true_iff]
  exact hidle.exec

theorem Inv.acquire (hnone : s.lock l = none) (n : Nat) : (s.setLock l (some c) c n).Inv init tidy where
  cpus := hinv.cpus.acquire hnone n
  family := hinv.family.congr rfl (Nat.le_refl _) fun _ _ => rfl
  notes := ⟨fun h => hinv.notes.free (lock_setLock_eq_none h), hinv.notes.nap, hinv.notes.sleep⟩
  kills := hinv.kills.congr rfl (fun _ => lock_setLock_eq_none) rfl rfl
  waits := hinv.waits

end

theorem frame_acquire (hnone : s.lock l = none) (n : Nat) : Frame c s (s.setLock l (some c) c n) where
  proc := rfl
  cur := rfl
  cproc := rfl
  lock := by
    intro c' hc' l'
    by_cases hl : l' = l
    · rw [hl, lock_setLock, update_self, hnone]
      simp [Ne.symm hc']
    · rw [lock_setLock, update_of_ne hl]
  saved := fun _ => Or.inr rfl
  nap := fun _ => Or.inr rfl
  note := fun h => Or.inl h
  arg := fun _ => Or.inr rfl
  wait := fun _ => Or.inr rfl

theorem lock_acquired {l l' : LockId N} (n : Nat) :
    (s.setLock l (some c) c n).lock l' = some c ↔ l' = l ∨ s.lock l' = some c := by
  by_cases hl : l' = l
  · simp [hl]
  · simp [hl]

theorem lock_release_iff {l l' : LockId N} : (s.release c t l).lock l' = some c ↔ l' ≠ l ∧ s.lock l' = some c := by
  show update s.lock l none l' = some c ↔ _
  by_cases hl : l' = l
  · simp [hl]
  · simp [hl]

theorem lock_release_eq_none {l l' : LockId N} (h : (s.release c t l).lock l' = none) : l' = l ∨ s.lock l' = none := by
  by_cases hl : l' = l
  · exact Or.inl hl
  · exact Or.inr ((update_of_ne hl ..).symm.trans h)

theorem Inv.release (hinv : s.Inv init tidy) (hlock : s.lock l = some c)
    (hidle : ∀ i, l = .proc i → s.Idle i) (hclean : ∀ i, l = .proc i → (s.proc i).state = .unused →
      (s.proc i).Clean tidy) (hcproc : ∀ i, l = .proc i → s.cproc c = some i → s.cur c = .proc i) :
    (s.release c t l).Inv init tidy where
  cpus := (hinv.cpus.release hlock hidle hcproc (s.noff c - 1)).congr rfl rfl rfl rfl rfl
  family := hinv.family.congr rfl (Nat.le_refl _) fun _ _ => rfl
  notes := by
    constructor
    case free =>
      intro i hi
      show s.napAfter c t l i = none
      rcases lock_release_eq_none hi with rfl | hnone
      · exact if_pos rfl
      · cases l with
        | proc j => simp only [napAfter, hinv.notes.free hnone, ite_self]
        | pid => exact hinv.notes.free hnone
        | lk k => simp [napAfter, hnone, hinv.notes.free hnone]
    case nap =>
      intro i k hi a
      change s.napAfter c t l i = some k at hi
      show s.notedAfter t l i k a = s.woken k a
      cases l with
      | proc j =>
        rw [napAfter] at hi
        split at hi
        · cases hi
        · exact hinv.notes.nap hi a
      | pid => exact hinv.notes.nap hi a
      | lk k' =>
        rw [napAfter] at hi
        rw [notedAfter]
        split at hi
        · rename_i hself
          rw [if_pos hself.1]
        · split
          · rfl
          · exact hinv.notes.nap hi a
    case sleep =>
      intro i k a hi
      show s.notedAfter t l i k a = s.woken k a
      cases l with
      | proc | pid => exact hinv.notes.sleep hi
      | lk k' =>
        rw [notedAfter]
        split
        · rfl
        · exact hinv.notes.sleep hi
  kills := by
    refine ⟨?_, hinv.kills.named, hinv.kills.kills⟩
    intro i hi
    rcases lock_release_eq_none hi with hl | hnone
    · exact hclean i hl.symm
    · exact hinv.kills.clean hnone
  waits := hinv.waits

theorem frame_release (hlock : s.lock l = some c) : Frame c s (s.release c t l) where
  proc := rfl
  cur := rfl
  cproc := rfl
  lock := by
    intro c' hc' l'
    show update s.lock l none l' = some c' ↔ _
    by_cases hl : l' = l
    · rw [hl, update_self, hlock]
      simp [Ne.symm hc']
    · rw [update_of_ne hl]
  saved := fun _ => Or.inr rfl
  nap := by
    intro i
    show _ ∨ s.napAfter c t l i = s.nap i
    cases l with
    | proc j =>
      by_cases hi : i = j
      · exact Or.inl (hi ▸ hlock)
      · exact Or.inr (if_neg hi)
    | pid => exact Or.inr rfl
    | lk k =>
      by_cases hi : s.lock (.proc i) = some c
      · exact Or.inl hi
      · exact Or.inr (if_neg fun h => hi h.2)
  note := by
    intro i k hi
    change s.napAfter c t l i = some k at hi
    cases l with
    | proc j =>
      rw [napAfter] at hi
      split at hi
      · cases hi
      · exact Or.inl hi
    | pid => exact Or.inl hi
    | lk k' =>
      rw [napAfter] at hi
      split at hi
      · cases hi
        exact Or.inr hlock
      · exact Or.inl hi
  arg := fun _ => Or.inr rfl
  wait := fun _ => Or.inr rfl

theorem Owns.unlock (h : Owns init s p ρ) (hme : ρ.me = .proc p) {hs : Slot N} (hm : s.Matches i hs) :
    Owns init s p (ρ.unlock i hs) where
  live := h.live
  kid := h.kid
  nokid := h.nokid
  seen := by
    intro j hj
    simp only [Know.unlock] at hj ⊢
    split at hj
    · exact hj.elim
    · rename_i hne
      have hp : p ≠ i := by
        rintro rfl
        exact hne hme
      rw [update_of_ne hp]
      split at hj
      · rename_i hji
        obtain ⟨⟨p', hme', hself⟩, hz⟩ := hj
        cases hme.symm.trans hme'
        refine ⟨hself, fun _ _ => ?_⟩
        rw [hji, hm.val]
        exact hz
      · exact h.seen hj
  arg := h.arg
  wait := h.wait
  proc := h.proc

theorem Owns.write (h : Owns init s p ρ) {v : Proc N} (hparent : v.parent = (s.proc i).parent)
    (hlive : i = p → ρ.live = true → v.Live ∧ v.birth = (s.proc i).birth)
    (hz : v.state = .zombie → (s.proc i).state = .zombie) : Owns init (s.setProcess i v) p ρ := by
  have hsame : ∀ j, ((s.setProcess i v).proc j).parent = (s.proc j).parent := apply_update_eq hparent
  constructor
  case live =>
    intro hl
    obtain ⟨-, hbirth, hparent'⟩ := h.live hl
    rw [hsame]
    by_cases hp : p = i
    · subst hp
      rw [proc_setProcess, update_self, (hlive rfl hl).2]
      exact ⟨(hlive rfl hl).1, hbirth, hparent'⟩
    · rw [proc_setProcess, update_of_ne hp]
      exact h.live hl
  case kid =>
    intro j hj
    rw [hsame]
    exact h.kid hj
  case nokid =>
    intro j hj
    rw [hsame]
    exact h.nokid hj
  case seen =>
    intro j hj
    refine ⟨(h.seen hj).1, ?_⟩
    rw [hsame]
    intro hp hjp
    have hold := (h.seen hj).2 hp hjp
    by_cases hji : j = i
    · rw [hji] at hold ⊢
      rw [proc_setProcess, update_self]
      exact fun h => hold (hz h)
    · rw [proc_setProcess, update_of_ne hji]
      exact hold
  case arg => exact h.arg
  case wait => exact h.wait
  case proc => exact h.proc

section

variable (hinv : s.Inv init tidy) (hk : Knows init s t ρ) (hcur : s.cur c = t) (hon : ρ.on = true)
include hinv hk hcur hon

theorem kept_acquire (hnone : s.lock (.proc i) = none) (n : Nat) :
    ∃ ρ', ρ.Locked init tidy ρ' i ∧ (∀ h, ρ'.held i = some h → h.val = s.proc i) ∧
      Kept init tidy t s (s.setLock (.proc i) (some c) c n) ρ' := by
  obtain ⟨h, hm, hready, hnap⟩ := hinv.free_slot hnone
  have hexec : ρ.me = .proc i → h.exec = true := by
    intro hme
    exact hm.exec.2 ⟨c, by rw [hcur, ← hk.me, hme]⟩
  have hlive : ρ.me = .proc i → (s.proc i).Live := by
    intro hme
    have hrun := hready.exec.1 (hexec hme)
    rw [← hm.val] at hrun
    simp [Proc.Live, hrun]
  have hfree : ρ.held i = none := by
    cases hheld : ρ.held i with
    | none => rfl
    | some h' =>
      rw [hk.lock_held hinv hcur hheld] at hnone
      cases hnone
  have hkept : Kept init tidy t s (s.setLock (.proc i) (some c) c n) (ρ.hold i h) := by
    refine .of_on hk hcur hon (hinv.acquire hnone n) (frame_acquire hnone n).rely ?_ ?_ ?_ hk.quiet
      ⟨rfl, rfl, rfl, rfl, rfl⟩
    · intro l
      rw [lock_acquired, Know.has_hold, hk.lock_iff hinv hcur hon]
    · intro j h' hheld
      rcases Know.held_hold hheld with ⟨rfl, rfl⟩ | ⟨_, hold⟩
      · exact hm.congr rfl rfl rfl rfl
      · exact (hk.slot hold).congr rfl rfl rfl rfl
    · exact fun hp => ((hk.own hp).hold (i := i) h).congr rfl rfl rfl
  have hknows := hkept.knows.remember (i := i) hlive
  rw [show (s.setLock (.proc i) (some c) c n).proc i = h.val from hm.val] at hknows
  refine ⟨(ρ.hold i h).own i h.val, ⟨h, rfl, hready, hnap, hfree, ?_, ?_, hexec, ?_⟩, ?_, hkept.inv, hknows, hkept.rely⟩
  · rw [← hm.val]
    exact fun hi => hinv.family.parent_ne hi rfl
  · intro p hme hkid
    rw [← hm.val]
    exact (hk.own (hk.me.symm.trans hme)).kid hkid
  · intro hme hl
    rw [← hm.val]
    exact ((hk.own (hk.me.symm.trans hme)).live hl).2
  · intro h' hheld
    simp only [Know.held_own, Know.hold, update_self, Option.some.injEq] at hheld
    rw [← hheld, hm.val]

theorem kept_acquirePid (hnone : s.lock .pid = none) (n : Nat) :
    Kept init tidy t s (s.setLock .pid (some c) c n) { ρ with pid := true } := by
  apply Kept.of_on hk hcur hon (hinv.acquire hnone n) (frame_acquire hnone n).rely
  case hlock =>
    intro l
    rw [lock_acquired, hk.lock_iff hinv hcur hon]
    cases l <;> simp [Know.has]
  case hslot => exact fun hheld => (hk.slot hheld).congr rfl rfl rfl rfl
  case hown =>
    intro p hp
    have hown := hk.own hp
    exact ⟨hown.live, hown.kid, hown.nokid, hown.seen, hown.arg, hown.wait, hown.proc⟩
  case hquiet => exact hk.quiet
  case hstays => exact ⟨rfl, rfl, rfl, rfl, rfl⟩

theorem kept_acquireCond {k : Nat} (hnone : s.lock (.lk k) = none) (hlk : ρ.lk = none) (n : Nat) :
    Kept init tidy t s (s.setLock (.lk k) (some c) c n) { ρ with lk := some k, quiet := fun _ _ => False } := by
  apply Kept.of_on hk hcur hon (hinv.acquire hnone n) (frame_acquire hnone n).rely
  case hlock =>
    intro l
    rw [lock_acquired, hk.lock_iff hinv hcur hon]
    cases l with
    | proc j => simp [Know.has]
    | pid => simp [Know.has]
    | lk k' =>
      rw [Know.has_lk, Know.has_lk, hlk, LockId.lk.injEq]
      show k' = k ∨ none = some k' ↔ some k = some k'
      grind
  case hslot => exact fun hheld => (hk.slot hheld).congr rfl rfl rfl rfl
  case hown =>
    intro p hp
    have hown := hk.own hp
    exact ⟨hown.live, hown.kid, hown.nokid, hown.seen, hown.arg, hown.wait, hown.proc⟩
  case hquiet => exact fun _ _ _ h => h.elim
  case hstays => exact ⟨rfl, rfl, rfl, rfl, rfl⟩

theorem kept_release (hproc : ρ.proc ≠ some i) {h : Slot N} (hheld : ρ.held i = some h) (hready : h.Ready tidy) :
    Kept init tidy t s (s.release c t (.proc i)) (ρ.unlock i h) := by
  have hlock := hk.lock_held hinv hcur hheld
  have hm := hk.slot hheld
  have hidle : s.Idle i := by
    constructor
    case exec => rw [← hm.exec, hready.exec, hm.val]
    case saved => rw [hm.val, hm.saved]; exact hready.saved
  have hcproc : s.cproc c = some i → s.cur c = .proc i := by
    intro hci
    cases ht : t with
    | proc p =>
      rw [ht] at hcur
      cases (hinv.cpus.cproc hcur).symm.trans hci
      exact hcur
    | sched d =>
      rw [ht] at hcur
      have hd := hk.proc (ht.trans (congrArg Thread.sched (hinv.cpus.home hcur)))
      exact absurd (hd.symm.trans hci) hproc
  apply Kept.of_on hk hcur hon
  case hinv =>
    apply hinv.release hlock
    · rintro j ⟨⟩
      exact hidle
    · rintro j ⟨⟩
      rw [hm.val]
      exact hready.clean
    · rintro j ⟨⟩
      exact hcproc
  case hrely => exact (frame_release hlock).rely
  case hlock =>
    intro l
    rw [lock_release_iff, hk.lock_iff hinv hcur hon]
    cases l with
    | proc j =>
      by_cases hji : j = i
      · simp [Know.has, Know.unlock, hji]
      · simp [Know.has, Know.unlock, hji]
    | pid | lk => simp [Know.has, Know.unlock]
  case hslot =>
    intro j h' hj
    by_cases hji : j = i
    · simp [Know.unlock, hji] at hj
    · simp only [Know.unlock, update_of_ne hji] at hj
      exact (hk.slot hj).congr rfl rfl rfl (if_neg hji)
  case hown => exact fun hp => ((hk.own hp).unlock (hk.me.trans hp) hm).congr rfl rfl rfl
  case hquiet =>
    intro k hlk j a hq
    simp only [Know.unlock] at hlk hq
    unfold Quiet
    show s.napAfter c t (.proc i) j ≠ some k ∧ ¬ (s.proc j).Sleeps k a
    rw [napAfter]
    by_cases hji : j = i
    · rw [if_pos hji] at hq
      rw [if_pos hji, hji, hm.val]
      exact ⟨by simp, hq k hlk⟩
    · rw [if_neg hji] at hq
      rw [if_neg hji]
      exact hk.quiet hlk hq
  case hstays => exact ⟨rfl, rfl, rfl, rfl, rfl⟩

theorem kept_releasePid (hpid : ρ.pid = true) : Kept init tidy t s (s.release c t .pid) { ρ with pid := false } := by
  have hlock : s.lock .pid = some c := (hk.lock_iff hinv hcur hon .pid).2 hpid
  apply Kept.of_on hk hcur hon
  case hinv => exact hinv.release hlock nofun nofun nofun
  case hrely => exact (frame_release hlock).rely
  case hlock =>
    intro l
    rw [lock_release_iff, hk.lock_iff hinv hcur hon]
    cases l <;> simp [Know.has]
  case hslot => exact fun hheld => (hk.slot hheld).congr rfl rfl rfl rfl
  case hown =>
    intro p hp
    have hown := hk.own hp
    exact ⟨hown.live, hown.kid, hown.nokid, hown.seen, hown.arg, hown.wait, hown.proc⟩
  case hquiet => exact hk.quiet
  case hstays => exact ⟨rfl, rfl, rfl, rfl, rfl⟩

theorem kept_releaseCond {k : Nat} (hlk : ρ.lk = some k) : Kept init tidy t s (s.release c t (.lk k)) (ρ.unlockCond k) := by
  have hlock : s.lock (.lk k) = some c := by
    rw [hk.lock_iff hinv hcur hon, Know.has_lk, hlk]
  have hsome : ∀ j, ((ρ.unlockCond k).held j).isSome = (ρ.held j).isSome := by
    intro j
    simp only [Know.unlockCond]
    split
    · rw [Option.isSome_map]
    · rfl
  apply Kept.of_on hk hcur hon
  case hinv => exact hinv.release hlock nofun nofun nofun
  case hrely => exact (frame_release hlock).rely
  case hlock =>
    intro l
    rw [lock_release_iff, hk.lock_iff hinv hcur hon]
    cases l with
    | proc j => simp [Know.has, hsome]
    | pid => simp [Know.has, Know.unlockCond]
    | lk k' =>
      rw [Know.has_lk, Know.has_lk, hlk]
      show LockId.lk k' ≠ LockId.lk k ∧ some k = some k' ↔ none = some k'
      grind
  case hslot =>
    intro j h hj
    have hnap : (s.release c t (.lk k)).nap j = if t = .proc j ∧ s.lock (.proc j) = some c then some k
      else s.nap j := rfl
    simp only [Know.unlockCond, hk.me] at hj
    split at hj
    · rename_i hself
      obtain ⟨h', hheld, rfl⟩ := Option.map_eq_some_iff.1 hj
      have hm := hk.slot hheld
      refine ⟨hm.val, hm.exec, hm.saved, ?_⟩
      rw [hnap, if_pos ⟨hself, hk.lock_held hinv hcur hheld⟩]
    · rename_i hself
      have hsame : (s.release c t (.lk k)).nap j = s.nap j := by
        rw [hnap, if_neg fun h => hself h.1]
      exact (hk.slot hj).congr rfl rfl rfl hsame
  case hown =>
    intro p hp
    have hown := hk.own hp
    refine ⟨hown.live, hown.kid, hown.nokid, ?_, hown.arg, hown.wait, hown.proc⟩
    rw [hsome]
    exact hown.seen
  case hquiet => exact fun h => by cases h
  case hstays => exact ⟨rfl, rfl, rfl, rfl, rfl⟩

theorem kept_write {h : Slot N} (hheld : ρ.held i = some h) {v : Proc N} (hv : Allowed init tidy c i s v) {live : Bool}
    {kid : Fin N → Option Bool} (hown : ∀ {p}, t = .proc p →
      Owns init (s.setProcess i v) p { ρ.hold i { h with val := v } with live := live, kid := kid }) :
    Kept init tidy t s (s.setProcess i v) { ρ.hold i { h with val := v } with live := live, kid := kid } := by
  refine .of_on hk hcur hon (hinv.write hv) hv.polite.rely ?hlock ?hslot hown ?hquiet ⟨rfl, rfl, rfl, rfl, rfl⟩
  case hlock => exact fun l => (hk.lock_iff hinv hcur hon l).trans (Know.has_hold_of_held hheld).symm
  case hslot =>
    intro j h' hj
    have hm := hk.slot hheld
    rcases Know.held_hold hj with ⟨rfl, rfl⟩ | ⟨hji, hold⟩
    · exact ⟨update_self .., hm.exec, hm.saved, hm.nap⟩
    · exact (hk.slot hold).congr (update_of_ne hji ..) rfl rfl rfl
  case hquiet =>
    intro k hk' j a hj
    have hold := hk.quiet hk' hj
    refine ⟨hold.1, ?_⟩
    by_cases hji : j = i
    · subst hji
      rw [proc_setProcess, update_self]
      exact fun hs => (hv.note k a hs).elim hold.2 hold.1
    · rw [proc_setProcess, update_of_ne hji]
      exact hold.2

end

end Table

end Xv6
