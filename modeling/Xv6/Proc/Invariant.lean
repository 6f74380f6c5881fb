import Mathlib.Tactic.SplitIfs
import Xv6.Lib.Threads
import Xv6.Proc.Logic

/-! What holds in every state of the process table: of the CPUs and the threads they execute, of parents and
children, of sleepers and the calls of `wakeup`, and of free slots. Each part is kept by
the steps that touch what it is about. -/

namespace Xv6

open Lib Function

namespace Table

variable {N C : Nat}

/-- A slot whose lock is free: a CPU executes its thread just when it is running, and the context of a process
that waits to run is complete. -/
structure Idle (s : Table N C) (i : Fin N) : Prop where
  exec : (∃ c, s.cur c = .proc i) ↔ (s.proc i).state = .running
  saved : (s.proc i).state = .sleeping ∨ (s.proc i).state = .runnable → s.saved i = true

/-- A thread runs on one CPU, a scheduler on its own. A CPU has as `c->proc` the process that it executes, or one
whose lock it holds. -/
structure Cpus (s : Table N C) : Prop where
  inj : Function.Injective s.cur
  home : ∀ {c d}, s.cur c = .sched d → d = c
  cproc : ∀ {c i}, s.cur c = .proc i → s.cproc c = some i
  owner : ∀ {c i}, s.cproc c = some i → s.cur c = .proc i ∨ s.lock (.proc i) = some c
  busy : ∀ {c i}, s.cur c = .proc i → (s.proc i).state = .running ∨ s.lock (.proc i) = some c
  idle : ∀ {i}, s.lock (.proc i) = none → s.Idle i

/-- Parents are live and older than their children, and `initproc` is the oldest. A process that sleeps in
`wait` has no zombie child, unless it is `initproc`. -/
structure Family (init : Fin N) (s : Table N C) : Prop where
  live : (s.proc init).Live
  parent : ∀ {i j}, (s.proc i).parent = some j → (s.proc j).Live ∧ (s.proc j).birth < (s.proc i).birth
  clock : ∀ i, (s.proc i).birth ≤ s.clock
  first : ∀ {i}, (s.proc i).state ≠ .unused → (s.proc init).birth ≤ (s.proc i).birth
  asleep : ∀ {i j}, j ≠ init → (s.proc j).Waits j → (s.proc i).parent = some j → (s.proc i).state ≠ .zombie
  status : ∀ {i}, (s.proc i).state = .zombie → (s.proc i).xstate = s.arg i

/-- A sleeper has seen all completed calls of `wakeup` for its address. -/
structure Notes (s : Table N C) : Prop where
  free : ∀ {i}, s.lock (.proc i) = none → s.nap i = none
  nap : ∀ {i k}, s.nap i = some k → ∀ a, s.noted i k a = s.woken k a
  sleep : ∀ {i k a}, (s.proc i).Sleeps k a → s.noted i k a = s.woken k a

/-- Free slots are clean, and `kill` finds existing processes. -/
structure Kills (tidy : Prop) (s : Table N C) : Prop where
  clean : ∀ {i}, s.lock (.proc i) = none → (s.proc i).state = .unused → (s.proc i).Clean tidy
  named : tidy → ∀ {i}, (s.proc i).killed = true → (s.proc i).pid ∈ s.named i
  kills : ∀ {x}, x ∈ s.kills → x.2.pid = x.1 ∧ (tidy → x.2.state ≠ .unused)

structure Inv (init : Fin N) (tidy : Prop) (s : Table N C) : Prop where
  cpus : s.Cpus
  family : s.Family init
  notes : s.Notes
  kills : s.Kills tidy
  waits : ∀ {i w}, w ∈ s.waits i → w.Good

variable {s : Table N C} {c : Fin C} {i : Fin N} {init : Fin N} {tidy : Prop}

@[simp] theorem proc_setProcess (v : Proc N) : (s.setProcess i v).proc = update s.proc i v := rfl

@[simp] theorem lock_setLock (l : LockId N) (o : Option (Fin C)) (n : Nat) :
    (s.setLock l o c n).lock = update s.lock l o := rfl

theorem ne_of_lock {j : Fin N} (hlock : s.lock (.proc i) = some c) (hnone : s.lock (.proc j) = none) : j ≠ i := by
  rintro rfl
  rw [hnone] at hlock
  cases hlock

theorem update_cur_iff {t : Thread N C} (hold : s.cur c ≠ .proc i) (hnew : t ≠ .proc i) (c' : Fin C) :
    update s.cur c t c' = .proc i ↔ s.cur c' = .proc i := by
  by_cases hc : c' = c
  · rw [hc, update_self]
    exact iff_of_false hnew hold
  · rw [update_of_ne hc]

/-! ### Locks -/

theorem lock_setLock_eq_none {l l' : LockId N} {n : Nat} (h : (s.setLock l (some c) c n).lock l' = none) :
    s.lock l' = none := by
  by_cases hl : l' = l
  · rw [hl, lock_setLock, update_self] at h
    cases h
  · rwa [lock_setLock, update_of_ne hl] at h

theorem lock_setLock_of_some {l l' : LockId N} {o : Option (Fin C)} {n : Nat} {c' : Fin C} (hl : s.lock l = none)
    (hl' : s.lock l' = some c') : (s.setLock l o c n).lock l' = some c' := by
  have hne : l' ≠ l := by
    rintro rfl
    rw [hl] at hl'
    cases hl'
  rwa [lock_setLock, update_of_ne hne]

variable {v : Proc N}

section

variable (h : s.Cpus)
include h

theorem Cpus.acquire {l : LockId N} (hl : s.lock l = none) (n : Nat) : (s.setLock l (some c) c n).Cpus where
  inj := h.inj
  home := h.home
  cproc := h.cproc
  owner := fun hcproc => (h.owner hcproc).imp_right fun hlock => lock_setLock_of_some hl hlock
  busy := fun hcur => (h.busy hcur).imp_right fun hlock => lock_setLock_of_some hl hlock
  idle := by
    intro i hnone
    have hidle := h.idle (lock_setLock_eq_none hnone)
    exact ⟨hidle.exec, hidle.saved⟩

theorem Cpus.release {l : LockId N} (hlock : s.lock l = some c) (hl : ∀ i, l = .proc i → s.Idle i)
    (hcproc : ∀ i, l = .proc i → s.cproc c = some i → s.cur c = .proc i) (n : Nat) :
    (s.setLock l none c n).Cpus where
  inj := h.inj
  home := h.home
  cproc := h.cproc
  owner := by
    intro c' i hc'
    by_cases hi : l = .proc i
    · left
      rcases h.owner hc' with hcur | hlock'
      · exact hcur
      · rw [← hi, hlock, Option.some.injEq] at hlock'
        exact hlock' ▸ hcproc i hi (hlock' ▸ hc')
    · rw [lock_setLock, update_of_ne (Ne.symm hi)]
      exact h.owner hc'
  busy := by
    intro c' i hcur
    by_cases hi : l = .proc i
    · exact Or.inl ((hl i hi).exec.1 ⟨c', hcur⟩)
    · rw [lock_setLock, update_of_ne (Ne.symm hi)]
      exact h.busy hcur
  idle := by
    intro i hnone
    by_cases hi : l = .proc i
    · exact ⟨(hl i hi).exec, (hl i hi).saved⟩
    · rw [lock_setLock, update_of_ne (Ne.symm hi)] at hnone
      exact ⟨(h.idle hnone).exec, (h.idle hnone).saved⟩

/-! ### The CPUs -/

theorem Cpus.congr {s' : Table N C} (hproc : s'.proc = s.proc) (hlock : s'.lock = s.lock)
    (hcur : s'.cur = s.cur) (hcproc : s'.cproc = s.cproc) (hsaved : s'.saved = s.saved) : s'.Cpus := by
  constructor
  case inj => exact hcur ▸ h.inj
  case home => rw [hcur]; exact h.home
  case cproc => rw [hcur, hcproc]; exact h.cproc
  case owner => rw [hcur, hcproc, hlock]; exact h.owner
  case busy => rw [hcur, hproc, hlock]; exact h.busy
  case idle =>
    intro i hi
    rw [hlock] at hi
    have hidle := h.idle hi
    constructor
    case exec => rw [hcur, hproc]; exact hidle.exec
    case saved => rw [hproc, hsaved]; exact hidle.saved

theorem Cpus.write (hlock : s.lock (.proc i) = some c)
    (hrun : s.cur c ≠ .proc i → (s.proc i).state = .running → v.state = .running) :
    (s.setProcess i v).Cpus where
  inj := h.inj
  home := h.home
  cproc := h.cproc
  owner := h.owner
  busy := by
    intro c' j hcur
    by_cases hj : j = i
    · subst hj
      by_cases hc : c' = c
      · exact Or.inr (hc ▸ hlock)
      · have hne : s.cur c ≠ .proc j := fun heq => hc (h.inj (hcur.trans heq.symm))
        rw [proc_setProcess, update_self]
        apply (h.busy hcur).imp_left
        exact hrun hne
    · rw [proc_setProcess, update_of_ne hj]
      exact h.busy hcur
  idle := by
    intro j hnone
    have hj := ne_of_lock hlock hnone
    have hidle := h.idle (show s.lock (.proc j) = none from hnone)
    constructor
    · rw [proc_setProcess, update_of_ne hj]
      exact hidle.exec
    · rw [proc_setProcess, update_of_ne hj]
      exact hidle.saved

theorem Cpus.save (hlock : s.lock (.proc i) = some c) (b : Bool) : { s with saved := update s.saved i b }.Cpus where
  inj := h.inj
  home := h.home
  cproc := h.cproc
  owner := h.owner
  busy := h.busy
  idle := by
    intro j hnone
    have hidle := h.idle (show s.lock (.proc j) = none from hnone)
    have hj := ne_of_lock hlock hnone
    refine ⟨hidle.exec, ?_⟩
    show _ → update s.saved i b j = true
    rw [update_of_ne hj]
    exact hidle.saved

theorem Cpus.setProc {d : Fin C} (hcur : s.cur c = .sched d) {o : Option (Fin N)}
    (ho : ∀ i, o = some i → s.lock (.proc i) = some c) :
    { s with cproc := update s.cproc c o }.Cpus where
  inj := h.inj
  home := h.home
  cproc := by
    intro c' i hcur'
    have hne : c' ≠ c := by
      rintro rfl
      rw [show s.cur c' = .proc i from hcur'] at hcur
      cases hcur
    show update s.cproc c o c' = some i
    rw [update_of_ne hne]
    exact h.cproc hcur'
  owner := by
    intro c' i hcproc
    by_cases hc : c' = c
    · right
      simp only [hc, update_self] at hcproc
      exact hc ▸ ho i hcproc
    · apply h.owner
      simp only [update_of_ne hc] at hcproc
      exact hcproc
  busy := h.busy
  idle := fun hnone => ⟨(h.idle hnone).exec, (h.idle hnone).saved⟩

/-- CPU `c` switches to a thread that no CPU executes, when it has the lock of slot `i`. -/
theorem Cpus.swtch {u : Thread N C} {saved : Fin N → Bool} (hlock : s.lock (.proc i) = some c)
    (hsaved : ∀ j, j ≠ i → saved j = s.saved j) (hnew : ∀ c', s.cur c' ≠ u) (hhome : ∀ {d}, u = .sched d → d = c)
    (hproc : ∀ {j}, s.cur c = .proc j ∨ u = .proc j → j = i) (hcproc : s.cproc c = some i) :
    { s with cur := update s.cur c u, saved := saved }.Cpus where
  inj := by
    intro c₁ c₂ heq
    simp only [update_apply] at heq
    split_ifs at heq with h₁ h₂ h₂
    · rw [h₁, h₂]
    · exact absurd heq.symm (hnew c₂)
    · exact absurd heq (hnew c₁)
    · exact h.inj heq
  home := by
    intro c' d
    exact forall_update (A := fun c' (t : Thread N C) => t = .sched d → d = c') hhome (fun _ _ => h.home) c'
  cproc := by
    intro c' j
    refine forall_update (A := fun c' (t : Thread N C) => t = .proc j → s.cproc c' = some j) ?_ (fun _ _ => h.cproc) c'
    intro hj
    rw [hcproc, hproc (Or.inr hj)]
  owner := by
    intro c' j hc'
    by_cases hc : c' = c
    · cases hcproc.symm.trans (hc ▸ hc')
      exact Or.inr (hc ▸ hlock)
    · exact (h.owner hc').imp_left (update_of_ne hc ..).trans
  busy := by
    intro c' j
    refine forall_update (A := fun c' (t : Thread N C) => t = .proc j →
      (s.proc j).state = .running ∨ s.lock (.proc j) = some c') ?_ (fun _ _ => h.busy) c'
    intro hj
    rw [hproc (Or.inr hj)]
    exact Or.inr hlock
  idle := by
    intro j hnone
    have hidle := h.idle (show s.lock (.proc j) = none from hnone)
    have hj := ne_of_lock hlock hnone
    constructor
    · rw [← hidle.exec]
      exact exists_congr (update_cur_iff (fun hold => hj (hproc (Or.inl hold))) fun hu => hj (hproc (Or.inr hu)))
    · show _ → saved j = true
      rw [hsaved j hj]
      exact hidle.saved

end

/-! ### Slots -/

/-- When the CPU that holds the lock of a slot may write it: a running process is stopped only by itself,
and a process dies only by itself, when it has no children; a child is given away only by its parent, and
a process becomes the child of one that is older and live. -/
structure Allowed (init : Fin N) (tidy : Prop) (c : Fin C) (i : Fin N) (s : Table N C) (v : Proc N) : Prop where
  lock : s.lock (.proc i) = some c
  run : s.cur c ≠ .proc i → (s.proc i).state = .running → v.state = .running
  alive : (s.proc i).Live → v.Live ∨ s.cur c = .proc i ∧ i ≠ init ∧ ∀ j, (s.proc j).parent ≠ some i
  birth : v.birth = (s.proc i).birth ∨ (s.proc i).state = .unused ∧ v.parent = none ∧ v.birth ≤ s.clock ∧
    (s.proc init).birth ≤ v.birth
  parent : ∀ m, v.parent = some m → (s.proc i).parent = some m ∨
    m ≠ i ∧ (s.proc m).Live ∧ (s.proc m).birth < v.birth ∧ (m = init ∨ s.cur c = .proc m ∧ v.state ≠ .zombie)
  orphan : ∀ m, (s.proc i).parent = some m → v.parent = some m ∨ s.cur c = .proc m
  kept : s.cur c ≠ .proc i → (s.proc i).Live → v.parent = (s.proc i).parent ∨ v.parent = some init
  first : (s.proc i).state = .unused → v.state ≠ .unused → (s.proc init).birth ≤ v.birth
  zombie : v.state = .zombie → (s.proc i).state = .zombie ∨
    ∀ q, v.parent = some q → q = init ∨ q ≠ i ∧ s.lock (.proc q) = some c ∧ ¬ (s.proc q).Waits q
  waits : v.Waits i → (s.proc i).Waits i ∨
    (i ≠ init → ∀ j, (s.proc j).parent = some i → (s.proc j).state ≠ .zombie)
  status : v.state = .zombie → v.xstate = s.arg i
  note : ∀ k a, v.Sleeps k a → (s.proc i).Sleeps k a ∨ s.nap i = some k
  named : tidy → v.killed = true → v.pid ∈ s.named i

theorem Family.parent_ne (h : s.Family init) {j : Fin N} (hj : (s.proc i).parent = some j) : j ≠ i := by
  rintro rfl
  exact Nat.lt_irrefl _ (h.parent hj).2

theorem Family.write (h : s.Family init) (hv : Allowed init tidy c i s v) : (s.setProcess i v).Family init := by
  have hself : (s.setProcess i v).proc i = v := update_self ..
  have hother : ∀ {j}, j ≠ i → (s.setProcess i v).proc j = s.proc j := fun hj => update_of_ne hj ..
  have hbirth : ∀ {j}, (s.proc j).state ≠ .unused → ((s.setProcess i v).proc j).birth = (s.proc j).birth := by
    intro j hused
    by_cases hj : j = i
    · rw [hj, hself]
      exact hv.birth.resolve_right fun hnew => hused (hj ▸ hnew.1)
    · rw [hother hj]
  have hinit := hbirth h.live.1
  have hparent : ∀ {a b}, ((s.setProcess i v).proc a).parent = some b → b ≠ a ∧
      ((s.setProcess i v).proc b).Live ∧ ((s.setProcess i v).proc b).birth < ((s.setProcess i v).proc a).birth := by
    intro a b hab
    by_cases ha : a = i
    · subst ha
      rw [hself] at hab ⊢
      obtain ⟨hb, hlive, hlt⟩ : b ≠ a ∧ (s.proc b).Live ∧ (s.proc b).birth < v.birth := by
        rcases hv.parent b hab with hold | ⟨hb, hlive, hlt, _⟩
        · rcases hv.birth with hsame | ⟨_, hnone, _⟩
          · exact ⟨h.parent_ne hold, hsame ▸ h.parent hold⟩
          · cases hnone.symm.trans hab
        · exact ⟨hb, hlive, hlt⟩
      rw [hother hb]
      exact ⟨hb, hlive, hlt⟩
    · rw [hother ha] at hab ⊢
      obtain ⟨hlive, hlt⟩ := h.parent hab
      refine ⟨h.parent_ne hab, ?_, hbirth hlive.1 ▸ hlt⟩
      by_cases hb : b = i
      · rw [hb, hself]
        exact (hv.alive (hb ▸ hlive)).resolve_right fun hdead => hdead.2.2 a (hb ▸ hab)
      · rw [hother hb]
        exact hlive
  constructor
  case live =>
    by_cases hi : init = i
    · rw [hi, hself]
      exact (hv.alive (hi ▸ h.live)).resolve_right fun hne => hne.2.1 hi.symm
    · rw [hother hi]
      exact h.live
  case parent => exact fun hab => (hparent hab).2
  case clock =>
    refine forall_update (A := fun _ (w : Proc N) => w.birth ≤ s.clock) ?_ fun j _ => h.clock j
    rcases hv.birth with hsame | hnew
    · exact hsame ▸ h.clock i
    · exact hnew.2.2.1
  case first =>
    intro a
    rw [hinit]
    refine forall_update (A := fun _ (w : Proc N) => w.state ≠ .unused → (s.proc init).birth ≤ w.birth) ?_
      (fun _ _ => h.first) a
    intro ha
    by_cases hold : (s.proc i).state = .unused
    · exact hv.first hold ha
    · rcases hv.birth with hsame | hnew
      · exact hsame ▸ h.first hold
      · exact hnew.2.2.2
  case asleep =>
    intro a j hj hwaits hab
    have hne := (hparent hab).1
    by_cases ha : a = i
    · subst ha
      rw [hother hne] at hwaits
      rw [hself] at hab ⊢
      intro hz
      rcases hv.zombie hz with hold | hnew
      · rcases hv.parent j hab with hp | ⟨_, _, _, hinit | ⟨_, hnz⟩⟩
        · exact h.asleep hj hwaits hp hold
        · exact hj hinit
        · exact hnz hz
      · rcases hnew j hab with hinit | ⟨_, _, hno⟩
        · exact hj hinit
        · exact hno hwaits
    · rw [hother ha] at hab ⊢
      by_cases hji : j = i
      · subst hji
        rw [hself] at hwaits
        rcases hv.waits hwaits with hold | hnew
        · exact h.asleep hj hold hab
        · exact hnew hj a hab
      · rw [hother hji] at hwaits
        exact h.asleep hj hwaits hab
  case status =>
    exact fun {a} => forall_update (A := fun a (w : Proc N) => w.state = .zombie → w.xstate = s.arg a) hv.status
      (fun _ _ => h.status) a

theorem Notes.write (h : s.Notes) (hv : Allowed init tidy c i s v) : (s.setProcess i v).Notes where
  free := h.free
  nap := h.nap
  sleep := by
    intro j k a
    refine forall_update (A := fun j (w : Proc N) => w.Sleeps k a → s.noted j k a = s.woken k a) ?_
      (fun _ _ => h.sleep) j
    exact fun hi => (hv.note k a hi).elim h.sleep fun hnap => h.nap hnap a

theorem Kills.write (h : s.Kills tidy) (hv : Allowed init tidy c i s v) : (s.setProcess i v).Kills tidy where
  clean := by
    intro j hnone
    rw [proc_setProcess, update_of_ne (ne_of_lock hv.lock hnone)]
    exact h.clean hnone
  named := by
    intro htidy j
    exact forall_update (A := fun j (w : Proc N) => w.killed = true → w.pid ∈ s.named j) (hv.named htidy)
      (fun _ _ => h.named htidy) j
  kills := h.kills

theorem Inv.write (h : s.Inv init tidy) (hv : Allowed init tidy c i s v) : (s.setProcess i v).Inv init tidy where
  cpus := h.cpus.write hv.lock hv.run
  family := h.family.write hv
  notes := h.notes.write hv
  kills := h.kills.write hv
  waits := h.waits

end Table

end Xv6
