import Mathlib.Logic.Relation
import Xv6.Proc.Safety

/-! Deadlocks on the locks of processes. A parent is locked before its child, and older processes before
younger ones. `exit` gives up the lock of the process between reading its parent and locking it, and the
slot of the parent may meanwhile hold a younger process. -/

namespace Xv6

open Lib

variable {N C : Nat}

/-- The lock that an operation acquires. -/
def ProcOp.wants : ProcOp N → Option (LockId N)
  | .acquire l => some l
  | .acquireParent i => some (.proc i)
  | _ => none

namespace Table

variable {init : Fin N} {ord tidy : Prop} {irq : Thread N C → List (List Interrupt)}
  {ls : Fin N → List (List Proc.Call × Int)} {rounds : Fin C → Nat} {c : Conf (ProcSig N) (Thread N C) (Table N C)}
  {t t' : Thread N C} {ρ : Thread N C → Know N C} {l : LockId N} {i j : Fin N}

/-- A CPU that executes thread `t` holds the lock. -/
def Holds (s : Table N C) (t : Thread N C) (l : LockId N) : Prop := ∃ d, s.cur d = t ∧ s.lock l = some d

/-- Thread `t` holds the lock of some process and spins for a lock that `t'` holds. -/
def Spins (c : Conf (ProcSig N) (Thread N C) (Table N C)) (t t' : Thread N C) : Prop :=
  (∃ i, c.st.Holds t (.proc i)) ∧ ∃ o l, (c.prog t).next = some o ∧ o.wants = some l ∧ c.st.Holds t' l

/-- CPU `d` executes `t`, holds the lock of slot `i` and spins for the one of slot `j`, which CPU `d'` that executes
`t'` holds. -/
def spinsAt (t t' : Thread N C) (d d' : Fin C) (i j : Fin N) (c : Conf (ProcSig N) (Thread N C) (Table N C)) : Bool :=
  c.st.cur d = t ∧ c.st.lock (.proc i) = some d ∧ (c.prog t).next.bind ProcOp.wants = some (.proc j) ∧
    c.st.lock (.proc j) = some d' ∧ c.st.cur d' = t'

theorem spins_of_spinsAt {d d' : Fin C} (h : spinsAt t t' d d' i j c) : Spins c t t' := by
  obtain ⟨hcur, hi, hnext, hj, hcur'⟩ := of_decide_eq_true h
  obtain ⟨o, ho, hwants⟩ := Option.bind_eq_some_iff.1 hnext
  exact ⟨⟨i, d, hcur, hi⟩, o, .proc j, ho, hwants, d', hcur', hj⟩

theorem Knows.holds_iff {s : Table N C} {ρ : Know N C} (hk : Knows init s t ρ) (hinv : s.Inv init tidy)
    (hon : ρ.on = true) (l : LockId N) : s.Holds t l ↔ ρ.has l = true := by
  obtain ⟨d, hcur, hlock⟩ := hk.on hon
  rw [← hlock l]
  constructor
  · rintro ⟨d', hcur', hl⟩
    rw [hinv.cpus.inj (hcur'.trans hcur.symm)] at hl
    exact hl
  · exact fun hl => ⟨d, hcur, hl⟩

/-- A thread that spins for a lock does not hold `pid_lock`, and holds the lock of no process unless it
wants `pid_lock` or a younger process. -/
theorem wants_pre {ρ : Know N C} {o : ProcOp N} (hpre : (discipline init ord tidy).pre ρ o) (hl : o.wants = some l) :
    ρ.on = true ∧ ρ.pid = false ∧ (l = .pid ∨ (∃ j, l = .proc j ∧ (ord → ρ.Under j)) ∨ ∀ i, ρ.held i = none) := by
  cases o with
  | acquire l' =>
    cases hl
    cases l with
    | proc j => exact ⟨hpre.1, hpre.2.1, Or.inr (Or.inl ⟨j, rfl, hpre.2.2⟩)⟩
    | pid => exact ⟨hpre.1, hpre.2, Or.inl rfl⟩
    | lk k => exact ⟨hpre.1, hpre.2.2.1, Or.inr (Or.inr hpre.2.1)⟩
  | acquireParent j => exact ⟨hpre.1, hpre.2.2.1, Or.inr (Or.inr hpre.2.1)⟩
  | _ => cases hl

/-- A wanted slot is younger than all that are held. -/
theorem Knows.younger {s : Table N C} {ρ : Know N C} (hk : Knows init s t ρ) (hinv : s.Inv init tidy)
    (hunder : ρ.Under j) {h : Slot N} (hheld : ρ.held i = some h) : (s.proc i).birth < (s.proc j).birth := by
  rw [(hk.slot hheld).val]
  rcases hunder i h hheld with ⟨hme, hlive, hlt⟩ | ⟨⟨p, hme⟩, hkid, hlive, hle⟩
  · obtain ⟨-, hbirth, -⟩ := (hk.own (hk.me.symm.trans hme)).live hlive
    rw [hbirth]
    exact hlt
  · have hown := hk.own (hk.me.symm.trans hme)
    obtain ⟨-, hbirth, -⟩ := hown.live hlive
    rw [← hbirth] at hle
    exact Nat.lt_of_le_of_lt hle (hinv.family.parent (hown.kid hkid)).2

section

variable (hsane : Sane init tidy c.st ρ) (hwp : ∀ t, (discipline init True tidy).wp (c.prog t) (fun _ _ => True) (ρ t))
include hsane hwp

/-- A thread that waits for one that itself waits wants a slot, which is younger than all that it holds. -/
theorem Spins.younger (hspin : Spins c t t') (hnext : ∃ t'', Spins c t' t'') :
    ∃ j, c.st.Holds t' (.proc j) ∧ ∀ i, c.st.Holds t (.proc i) → (c.st.proc i).birth < (c.st.proc j).birth := by
  obtain ⟨hinv, hk⟩ := hsane
  obtain ⟨⟨i₀, hi₀⟩, o, l, ho, hl, hheld⟩ := hspin
  obtain ⟨t'', -, o', l', ho', hl', -⟩ := hnext
  obtain ⟨hon, -, hcases⟩ := wants_pre ((discipline init True tidy).pre_of_next (hwp t) ho) hl
  obtain ⟨hon', hpid', -⟩ := wants_pre ((discipline init True tidy).pre_of_next (hwp t') ho') hl'
  rcases hcases with rfl | ⟨j, rfl, hunder⟩ | hbare
  · rw [(hk t').holds_iff hinv hon'] at hheld
    cases hpid'.symm.trans hheld
  · refine ⟨j, hheld, fun i hi => ?_⟩
    rw [(hk t).holds_iff hinv hon] at hi
    obtain ⟨h, hh⟩ := Option.isSome_iff_exists.1 hi
    exact (hk t).younger hinv (hunder trivial) hh
  · rw [(hk t).holds_iff hinv hon, Know.has, hbare i₀] at hi₀
    cases hi₀

theorem younger_of_chain (hchain : Relation.TransGen (Spins c) t t') (hnext : ∃ t'', Spins c t' t'') :
    ∃ j, c.st.Holds t' (.proc j) ∧ ∀ i, c.st.Holds t (.proc i) → (c.st.proc i).birth < (c.st.proc j).birth := by
  induction hchain with
  | single hspin => exact hspin.younger hsane hwp hnext
  | tail _ hspin ih =>
    obtain ⟨j, hj, hall⟩ := ih ⟨_, hspin⟩
    obtain ⟨k, hk, hall'⟩ := hspin.younger hsane hwp hnext
    exact ⟨k, hk, fun i hi => Nat.lt_trans (hall i hi) (hall' j hj)⟩

end

/-- **No deadlock** in the runs in which `exit` never locks a younger process in the place of the parent it read:
there is no cycle of threads that each hold the lock of a process and spin for a lock that the next one
holds. -/
theorem no_deadlock (hreach : machine.Reach (fun s t (o : ProcOp N) => s.Ordered t o) (boot init irq ls rounds) c)
    (t : Thread N C) : ¬ Relation.TransGen (Spins c) t t := by
  intro hcycle
  have hcond : ∀ (s : Table N C) t (o : ProcOp N), s.Ordered t o → Condition True False s t o :=
    fun s t o hord => ⟨fun _ => hord, False.elim⟩
  obtain ⟨ρ, hsane, hwp⟩ := sane_of_reach (hreach.mono hcond)
  obtain ⟨t', hspin, -⟩ := Relation.TransGen.head'_iff.1 hcycle
  obtain ⟨j, hj, hall⟩ := younger_of_chain hsane hwp hcycle ⟨t', hspin⟩
  exact Nat.lt_irrefl _ (hall j hj)

/-- `initproc` makes a child and waits for it; the child yields. -/
def parentAndChild : Fin 2 → List (List Proc.Call × Int)
  | 0 => [([.fork true true true, .wait false true 1], 0)]
  | 1 => [([.yield], 0)]

/-- The parent, with its own lock, spins for the lock of the child. -/
theorem no_deadlock_waiting : ∃ c : Conf (ProcSig 2) (Thread 2 2) (Table 2 2),
    machine.Reach (fun s t (o : ProcOp 2) => s.Ordered t o) (boot 0 (fun _ => []) parentAndChild fun _ => 1) c ∧
    Spins c (.proc 0) (.proc 1) ∧ ∀ t, ¬ Relation.TransGen (Spins c) t t := by
  obtain ⟨c, hreach, htest⟩ := exists_run (C := 2) (fun s t o => decide (s.Ordered t o))
    (fun _ _ _ => of_decide_eq_true) 0 parentAndChild (fun _ => 1)
    [(7, .sched 0), (23, .proc 0), (11, .sched 1), (4, .proc 1), (5, .proc 0)]
    (fun c => spinsAt (.proc 0) (.proc 1) 0 1 0 1 c) (by decide)
  exact ⟨c, hreach, spins_of_spinsAt htest, no_deadlock hreach⟩

/-- A process with a parent, a child and a grandchild. -/
def fourGenerations : Fin 4 → List (List Proc.Call × Int)
  | 0 => [([.fork true true true, .wait false true 1], 0)]
  | 1 => [([.fork true true true], 0)]
  | 2 => [([.fork true true true], 0)]
  | 3 => [([.fork true true true, .wait false true 1], 0)]

/-- Process 2 exits and reads that its parent is process 1, which then exits and is freed by `initproc`. Process 3, the
child of process 2, makes a child in slot 1 and waits for it. Process 2 has the locks of slots 1 and
2 and spins for that of its child, which has its own lock and spins for that of slot 1. -/
theorem exit_deadlocks : ∃ c : Conf (ProcSig 4) (Thread 4 4) (Table 4 4),
    machine.Reach (fun _ _ _ => True) (boot 0 (fun _ => []) fourGenerations fun _ => 1) c ∧
    Relation.TransGen (Spins c) (.proc 2) (.proc 2) := by
  obtain ⟨c, hreach, hfirst, hsecond⟩ := exists_run (C := 4) (fun _ _ _ => true) (fun _ _ _ _ => trivial)
    0 fourGenerations (fun _ => 1)
    [(7, .sched 0), (23, .proc 0), (11, .sched 1), (27, .proc 1), (15, .sched 2), (42, .proc 2),
      (19, .sched 3), (30, .proc 1), (3, .sched 1), (11, .proc 0), (28, .proc 3), (6, .proc 2)]
    (fun c => spinsAt (.proc 2) (.proc 3) 2 3 2 3 c ∧ spinsAt (.proc 3) (.proc 2) 3 2 3 1 c) (by decide +kernel)
  exact ⟨c, hreach, .tail (.single (spins_of_spinsAt hfirst)) (spins_of_spinsAt hsecond)⟩

end Table

end Xv6
