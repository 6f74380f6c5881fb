import Mathlib.Logic.Relation
import Xv6.Proc.Runs

/-! What the invariant says about the runs of the machine: processes run on one CPU at a time, no wakeup is
lost, zombies are freed by `wait` of their parents, and free slots are clean. -/

namespace Xv6

open Lib

variable {N C : Nat}

namespace Table

variable {init : Fin N} {ord tidy : Prop} {irq : Thread N C → List (List Interrupt)}
  {ls : Fin N → List (List Proc.Call × Int)} {rounds : Fin C → Nat} {c c' : Conf (ProcSig N) (Thread N C) (Table N C)}
  {t : Thread N C} {o : ProcOp N} {s s' : Table N C} {i : Fin N}

theorem condition_false (s : Table N C) (t : Thread N C) (o : ProcOp N) : Condition False False s t o :=
  ⟨False.elim, False.elim⟩

theorem sane_of_run (hreach : machine.Reach (fun _ _ _ => True) (boot init irq ls rounds) c) :
    ∃ ρ, Sane init False c.st ρ ∧ ∀ t, (discipline init False False).wp (c.prog t) (fun _ _ => True) (ρ t) :=
  sane_of_reach (hreach.mono fun s t o _ => condition_false s t o)

variable {r : (ProcSig N).Ret o} {ρ : Know N C}

theorem step_of_exec (h : exec t o s = .ok r s') : ∃ d, s.cur d = t ∧ step d t o s = .ok r s' := by
  unfold exec at h
  split at h
  · rename_i d hcpu
    exact ⟨d, cur_of_cpu hcpu, h⟩
  · cases h

/-! ### One CPU at a time -/

theorem Inv.running_iff (h : s.Inv init tidy) (hlock : s.lock (.proc i) = none) :
    (s.proc i).state = .running ↔ ∃! d, s.cproc d = some i := by
  have hcur : ∀ {d}, s.cproc d = some i → s.cur d = .proc i := by
    intro d hd
    refine (h.cpus.owner hd).resolve_right ?_
    rw [hlock]
    exact nofun
  rw [← (h.cpus.idle hlock).exec]
  constructor
  · rintro ⟨d, hd⟩
    exact ⟨d, h.cpus.cproc hd, fun d' hd' => h.cpus.inj ((hcur hd').trans hd.symm)⟩
  · rintro ⟨d, hd, _⟩
    exact ⟨d, hcur hd⟩

/-- **Scheduler exclusivity.** No process is executed by two CPUs. When the lock of a process is free, it is
running just when exactly one CPU has it as `c->proc`. `swtch` loads the context of a
process that no CPU executes and that is completely saved. -/
theorem scheduler_exclusive (hreach : machine.Reach (fun _ _ _ => True) (boot init irq ls rounds) c) :
    (∀ i d d', c.st.cur d = .proc i → c.st.cur d' = .proc i → d = d') ∧
    (∀ i, c.st.lock (.proc i) = none → ((c.st.proc i).state = .running ↔ ∃! d, c.st.cproc d = some i)) ∧
    ∀ t i c', machine.Step t (.swtchProc i) c c' → (∀ d, c.st.cur d ≠ .proc i) ∧ c.st.saved i = true := by
  obtain ⟨ρ, ⟨hinv, hk⟩, hwp⟩ := sane_of_run hreach
  refine ⟨fun i d d' h h' => hinv.cpus.inj (h.trans h'.symm), fun i => hinv.running_iff, ?_⟩
  rintro t i c' ⟨hprog, -⟩
  obtain ⟨-, -, -, -, -, -, h, hheld, -, hexec, hsaved⟩ :=
    (discipline init False False).pre_of_next (hwp t) (Prog.next_eq_some.2 ⟨_, hprog⟩)
  have hslot := (hk t).slot hheld
  refine ⟨fun d hd => ?_, hslot.saved.trans hsaved⟩
  rw [hslot.exec.2 ⟨d, hd⟩] at hexec
  cases hexec

/-- `initproc` runs. -/
theorem scheduler_exclusive_running : ∃ c : Conf (ProcSig 2) (Thread 2 2) (Table 2 2),
    machine.Reach (fun _ _ _ => True) (boot 0 (fun _ => []) (fun _ => [([], 0)]) fun _ => 1) c ∧
    ((c.st.proc 0).state = .running ∧ c.st.lock (.proc 0) = none) ∧ ∃! d, c.st.cproc d = some 0 := by
  obtain ⟨c, hreach, hstate⟩ := exists_run (N := 2) (C := 2) (fun _ _ _ => true) (fun _ _ _ _ => trivial) 0
    (fun _ => [([], 0)]) (fun _ => 1) [(7, .sched 0), (3, .proc 0)]
    (fun c => (c.st.proc 0).state = .running ∧ c.st.lock (.proc 0) = none) (by decide)
  exact ⟨c, hreach, hstate, ((scheduler_exclusive hreach).2.1 0 hstate.2).1 hstate.1⟩

/-! ### Wakeups -/

/-- **No lost wakeup.** A process that sleeps on an address has released the lock after the last completed
`wakeup` of that address. When a `wakeup` completes, no process sleeps on the address and none is on its way
to sleep under that lock. -/
theorem no_lost_wakeup (hreach : machine.Reach (fun _ _ _ => True) (boot init irq ls rounds) c) :
    (∀ i k a, (c.st.proc i).Sleeps k a → c.st.noted i k a = c.st.woken k a) ∧
    ∀ t k a c', machine.Step t (.woke k a) c c' →
      ∀ i, ¬ (c'.st.proc i).Sleeps k a ∧ c'.st.nap i ≠ some k := by
  obtain ⟨ρ, ⟨hinv, hk⟩, hwp⟩ := sane_of_run hreach
  refine ⟨fun i k a => hinv.notes.sleep, ?_⟩
  rintro t k a c' ⟨hprog, hexec⟩ i
  obtain ⟨-, hlk, hquiet⟩ :=
    (discipline init False False).pre_of_next (hwp t) (Prog.next_eq_some.2 ⟨_, hprog⟩)
  obtain ⟨d, -, hstep⟩ := step_of_exec hexec
  cases hstep
  exact ((hk t).quiet hlk (hquiet i)).symm

/-- `initproc` makes a child and calls `wakeup`; the child sleeps on the same address. -/
def wakerAndSleeper : Fin 2 → List (List Proc.Call × Int)
  | 0 => [([.fork true true true, .under 3 [.wakeup 5]], 0)]
  | 1 => [([.under 3 [.sleep 5]], 0)]

/-- The child sleeps after one `wakeup`, and has seen it. -/
theorem no_lost_wakeup_late : ∃ c : Conf (ProcSig 2) (Thread 2 2) (Table 2 2),
    machine.Reach (fun _ _ _ => True) (boot 0 (fun _ => []) wakerAndSleeper fun _ => 2) c ∧
    ((c.st.proc 1).state = .sleeping ∧ (c.st.proc 1).chan = some (.other 3 5) ∧ c.st.woken 3 5 = 1) ∧
    c.st.noted 1 3 5 = c.st.woken 3 5 := by
  obtain ⟨c, hreach, hstate⟩ := exists_run (N := 2) (C := 2) (fun _ _ _ => true) (fun _ _ _ _ => trivial) 0
    wakerAndSleeper (fun _ => 2)
    [(7, .sched 0), (33, .proc 0), (11, .sched 1), (14, .proc 1), (3, .sched 1)]
    (fun c => (c.st.proc 1).state = .sleeping ∧ (c.st.proc 1).chan = some (.other 3 5) ∧ c.st.woken 3 5 = 1)
    (by decide)
  exact ⟨c, hreach, hstate, (no_lost_wakeup hreach).1 1 3 5 ⟨hstate.1, hstate.2.1⟩⟩

/-! ### Exit and wait -/

/-- Thread `t` frees the zombie in slot `i`: it is its parent, in a call of `wait` that freed none before, and
that call records the `pid` of the child and the argument of its `exit`. -/
def Reaps (s s' : Table N C) (t : Thread N C) (i : Fin N) : Prop :=
  (s.proc i).state = .zombie ∧ ∃ p w, t = .proc p ∧ (s.proc i).parent = some p ∧ s.wait p = some w ∧ w.reaped = [] ∧
    s'.wait p = some { w with reaped := [((s.proc i).pid, s.arg i)] }

/-- A used slot stays used, and a zombie stays a zombie with its `pid` and status. -/
def Remains (v v' : Proc N) : Prop :=
  v'.state ≠ .unused ∧ (v.state = .zombie → v'.state = .zombie ∧ v'.pid = v.pid ∧ v'.xstate = v.xstate)

theorem Remains.refl {v : Proc N} (h : v.state ≠ .unused) : Remains v v := ⟨h, fun hz => ⟨hz, rfl, rfl⟩⟩

theorem Remains.of_assigns {h : Slot N} {f : Field N} (hf : Assigns init tidy ρ i h f)
    (hused : h.val.state ≠ .unused) : Remains h.val (h.val.set f) := by
  cases f with
  | state v =>
    have hz : h.val.state ≠ .zombie := by
      intro hz
      cases hf with
      | wake hstate => cases hz.symm.trans hstate
      | fork hstate => cases hz.symm.trans hstate
      | run _ hstate => cases hz.symm.trans hstate
      | yield _ hstate => cases hz.symm.trans hstate
      | sleep _ hstate => cases hz.symm.trans hstate
      | exit _ hstate => cases hz.symm.trans hstate
    refine ⟨?_, fun h => absurd h hz⟩
    cases hf <;> exact nofun
  | parent | chan => exact ⟨hused, fun hz => ⟨hz, rfl, rfl⟩⟩
  | killed v => exact hf.elim
  | xstate v => exact ⟨hused, fun hz => by cases hz.symm.trans hf.2⟩
  | pid v => exact absurd hf.1 hused
  | sz | trapframe | pagetable => exact absurd hf hused

theorem remains_setProcess {j : Fin N} {v : Proc N} (hv : i = j → Remains (s.proc j) v)
    (hused : (s.proc i).state ≠ .unused) : Remains (s.proc i) ((s.setProcess j v).proc i) := by
  rw [proc_setProcess]
  by_cases hij : i = j
  · subst hij
    rw [Function.update_self]
    exact hv rfl
  · rw [Function.update_of_ne hij]
    exact .refl hused

theorem remains_or_reaps {d : Fin C} (hk : Knows init s t ρ)
    (hpre : (discipline init ord tidy).pre ρ o) (hstep : step d t o s = .ok r s')
    (hused : (s.proc i).state ≠ .unused) : Remains (s.proc i) (s'.proc i) ∨ Reaps s s' t i := by
  have hrefl : Remains (s.proc i) (s.proc i) := .refl hused
  cases o with
  | store j f =>
    cases hstep
    obtain ⟨-, h, hheld, hf⟩ := hpre
    left
    apply remains_setProcess _ hused
    rintro rfl
    rw [(hk.slot hheld).val] at hused ⊢
    exact .of_assigns hf hused
  | mark | context =>
    cases hstep
    left
    apply remains_setProcess _ hused
    rintro rfl
    exact ⟨hused, fun hz => ⟨hz, rfl, rfl⟩⟩
  | free j =>
    obtain ⟨-, h, hheld, p, hme, hfree⟩ := hpre
    have hval := (hk.slot hheld).val
    cases hk.me.symm.trans hme
    cases hstep
    by_cases hij : i = j
    · subst hij
      rw [hval] at hused
      rcases hfree with ⟨hunused, -⟩ | ⟨hz, hparent, w, hw, hreaped⟩
      · exact absurd hunused hused
      · right
        rw [← hval] at hz hparent
        have hwait := (hk.own rfl).wait.trans hw
        refine ⟨hz, p, w, rfl, hparent, hwait, hreaped, ?_⟩
        rw [free, if_pos hz, setWait]
        simp only [setProcess, hwait, Function.update_self, Option.map_some, hreaped, List.nil_append]
    · left
      rw [free]
      split <;> exact remains_setProcess (fun h => absurd h hij) hused
  | acquire l | acquireParent l =>
    simp only [step, acquire] at hstep
    split at hstep
    · cases hstep
    · cases hstep
      exact Or.inl hrefl
  | save | fresh | exiting _ | waiting _ | copyout _ _ | waited _ =>
    cases t <;> cases hstep <;> exact Or.inl hrefl
  | panic _ => cases hstep
  | halt => cases hstep
  | _ =>
    cases hstep
    exact Or.inl hrefl

/-- **The exit and wait protocol.** A process that sleeps in `wait` has no zombie child, unless it is `initproc`.
A used slot becomes unused only when the parent frees a zombie in a call of `wait`; until then a
zombie keeps its `pid` and status. A finished call of `wait` freed at most one child, whose `pid` it returned and
whose status it delivered, and if `copyout` failed it returned -1 and freed none. -/
theorem exit_wait_protocol (hreach : machine.Reach (fun _ _ _ => True) (boot init irq ls rounds) c) :
    (∀ i j, j ≠ init → (c.st.proc j).Waits j → (c.st.proc i).parent = some j → (c.st.proc i).state ≠ .zombie) ∧
    (∀ t o c', machine.Step t o c c' → ∀ i, (c.st.proc i).state ≠ .unused →
      Remains (c.st.proc i) (c'.st.proc i) ∨ Reaps c.st c'.st t i) ∧
    ∀ p, ∀ w ∈ c.st.waits p, w.Good ∧ (w.failed = true → w.result = -1 ∧ w.reaped = []) := by
  obtain ⟨ρ, ⟨hinv, hk⟩, hwp⟩ := sane_of_run hreach
  refine ⟨fun i j => hinv.family.asleep, ?_, ?_⟩
  · rintro t o c' ⟨hprog, hexec⟩ i hused
    have hpre := (discipline init False False).pre_of_next (hwp t) (Prog.next_eq_some.2 ⟨_, hprog⟩)
    obtain ⟨d, -, hstep⟩ := step_of_exec hexec
    exact remains_or_reaps (hk t) hpre hstep hused
  · intro p w hw
    have hgood := hinv.waits hw
    refine ⟨hgood, fun hfailed => ?_⟩
    rcases hgood with ⟨hreaped, hresult⟩ | ⟨pid, status, -, -, hok, -⟩
    · exact ⟨hresult, hreaped⟩
    · cases hok.symm.trans hfailed

/-- `initproc` makes a child, which exits with status 7, and waits for it. -/
def exitAndWait : Fin 2 → List (List Proc.Call × Int)
  | 0 => [([.fork true true true, .wait true true 1], 0)]
  | 1 => [([], 7)]

/-- `wait` returned the `pid` of the child and delivered its status. -/
theorem exit_wait_protocol_reaped : ∃ c : Conf (ProcSig 2) (Thread 2 2) (Table 2 2),
    machine.Reach (fun _ _ _ => True) (boot 0 (fun _ => []) exitAndWait fun _ => 1) c ∧
    c.st.waits 0 = [⟨2, true, [(2, 7)], some 7, false⟩] ∧ ∀ w ∈ c.st.waits 0, w.Good := by
  obtain ⟨c, hreach, htest⟩ := exists_run (N := 2) (C := 2) (fun _ _ _ => true) (fun _ _ _ _ => trivial) 0
    exitAndWait (fun _ => 1)
    [(7, .sched 0), (23, .proc 0), (11, .sched 1), (28, .proc 1), (3, .sched 1), (12, .proc 0)]
    (fun c => c.st.waits 0 = [⟨2, true, [(2, 7)], some 7, false⟩]) (by decide)
  exact ⟨c, hreach, htest, fun w hw => ((exit_wait_protocol hreach).2.2 0 w hw).1⟩

/-! ### Free slots -/

/-- **Free slots are clean** in the runs in which `kalloc` finds a page for the trap frame and `kill` is not called
for `pid` 0. Hence a process is killed only by a `kill` that named its `pid` since `allocproc` made it, and `kill`
succeeds only for the `pid` of a process that exists. -/
theorem free_slots_clean (hreach : machine.Reach (fun s t (o : ProcOp N) => s.Tidy t o) (boot init irq ls rounds) c) :
    (∀ i, c.st.lock (.proc i) = none → (c.st.proc i).state = .unused →
      (c.st.proc i).pid = 0 ∧ (c.st.proc i).parent = none ∧ (c.st.proc i).killed = false ∧
      (c.st.proc i).chan = none ∧ (c.st.proc i).sz = 0 ∧ (c.st.proc i).trapframe = false ∧
      (c.st.proc i).pagetable = false) ∧ (∀ i, (c.st.proc i).killed = true → (c.st.proc i).pid ∈ c.st.named i) ∧
    ∀ x ∈ c.st.kills, x.2.pid = x.1 ∧ x.2.state ≠ .unused := by
  have hcond : ∀ (s : Table N C) t (o : ProcOp N), s.Tidy t o → Condition False True s t o :=
    fun s t o htidy => ⟨False.elim, fun _ => htidy⟩
  obtain ⟨ρ, ⟨hinv, hk⟩, hwp⟩ := sane_of_reach (hreach.mono hcond)
  refine ⟨fun i hlock hunused => ?_, fun i => hinv.kills.named trivial, fun x hx => ?_⟩
  · have hclean := hinv.kills.clean hlock hunused
    exact ⟨hclean.pid trivial, hclean.parent, hclean.killed trivial, hclean.chan, hclean.sz, hclean.trapframe,
      hclean.pagetable⟩
  · obtain ⟨hpid, hused⟩ := hinv.kills.kills hx
    exact ⟨hpid, hused trivial⟩

/-- The slot of a child that was waited for is clean. -/
theorem free_slots_clean_reaped : ∃ c : Conf (ProcSig 2) (Thread 2 2) (Table 2 2),
    machine.Reach (fun s t (o : ProcOp 2) => s.Tidy t o) (boot 0 (fun _ => []) exitAndWait fun _ => 1) c ∧
    (c.st.clock = 2 ∧ c.st.lock (.proc 1) = none ∧ (c.st.proc 1).state = .unused) ∧ (c.st.proc 1).pid = 0 := by
  obtain ⟨c, hreach, hstate⟩ := exists_run (N := 2) (C := 2) (fun s t o => decide (s.Tidy t o))
    (fun _ _ _ => of_decide_eq_true) 0 exitAndWait (fun _ => 1)
    [(7, .sched 0), (23, .proc 0), (11, .sched 1), (28, .proc 1), (3, .sched 1), (12, .proc 0)]
    (fun c => c.st.clock = 2 ∧ c.st.lock (.proc 1) = none ∧ (c.st.proc 1).state = .unused) (by decide)
  exact ⟨c, hreach, hstate, ((free_slots_clean hreach).1 1 hstate.2.1 hstate.2.2).1⟩

/-- `initproc` calls `fork`, with no page for the trap frame, `kill(2)`, and `fork`. -/
def failedFork : Fin 2 → List (List Proc.Call × Int)
  | 0 => [([.fork false true true, .kill 2, .fork true true true], 0)]
  | 1 => []

/-- The failed `fork` leaves a `pid` in a free slot. `kill` finds it there, and the next process in that slot is killed
before anyone named it. -/
theorem failed_fork_leaves_pid :
    (∃ c : Conf (ProcSig 2) (Thread 2 1) (Table 2 1),
      machine.Reach (fun _ _ _ => True) (boot 0 (fun _ => []) failedFork fun _ => 1) c ∧
      c.st.lock (.proc 1) = none ∧ (c.st.proc 1).state = .unused ∧ (c.st.proc 1).pid = 2) ∧
    ∃ c : Conf (ProcSig 2) (Thread 2 1) (Table 2 1),
      machine.Reach (fun _ _ _ => True) (boot 0 (fun _ => []) failedFork fun _ => 1) c ∧
      (c.st.proc 1).state = .runnable ∧ (c.st.proc 1).killed = true ∧ c.st.named 1 = [] ∧
      c.st.kills.map (fun x => (x.1, x.2.state)) = [(2, .unused)] :=
  ⟨exists_run (fun _ _ _ => true) (fun _ _ _ _ => trivial) 0 failedFork (fun _ => 1) [(7, .sched 0), (16, .proc 0)] _ (by decide),
    exists_run (fun _ _ _ => true) (fun _ _ _ _ => trivial) 0 failedFork (fun _ => 1) [(7, .sched 0), (45, .proc 0)] _ (by decide)⟩

/-! ### The process tree -/

/-- Process `j` is the parent of process `i`. -/
def Child (s : Table N C) (i j : Fin N) : Prop := (s.proc i).parent = some j

/-- If slot `i` is used, it has a parent or is that of `initproc`. -/
def Parented (init i : Fin N) (v : Proc N) : Prop := v.state ≠ .unused → i ≠ init → v.parent ≠ none

theorem Parented.of_assigns {h : Slot N} {f : Field N} (hold : Parented init i h.val) (hf : Assigns init tidy ρ i h f) :
    Parented init i (h.val.set f) := by
  intro hused hi
  cases f with
  | state v =>
    cases hf with
    | fork _ hparent =>
      intro hnone
      cases hparent.symm.trans hnone
    | wake hstate | run _ hstate | yield _ hstate | sleep _ hstate | exit _ hstate =>
      exact hold (by simp [hstate]) hi
  | parent v =>
    obtain ⟨p, -, ⟨rfl, -⟩ | ⟨rfl, -⟩⟩ := hf <;> exact Option.some_ne_none _
  | _ => exact hold hused hi

theorem parented_step {d : Fin C} (hk : Knows init s t ρ)
    (hpre : (discipline init False False).pre ρ o) (hstep : step d t o s = .ok r s')
    (h : ∀ i, Parented init i (s.proc i)) : ∀ i, Parented init i (s'.proc i) := by
  have hset : ∀ {j v}, Parented init j v → ∀ i, Parented init i ((s.setProcess j v).proc i) := fun hv =>
    forall_update (A := fun i (v : Proc N) => Parented init i v) hv fun i _ => h i
  cases o with
  | store j f =>
    cases hstep
    obtain ⟨-, w, hheld, hf⟩ := hpre
    have hval := (hk.slot hheld).val
    apply hset
    rw [hval]
    exact .of_assigns (hval ▸ h j) hf
  | mark j | context j =>
    cases hstep
    exact hset (h j)
  | free j =>
    cases t with
    | proc p =>
      cases hstep
      rw [free]
      split <;> exact hset fun hused => absurd rfl hused
    | sched _ => cases hstep
  | acquire l | acquireParent l =>
    simp only [step, acquire] at hstep
    split at hstep
    · cases hstep
    · cases hstep
      exact h
  | save | fresh | exiting _ | waiting _ | copyout _ _ | waited _ => cases t <;> cases hstep <;> exact h
  | panic _ | halt => cases hstep
  | _ =>
    cases hstep
    exact h

theorem parented_of_run (hreach : machine.Reach (fun _ _ _ => True) (boot init irq ls rounds) c) :
    ∀ i, Parented init i (c.st.proc i) := by
  induction hreach with
  | refl =>
    intro i hused hi
    have hfree : (boot init irq ls rounds).st.proc i = _ := proc_init_other hi
    rw [hfree] at hused
    exact absurd rfl hused
  | step hreach _ hstep ih =>
    obtain ⟨ρ, ⟨-, hk⟩, hwp⟩ := sane_of_run hreach
    obtain ⟨hprog, hexec⟩ := hstep
    obtain ⟨d, -, hstep⟩ := step_of_exec hexec
    exact parented_step (hk _) (Logic.pre_of_next _ (hwp _) (Prog.next_eq_some.2 ⟨_, hprog⟩)) hstep ih

/-- **The process tree.** Whatever the processes do: every process descends from `initproc`, which exists and has no
parent, and the ancestors of a process exist, have not exited and are other processes. -/
theorem process_tree (hreach : machine.Reach (fun _ _ _ => True) (boot init irq ls rounds) c) :
    (c.st.proc init).Live ∧ (c.st.proc init).parent = none ∧
    (∀ i, (c.st.proc i).state ≠ .unused → Relation.ReflTransGen c.st.Child i init) ∧
    ∀ i j, Relation.TransGen c.st.Child i j → (c.st.proc j).Live ∧ j ≠ i := by
  obtain ⟨ρ, ⟨hinv, -⟩, -⟩ := sane_of_run hreach
  have hfamily := hinv.family
  refine ⟨hfamily.live, ?_, fun i => ?_, fun i j hanc => ?_⟩
  · by_contra hsome
    obtain ⟨j, hj⟩ := Option.ne_none_iff_exists'.1 hsome
    obtain ⟨hlive, hlt⟩ := hfamily.parent hj
    exact Nat.not_le_of_lt hlt (hfamily.first hlive.1)
  · -- parents are older
    induction hn : (c.st.proc i).birth using Nat.strong_induction_on generalizing i with
    | _ n ih =>
      intro hused
      by_cases hi : i = init
      · rw [hi]
      · obtain ⟨j, hj⟩ := Option.ne_none_iff_exists'.1 (parented_of_run hreach i hused hi)
        obtain ⟨hlive, hlt⟩ := hfamily.parent hj
        exact .head hj (ih _ (hn ▸ hlt) j rfl hlive.1)
  · have hlt : (c.st.proc j).Live ∧ (c.st.proc j).birth < (c.st.proc i).birth := by
      induction hanc with
      | single hij => exact hfamily.parent hij
      | tail _ hjk ih => exact ⟨(hfamily.parent hjk).1, Nat.lt_trans (hfamily.parent hjk).2 ih.2⟩
    refine ⟨hlt.1, ?_⟩
    rintro rfl
    exact Nat.lt_irrefl _ hlt.2

/-- A child of `initproc`. -/
theorem process_tree_child : ∃ c : Conf (ProcSig 2) (Thread 2 2) (Table 2 2),
    machine.Reach (fun _ _ _ => True) (boot 0 (fun _ => []) exitAndWait fun _ => 1) c ∧
    (c.st.proc 1).state = .runnable ∧ Relation.ReflTransGen c.st.Child 1 0 := by
  obtain ⟨c, hreach, hstate⟩ := exists_run (N := 2) (C := 2) (fun _ _ _ => true) (fun _ _ _ _ => trivial) 0
    exitAndWait (fun _ => 1) [(7, .sched 0), (23, .proc 0)] (fun c => (c.st.proc 1).state = .runnable) (by decide)
  exact ⟨c, hreach, hstate, (process_tree hreach).2.2.1 1 (by simp [hstate])⟩

end Table

end Xv6
