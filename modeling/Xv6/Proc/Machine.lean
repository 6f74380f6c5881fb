import Mathlib.Algebra.Group.Nat.Defs
import Xv6.Lib.Machine

/-! `proc.c`: the process table, and CPUs that switch between processes and their schedulers. A thread is the
kernel thread of a process slot or the scheduler of a CPU; it makes a step when a CPU executes it.
`swtch` saves a context and loads another one, so that a lock acquired by one thread is released by
another on the same CPU. The numbers of slots and of CPUs are arbitrary. -/

namespace Xv6

open Lib Function

inductive ProcState where
  | unused
  | sleeping
  | runnable
  | running
  | zombie
  deriving DecidableEq

/-- Wait channels: the address of a process slot, as in `wait`, or another address `a`, with the lock `k` that
protects what the sleepers wait for. -/
inductive Chan (N : Nat) where
  | proc (i : Fin N)
  | other (k a : Nat)
  deriving DecidableEq

/-- `struct proc`, without open files, current directory and name. Of the trap frame and the page table only
whether they exist. `birth` records the order in which `allocproc` made the processes. -/
structure Proc (N : Nat) where
  state : ProcState
  parent : Option (Fin N)
  chan : Option (Chan N)
  killed : Bool
  xstate : Int
  pid : Int
  sz : Nat
  trapframe : Bool
  pagetable : Bool
  birth : Nat
  deriving DecidableEq

def Proc.free {N : Nat} (v : Proc N) : Proc N where
  state := .unused
  parent := none
  chan := none
  killed := false
  xstate := 0
  pid := 0
  sz := 0
  trapframe := false
  pagetable := false
  birth := v.birth

/-- One assignment to a field. -/
inductive Field (N : Nat) where
  | state (v : ProcState)
  | parent (v : Option (Fin N))
  | chan (v : Option (Chan N))
  | killed (v : Bool)
  | xstate (v : Int)
  | pid (v : Int)
  | sz (v : Nat)
  | trapframe (v : Bool)
  | pagetable (v : Bool)

def Proc.set {N : Nat} (p : Proc N) : Field N → Proc N
  | .state v => { p with state := v }
  | .parent v => { p with parent := v }
  | .chan v => { p with chan := v }
  | .killed v => { p with killed := v }
  | .xstate v => { p with xstate := v }
  | .pid v => { p with pid := v }
  | .sz v => { p with sz := v }
  | .trapframe v => { p with trapframe := v }
  | .pagetable v => { p with pagetable := v }

inductive Thread (N C : Nat) where
  | proc (i : Fin N)
  | sched (c : Fin C)
  deriving DecidableEq

/-- Spin locks: those of the processes, `pid_lock`, and the ones that are passed to `sleep`. -/
inductive LockId (N : Nat) where
  | proc (i : Fin N)
  | pid
  | lk (k : Nat)
  deriving DecidableEq

/-- What a call of `wait` did: its result, whether it was given an address, the `pid` and the argument of
`exit` of the children it freed, the status it copied out, and whether `copyout` failed. -/
structure Waited where
  result : Int
  addr : Bool
  reaped : List (Int × Int)
  copied : Option Int
  failed : Bool
  deriving DecidableEq

/-- What may come in between while no lock is held: the timer, or a device whose handler wakes the sleepers
on some addresses under lock `k`. -/
inductive Interrupt where
  | timer
  | device (k : Nat) (as : List Nat)

/-- The process table and the CPUs. `saved` tells that the context of a process is complete, `fresh` that
`allocproc` made it; `irq` has the interrupts to come. The others only record what happened:
`clock` counts the calls of `allocproc`, `woken` the completed calls of `wakeup`, and `noted` has how many of them
there were when a process last released a lock; `nap` is the lock that a process released while it has held its own;
`arg` is the argument of `exit`, `wait` the call of `wait` in progress and `waits` the finished ones;
`named` are the arguments of `kill` that found the process, and `kills` what `kill` found. -/
structure Table (N C : Nat) where
  proc : Fin N → Proc N
  lock : LockId N → Option (Fin C)
  nextpid : Int
  noff : Fin C → Nat
  cur : Fin C → Thread N C
  cproc : Fin C → Option (Fin N)
  saved : Fin N → Bool
  fresh : Fin N → Bool
  irq : Thread N C → List (List Interrupt)
  clock : Nat
  woken : Nat → Nat → Nat
  noted : Fin N → Nat → Nat → Nat
  nap : Fin N → Option Nat
  arg : Fin N → Int
  wait : Fin N → Option Waited
  waits : Fin N → List Waited
  named : Fin N → List Int
  kills : List (Int × Proc N)

/-- The steps of `proc.c`. -/
inductive ProcOp (N : Nat) where
  | acquire (l : LockId N)
  | acquireParent (i : Fin N)
  | release (l : LockId N)
  | holding (l : LockId N)
  | noff
  | load (i : Fin N)
  | store (i : Fin N) (f : Field N)
  | mark (i : Fin N) (pid : Int)
  | free (i : Fin N)
  | allocpid
  | context (i : Fin N)
  | setProc (i : Option (Fin N))
  | save
  | swtchProc (i : Fin N)
  | swtchSched
  | resume
  | fresh
  | interrupts
  | woke (k a : Nat)
  | exiting (status : Int)
  | waiting (addr : Bool)
  | copyout (status : Int) (ok : Bool)
  | waited (result : Int)
  | panic (msg : String)
  | halt

/-- `load` reads a slot and `store` assigns one field of it; `mark` is `p->killed = 1` in `kill(pid)`.
`acquireParent` is the `acquire` of the original parent in `exit`. `save`, then `swtchProc` or `swtchSched`,
is `swtch` up to the point where the other context runs, and `resume` is its return. `fresh` tells a
thread that returns from `swtch` whether `allocproc` made its context. `interrupts` are the ones that come now.
`woke`, `exiting`, `waiting` and `waited` record what happened. `halt` is the end of the part of an
endless loop that is looked at. -/
def ProcSig (N : Nat) : Sig where
  Op := ProcOp N
  Ret
    | .holding _ | .fresh | .copyout _ _ => Bool
    | .noff => Nat
    | .load _ => Proc N
    | .allocpid => Int
    | .interrupts => List Interrupt
    | .panic _ | .halt => Empty
    | _ => Unit

namespace Table

variable {N C : Nat}

def cpu (s : Table N C) (t : Thread N C) : Option (Fin C) :=
  (List.finRange C).find? fun c => s.cur c = t

def setProcess (s : Table N C) (i : Fin N) (v : Proc N) : Table N C :=
  { s with proc := update s.proc i v }

def setLock (s : Table N C) (l : LockId N) (o : Option (Fin C)) (c : Fin C) (n : Nat) : Table N C :=
  { s with lock := update s.lock l o, noff := update s.noff c n }

/-- What a call of `wait` in progress records. -/
def setWait (s : Table N C) (i : Fin N) (f : Waited → Waited) : Table N C :=
  { s with wait := update s.wait i ((s.wait i).map f) }

def acquire (s : Table N C) (c : Fin C) (l : LockId N) : Outcome (Table N C) Unit :=
  match s.lock l with
  | some _ => .block
  | none => .ok () (s.setLock l (some c) c (s.noff c + 1))

/-- What process `i` has noted once thread `t` released a lock: with the lock of a condition, `t` notes what
was woken so far. -/
def notedAfter (s : Table N C) (t : Thread N C) : LockId N → Fin N → Nat → Nat → Nat
  | .lk _, i => if t = .proc i then s.woken else s.noted i
  | _, i => s.noted i

/-- The lock that process `i` released under its own. -/
def napAfter (s : Table N C) (c : Fin C) (t : Thread N C) : LockId N → Fin N → Option Nat
  | .proc j, i => if i = j then none else s.nap i
  | .lk k, i => if t = .proc i ∧ s.lock (.proc i) = some c then some k else s.nap i
  | .pid, i => s.nap i

def release (s : Table N C) (c : Fin C) (t : Thread N C) (l : LockId N) : Table N C :=
  { s.setLock l none c (s.noff c - 1) with
    noted := s.notedAfter t l
    nap := s.napAfter c t l }

def free (s : Table N C) (p i : Fin N) : Table N C :=
  if (s.proc i).state = .zombie then
    (s.setProcess i (s.proc i).free).setWait p fun w =>
      { w with reaped := w.reaped ++ [((s.proc i).pid, s.arg i)] }
  else s.setProcess i (s.proc i).free

/-- The end of `allocproc`, which sets up the context of the new process. -/
def context (s : Table N C) (i : Fin N) : Table N C :=
  { s.setProcess i { s.proc i with birth := s.clock + 1 } with
    clock := s.clock + 1
    saved := update s.saved i true
    fresh := update s.fresh i true
    named := update s.named i [] }

def mark (s : Table N C) (i : Fin N) (pid : Int) : Table N C :=
  { s.setProcess i { s.proc i with killed := true } with
    named := update s.named i (pid :: s.named i)
    kills := (pid, s.proc i) :: s.kills }

def succPid (n : Int) : Int := Int.bmod (n + 1) (2 ^ 32)

/-- What thread `t` does on CPU `c`. -/
def step (c : Fin C) (t : Thread N C) : (o : ProcOp N) → Table N C → Outcome (Table N C) ((ProcSig N).Ret o)
  | .acquire l, s => s.acquire c l
  | .acquireParent i, s => s.acquire c (.proc i)
  | .release l, s => .ok () (s.release c t l)
  | .holding l, s => .ok (decide (s.lock l = some c)) s
  | .noff, s => .ok (s.noff c) s
  | .load i, s => .ok (s.proc i) s
  | .store i f, s => .ok () (s.setProcess i ((s.proc i).set f))
  | .mark i pid, s => .ok () (s.mark i pid)
  | .free i, s => match t with
    | .proc p => .ok () (s.free p i)
    | .sched _ => .block
  | .allocpid, s => .ok s.nextpid { s with nextpid := succPid s.nextpid }
  | .context i, s => .ok () (s.context i)
  | .setProc o, s => .ok () { s with cproc := update s.cproc c o }
  | .save, s => match t with
    | .proc i => .ok () { s with saved := update s.saved i true }
    | .sched _ => .ok () s
  | .swtchProc i, s => .ok () { s with
      cur := update s.cur c (.proc i)
      saved := update s.saved i false }
  | .swtchSched, s => .ok () { s with cur := update s.cur c (.sched c) }
  | .resume, s => .ok () s
  | .fresh, s => match t with
    | .proc i => .ok (s.fresh i) { s with fresh := update s.fresh i false }
    | .sched _ => .block
  | .interrupts, s => .ok ((s.irq t).headD []) { s with irq := update s.irq t (s.irq t).tail }
  | .woke k a, s => .ok () { s with
      woken := update s.woken k (update (s.woken k) a (s.woken k a + 1)) }
  | .exiting status, s => match t with
    | .proc i => .ok () { s with arg := update s.arg i status }
    | .sched _ => .block
  | .waiting addr, s => match t with
    | .proc i => .ok () { s with wait := update s.wait i (some ⟨-1, addr, [], none, false⟩) }
    | .sched _ => .block
  | .copyout status ok, s => match t with
    | .proc i => .ok ok (s.setWait i fun w =>
        if ok then { w with copied := some status } else { w with failed := true })
    | .sched _ => .block
  | .waited result, s => match t with
    | .proc i => .ok () { s with
        wait := update s.wait i none
        waits := update s.waits i
          (s.waits i ++ ((s.wait i).map fun w => { w with result := result }).toList) }
    | .sched _ => .block
  | .panic msg, _ => .panic msg
  | .halt, _ => .block

/-- A thread makes a step when a CPU executes it. -/
def exec (t : Thread N C) (o : ProcOp N) (s : Table N C) : Outcome (Table N C) ((ProcSig N).Ret o) :=
  match s.cpu t with
  | some c => step c t o s
  | none => .block

def machine : Machine (ProcSig N) (Thread N C) (Table N C) := ⟨exec⟩

/-- After `procinit` and `userinit`: one process, and every CPU in its scheduler. -/
def init (initproc : Fin N) (irq : Thread N C → List (List Interrupt)) : Table N C where
  proc i := if i = initproc then ⟨.runnable, none, none, false, 0, 1, 4096, true, true, 1⟩
    else ⟨.unused, none, none, false, 0, 0, 0, false, false, 0⟩
  lock _ := none
  nextpid := 2
  noff _ := 0
  cur c := .sched c
  cproc _ := none
  saved _ := true
  fresh _ := true
  irq := irq
  clock := 1
  woken _ _ := 0
  noted _ _ _ := 0
  nap _ := none
  arg _ := 0
  wait _ := none
  waits _ := []
  named _ := []
  kills := []

end Table

end Xv6
