import Xv6.Proc.Machine

/-! The code of `proc.c`. `p` stands for `myproc()`. What the environment decides is an argument: whether
`kalloc` and `copyout` succeed, and after how many rounds an endless loop is no longer looked at.
Interrupts come in at every `acquire` that is made without a lock. -/

namespace Xv6

open Lib

/-- Programs of the kernel. -/
abbrev ProcM (N : Nat) (α : Type) := Prog (ProcSig N) α

namespace Proc

variable {N : Nat}

def op (o : ProcOp N) : ProcM N ((ProcSig N).Ret o) := Prog.op (S := ProcSig N) o

def acquire (l : LockId N) : ProcM N Unit := op (.acquire l)
def release (l : LockId N) : ProcM N Unit := op (.release l)
def holding (l : LockId N) : ProcM N Bool := op (.holding l)
def noff : ProcM N Nat := op .noff
def load (i : Fin N) : ProcM N (Proc N) := op (.load i)
def store (i : Fin N) (f : Field N) : ProcM N Unit := op (.store i f)
def mark (i : Fin N) (pid : Int) : ProcM N Unit := op (.mark i pid)
def nextPid : ProcM N Int := op .allocpid
def setContext (i : Fin N) : ProcM N Unit := op (.context i)
def setProc (o : Option (Fin N)) : ProcM N Unit := op (.setProc o)
def save : ProcM N Unit := op .save
def swtchProc (i : Fin N) : ProcM N Unit := op (.swtchProc i)
def swtchSched : ProcM N Unit := op .swtchSched
def resume : ProcM N Unit := op .resume
def isFresh : ProcM N Bool := op .fresh
def interrupts : ProcM N (List Interrupt) := op .interrupts
def woke (k a : Nat) : ProcM N Unit := op (.woke k a)
def exiting (status : Int) : ProcM N Unit := op (.exiting status)
def waiting (addr : Bool) : ProcM N Unit := op (.waiting addr)
def copyout (status : Int) (ok : Bool) : ProcM N Bool := op (.copyout status ok)
def waited (result : Int) : ProcM N Unit := op (.waited result)
def acquireParent (i : Fin N) : ProcM N Unit := op (.acquireParent i)
def panic {α : Type} (msg : String) : ProcM N α := .call (.panic msg) nofun
def halt {α : Type} : ProcM N α := .call .halt nofun

/-! ### Giving up the CPU -/

def sched (p : Fin N) : ProcM N Unit := do
  let held ← holding (.proc p)
  if held then
    let n ← noff
    if n ≠ 1 then panic "sched locks"
    else
      let v ← load p
      if v.state = .running then panic "sched running"
      else
        save
        swtchSched
        resume
  else panic "sched p->lock"

def yield (p : Fin N) : ProcM N Unit := do
  acquire (.proc p)
  store p (.state .runnable)
  sched p
  release (.proc p)

def wakeupFrom (chan : Chan N) : List (Fin N) → ProcM N Unit
  | [] => pure ()
  | i :: is => do
      acquire (.proc i)
      let v ← load i
      (if v.state = .sleeping ∧ v.chan = some chan then store i (.state .runnable) else pure () : ProcM N Unit)
      release (.proc i)
      wakeupFrom chan is

/-- `wakeup` of the sleepers on address `a`, whose condition lock `k` protects. -/
def wakeup (k a : Nat) : ProcM N Unit := do
  wakeupFrom (.other k a) (List.finRange N)
  woke k a

/-- The calls of `wakeup` of an interrupt handler. -/
def wakeupAll (k : Nat) : List Nat → ProcM N Unit
  | [] => pure ()
  | a :: as => do
      wakeup k a
      wakeupAll k as

/-- `kerneltrap`, where process `p` runs on the CPU, or none. -/
def kerneltrap (p : Option (Fin N)) : List Interrupt → ProcM N Unit
  | [] => pure ()
  | .timer :: is => do
      (match p with
      | some p => yield p
      | none => pure () : ProcM N Unit)
      kerneltrap p is
  | .device k as :: is => do
      acquire (.lk k)
      wakeupAll k as
      release (.lk k)
      kerneltrap p is

/-- `acquire` by a thread that holds no lock. -/
def enter (p : Option (Fin N)) (l : LockId N) : ProcM N Unit := do
  let is ← interrupts
  kerneltrap p is
  acquire l

/-- The part of `sleep` under the lock of the process. -/
def sleepOn (p : Fin N) (chan : Chan N) : ProcM N Unit := do
  store p (.chan (some chan))
  store p (.state .sleeping)
  sched p
  store p (.chan none)

/-- `sleep`, with a lock other than that of the process. -/
def sleep (p : Fin N) (chan : Chan N) (lk : Nat) : ProcM N Unit := do
  acquire (.proc p)
  release (.lk lk)
  sleepOn p chan
  release (.proc p)
  enter (some p) (.lk lk)

def sleepSelf (p : Fin N) : ProcM N Unit := sleepOn p (.proc p)

def wakeup1 (i : Fin N) : ProcM N Unit := do
  let held ← holding (.proc i)
  if held then
    let v ← load i
    if v.chan = some (.proc i) ∧ v.state = .sleeping then store i (.state .runnable) else pure ()
  else panic "wakeup1"

/-! ### Making processes -/

def allocpid : ProcM N Int := do
  acquire .pid
  let pid ← nextPid
  release .pid
  pure pid

/-- `freeproc`, under the lock of the slot. -/
def freeproc (i : Fin N) : ProcM N Unit := op (.free i)

/-- `allocproc` once it has found an unused slot. -/
def allocprocAt (trapframe pagetable : Bool) (i : Fin N) : ProcM N (Option (Fin N)) := do
  let pid ← allocpid
  store i (.pid pid)
  store i (.trapframe trapframe)
  if trapframe then
    store i (.pagetable pagetable)
    if pagetable then
      setContext i
      pure (some i)
    else
      freeproc i
      release (.proc i)
      pure none
  else
    release (.proc i)
    pure none

def allocprocFrom (p : Fin N) (trapframe pagetable : Bool) : List (Fin N) → ProcM N (Option (Fin N))
  | [] => pure none
  | i :: is => do
      enter (some p) (.proc i)
      let v ← load i
      if v.state = .unused then allocprocAt trapframe pagetable i
      else
        release (.proc i)
        allocprocFrom p trapframe pagetable is

def allocproc (p : Fin N) (trapframe pagetable : Bool) : ProcM N (Option (Fin N)) :=
  allocprocFrom p trapframe pagetable (List.finRange N)

/-- `fork`; `copied` tells whether `uvmcopy` succeeds. -/
def fork (p : Fin N) (trapframe pagetable copied : Bool) : ProcM N Int := do
  let np ← allocproc p trapframe pagetable
  match np with
  | none => pure (-1)
  | some np => do
      if copied then
        let v ← load p
        store np (.sz v.sz)
        store np (.parent (some p))
        let n ← load np
        store np (.state .runnable)
        release (.proc np)
        pure n.pid
      else
        freeproc np
        release (.proc np)
        pure (-1)

def killFrom (p : Fin N) (pid : Int) : List (Fin N) → ProcM N Int
  | [] => pure (-1)
  | i :: is => do
      enter (some p) (.proc i)
      let v ← load i
      if v.pid = pid then
        mark i pid
        (if v.state = .sleeping then store i (.state .runnable) else pure () : ProcM N Unit)
        release (.proc i)
        pure 0
      else
        release (.proc i)
        killFrom p pid is

def kill (p : Fin N) (pid : Int) : ProcM N Int := killFrom p pid (List.finRange N)

/-! ### Exit and wait -/

def reparentFrom (initproc p : Fin N) : List (Fin N) → ProcM N Unit
  | [] => pure ()
  | i :: is => do
      let v ← load i
      (if v.parent = some p then do
        acquire (.proc i)
        store i (.parent (some initproc))
        release (.proc i)
      else pure () : ProcM N Unit)
      reparentFrom initproc p is

def reparent (initproc p : Fin N) : ProcM N Unit := reparentFrom initproc p (List.finRange N)

def enterParent (p parent : Fin N) : ProcM N Unit := do
  let is ← interrupts
  kerneltrap (some p) is
  acquireParent parent

/-- The end of `exit`, under the locks of the process and its parent. The thread of the slot returns from it as a
new process, with a context that `allocproc` made. -/
def becomeZombie (p parent : Fin N) (status : Int) : ProcM N Unit := do
  store p (.xstate status)
  store p (.state .zombie)
  release (.proc parent)
  sched p
  let fresh ← isFresh
  if fresh then pure () else panic "zombie exit"

def exit (initproc p : Fin N) (status : Int) : ProcM N Unit := do
  if p = initproc then panic "init exiting"
  else
    exiting status
    enter (some p) (.proc initproc)
    wakeup1 initproc
    release (.proc initproc)
    enter (some p) (.proc p)
    let v ← load p
    release (.proc p)
    match v.parent with
    | none => panic "no parent"
    | some parent => do
        enterParent p parent
        acquire (.proc p)
        reparent initproc p
        wakeup1 parent
        becomeZombie p parent status

/-- `wait` gives up both locks and returns. -/
def waitReturn (p i : Fin N) (r : Int) : ProcM N (Int ⊕ Bool) := do
  release (.proc i)
  release (.proc p)
  pure (.inl r)

/-- `wait` frees the child and returns its `pid`. -/
def waitFree (p i : Fin N) (pid : Int) : ProcM N (Int ⊕ Bool) := do
  freeproc i
  waitReturn p i pid

/-- `wait` has found a zombie. -/
def reap (p i : Fin N) (v : Proc N) (addr copied : Bool) : ProcM N (Int ⊕ Bool) := do
  let ok : Bool ← (if addr then copyout v.xstate copied else pure true : ProcM N Bool)
  if !ok then waitReturn p i (-1) else waitFree p i v.pid

/-- The loop of `wait` over the given slots: the result if it returns, or whether there are children. -/
def waitFrom (p : Fin N) (addr copied : Bool) : List (Fin N) → Bool → ProcM N (Int ⊕ Bool)
  | [], havekids => pure (.inr havekids)
  | i :: is, havekids => do
      let v ← load i
      if v.parent = some p then
        acquire (.proc i)
        let v ← load i
        if v.state = .zombie then reap p i v addr copied
        else
          release (.proc i)
          waitFrom p addr copied is true
      else waitFrom p addr copied is havekids

/-- The rounds of `wait`, under the lock of the process. -/
def waitLoop (p : Fin N) (addr copied : Bool) : Nat → ProcM N Int
  | 0 => halt
  | fuel + 1 => do
      let r ← waitFrom p addr copied (List.finRange N) false
      match r with
      | .inl result => pure result
      | .inr havekids => do
          let v ← load p
          if !havekids || v.killed then
            release (.proc p)
            pure (-1)
          else
            sleepSelf p
            waitLoop p addr copied fuel

/-- `wait`; `addr` tells whether the address is nonzero, `copied` whether `copyout` succeeds. -/
def wait (p : Fin N) (addr copied : Bool) (fuel : Nat) : ProcM N Unit := do
  waiting addr
  enter (some p) (.proc p)
  let r ← waitLoop p addr copied fuel
  waited r

/-! ### The threads -/

def runProcess (i : Fin N) : ProcM N Unit := do
  store i (.state .running)
  setProc (some i)
  save
  swtchProc i
  resume
  setProc none

def schedulerFrom : List (Fin N) → ProcM N Unit
  | [] => pure ()
  | i :: is => do
      enter none (.proc i)
      let v ← load i
      (if v.state = .runnable then runProcess i else pure () : ProcM N Unit)
      release (.proc i)
      schedulerFrom is

def scheduler : Nat → ProcM N Unit
  | 0 => halt
  | fuel + 1 => do
      schedulerFrom (List.finRange N)
      scheduler fuel

/-- What a process does under a lock other than that of a process. -/
inductive Section where
  | sleep (a : Nat)
  | wakeup (a : Nat)

/-- The calls a process makes. -/
inductive Call where
  | yield
  | under (k : Nat) (steps : List Section)
  | fork (trapframe pagetable copied : Bool)
  | kill (pid : Int)
  | wait (addr copied : Bool) (fuel : Nat)

def Section.run (p : Fin N) (k : Nat) : List Section → ProcM N Unit
  | [] => pure ()
  | .sleep a :: rest => do
      Proc.sleep p (.other k a) k
      Section.run p k rest
  | .wakeup a :: rest => do
      Proc.wakeup k a
      Section.run p k rest

def Call.run (p : Fin N) : Call → ProcM N Unit
  | .yield => Proc.yield p
  | .under k steps => do
      enter (some p) (.lk k)
      Section.run p k steps
      release (.lk k)
  | .fork trapframe pagetable copied => do
      let _ ← Proc.fork p trapframe pagetable copied
      pure ()
  | .kill pid => do
      let _ ← Proc.kill p pid
      pure ()
  | .wait addr copied fuel => Proc.wait p addr copied fuel

def runAll (p : Fin N) : List Call → ProcM N Unit
  | [] => pure ()
  | c :: cs => do
      c.run p
      runAll p cs

def forkret (p : Fin N) : ProcM N Unit := release (.proc p)

/-- The processes that a slot holds one after the other: each makes its calls and exits. -/
def lives (initproc p : Fin N) : List (List Call × Int) → ProcM N Unit
  | [] => halt
  | (calls, status) :: rest => do
      forkret p
      runAll p calls
      exit initproc p status
      lives initproc p rest

/-- The kernel thread of a slot. -/
def thread (initproc p : Fin N) (ls : List (List Call × Int)) : ProcM N Unit := do
  resume
  let _ ← isFresh
  lives initproc p ls

/-- What the threads of the machine run. -/
def threads {C : Nat} (initproc : Fin N) (ls : Fin N → List (List Call × Int)) (rounds : Fin C → Nat) :
    Thread N C → ProcM N Unit
  | .proc i => thread initproc i (ls i)
  | .sched c => scheduler (rounds c)

end Proc

/-- The machine when it starts. -/
def Table.boot {N C : Nat} (initproc : Fin N) (irq : Thread N C → List (List Interrupt))
    (ls : Fin N → List (List Proc.Call × Int)) (rounds : Fin C → Nat) : Conf (ProcSig N) (Thread N C) (Table N C) :=
  ⟨Table.init initproc irq, Proc.threads initproc ls rounds⟩

end Xv6
