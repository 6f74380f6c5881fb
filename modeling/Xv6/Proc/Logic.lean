import Xv6.Proc.Code

/-! What a thread of `proc.c` knows: the slots whose locks it holds, with their contents, and what it found
out about slots that others do not change behind its back. A process knows its children, since only
it gives them away, and its parent, which is the one it read or `initproc`. -/

namespace Xv6

open Lib
open Function (update)

variable {N C : Nat}

/-- A process that exists and has not exited. -/
def Proc.Live (v : Proc N) : Prop := v.state ≠ .unused ∧ v.state ≠ .zombie

/-- Process `i` sleeps in `wait`. -/
def Proc.Waits (v : Proc N) (i : Fin N) : Prop := v.state = .sleeping ∧ v.chan = some (.proc i)

/-- The process sleeps on address `a` under lock `k`. -/
def Proc.Sleeps (v : Proc N) (k a : Nat) : Prop := v.state = .sleeping ∧ v.chan = some (.other k a)

/-- A slot as `freeproc` leaves it. What a failed `kalloc` and a `kill(0)` may leave behind is clean only
when neither of them happens. -/
structure Proc.Clean (tidy : Prop) (v : Proc N) : Prop where
  parent : v.parent = none
  chan : v.chan = none
  sz : v.sz = 0
  trapframe : v.trapframe = false
  pagetable : v.pagetable = false
  pid : tidy → v.pid = 0
  killed : tidy → v.killed = false

/-- A slot whose lock is held: its contents, whether a CPU executes its thread, whether its context is complete,
and the lock it released under its own. -/
structure Slot (N : Nat) where
  val : Proc N
  exec : Bool
  saved : Bool
  nap : Option Nat

/-- A slot that may be unlocked. -/
structure Slot.Ready (tidy : Prop) (h : Slot N) : Prop where
  exec : h.exec = true ↔ h.val.state = .running
  saved : h.val.state = .sleeping ∨ h.val.state = .runnable → h.saved = true
  clean : h.val.state = .unused → h.val.Clean tidy

def Slot.set (h : Slot N) (f : Field N) : Slot N := { h with val := h.val.set f }

/-- What a finished call of `wait` did: it freed no child and returned `-1`, or it freed one, returned its `pid`
and delivered its status. -/
def Waited.Good (w : Waited) : Prop :=
  w.reaped = [] ∧ w.result = -1 ∨
    ∃ pid status, w.reaped = [(pid, status)] ∧ w.result = pid ∧ w.failed = false ∧
      (w.addr = true → w.copied = some status)

/-- What a thread knows. `on` says that a CPU executes it, `held`, `pid` and `lk` are the locks it holds, and `proc`
is `c->proc` of a scheduler. The others are for processes: `kid` tells children from
slots that are none, and `seen` are slots that hold no zombie child; `orig` is the parent unless that
is `initproc`, `birth` the time of birth, and `live` says that the process has not exited;
`arg` and `wait` are what was recorded for it. `quiet` are the slots that do not sleep on an address under `lk`. -/
structure Know (N C : Nat) where
  me : Thread N C
  on : Bool
  held : Fin N → Option (Slot N)
  pid : Bool
  lk : Option Nat
  proc : Option (Fin N)
  kid : Fin N → Option Bool
  seen : Fin N → Prop
  orig : Option (Fin N)
  birth : Nat
  live : Bool
  arg : Int
  wait : Option Waited
  quiet : Fin N → Nat → Prop

namespace Know

def has (ρ : Know N C) : LockId N → Bool
  | .proc i => (ρ.held i).isSome
  | .pid => ρ.pid
  | .lk k => ρ.lk == some k

def Bare (ρ : Know N C) : Prop := (∀ i, ρ.held i = none) ∧ ρ.pid = false ∧ ρ.lk = none

def hold (ρ : Know N C) (i : Fin N) (h : Slot N) : Know N C :=
  { ρ with held := update ρ.held i (some h) }

/-- What a process learns from reading the parent of a slot. -/
def learn (init : Fin N) (ρ : Know N C) (i : Fin N) (parent : Option (Fin N)) : Know N C :=
  match ρ.me with
  | .proc p =>
      if parent = some p then { ρ with kid := update ρ.kid i (some true) }
      else if p = init then ρ
      else { ρ with kid := update ρ.kid i (some false) }
  | .sched _ => ρ

/-- What a process knows once it holds its own lock. -/
def own (ρ : Know N C) (i : Fin N) (v : Proc N) : Know N C :=
  if ρ.me = .proc i then { ρ with live := true, orig := v.parent, birth := v.birth } else ρ

def Self (ρ : Know N C) : Prop := ∃ p, ρ.me = .proc p ∧ (ρ.held p).isSome = true

/-- The lock of a slot is given up. -/
def unlock (ρ : Know N C) (i : Fin N) (h : Slot N) : Know N C :=
  { ρ with
    held := update ρ.held i none
    seen := fun j => if ρ.me = .proc i then False else if j = i then ρ.Self ∧ h.val.state ≠ .zombie else ρ.seen j
    quiet := fun j a => if j = i then ∀ k, ρ.lk = some k → ¬ h.val.Sleeps k a else ρ.quiet j a }

/-- The lock `k` of a condition is given up, perhaps under that of the process. -/
def unlockCond (ρ : Know N C) (k : Nat) : Know N C :=
  { ρ with
    lk := none
    quiet := fun _ _ => False
    held := fun i => if ρ.me = .proc i then (ρ.held i).map fun h => { h with nap := some k } else ρ.held i }

def leave (ρ : Know N C) : Know N C :=
  { ρ with on := false, held := fun _ => none, seen := fun _ => False }

/-- The wanted slot is younger than all that are held: it is the process's own, or a child of it. -/
def Under (ρ : Know N C) (j : Fin N) : Prop :=
  ∀ i h, ρ.held i = some h →
    ρ.me = .proc j ∧ ρ.live = true ∧ h.val.birth < ρ.birth ∨
    (∃ p, ρ.me = .proc p) ∧ ρ.kid j = some true ∧ ρ.live = true ∧ h.val.birth ≤ ρ.birth

end Know

/-- When a slot may change its state: `wakeup` and `kill`, `fork`, the scheduler, and the process itself in `yield`,
`sleep` and `exit`. A process sleeps in `wait` when it has no zombie child, and on another address
when it released the lock under its own; it exits when it has no child and its parent is awake. -/
inductive Moves (init : Fin N) (ρ : Know N C) (i : Fin N) (h : Slot N) : ProcState → Prop where
  | wake (hstate : h.val.state = .sleeping) : Moves init ρ i h .runnable
  | fork {p : Fin N} (hstate : h.val.state = .unused) (hparent : h.val.parent = some p) : Moves init ρ i h .runnable
  | run {c : Fin C} (hme : ρ.me = .sched c) (hstate : h.val.state = .runnable) : Moves init ρ i h .running
  | yield (hme : ρ.me = .proc i) (hstate : h.val.state = .running) : Moves init ρ i h .runnable
  | sleep (hme : ρ.me = .proc i) (hstate : h.val.state = .running)
      (hself : h.val.chan = some (.proc i) → i ≠ init → ∀ j, ρ.kid j = some false ∨ ρ.seen j)
      (hother : ∀ k a, h.val.chan = some (.other k a) → h.nap = some k) : Moves init ρ i h .sleeping
  | exit (hme : ρ.me = .proc i) (hstate : h.val.state = .running) (hinit : i ≠ init)
      (hkid : ∀ j, ρ.kid j = some false) (harg : h.val.xstate = ρ.arg)
      (hparent : ∀ q, h.val.parent = some q → q = init ∨ ∃ h', ρ.held q = some h' ∧ ¬ h'.val.Waits q) :
      Moves init ρ i h .zombie

/-- When a field of a slot may be assigned: the fields of a new process, and a process its own. -/
def Assigns (init : Fin N) (tidy : Prop) (ρ : Know N C) (i : Fin N) (h : Slot N) : Field N → Prop
  | .state v => Moves init ρ i h v
  | .parent v => ∃ p, ρ.me = .proc p ∧
      (v = some p ∧ ρ.live = true ∧ h.val.state = .unused ∧ h.val.parent = none ∧ ρ.birth < h.val.birth ∨
        v = some init ∧ p ≠ init ∧ h.val.parent = some p)
  | .chan _ | .xstate _ => ρ.me = .proc i ∧ h.val.state = .running
  | .pid _ => h.val.state = .unused ∧ (tidy → h.val.killed = false)
  | .sz _ | .trapframe _ | .pagetable _ => h.val.state = .unused
  | .killed _ => False

/-- What a process knows after it assigned a field. -/
def Know.assign (ρ : Know N C) (i : Fin N) (h : Slot N) (f : Field N) : Know N C :=
  match f with
  | .state .zombie => { ρ.hold i (h.set f) with live := false }
  | .parent v => { ρ.hold i (h.set f) with kid := update ρ.kid i (some (decide (v.map .proc = some ρ.me))) }
  | _ => ρ.hold i (h.set f)

/-- When `freeproc` may be called: for a slot that `allocproc` found, or by the parent of a zombie in a call of `wait`
that freed none yet. -/
def Frees (ρ : Know N C) (h : Slot N) : Prop :=
  ∃ p, ρ.me = .proc p ∧
    (h.val.state = .unused ∧ h.val.parent = none ∨
      h.val.state = .zombie ∧ h.val.parent = some p ∧ ∃ w, ρ.wait = some w ∧ w.reaped = [])

def Know.free (ρ : Know N C) (i : Fin N) (h : Slot N) : Know N C :=
  { ρ.hold i { h with val := h.val.free } with
    kid := update ρ.kid i none
    wait := if h.val.state = .zombie
      then ρ.wait.map fun w => { w with reaped := w.reaped ++ [(h.val.pid, h.val.xstate)] } else ρ.wait }

/-- A thread that just came back from `swtch`: it holds the lock of the process that the CPU was switched to or from. -/
def Know.Resumed (init : Fin N) (ρ ρ' : Know N C) : Prop :=
  match ρ.me with
  | .proc p => ∃ h, ρ' = ({ ρ with on := true }.hold p h).own p h.val ∧
      h.val.state = .running ∧ h.exec = true ∧ h.saved = false ∧
      (ρ.live = true → h.val.birth = ρ.birth ∧ (h.val.parent = ρ.orig ∨ h.val.parent = some init))
  | .sched _ => ∃ i h, ρ.proc = some i ∧ ρ' = { ρ with on := true }.hold i h ∧
      h.val.state ≠ .running ∧ h.val.state ≠ .unused ∧ h.exec = false ∧ h.saved = true

/-- What a thread finds in a slot that it locks. -/
structure Know.Finds (init : Fin N) (tidy : Prop) (ρ : Know N C) (i : Fin N) (h : Slot N) : Prop where
  ready : h.Ready tidy
  nap : h.nap = none
  free : ρ.held i = none
  parent : h.val.parent ≠ some i
  kid : ∀ {p}, ρ.me = .proc p → ρ.kid i = some true → h.val.parent = some p
  exec : ρ.me = .proc i → h.exec = true
  own : ρ.me = .proc i → ρ.live = true →
    h.val.birth = ρ.birth ∧ (h.val.parent = ρ.orig ∨ h.val.parent = some init)

/-- A slot that was just locked. -/
def Know.Locked (init : Fin N) (tidy : Prop) (ρ ρ' : Know N C) (i : Fin N) : Prop :=
  ∃ h, ρ' = (ρ.hold i h).own i h.val ∧ ρ.Finds init tidy i h

/-- The promises of the code. With `ord` they include the order in which locks are taken, and with `tidy` that
slots are clean. -/
def discipline (init : Fin N) (ord tidy : Prop) : Logic (ProcSig N) (Know N C) where
  pre
    | ρ, .acquire (.proc j) => ρ.on = true ∧ ρ.pid = false ∧ (ord → ρ.Under j)
    | ρ, .acquire .pid => ρ.on = true ∧ ρ.pid = false
    | ρ, .acquire (.lk _) | ρ, .acquireParent _ => ρ.on = true ∧ ρ.Bare
    | ρ, .release (.proc i) => ρ.on = true ∧ ρ.proc ≠ some i ∧ ∃ h, ρ.held i = some h ∧ h.Ready tidy
    | ρ, .release .pid => ρ.on = true ∧ ρ.pid = true
    | ρ, .release (.lk k) => ρ.on = true ∧ ρ.lk = some k
    | ρ, .store i f => ρ.on = true ∧ ∃ h, ρ.held i = some h ∧ Assigns init tidy ρ i h f
    | ρ, .mark i pid => ρ.on = true ∧ ∃ h, ρ.held i = some h ∧ h.val.pid = pid ∧
        (tidy → h.val.state = .unused → pid = 0)
    | ρ, .free i => ρ.on = true ∧ ∃ h, ρ.held i = some h ∧ Frees ρ h
    | ρ, .context i => ρ.on = true ∧ ∃ h, ρ.held i = some h ∧ h.val.state = .unused ∧ h.val.parent = none ∧
        (tidy → h.val.killed = false)
    | ρ, .setProc o => ρ.on = true ∧ (∃ c, ρ.me = .sched c) ∧ ∀ i, o = some i → (ρ.held i).isSome
    | ρ, .save => ρ.on = true ∧ ∀ p, ρ.me = .proc p → (ρ.held p).isSome
    | ρ, .swtchProc i => ρ.on = true ∧ (∃ c, ρ.me = .sched c) ∧ ρ.proc = some i ∧ ρ.pid = false ∧ ρ.lk = none ∧
        (∀ j, j ≠ i → ρ.held j = none) ∧
        ∃ h, ρ.held i = some h ∧ h.val.state = .running ∧ h.exec = false ∧ h.saved = true
    | ρ, .swtchSched => ρ.on = true ∧ ρ.pid = false ∧ ρ.lk = none ∧ ∃ p, ρ.me = .proc p ∧
        (∀ j, j ≠ p → ρ.held j = none) ∧
        ∃ h, ρ.held p = some h ∧ h.val.state ≠ .running ∧ h.val.state ≠ .unused ∧ h.saved = true
    | ρ, .resume => ρ.on = false
    | ρ, .woke k a => ρ.on = true ∧ ρ.lk = some k ∧ ∀ j, ρ.quiet j a
    | ρ, .exiting _ => ρ.on = true ∧ ρ.live = true
    | ρ, .waited r => ρ.on = true ∧ ∀ w, ρ.wait = some w → { w with result := r }.Good
    | _, .panic _ | _, .halt => True
    | ρ, _ => ρ.on = true
  post
    | ρ, .acquire (.proc j), _, ρ' => ρ.Locked init tidy ρ' j
    | ρ, .acquire .pid, _, ρ' => ρ' = { ρ with pid := true }
    | ρ, .acquire (.lk k), _, ρ' => ρ' = { ρ with lk := some k, quiet := fun _ _ => False }
    | ρ, .acquireParent j, _, ρ' => ρ.Locked init tidy ρ' j ∧
        (ord → ρ.live = true → ∀ p h, ρ.me = .proc p → ρ'.held j = some h → h.val.birth < ρ.birth)
    | ρ, .release (.proc i), _, ρ' => ∀ h, ρ.held i = some h → ρ' = ρ.unlock i h
    | ρ, .release .pid, _, ρ' => ρ' = { ρ with pid := false }
    | ρ, .release (.lk k), _, ρ' => ρ' = ρ.unlockCond k
    | ρ, .holding l, r, ρ' => ρ' = ρ ∧ r = ρ.has l
    | ρ, .load i, v, ρ' => ρ' = ρ.learn init i v.parent ∧ (∀ h, ρ.held i = some h → v = h.val) ∧ v.parent ≠ some i
    | ρ, .store i f, _, ρ' => (∀ h, ρ.held i = some h → ρ' = ρ.assign i h f) ∧ (tidy → f ≠ .trapframe false)
    | ρ, .mark i _, _, ρ' => ∀ h, ρ.held i = some h →
        ρ' = ρ.hold i { h with val := { h.val with killed := true } } ∧ (tidy → h.val.state ≠ .unused)
    | ρ, .free i, _, ρ' => ∀ h, ρ.held i = some h → ρ' = ρ.free i h
    | ρ, .context i, _, ρ' => ∀ h, ρ.held i = some h → ∃ b, (∀ p, ρ.me = .proc p → ρ.live = true → ρ.birth < b) ∧
        ρ' = ρ.hold i { h with val := { h.val with birth := b }, saved := true }
    | ρ, .setProc o, _, ρ' => ρ' = { ρ with proc := o }
    | ρ, .save, _, ρ' => match ρ.me with
      | .proc p => ∀ h, ρ.held p = some h → ρ' = ρ.hold p { h with saved := true }
      | .sched _ => ρ' = ρ
    | ρ, .swtchProc _, _, ρ' | ρ, .swtchSched, _, ρ' => ρ' = ρ.leave
    | ρ, .resume, _, ρ' => ρ.Resumed init ρ'
    | ρ, .exiting status, _, ρ' => ρ' = { ρ with arg := status }
    | ρ, .waiting addr, _, ρ' => ρ' = { ρ with wait := some ⟨-1, addr, [], none, false⟩ }
    | ρ, .copyout status ok, r, ρ' => r = ok ∧ ρ' = { ρ with wait := ρ.wait.map fun w =>
        if ok then { w with copied := some status } else { w with failed := true } }
    | ρ, .waited _, _, ρ' => ρ' = { ρ with wait := none }
    | ρ, _, _, ρ' => ρ' = ρ

end Xv6
