import Mathlib.Data.BitVec
import Xv6.Param
import Xv6.Lib.Machine

/-! `virtio_disk.c`: the driver of the disk and the device it talks to. Both keep indices into rings of `NUM`
entries that run freely and wrap at `2 ^ 16`. The device takes chains of descriptors from the ring of
available ones, finishes them in any order, and sets its interrupt bit some time after it has put a chain on
the ring of used ones. Four variables only record what happened, request by request: the chains that were
submitted, the requests that the device has finished, the ones for which `b->disk` was cleared, and the ones
whose call of `virtio_disk_rw` went on from there. -/

namespace Xv6

open Lib Function

namespace Virtio

def NUM : Nat := 8

def VRING_DESC_F_NEXT : BitVec 16 := 1
def VRING_DESC_F_WRITE : BitVec 16 := 2

/-- What a descriptor points to: the request's header with its type and sector, the data of a buffer, or the
status byte of a chain. -/
inductive Addr (B : Type) where
  | null
  | header (type sector : Nat)
  | data (b : B)
  | status (i : Nat)

structure VRingDesc (B : Type) where
  addr : Addr B
  len : Nat
  flags : BitVec 16
  next : Nat

/-- The wait channels: `&disk.free[0]` and the buffers. -/
inductive Chan (B : Type) where
  | free
  | buf (b : B)
  deriving DecidableEq

/-- The three descriptors of a request. -/
structure Chain where
  head : Nat
  mid : Nat
  last : Nat
  deriving DecidableEq

def Chain.toList (c : Chain) : List Nat := [c.head, c.mid, c.last]

/-- A request: its buffer and its chain. -/
structure Request (B : Type) where
  buf : B
  chain : Chain

/-- Where `virtio_disk_intr` is: not running, inside its loop, past the test that ended the loop, or past the
acknowledgement. -/
inductive Phase where
  | idle
  | looping
  | drained
  | acked
  deriving DecidableEq

/-- `struct disk`, the fields `disk` and `lock` of the buffers, the registers and the device. -/
structure Disk (P B : Type) where
  lock : Option P
  free : Nat → Bool
  desc : Nat → VRingDesc B
  avail : Nat → Nat
  availIdx : BitVec 16
  elems : Nat → Nat
  usedId : BitVec 16
  usedIdx : BitVec 16
  info : Nat → Option B
  status : Nat → UInt8
  busy : B → Bool
  sleeplock : B → Option P
  asleep : P → Option (Chan B)
  isr : Bool
  lastAvail : BitVec 16
  taken : Nat
  accepted : List (Nat × Nat)
  due : Bool
  phase : Phase
  current : B → Nat
  reqs : List (Request B)
  finished : List Nat
  cleared : List Nat
  returned : List Nat

namespace Disk

variable {P B : Type} [DecidableEq P] [DecidableEq B]

def init : Disk P B where
  lock := none
  free _ := true
  desc _ := ⟨.null, 0, 0, 0⟩
  avail _ := 0
  availIdx := 0
  elems _ := 0
  usedId := 0
  usedIdx := 0
  info _ := none
  status _ := 0
  busy _ := false
  sleeplock _ := none
  asleep _ := none
  isr := false
  lastAvail := 0
  taken := 0
  accepted := []
  due := false
  phase := .idle
  current _ := 0
  reqs := []
  finished := []
  cleared := []
  returned := []

/-! ### Descriptors -/

def setFree (s : Disk P B) (i : Nat) (v : Bool) : Disk P B := { s with free := update s.free i v }

def wakeup (s : Disk P B) (chan : Chan B) : Disk P B :=
  { s with asleep := fun q => if s.asleep q = some chan then none else s.asleep q }

def allocDesc (s : Disk P B) : Option (Nat × Disk P B) :=
  ((List.range NUM).find? s.free).map fun i => (i, s.setFree i false)

def freeDesc (i : Nat) (s : Disk P B) : Outcome (Disk P B) Unit :=
  if i ≥ NUM then .panic "virtio_disk_intr 1"
  else if s.free i then .panic "virtio_disk_intr 2"
  else .ok () (({ s with desc := update s.desc i { s.desc i with addr := .null } }.setFree i true).wakeup .free)

/-- `free_chain`. A descriptor that comes again is free by then, so that `NUM` bounds the rounds. -/
def freeChain : Nat → Nat → Disk P B → Outcome (Disk P B) Unit
  | 0, _, _ => .block
  | fuel + 1, i, s => match freeDesc i s with
    | .ok _ s => if (s.desc i).flags &&& VRING_DESC_F_NEXT ≠ 0 then freeChain fuel (s.desc i).next s else .ok () s
    | .block => .block
    | .panic msg => .panic msg

/-- The loop of `alloc3_desc` that frees what was allocated. -/
def freeAll : List Nat → Disk P B → Outcome (Disk P B) Unit
  | [], s => .ok () s
  | i :: is, s => match freeDesc i s with
    | .ok _ s => freeAll is s
    | .block => .block
    | .panic msg => .panic msg

/-- `alloc3_desc` once the descriptors `idx` are allocated and `n` are to come. -/
def allocFrom : Nat → List Nat → Disk P B → Outcome (Disk P B) (Option (List Nat))
  | 0, idx, s => .ok (some idx) s
  | n + 1, idx, s => match s.allocDesc with
    | some (i, s) => allocFrom n (idx ++ [i]) s
    | none => match freeAll idx s with
      | .ok _ s => .ok none s
      | .block => .block
      | .panic msg => .panic msg

/-- `alloc3_desc`: the three descriptors, or nothing for -1. -/
def alloc3Desc (s : Disk P B) : Outcome (Disk P B) (Option (List Nat)) := allocFrom 3 [] s

/-! ### Requests -/

def setDesc (s : Disk P B) (i : Nat) (d : VRingDesc B) : Disk P B :=
  { s with desc := update s.desc i d }

/-- The three descriptors of a request and its entry in `info` are filled in, with `b->disk` set. -/
def format (b : B) (sector : Nat) (write : Bool) (c : Chain) (s : Disk P B) : Disk P B :=
  let s := s.setDesc c.head ⟨.header (if write then 1 else 0) sector, 16, VRING_DESC_F_NEXT, c.mid⟩
  let s := s.setDesc c.mid ⟨.data b, BSIZE, (if write then 0 else VRING_DESC_F_WRITE) ||| VRING_DESC_F_NEXT, c.last⟩
  let s := { s with status := update s.status c.head 0 }
  let s := s.setDesc c.last ⟨.status c.head, 1, VRING_DESC_F_WRITE, 0⟩
  { s with busy := update s.busy b true, info := update s.info c.head (some b) }

/-- The chain is put on the ring of available ones. -/
def publish (b : B) (c : Chain) (s : Disk P B) : Disk P B :=
  { s with
    avail := update s.avail (s.availIdx.toNat % NUM) c.head
    availIdx := s.availIdx + 1
    current := update s.current b s.reqs.length
    reqs := s.reqs ++ [⟨b, c⟩] }

/-- What follows the wait in `virtio_disk_rw`. -/
def retire (b : B) (c : Chain) (s : Disk P B) : Outcome (Disk P B) Unit :=
  freeChain (NUM + 1) c.head
    { s with info := update s.info c.head none, returned := s.returned ++ [s.current b] }

/-- The body of the loop of `virtio_disk_intr`. -/
def complete (s : Disk P B) : Outcome (Disk P B) Unit :=
  let id := s.elems s.usedIdx.toNat
  if s.status id ≠ 0 then .panic "virtio_disk_intr status"
  else match s.info id with
    | none => .panic "null pointer"
    | some b => .ok () ({ s with
        busy := update s.busy b false
        usedIdx := BitVec.ofNat 16 ((s.usedIdx.toNat + 1) % NUM)
        cleared := s.cleared ++ [s.current b] }.wakeup (.buf b))

/-! ### The device -/

/-- The status byte of a finished chain gets 0. -/
def setStatus (s : Disk P B) (head : Nat) : Disk P B :=
  match (s.desc (s.desc (s.desc head).next).next).addr with
  | .status i => { s with status := update s.status i 0 }
  | _ => s

/-- A finished chain is put on the ring of used ones. -/
def putUsed (s : Disk P B) (n head : Nat) : Disk P B :=
  { s with
    elems := update s.elems (s.usedId.toNat % NUM) head
    usedId := s.usedId + 1
    finished := s.finished ++ [n]
    due := true }

end Disk

/-! ### The machine -/

/-- The steps of the driver and of the device. -/
inductive DiskOp (B : Type) where
  | acquire (intr : Bool)
  | release (intr : Bool)
  | alloc3
  | submit (b : B) (sector : Nat) (write : Bool) (c : Chain)
  | busy (b : B)
  | retire (b : B) (c : Chain)
  | sleep (chan : Chan B)
  | woken
  | more
  | complete
  | status
  | ack (v : Bool)
  | acquiresleep (b : B)
  | releasesleep (b : B)
  | take
  | finish (k : Nat)
  | signal
  | halt

/-- `more`, `complete`, `status` and `ack` are the steps of `virtio_disk_intr`, `take`, `finish` and `signal`
those of the device. The buffer of a request is locked by the caller of `virtio_disk_rw`. `halt` is the end
of the part of an endless loop that is looked at. -/
def DiskSig (B : Type) : Sig where
  Op := DiskOp B
  Ret
    | .alloc3 => Option (List Nat)
    | .busy _ | .more | .status => Bool
    | .halt => Empty
    | _ => Unit

namespace Disk

variable {P B : Type} [DecidableEq P] [DecidableEq B]

def exec (p : P) : (o : DiskOp B) → Disk P B → Outcome (Disk P B) ((DiskSig B).Ret o)
  | .acquire intr, s => match s.lock with
    | some _ => .block
    | none => .ok () { s with lock := some p, phase := if intr then .looping else s.phase }
  | .release intr, s => .ok () { s with lock := none, phase := if intr then .idle else s.phase }
  | .alloc3, s => s.alloc3Desc
  | .submit b sector write c, s => .ok () ((s.format b sector write c).publish b c)
  | .busy b, s => .ok (s.busy b) s
  | .retire b c, s => s.retire b c
  | .sleep chan, s => .ok () { s with lock := none, asleep := update s.asleep p (some chan) }
  | .woken, s => match s.asleep p, s.lock with
    | none, none => .ok () { s with lock := some p }
    | _, _ => .block
  | .more, s =>
      if s.usedIdx.toNat % NUM ≠ s.usedId.toNat % NUM then .ok true s else .ok false { s with phase := .drained }
  | .complete, s => s.complete
  | .status, s => .ok s.isr s
  | .ack v, s => .ok () { s with isr := s.isr && !v, phase := .acked }
  | .acquiresleep b, s => match s.sleeplock b with
    | some _ => .block
    | none => .ok () { s with sleeplock := update s.sleeplock b (some p) }
  | .releasesleep b, s => .ok () { s with sleeplock := update s.sleeplock b none }
  | .take, s =>
      if s.lastAvail = s.availIdx then .block
      else .ok () { s with
        lastAvail := s.lastAvail + 1
        taken := s.taken + 1
        accepted := s.accepted ++ [(s.taken, s.avail (s.lastAvail.toNat % NUM))] }
  | .finish k, s => match s.accepted[k]? with
    | none => .block
    | some (n, head) => .ok () ((({ s with accepted := s.accepted.eraseIdx k }).setStatus head).putUsed n head)
  | .signal, s => if s.due then .ok () { s with isr := true, due := false } else .block
  | .halt, _ => .block

def machine : Machine (DiskSig B) P (Disk P B) := ⟨exec⟩

end Disk

/-! ### The code -/

section Code

variable {B : Type}

def op (o : DiskOp B) : Prog (DiskSig B) ((DiskSig B).Ret o) := Prog.op (S := DiskSig B) o

def alloc3 : Prog (DiskSig B) (Option (List Nat)) := op .alloc3
def isBusy (b : B) : Prog (DiskSig B) Bool := op (.busy b)
def hasMore : Prog (DiskSig B) Bool := op .more
def readStatus : Prog (DiskSig B) Bool := op .status

/-- `sleep`, as its two halves. -/
def sleep (chan : Chan B) : Prog (DiskSig B) Unit := do
  op (.sleep chan)
  op .woken

/-- The loop of `virtio_disk_rw` that gets three descriptors. -/
def allocLoop : Nat → Prog (DiskSig B) Chain
  | 0 => .call .halt nofun
  | fuel + 1 => do
      let idx ← alloc3
      match idx with
      | some idx => pure ⟨idx.getD 0 0, idx.getD 1 0, idx.getD 2 0⟩
      | none => do
          sleep .free
          allocLoop fuel

/-- The loop of `virtio_disk_rw` that waits for the interrupt. -/
def waitLoop (b : B) : Nat → Prog (DiskSig B) Unit
  | 0 => .call .halt nofun
  | fuel + 1 => do
      let busy ← isBusy b
      if busy then
        sleep (.buf b)
        waitLoop b fuel
      else pure ()

def virtioDiskRw (b : B) (blockno : Nat) (write : Bool) (fuel : Nat) : Prog (DiskSig B) Unit := do
  op (.acquire false)
  let c ← allocLoop fuel
  op (.submit b (blockno * (BSIZE / 512)) write c)
  waitLoop b fuel
  op (.retire b c)
  op (.release false)

def intrLoop : Nat → Prog (DiskSig B) Unit
  | 0 => .call .halt nofun
  | fuel + 1 => do
      let more ← hasMore
      if more then
        op .complete
        intrLoop fuel
      else pure ()

def virtioDiskIntr (fuel : Nat) : Prog (DiskSig B) Unit := do
  op (.acquire true)
  intrLoop fuel
  let v ← readStatus
  op (.ack v)
  op (.release true)

/-- What goes on at the disk: a process reads or writes a buffer that it has locked, an interrupt is handled,
or the device does something. -/
inductive Call (B : Type) where
  | rw (b : B) (blockno : Nat) (write : Bool) (fuel : Nat)
  | intr (fuel : Nat)
  | take
  | finish (k : Nat)
  | signal

def Call.run : Call B → Prog (DiskSig B) Unit
  | rw b blockno write fuel => do
      op (.acquiresleep b)
      virtioDiskRw b blockno write fuel
      op (.releasesleep b)
  | intr fuel => virtioDiskIntr fuel
  | take => op .take
  | finish k => op (.finish k)
  | signal => op .signal

def runAll : List (Call B) → Prog (DiskSig B) Unit
  | [] => pure ()
  | c :: cs => do
      c.run
      runAll cs

end Code

end Virtio

end Xv6
