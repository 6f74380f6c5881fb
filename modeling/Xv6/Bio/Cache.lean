import Xv6.Param
import Xv6.Lib.Machine
import Xv6.Lib.Threads

/-! `bio.c`: the buffers, the list that orders them by their last use, and every section of the code
that runs without another process between its steps, as a transition. A buffer pointer is an index of
`bcache.buf`. Three variables only record what happened, and no transition depends on them: the
references `bread` gave out and `brelse` did not take back, the block each process asked for last, and
the content last stored in every block through the cache. -/

namespace Xv6

open Lib Function

/-- The processes. A reference count has 32 bits, more than the table of processes has entries. -/
class Procs (P : Type) extends Fintype P where
  decEq : DecidableEq P
  few : Fintype.card P + 2 < 2 ^ 32

instance {P : Type} [h : Procs P] : DecidableEq P := h.decEq

instance : Procs (Fin NPROC) := ⟨inferInstance, by decide⟩

structure Buf (P : Type) where
  valid : Bool
  dev : Nat
  blockno : Nat
  lock : Option P
  refcnt : Nat
  data : Block

namespace Buf

variable {P : Type} (b : Buf P)

def setLock (l : Option P) : Buf P := { b with lock := l }

def setRefcnt (n : Nat) : Buf P := { b with refcnt := n }

def setData (d : Block) : Buf P := { b with data := d }

/-- The buffer with the content read from the disk. -/
def fill (d : Block) : Buf P := { b with valid := true, data := d }

/-- The buffer assigned to another block. -/
def recycle (dev blockno : Nat) : Buf P :=
  { b with dev := dev, blockno := blockno, valid := false, refcnt := 1 }

attribute [simp] setLock setRefcnt setData fill recycle

theorem refcnt_setRefcnt (n : Nat) : (b.setRefcnt n).refcnt = n := rfl

theorem refcnt_recycle (dev blockno : Nat) : (b.recycle dev blockno).refcnt = 1 := rfl

end Buf

/-- `lru` lists the buffers from `head.next` on: the most recently used one first. -/
structure Cache (P : Type) where
  disk : Nat → Block
  buf : Fin NBUF → Buf P
  lru : List (Fin NBUF)
  refs : P → List (Fin NBUF)
  asked : P → Nat × Nat
  stored : Nat → Block

namespace Cache

variable {P : Type}

/-- `binit`, over a disk: each buffer is put in front of the ones before it. -/
def binit (disk : Nat → Block) : Cache P where
  disk := disk
  buf _ := ⟨false, 0, 0, none, 0, Block.zero⟩
  lru := (List.finRange NBUF).reverse
  refs _ := []
  asked _ := (0, 0)
  stored := disk

def setBuf (c : Cache P) (i : Fin NBUF) (b : Buf P) : Cache P :=
  { c with buf := update c.buf i b }

section SetBuf

variable (c : Cache P) (i : Fin NBUF) (b : Buf P)

@[simp] theorem buf_setBuf_self : (c.setBuf i b).buf i = b := update_self ..

@[simp] theorem buf_setBuf_of_ne {j : Fin NBUF} (h : j ≠ i) : (c.setBuf i b).buf j = c.buf j :=
  update_of_ne h ..

/-! What the new buffer has in common with the old one, all buffers keep. -/

variable {c i b} (j : Fin NBUF)

@[simp] theorem valid_setBuf (h : b.valid = (c.buf i).valid) :
    ((c.setBuf i b).buf j).valid = (c.buf j).valid := apply_update_eq h j

@[simp] theorem dev_setBuf (h : b.dev = (c.buf i).dev) :
    ((c.setBuf i b).buf j).dev = (c.buf j).dev := apply_update_eq h j

@[simp] theorem blockno_setBuf (h : b.blockno = (c.buf i).blockno) :
    ((c.setBuf i b).buf j).blockno = (c.buf j).blockno := apply_update_eq h j

@[simp] theorem lock_setBuf (h : b.lock = (c.buf i).lock) :
    ((c.setBuf i b).buf j).lock = (c.buf j).lock := apply_update_eq h j

@[simp] theorem refcnt_setBuf (h : b.refcnt = (c.buf i).refcnt) :
    ((c.setBuf i b).buf j).refcnt = (c.buf j).refcnt := apply_update_eq h j

@[simp] theorem data_setBuf (h : b.data = (c.buf i).data) :
    ((c.setBuf i b).buf j).data = (c.buf j).data := apply_update_eq h j

variable (c i b)

@[simp] theorem disk_setBuf : (c.setBuf i b).disk = c.disk := rfl
@[simp] theorem lru_setBuf : (c.setBuf i b).lru = c.lru := rfl
@[simp] theorem refs_setBuf : (c.setBuf i b).refs = c.refs := rfl
@[simp] theorem asked_setBuf : (c.setBuf i b).asked = c.asked := rfl
@[simp] theorem stored_setBuf : (c.setBuf i b).stored = c.stored := rfl

end SetBuf

def inc (n : Nat) : Nat := (n + 1) % 2 ^ 32

def dec (n : Nat) : Nat := (n + (2 ^ 32 - 1)) % 2 ^ 32

/-- The first loop of `bget`. -/
def lookup (c : Cache P) (dev blockno : Nat) : Option (Fin NBUF) :=
  c.lru.find? fun i => (c.buf i).dev = dev ∧ (c.buf i).blockno = blockno

/-- The second loop of `bget`. -/
def victim (c : Cache P) : Option (Fin NBUF) := c.lru.reverse.find? fun i => (c.buf i).refcnt = 0

variable [DecidableEq P]

def took (c : Cache P) (p : P) (dev blockno : Nat) (i : Fin NBUF) : Cache P :=
  { c with refs := update c.refs p (i :: c.refs p)
           asked := update c.asked p (dev, blockno) }

@[simp] theorem buf_took (c : Cache P) (p : P) (dev blockno : Nat) (i : Fin NBUF) :
    (c.took p dev blockno i).buf = c.buf := rfl

/-- `bget` under `bcache.lock`. -/
def bget (p : P) (dev blockno : Nat) (c : Cache P) : Outcome (Cache P) (Fin NBUF) :=
  match c.lookup dev blockno with
  | some i => .ok i ((c.setBuf i ((c.buf i).setRefcnt (inc (c.buf i).refcnt))).took p dev blockno i)
  | none => match c.victim with
    | some i => .ok i ((c.setBuf i ((c.buf i).recycle dev blockno)).took p dev blockno i)
    | none => .panic "bget: no buffers"

/-- `acquiresleep(&b->lock)`: waits while the lock is held, by whatever process. -/
def acquiresleep (p : P) (i : Fin NBUF) (c : Cache P) : Outcome (Cache P) Unit :=
  match (c.buf i).lock with
  | some _ => .block
  | none => .ok () (c.setBuf i ((c.buf i).setLock (some p)))

/-- `bread` after `bget`. -/
def fill (i : Fin NBUF) (c : Cache P) : Cache P :=
  if (c.buf i).valid then c else c.setBuf i ((c.buf i).fill (c.disk (c.buf i).blockno))

/-- An assignment to `b->data`. -/
def store (i : Fin NBUF) (d : Block) (c : Cache P) : Cache P :=
  { c.setBuf i ((c.buf i).setData d) with stored := update c.stored (c.buf i).blockno d }

omit [DecidableEq P] in
theorem store_self (c : Cache P) (i : Fin NBUF) : c.store i (c.buf i).data =
    { c with stored := update c.stored (c.buf i).blockno (c.buf i).data } := by
  rw [store, setBuf, show (c.buf i).setData (c.buf i).data = c.buf i from rfl, update_eq_self]

/-- `bwrite`. The lock is tested by its holder, so nothing can come between test and write. -/
def bwrite (p : P) (i : Fin NBUF) (c : Cache P) : Outcome (Cache P) Unit :=
  if (c.buf i).lock = some p then
    .ok () { c with disk := update c.disk (c.buf i).blockno (c.buf i).data }
  else .panic "bwrite"

/-- `brelse` up to and with `releasesleep`. -/
def releasesleep (p : P) (i : Fin NBUF) (c : Cache P) : Outcome (Cache P) Unit :=
  if (c.buf i).lock = some p then .ok () (c.setBuf i ((c.buf i).setLock none))
  else .panic "brelse"

/-- A buffer without references becomes the most recently used one. -/
def gave (c : Cache P) (p : P) (i : Fin NBUF) (n : Nat) : Cache P :=
  { c with lru := if n = 0 then i :: c.lru.erase i else c.lru
           refs := update c.refs p ((c.refs p).erase i) }

@[simp] theorem buf_gave (c : Cache P) (p : P) (i : Fin NBUF) (n : Nat) : (c.gave p i n).buf = c.buf := rfl

/-- `brelse` under `bcache.lock`. -/
def bput (p : P) (i : Fin NBUF) (c : Cache P) : Cache P :=
  (c.setBuf i ((c.buf i).setRefcnt (dec (c.buf i).refcnt))).gave p i (dec (c.buf i).refcnt)

def bpin (i : Fin NBUF) (c : Cache P) : Cache P :=
  c.setBuf i ((c.buf i).setRefcnt (inc (c.buf i).refcnt))

def bunpin (i : Fin NBUF) (c : Cache P) : Cache P :=
  c.setBuf i ((c.buf i).setRefcnt (dec (c.buf i).refcnt))

/-! Only a store changes the content last stored. -/

theorem stored_bget {p : P} {dev blockno : Nat} {c c' : Cache P} {i : Fin NBUF}
    (h : c.bget p dev blockno = .ok i c') : c'.stored = c.stored := by
  rw [bget] at h
  split at h
  · cases h
    rfl
  · split at h <;> cases h
    rfl

omit [DecidableEq P] in
theorem stored_acquiresleep {p : P} {c c' : Cache P} {i : Fin NBUF}
    (h : c.acquiresleep p i = .ok () c') : c'.stored = c.stored := by
  rw [acquiresleep] at h
  split at h <;> cases h
  rfl

omit [DecidableEq P] in
theorem stored_fill (c : Cache P) (i : Fin NBUF) : (c.fill i).stored = c.stored := by
  rw [fill]
  split <;> rfl

theorem stored_bwrite {p : P} {c c' : Cache P} {i : Fin NBUF} (h : c.bwrite p i = .ok () c') :
    c'.stored = c.stored := by
  rw [bwrite] at h
  split at h <;> cases h
  rfl

theorem stored_releasesleep {p : P} {c c' : Cache P} {i : Fin NBUF}
    (h : c.releasesleep p i = .ok () c') : c'.stored = c.stored := by
  rw [releasesleep] at h
  split at h <;> cases h
  rfl

end Cache

end Xv6
