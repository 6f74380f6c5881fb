import Xv6.Bio.Interface

/-! `log.c`: the log header, the sections on `struct log` under `log.lock`, and the functions of the
file as programs over the buffer cache. -/

namespace Xv6

open Lib

/-- The fields of `struct log` that change after `initlog`. `head` is `lh.block[0..lh.n)`. -/
structure Log where
  outstanding : Int
  committing : Bool
  head : List Nat

namespace Log

/-- `log_write` before it takes the lock, for a log of `size` blocks. -/
def check (size : Nat) (l : Log) : Outcome Log Unit :=
  if l.head.length ≥ LOGSIZE ∨ (l.head.length : Int) ≥ (size : Int) - 1 then
    .panic "too big a transaction"
  else if l.outstanding < 1 then .panic "log_write outside of trans"
  else .ok () l

/-- `log_write` under the lock; the answer tells whether the block is new and must be pinned. The
array `lh.block` has `LOGSIZE` entries: a store past them is outside of the language. -/
def append (blockno : Nat) (l : Log) : Outcome Log Bool :=
  if blockno ∈ l.head then .ok false l
  else if l.head.length < LOGSIZE then .ok true { l with head := l.head ++ [blockno] }
  else .panic "log.lh.block: out of bounds"

/-- One round of `begin_op` under the lock. -/
def enter (l : Log) : Outcome Log Unit :=
  if l.committing then .block
  else if (l.head.length : Int) + (l.outstanding + 1) * MAXOPBLOCKS > LOGSIZE then .block
  else .ok () { l with outstanding := l.outstanding + 1 }

/-- `end_op` under the lock: whether to commit. -/
def leave (l : Log) : Outcome Log Bool :=
  if l.committing then .panic "log.committing"
  else if l.outstanding - 1 = 0 then
    .ok true { l with outstanding := l.outstanding - 1, committing := true }
  else .ok false { l with outstanding := l.outstanding - 1 }

/-- `end_op` after `commit`. -/
def done (l : Log) : Outcome Log Unit := .ok () { l with committing := false }

def setHead (blocks : List Nat) (l : Log) : Outcome Log Unit :=
  if blocks.length ≤ LOGSIZE then .ok () { l with head := blocks }
  else .panic "log.lh.block: out of bounds"

end Log

/-! ### The on-disk header -/

/-- The `int` stored in four bytes. -/
def toInt32 (v : Nat) : Int := if v < 2 ^ 31 then v else (v : Int) - 2 ^ 32

def headN (d : Block) : Int := toInt32 (d.getLE 0 4)

/-- `lh->block[0..n)` of a header block. -/
def headBlocks (d : Block) : List Nat := (List.range (headN d).toNat).map fun i => d.getLE (4 + 4 * i) 4

/-- The stores `hb->block[i] = log.lh.block[i]`, from index `i` on. -/
def putBlocks : Block → Nat → List Nat → Block
  | d, _, [] => d
  | d, i, b :: bs => putBlocks (d.setLE (4 + 4 * i) 4 b) (i + 1) bs

/-- The header block after `write_head` filled it in. -/
def putHead (d : Block) (blocks : List Nat) : Block := putBlocks (d.setLE 0 4 blocks.length) 0 blocks

variable {bs : List Nat}

theorem getLE_putBlocks_before : ∀ {d : Block} {i off k : Nat}, off + k ≤ 4 + 4 * i →
    (putBlocks d i bs).getLE off k = d.getLE off k := by
  induction bs with
  | nil => intro d i off k _; rfl
  | cons b bs ih =>
    intro d i off k h
    rw [putBlocks, ih (by omega), Bytes.getLE_setLE_of_disjoint d b (Or.inr h)]

theorem getLE_putBlocks (hrange : ∀ b ∈ bs, b < 2 ^ 32) :
    ∀ {d : Block} {i j : Nat}, 4 + 4 * (i + bs.length) ≤ BSIZE → j < bs.length →
      (putBlocks d i bs).getLE (4 + 4 * (i + j)) 4 = bs.getD j 0 := by
  induction bs with
  | nil => intro d i j _ hj; cases hj
  | cons b bs ih =>
    intro d i j hlen hj
    rw [List.length_cons] at hlen hj
    rw [putBlocks]
    cases j with
    | zero =>
      rw [getLE_putBlocks_before (by omega), Nat.add_zero, Bytes.getLE_setLE_same d b (by omega), List.getD_cons_zero]
      exact Nat.mod_eq_of_lt (hrange b List.mem_cons_self)
    | succ j =>
      rw [← Nat.add_assoc, Nat.add_right_comm, List.getD_cons_succ]
      exact ih (fun c hc => hrange c (List.mem_cons_of_mem _ hc)) (by omega) (by omega)

theorem headN_putHead (d : Block) (hlen : bs.length ≤ LOGSIZE) : headN (putHead d bs) = bs.length := by
  have hlog : LOGSIZE = 30 := rfl
  have hn : (putHead d bs).getLE 0 4 = bs.length := by
    rw [putHead, getLE_putBlocks_before (by omega), Bytes.getLE_setLE_same d bs.length (by decide)]
    exact Nat.mod_eq_of_lt (by omega)
  rw [headN, hn, toInt32, if_pos (by omega)]

theorem headBlocks_putHead (d : Block) (hlen : bs.length ≤ LOGSIZE)
    (hrange : ∀ b ∈ bs, b < 2 ^ 32) : headBlocks (putHead d bs) = bs := by
  rw [headBlocks, headN_putHead d hlen, Int.toNat_natCast]
  have hlog : LOGSIZE = 30 := rfl
  have hsize : BSIZE = 1024 := rfl
  apply List.ext_getElem
  · simp
  · intro j hj hj'
    have hget := getLE_putBlocks hrange (d := d.setLE 0 4 bs.length) (i := 0) (j := j) (by omega) hj'
    rw [Nat.zero_add] at hget
    simp [putHead, hget, hj']

theorem headBlocks_of_headN_nonpos {d : Block} (h : headN d ≤ 0) : headBlocks d = [] := by
  rw [headBlocks, Int.toNat_of_nonpos h, List.range_zero, List.map_nil]

/-! ### The functions -/

section Code

variable {H : Type} {E : Sig}

namespace Bio

def bread (dev blockno : Nat) : Prog (Bio H E) H := Prog.op (S := Bio H E) (.bread dev blockno)
def bdata (b : H) : Prog (Bio H E) Block := Prog.op (S := Bio H E) (.bdata b)
def bstore (b : H) (d : Block) : Prog (Bio H E) Unit := Prog.op (S := Bio H E) (.bstore b d)
def bwrite (b : H) : Prog (Bio H E) Unit := Prog.op (S := Bio H E) (.bwrite b)
def brelse (b : H) : Prog (Bio H E) Unit := Prog.op (S := Bio H E) (.brelse b)
def bunpin (b : H) : Prog (Bio H E) Unit := Prog.op (S := Bio H E) (.bunpin b)
def getHead : Prog (Bio H E) (List Nat) := Prog.op (S := Bio H E) .getHead
def setHead (blocks : List Nat) : Prog (Bio H E) Unit := Prog.op (S := Bio H E) (.setHead blocks)
def logCheck (b : H) : Prog (Bio H E) Unit := Prog.op (S := Bio H E) (.logCheck b)
def logAppend (b : H) : Prog (Bio H E) Unit := Prog.op (S := Bio H E) (.logAppend b)
def logEnter : Prog (Bio H E) Unit := Prog.op (S := Bio H E) .logEnter
def logLeave : Prog (Bio H E) Bool := Prog.op (S := Bio H E) .logLeave
def logDone : Prog (Bio H E) Unit := Prog.op (S := Bio H E) .logDone

end Bio

open Bio

variable (start : Nat)

/-- The loop of `write_log` from `tail` on. The bound on the iterations is the size of `lh.block`. -/
def writeLogFrom : Nat → Nat → Prog (Bio H E) Unit
  | 0, _ => pure ()
  | fuel + 1, tail => do
      let lh ← getHead
      if tail < lh.length then
        let to' ← bread ROOTDEV (start + tail + 1)
        let lh ← getHead
        let from' ← bread ROOTDEV (lh.getD tail 0)
        let d ← bdata from'
        bstore to' d
        bwrite to'
        brelse from'
        brelse to'
        writeLogFrom fuel (tail + 1)
      else pure ()

def writeLog : Prog (Bio H E) Unit := writeLogFrom start (LOGSIZE + 1) 0

def installTransFrom : Nat → Nat → Prog (Bio H E) Unit
  | 0, _ => pure ()
  | fuel + 1, tail => do
      let lh ← getHead
      if tail < lh.length then
        let lbuf ← bread ROOTDEV (start + tail + 1)
        let lh ← getHead
        let dbuf ← bread ROOTDEV (lh.getD tail 0)
        let d ← bdata lbuf
        bstore dbuf d
        bwrite dbuf
        bunpin dbuf
        brelse lbuf
        brelse dbuf
        installTransFrom fuel (tail + 1)
      else pure ()

def installTrans : Prog (Bio H E) Unit := installTransFrom start (LOGSIZE + 1) 0

def readHead : Prog (Bio H E) Unit := do
  let buf ← bread ROOTDEV start
  let d ← bdata buf
  setHead (headBlocks d)
  brelse buf

def writeHead : Prog (Bio H E) Unit := do
  let buf ← bread ROOTDEV start
  let d ← bdata buf
  let lh ← getHead
  bstore buf (putHead d lh)
  bwrite buf
  brelse buf

def recoverFromLog : Prog (Bio H E) Unit := do
  readHead start
  installTrans start
  setHead []
  writeHead start

def commit : Prog (Bio H E) Unit := do
  let lh ← getHead
  if 0 < lh.length then
    writeLog start
    writeHead start
    installTrans start
    setHead []
    writeHead start
  else pure ()

def logWrite (b : H) : Prog (Bio H E) Unit := do
  logCheck b
  logAppend b

def beginOp : Prog (Bio H E) Unit := logEnter

def endOp : Prog (Bio H E) Unit := do
  let doCommit ← logLeave
  if doCommit then
    commit start
    logDone
  else pure ()

/-- `log.c` as the implementation of the calls the code above it makes. -/
def logC : (o : ClientOp H E) → Prog (Bio H E) ((Client H E).Ret o)
  | .bread dev blockno => bread dev blockno
  | .bdata b => bdata b
  | .bstore b d => bstore b d
  | .bcopyin b off src n => Prog.op (S := Bio H E) (.bcopyin b off src n)
  | .bwrite b => bwrite b
  | .brelse b => brelse b
  | .beginOp => beginOp
  | .endOp => endOp start
  | .logWrite b => logWrite b
  | .ext e => Prog.op (S := Bio H E) (.ext e)

end Code

end Xv6
