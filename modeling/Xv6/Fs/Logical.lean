import Xv6.Fs.Blockmap
import Xv6.Fs.State

/-! The file system on its logical disk. Below `fs.c` the log and the buffer cache make every block appear
once, with the content that was stored last, to one process at a time. Here this is the
machine itself: a buffer pointer is a block number, `bread` waits until nobody has the block, and
stores go to the disk. What the inode cache does is as before. -/

namespace Xv6

open Lib Function

/-! ### The layout of the disk -/

namespace Superblock

/-- The areas of the disk lie one after the other, as `mkfs` makes them. -/
structure Ok (sb : Superblock) : Prop where
  inodes : sb.inodestart + sb.ninodes / IPB < sb.bmapstart
  bitmap : sb.bmapstart + sb.size / BPB < sb.size
  root : ROOTINO < sb.ninodes
  uint : sb.size < 2 ^ 32

variable (sb : Superblock)

def dataStart : Nat := sb.bmapstart + sb.size / BPB + 1

def IsData (b : Nat) : Prop := sb.dataStart ≤ b ∧ b < sb.size

def dinode (disk : Nat → Block) (inum : Nat) : Dinode := (disk (sb.iblock inum)).getInode (inum % IPB)

/-- The bit of block `b` in the free map of a disk. -/
def used (disk : Nat → Block) (b : Nat) : Bool := (disk (sb.bblock b)).bit (b % BPB)

variable {sb}

theorem Ok.iblock_lt (h : sb.Ok) {inum : Nat} (hi : inum < sb.ninodes) : sb.iblock inum < sb.bmapstart := by
  have hdiv : inum / IPB ≤ sb.ninodes / IPB := Nat.div_le_div_right hi.le
  have := h.inodes
  unfold iblock
  omega

theorem bblock_lt {b : Nat} (hb : b < sb.size) : sb.bblock b < sb.dataStart := by
  have hdiv : b / BPB ≤ sb.size / BPB := Nat.div_le_div_right hb.le
  unfold bblock dataStart
  omega

theorem le_bblock (b : Nat) : sb.bmapstart ≤ sb.bblock b := Nat.le_add_left ..

theorem bmapstart_lt : sb.bmapstart < sb.dataStart := Nat.lt_succ_of_le (Nat.le_add_right ..)

theorem IsData.ne_zero {b : Nat} (h : sb.IsData b) : b ≠ 0 := by
  have hpos : 0 < sb.dataStart := Nat.succ_pos _
  have := h.1
  omega

theorem IsData.ne_bblock {b x : Nat} (h : sb.IsData b) (hx : x < sb.size) : sb.bblock x ≠ b := by
  have := bblock_lt hx
  have := h.1
  omega

theorem Ok.iblock_ne_data (hok : sb.Ok) {b inum : Nat} (h : sb.IsData b) (hi : inum < sb.ninodes) :
    sb.iblock inum ≠ b := by
  have h₁ := hok.iblock_lt hi
  have h₂ : sb.bmapstart < sb.dataStart := bmapstart_lt
  have h₃ := h.1
  omega

theorem Ok.iblock_ne_bblock (hok : sb.Ok) {inum : Nat} (hi : inum < sb.ninodes) (x : Nat) :
    sb.iblock inum ≠ sb.bblock x := by
  have h₁ := hok.iblock_lt hi
  have h₂ : sb.bmapstart ≤ sb.bblock x := le_bblock x
  omega

variable {disk : Nat → Block}

theorem dinode_update_of_ne {b : Nat} {d : Block} {inum : Nat} (h : sb.iblock inum ≠ b) :
    sb.dinode (update disk b d) inum = sb.dinode disk inum := by
  unfold dinode
  rw [update_of_ne h]

theorem used_update_of_ne {b : Nat} {d : Block} {x : Nat} (h : sb.bblock x ≠ b) :
    sb.used (update disk b d) x = sb.used disk x := by
  unfold used
  rw [update_of_ne h]

theorem dinode_putInode {inum : Nat} {v : Dinode} (i : Nat) : sb.dinode (update disk (sb.iblock inum)
      ((disk (sb.iblock inum)).putInode (inum % IPB) v)) i = if i = inum then v else sb.dinode disk i := by
  have hmod : inum % IPB < IPB := Nat.mod_lt _ (by decide)
  split
  · rename_i hi
    rw [hi, dinode, update_self, Block.getInode_putInode_self hmod]
  · rename_i hi
    by_cases hb : sb.iblock i = sb.iblock inum
    · have hne : i % IPB ≠ inum % IPB := by
        intro heq
        have hdiv : i / IPB = inum / IPB := Nat.add_right_cancel hb
        rw [← Nat.div_add_mod i IPB, ← Nat.div_add_mod inum IPB, hdiv, heq] at hi
        exact hi rfl
      rw [dinode, hb, update_self, Block.getInode_putInode_of_ne hne, dinode, hb]
    · exact dinode_update_of_ne hb

theorem eq_of_bblock {b x : Nat} (hb : sb.bblock b = sb.bblock x) (hmod : b % BPB = x % BPB) : b = x := by
  have hdiv : b / BPB = x / BPB := Nat.add_right_cancel hb
  rw [← Nat.div_add_mod b BPB, ← Nat.div_add_mod x BPB, hdiv, hmod]

theorem used_update {x : Nat} {d : Block} {v : Bool} (hself : d.bit (x % BPB) = v)
    (hrest : ∀ i, i ≠ x % BPB → d.bit i = (disk (sb.bblock x)).bit i) (b : Nat) :
    sb.used (update disk (sb.bblock x) d) b = if b = x then v else sb.used disk b := by
  by_cases hb : sb.bblock b = sb.bblock x
  · rw [used, hb, update_self]
    split
    · rename_i hbx
      rw [hbx, hself]
    · rename_i hbx
      rw [hrest _ fun hmod => hbx (eq_of_bblock hb hmod), used, hb]
  · rw [used_update_of_ne hb, if_neg]
    rintro rfl
    exact hb rfl

theorem used_setBit {x : Nat} (b : Nat) :
    sb.used (update disk (sb.bblock x) ((disk (sb.bblock x)).setBit (x % BPB))) b =
      if b = x then true else sb.used disk b := by
  have hmod : x % BPB < BPB := Nat.mod_lt _ (by decide)
  refine used_update ?_ (fun i hi => ?_) b
  · rw [Block.bit_setBit hmod, decide_eq_true rfl, Bool.true_or]
  · rw [Block.bit_setBit hmod, decide_eq_false hi, Bool.false_or]

theorem used_clearBit {x : Nat} (b : Nat) :
    sb.used (update disk (sb.bblock x) ((disk (sb.bblock x)).clearBit (x % BPB))) b =
      if b = x then false else sb.used disk b := by
  have hmod : x % BPB < BPB := Nat.mod_lt _ (by decide)
  refine used_update ?_ (fun i hi => ?_) b
  · rw [Block.bit_clearBit hmod, decide_eq_true rfl, Bool.not_true, Bool.false_and]
  · rw [Block.bit_clearBit hmod, decide_eq_false hi, Bool.not_false, Bool.true_and]

end Superblock

/-- Every entry of a directory block names an inode of the disk, or none. -/
def Block.IsDir (sb : Superblock) (d : Block) : Prop :=
  ∀ k, k < BSIZE / DIRENT → d.getLE (DIRENT * k) 2 < sb.ninodes

/-- An inode that nobody works on, with its blocks: the map fits, no block below the size is missing, and a
directory has good entries. -/
structure Dinode.Intact (sb : Superblock) (v : Dinode) (m : BlockMap) : Prop where
  mapped : v.Mapped m
  full : ∀ bn, bn * BSIZE < v.size.val → bn < MAXFILE ∧ v.slot m (fileSlot bn) ≠ 0
  dir : v.type = T_DIR → ∀ bn d, bn < MAXFILE → v.data m bn = some d → d.IsDir sb

theorem Dinode.Intact.size_le {sb : Superblock} {v : Dinode} {m : BlockMap} (h : v.Intact sb m) :
    v.size.val ≤ MAXFILE * BSIZE := by
  by_contra hlt
  exact absurd (h.full MAXFILE (by omega)).1 (lt_irrefl _)

/-! ### The machine -/

/-- The logical disk, the process that has each block, the processes inside operations, the inode cache, and
the state of the layers above. -/
structure FsState (P X : Type) where
  disk : Nat → Block
  owner : Nat → Option P
  op : P → Bool
  icache : ICache P
  ext : X

namespace FsState

variable {P X : Type} [DecidableEq P] {F : Sig}

def setDisk (s : FsState P X) (b : Nat) (d : Block) : FsState P X :=
  { s with disk := update s.disk b d }

def setOwner (s : FsState P X) (b : Nat) (o : Option P) : FsState P X :=
  { s with owner := update s.owner b o }

def setOp (s : FsState P X) (p : P) (v : Bool) : FsState P X :=
  { s with op := update s.op p v }

/-- What every call does. `bwrite` is not called above the log. -/
def exec (more : P → (f : F.Op) → X → Outcome X (F.Ret f)) (p : P) :
    (o : ClientOp Nat (FsSig F)) → FsState P X → Outcome (FsState P X) ((Client Nat (FsSig F)).Ret o)
  | .bread _ b, s => match s.owner b with
    | some _ => .block
    | none => .ok b (s.setOwner b (some p))
  | .bdata b, s => .ok (s.disk b) s
  | .bstore b d, s => .ok () (s.setDisk b d)
  | .bcopyin b off src n, s =>
      .ok (eitherCopyin src n).2 (s.setDisk b ((s.disk b).copy off (eitherCopyin src n).1))
  | .bwrite _, s => .ok () s
  | .brelse b, s => if s.owner b = some p then .ok () (s.setOwner b none) else .panic "brelse"
  | .beginOp, s => .ok () (s.setOp p true)
  | .endOp, s => .ok () (s.setOp p false)
  | .logWrite _, s => if s.op p then .ok () s else .panic "log_write outside of trans"
  | .ext e, s => (FsOp.exec more p e (s.icache, s.ext)).mapState fun c =>
      { s with icache := c.1, ext := c.2 }

def machine (more : P → (f : F.Op) → X → Outcome X (F.Ret f)) :
    Machine (Client Nat (FsSig F)) P (FsState P X) := ⟨exec more⟩

end FsState

end Xv6
