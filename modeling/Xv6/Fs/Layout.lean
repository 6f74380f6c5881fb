import Xv6.Param
import Mathlib.Data.Fintype.Pi
import Mathlib.Data.Nat.Bitwise

/-! The on-disk format of `fs.h`: the super block, inodes, the free bit map, indirect blocks and directory
entries, with what a store to one of them does to the others. -/

namespace Xv6

open Lib

def NDIRECT : Nat := 12
def NINDIRECT : Nat := BSIZE / 4
def MAXFILE : Nat := NDIRECT + NINDIRECT
def DIRSIZ : Nat := 14

def DINODE : Nat := 64

def DIRENT : Nat := 16

def IPB : Nat := BSIZE / DINODE

def BPB : Nat := BSIZE * 8

/-- A `short`, as its two bytes. -/
abbrev Short := Fin 65536

abbrev Uint := Fin 4294967296

instance Short.neZero : NeZero 65536 := ⟨by decide⟩

instance Uint.neZero : NeZero 4294967296 := ⟨by decide⟩

/-- The conversion to `uint`. -/
def Uint.of (v : Nat) : Uint := ⟨v % 4294967296, Nat.mod_lt v (by decide)⟩

theorem Uint.val_of {v : Nat} (h : v < 4294967296) : (Uint.of v).val = v := Nat.mod_eq_of_lt h

def T_DIR : Short := 1
def T_FILE : Short := 2
def T_DEVICE : Short := 3

def Short.toInt (v : Short) : Int := if v.val < 32768 then v.val else (v.val : Int) - 65536

/-- The fields of `struct superblock` that `fs.c` uses. -/
structure Superblock where
  size : Nat
  ninodes : Nat
  inodestart : Nat
  bmapstart : Nat

namespace Superblock

/-- `IBLOCK`: the block of inode `i`. -/
def iblock (sb : Superblock) (i : Nat) : Nat := i / IPB + sb.inodestart

/-- `BBLOCK`: the block of the free map that has the bit of block `b`. -/
def bblock (sb : Superblock) (b : Nat) : Nat := b / BPB + sb.bmapstart

end Superblock

namespace Block

def getShort (d : Block) (off : Nat) : Short := ⟨d.getLE off 2, d.getLE_lt off 2⟩

def getUint (d : Block) (off : Nat) : Uint := ⟨d.getLE off 4, d.getLE_lt off 4⟩

end Block

/-! ### Inodes -/

@[ext] structure Dinode where
  type : Short
  major : Short
  minor : Short
  nlink : Short
  size : Uint
  addrs : Fin (NDIRECT + 1) → Uint
  deriving DecidableEq

namespace Dinode

def zero : Dinode := ⟨0, 0, 0, 0, 0, fun _ => 0⟩

def addr (v : Dinode) (j : Nat) : Nat := if h : j < NDIRECT + 1 then v.addrs ⟨j, h⟩ else 0

def setAddr (v : Dinode) (j : Nat) (a : Uint) : Dinode :=
  { v with addrs := fun i => if i.val = j then a else v.addrs i }

/-- The bytes of `struct dinode`. -/
def byte (v : Dinode) (j : Nat) : UInt8 :=
  let le (x : Nat) (k : Nat) := UInt8.ofNat (x / 256 ^ k)
  if j < 2 then le v.type j
  else if j < 4 then le v.major (j - 2)
  else if j < 6 then le v.minor (j - 4)
  else if j < 8 then le v.nlink (j - 6)
  else if j < 12 then le v.size (j - 8)
  else le (v.addr ((j - 12) / 4)) ((j - 12) % 4)

end Dinode

namespace Block

/-- `*((struct dinode*)bp->data + k)`. -/
def getInode (d : Block) (k : Nat) : Dinode where
  type := d.getShort (DINODE * k)
  major := d.getShort (DINODE * k + 2)
  minor := d.getShort (DINODE * k + 4)
  nlink := d.getShort (DINODE * k + 6)
  size := d.getUint (DINODE * k + 8)
  addrs j := d.getUint (DINODE * k + 12 + 4 * j.val)

/-- The block after all fields of that inode were assigned. -/
def putInode (d : Block) (k : Nat) (v : Dinode) : Block := d.write (DINODE * k) v.byte DINODE

variable {d : Block}

theorem getLE_putInode {k : Nat} {v : Dinode} (hk : k < IPB) {off n x : Nat}
    (hoff : off + n ≤ DINODE) (hx : x < 256 ^ n) (hbyte : ∀ j, j < n → v.byte (off + j) = UInt8.ofNat (x / 256 ^ j)) :
    (d.putInode k v).getLE (DINODE * k + off) n = x := by
  have hsize : DINODE * k + DINODE ≤ BSIZE := by
    have hk' : k < 16 := hk
    show 64 * k + 64 ≤ 1024
    omega
  rw [Bytes.getLE_of_digits (v := x) _ fun j hj => ?_, Nat.mod_eq_of_lt hx]
  rw [putInode, Bytes.get_write_of_mem _ _ (by omega) (by omega) (by omega),
    show DINODE * k + off + j - DINODE * k = off + j by omega, hbyte j hj]
  exact UInt8.toNat_ofNat'

theorem getInode_putInode_self {k : Nat} {v : Dinode} (hk : k < IPB) : (d.putInode k v).getInode k = v := by
  have hshort : ∀ (x : Short) (off : Nat), off + 2 ≤ DINODE →
      (∀ j, j < 2 → v.byte (off + j) = UInt8.ofNat (x.val / 256 ^ j)) →
      (d.putInode k v).getShort (DINODE * k + off) = x := fun x off hoff hbyte =>
    Fin.ext (getLE_putInode hk hoff x.isLt hbyte)
  have huint : ∀ (x : Uint) (off : Nat), off + 4 ≤ DINODE →
      (∀ j, j < 4 → v.byte (off + j) = UInt8.ofNat (x.val / 256 ^ j)) →
      (d.putInode k v).getUint (DINODE * k + off) = x := fun x off hoff hbyte =>
    Fin.ext (getLE_putInode hk hoff x.isLt hbyte)
  refine Dinode.ext (hshort v.type 0 (by decide) fun j hj => ?_)
    (hshort v.major 2 (by decide) fun j hj => ?_) (hshort v.minor 4 (by decide) fun j hj => ?_)
    (hshort v.nlink 6 (by decide) fun j hj => ?_) (huint v.size 8 (by decide) fun j hj => ?_)
    (funext fun i => ?_)
  · simp only [Dinode.byte, Nat.zero_add, if_pos hj]
  · simp only [Dinode.byte, if_neg (show ¬2 + j < 2 by omega), if_pos (show 2 + j < 4 by omega),
      Nat.add_sub_cancel_left]
  · simp only [Dinode.byte, if_neg (show ¬4 + j < 2 by omega), if_neg (show ¬4 + j < 4 by omega),
      if_pos (show 4 + j < 6 by omega), Nat.add_sub_cancel_left]
  · simp only [Dinode.byte, if_neg (show ¬6 + j < 2 by omega), if_neg (show ¬6 + j < 4 by omega),
      if_neg (show ¬6 + j < 6 by omega), if_pos (show 6 + j < 8 by omega), Nat.add_sub_cancel_left]
  · simp only [Dinode.byte, if_neg (show ¬8 + j < 2 by omega), if_neg (show ¬8 + j < 4 by omega),
      if_neg (show ¬8 + j < 6 by omega), if_neg (show ¬8 + j < 8 by omega),
      if_pos (show 8 + j < 12 by omega), Nat.add_sub_cancel_left]
  · have hi : i.val < 13 := i.isLt
    show (d.putInode k v).getUint (DINODE * k + 12 + 4 * i.val) = v.addrs i
    rw [Nat.add_assoc]
    refine huint _ _ (by simp only [DINODE]; omega) fun j hj => ?_
    have hdiv : (12 + 4 * i.val + j - 12) / 4 = i.val := by omega
    have hmod : (12 + 4 * i.val + j - 12) % 4 = j := by omega
    simp only [Dinode.byte, hdiv, hmod, Dinode.addr, i.isLt, dif_pos]
    rw [if_neg (by omega), if_neg (by omega), if_neg (by omega), if_neg (by omega), if_neg (by omega)]

theorem putInode_getInode (d : Block) (k : Nat) : d.putInode k (d.getInode k) = d := by
  refine Bytes.write_eq_self d fun i _ hle hlt => ?_
  have hle' : 64 * k ≤ i := hle
  have hlt' : i < 64 * k + 64 := hlt
  obtain ⟨j, rfl⟩ := Nat.exists_eq_add_of_le hle'
  have hfield : ∀ {off m}, off ≤ j → j < off + m →
      UInt8.ofNat (d.getLE (64 * k + off) m / 256 ^ (j - off)) = d.get (64 * k + j) := by
    intro off m h₁ h₂
    rw [Bytes.getLE_digit d (by omega), Nat.add_assoc, Nat.add_sub_cancel' h₁]
  rw [show DINODE * k = 64 * k from rfl, Nat.add_sub_cancel_left]
  unfold Dinode.byte
  simp only []
  split
  · exact hfield (Nat.zero_le _) (by omega)
  split
  · exact hfield (by omega) (by omega)
  split
  · exact hfield (by omega) (by omega)
  split
  · exact hfield (by omega) (by omega)
  split
  · exact hfield (by omega) (by omega)
  · have hj : (j - 12) / 4 < NDIRECT + 1 := by
      show (j - 12) / 4 < 13
      omega
    have haddr : (d.getInode k).addr ((j - 12) / 4) = d.getLE (64 * k + (12 + 4 * ((j - 12) / 4))) 4 := by
      rw [Dinode.addr, dif_pos hj, ← Nat.add_assoc]
      rfl
    have hmod : (j - 12) % 4 = j - (12 + 4 * ((j - 12) / 4)) := by omega
    rw [haddr, hmod]
    exact hfield (by omega) (by omega)

theorem putInode_putInode (d : Block) (k : Nat) (v w : Dinode) : (d.putInode k v).putInode k w = d.putInode k w := by
  refine Bytes.ext_get fun i hi => ?_
  unfold putInode
  by_cases hin : DINODE * k ≤ i ∧ i < DINODE * k + DINODE
  · rw [Bytes.get_write_of_mem _ _ hi hin.1 hin.2, Bytes.get_write_of_mem _ _ hi hin.1 hin.2]
  · rw [Bytes.get_write_of_not_mem _ _ hin, Bytes.get_write_of_not_mem _ _ hin, Bytes.get_write_of_not_mem _ _ hin]

theorem getInode_putInode_of_ne {k j : Nat} {v : Dinode} (h : j ≠ k) : (d.putInode k v).getInode j = d.getInode j := by
  have hfield : ∀ off n, off + n ≤ DINODE →
      (d.putInode k v).getLE (DINODE * j + off) n = d.getLE (DINODE * j + off) n := by
    intro off n hoff
    refine Bytes.getLE_write_of_disjoint _ _ ?_
    have hoff' : off + n ≤ 64 := hoff
    show 64 * k + 64 ≤ 64 * j + off ∨ 64 * j + off + n ≤ 64 * k
    omega
  refine Dinode.ext (Fin.ext (hfield 0 2 (by decide))) (Fin.ext (hfield 2 2 (by decide)))
    (Fin.ext (hfield 4 2 (by decide))) (Fin.ext (hfield 6 2 (by decide)))
    (Fin.ext (hfield 8 4 (by decide))) (funext fun i => Fin.ext ?_)
  have hi : i.val < 13 := i.isLt
  show (d.putInode k v).getLE (DINODE * j + 12 + 4 * i.val) 4 = d.getLE (DINODE * j + 12 + 4 * i.val) 4
  rw [Nat.add_assoc]
  exact hfield _ _ (by simp only [DINODE]; omega)

/-! ### The free map -/

/-- `bp->data[i/8] & (1 << (i % 8))`. -/
def bit (d : Block) (i : Nat) : Bool := (d.get (i / 8)).toNat.testBit (i % 8)

/-- `bp->data[i/8] |= 1 << (i % 8)`. -/
def setBit (d : Block) (i : Nat) : Block :=
  d.write (i / 8) (fun _ => UInt8.ofNat ((d.get (i / 8)).toNat ||| 2 ^ (i % 8))) 1

/-- `bp->data[i/8] &= ~(1 << (i % 8))`. -/
def clearBit (d : Block) (i : Nat) : Block :=
  d.write (i / 8) (fun _ => UInt8.ofNat ((d.get (i / 8)).toNat &&& (255 ^^^ 2 ^ (i % 8)))) 1

theorem bit_write {i j x : Nat} (hi : i < BPB) (hx : x < 256) :
    Block.bit (d.write (i / 8) (fun _ => UInt8.ofNat x) 1) j =
      if j / 8 = i / 8 then x.testBit (j % 8) else d.bit j := by
  have hlt : i / 8 < BSIZE := Nat.div_lt_of_lt_mul (Nat.mul_comm BSIZE 8 ▸ hi)
  split
  · rename_i hj
    rw [bit, hj, Bytes.get_write_of_mem _ _ hlt (le_refl _) (by omega), UInt8.toNat_ofNat', Nat.mod_eq_of_lt hx]
  · rw [bit, Bytes.get_write_of_not_mem _ _ (by omega), bit]

theorem bit_setBit {i j : Nat} (hi : i < BPB) : (d.setBit i).bit j = (decide (j = i) || d.bit j) := by
  have hbyte := (d.get (i / 8)).toNat_lt
  have hmask : 2 ^ (i % 8) < 2 ^ 8 := Nat.pow_lt_pow_right (by decide) (Nat.mod_lt i (by decide))
  rw [setBit, bit_write hi (Nat.or_lt_two_pow hbyte hmask)]
  split
  · rename_i hj
    have hiff : i % 8 = j % 8 ↔ j = i := by omega
    rw [Nat.testBit_or, Nat.testBit_two_pow, ← hj, Bool.or_comm, bit]
    simp only [hiff]
  · rename_i hj
    rw [decide_eq_false (by rintro rfl; exact hj rfl), Bool.false_or]

theorem bit_clearBit {i j : Nat} (hi : i < BPB) : (d.clearBit i).bit j = (!decide (j = i) && d.bit j) := by
  have hbyte := (d.get (i / 8)).toNat_lt
  rw [clearBit, bit_write hi (lt_of_le_of_lt Nat.and_le_left hbyte)]
  split
  · rename_i hj
    have hiff : i % 8 = j % 8 ↔ j = i := by omega
    have hlt : j % 8 < 8 := Nat.mod_lt j (by decide)
    rw [Nat.testBit_and, Nat.testBit_xor, Nat.testBit_two_pow, ← hj, Bool.and_comm, bit,
      show (255 : Nat) = 2 ^ 8 - 1 from rfl, Nat.testBit_two_pow_sub_one, decide_eq_true hlt]
    simp only [hiff, Bool.true_xor]
  · rename_i hj
    rw [decide_eq_false (by rintro rfl; exact hj rfl), Bool.not_false, Bool.true_and]

/-! ### Indirect blocks -/

/-- `((uint*)bp->data)[k]`. -/
def entry (d : Block) (k : Nat) : Uint := d.getUint (4 * k)

def setEntry (d : Block) (k : Nat) (a : Uint) : Block := d.setLE (4 * k) 4 a

theorem entry_setEntry {k j : Nat} {a : Uint} (hk : k < NINDIRECT) :
    (d.setEntry k a).entry j = if j = k then a else d.entry j := by
  have hk' : k < 256 := hk
  split
  · rename_i hj
    refine Fin.ext ?_
    have hsize : 4 * k + 4 ≤ BSIZE := by
      show 4 * k + 4 ≤ 1024
      omega
    show (d.setLE (4 * k) 4 a).getLE (4 * j) 4 = a
    rw [hj, Bytes.getLE_setLE_same _ _ hsize]
    exact Nat.mod_eq_of_lt a.isLt
  · refine Fin.ext ?_
    show (d.setLE (4 * k) 4 a).getLE (4 * j) 4 = d.getLE (4 * j) 4
    exact Bytes.getLE_setLE_of_disjoint _ _ (by omega)

@[simp] theorem entry_zero (k : Nat) : Block.zero.entry k = 0 := by
  refine Fin.ext ?_
  show Bytes.getLE Block.zero (4 * k) 4 = 0
  have hget : ∀ i, Bytes.get Block.zero i = 0 := by
    intro i
    rw [Bytes.get]
    split <;> rfl
  simp [Bytes.getLE, hget]

end Block

end Xv6
