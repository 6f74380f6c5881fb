import Xv6.Seq.View
import Mathlib.Order.Interval.Finset.Nat

/-! Well-formed disks, written down by their inodes, the owners of their blocks and the data in these. The inode
blocks and the free map follow. -/

namespace Xv6

open Lib Dinode Finset

namespace Block

/-- The inode block with these inodes. -/
def ofInodes (v : Nat → Dinode) : Block := Bytes.ofFn fun j => (v (j / DINODE)).byte (j % DINODE)

theorem getInode_ofInodes {v : Nat → Dinode} {k : Nat} (hk : k < IPB) : (ofInodes v).getInode k = v k := by
  have hput : (ofInodes v).putInode k (v k) = ofInodes v := by
    refine Bytes.write_eq_self _ fun i hi hle hlt => ?_
    have hle' : 64 * k ≤ i := hle
    have hlt' : i < 64 * k + 64 := hlt
    have hdiv : i / 64 = k := by omega
    have hmod : i % 64 = i - 64 * k := by omega
    rw [ofInodes, Bytes.get_ofFn _ hi]
    show (v k).byte (i - 64 * k) = (v (i / 64)).byte (i % 64)
    rw [hdiv, hmod]
  rw [← hput, getInode_putInode_self hk]

/-- The block of the free map with these bits. -/
def ofBits (used : Nat → Bool) : Block := Bytes.ofFn fun j => UInt8.ofNat (Nat.ofBits fun k : Fin 8 => used (8 * j + k))

theorem bit_ofBits {used : Nat → Bool} {i : Nat} (hi : i < BPB) : (ofBits used).bit i = used i := by
  have hdiv : i / 8 < BSIZE := Nat.div_lt_of_lt_mul hi
  rw [bit, ofBits, Bytes.get_ofFn _ hdiv, UInt8.toNat_ofNat', Nat.mod_eq_of_lt (Nat.ofBits_lt_two_pow _),
    Nat.testBit_ofBits_lt _ _ (Nat.mod_lt _ (by decide)), Nat.div_add_mod]

end Block

/-- A well-formed disk. -/
structure Image (sb : Superblock) where
  inode : Nat → Dinode
  own : Nat → Option Nat
  block : Nat → Block
  ok : sb.Ok
  data : ∀ b, (own b).isSome → sb.IsData b
  alive : ∀ b n, own b = some n → n < sb.ninodes ∧ (inode n).type ≠ 0
  intact : ∀ n, n < sb.ninodes → (inode n).type ≠ 0 → (inode n).Intact sb (content block own n)

namespace Image

variable {sb : Superblock} (im : Image sb)

def disk (b : Nat) : Block :=
  if b < sb.bmapstart then Block.ofInodes fun k => im.inode ((b - sb.inodestart) * IPB + k)
  else if b < sb.dataStart then
    Block.ofBits fun k => decide ((b - sb.bmapstart) * BPB + k < sb.dataStart) || (im.own ((b - sb.bmapstart) * BPB + k)).isSome
  else im.block b

theorem dinode_disk {n : Nat} (hn : n < sb.ninodes) : sb.dinode im.disk n = im.inode n := by
  have hlt := im.ok.iblock_lt hn
  rw [Superblock.dinode, disk, if_pos hlt, Block.getInode_ofInodes (Nat.mod_lt _ (by decide)), Superblock.iblock,
    Nat.add_sub_cancel, Nat.div_add_mod']

theorem used_disk {b : Nat} (hb : b < sb.size) :
    sb.used im.disk b = (decide (b < sb.dataStart) || (im.own b).isSome) := by
  have hle : ¬sb.bblock b < sb.bmapstart := Nat.not_lt.2 (Nat.le_add_left ..)
  have hlt : sb.bblock b < sb.dataStart := by
    have hdiv : b / BPB ≤ sb.size / BPB := Nat.div_le_div_right hb.le
    unfold Superblock.bblock Superblock.dataStart
    omega
  rw [Superblock.used, disk, if_neg hle, if_pos hlt, Block.bit_ofBits (Nat.mod_lt _ (by decide)), Superblock.bblock,
    Nat.add_sub_cancel, Nat.div_add_mod']

theorem content_disk (n : Nat) : content im.disk im.own n = content im.block im.own n := by
  funext b
  unfold content
  split
  · rename_i hb
    have hdata := im.data b (by rw [hb]; rfl)
    have hge : ¬b < sb.dataStart := Nat.not_lt.2 hdata.1
    have hle : sb.bmapstart ≤ sb.dataStart := Nat.le_trans (Nat.le_add_right ..) (Nat.le_succ _)
    have hge' : ¬b < sb.bmapstart := by omega
    rw [disk, if_neg hge', if_neg hge]
  · rfl

theorem diskInv {ι : Type} : DiskInv sb im.own im.disk fun _ : ι => none where
  data := im.data
  used b hb := by
    rw [im.used_disk hb]
    simp
  alive b n hb := by
    obtain ⟨hn, htype⟩ := im.alive b n hb
    rw [im.dinode_disk hn]
    exact ⟨hn, htype⟩
  owned _ _ h := nomatch h
  excl _ _ _ _ h := nomatch h
  intact n hn htype _ := by
    rw [im.dinode_disk hn] at htype ⊢
    rw [content_disk]
    exact im.intact n hn htype

theorem card_le_free {S : Finset Nat} (h : ∀ b ∈ S, b < sb.size ∧ sb.dataStart ≤ b ∧ im.own b = none) :
    S.card ≤ sb.free im.disk := by
  refine card_le_card fun b hb => ?_
  obtain ⟨hlt, hge, hown⟩ := h b hb
  rw [mem_filter, mem_range, im.used_disk hlt, hown, decide_eq_false (Nat.not_lt.2 hge)]
  exact ⟨hlt, rfl⟩

end Image

theorem Dinode.intact_empty {sb : Superblock} {v : Dinode} (haddrs : v.addrs = fun _ => 0) (hsize : v.size = 0) :
    v.Intact sb fun _ => none := by
  have haddr : ∀ j, v.addr j = 0 := by
    intro j
    rw [Dinode.addr, haddrs]
    split <;> rfl
  have hslot : ∀ j, v.slot (fun _ => none) j = 0 := by
    intro j
    by_cases hj : j ≤ NDIRECT
    · rw [slot_of_le hj, haddr]
    · exact slot_of_none (by omega) rfl
  refine ⟨⟨fun i j _ _ hne => absurd (hslot i) hne, fun b => ?_⟩, fun bn hbn => ?_, fun _ bn d _ hd => ?_⟩
  · constructor
    · intro hb
      cases hb
    · rintro ⟨hne, j, -, hj⟩
      exact absurd ((hslot j).symm.trans hj).symm hne
  · rw [hsize] at hbn
    exact absurd hbn (Nat.not_lt_zero _)
  · cases hd

/-- An inode without content. -/
def Dinode.fresh (type : Short) : Dinode := ⟨type, 0, 0, 1, 0, fun _ => 0⟩

/-- One inode block and one block of the free map. -/
def Superblock.tiny : Superblock := ⟨300, 4, 1, 2⟩

/-- The root directory and a file, both empty. -/
def Image.tiny : Image Superblock.tiny where
  inode n := if n = ROOTINO then Dinode.fresh T_DIR else if n = 2 then Dinode.fresh T_FILE else Dinode.zero
  own _ := none
  block _ := Block.zero
  ok := ⟨by decide, by decide, by decide, by decide⟩
  data _ h := by cases h
  alive _ _ h := by cases h
  intact n _ h := by
    split at h
    · rename_i hn
      exact intact_empty (by rw [if_pos hn]; rfl) (by rw [if_pos hn]; rfl)
    · rename_i hn
      rw [if_neg hn]
      split at h
      · rename_i hn'
        exact intact_empty (by rw [if_pos hn']; rfl) (by rw [if_pos hn']; rfl)
      · exact absurd rfl h

namespace FsState

variable {P : Type} {sb : Superblock}

/-- Inode `n` is in slot 0, with one reference, and is not yet read. Nothing else is in use. -/
def boot (im : Image sb) (n : Nat) (x : FileState P) : FsState P (FileState P) where
  disk := im.disk
  owner _ := none
  op _ := false
  icache := ICache.init.set 0 ⟨⟨Dinode.zero, ROOTDEV, n, false⟩, 1, none⟩
  ext := x

theorem slot_boot (im : Image sb) (n : Nat) (x : FileState P) (j : Fin NINODE) : (boot im n x).icache.slot j =
    if j = 0 then ⟨⟨Dinode.zero, ROOTDEV, n, false⟩, 1, none⟩ else ⟨⟨Dinode.zero, 0, 0, false⟩, 0, none⟩ := by
  show Function.update _ 0 _ j = _
  by_cases hj : j = 0
  · rw [hj, Function.update_self, if_pos rfl]
  · rw [Function.update_of_ne hj, if_neg hj]
    rfl

theorem wf_boot (im : Image sb) {n : Nat} (x : FileState P) (hn : n < sb.ninodes) (htype : (im.inode n).type ≠ 0) :
    Wf sb im.own (boot im n x) := by
  have hslot := slot_boot im n x
  have hzero : ∀ {j}, 0 < (boot im n x).ref j → j = 0 := by
    intro j hj
    by_contra hne
    rw [FsState.ref, hslot, if_neg hne] at hj
    exact absurd hj (lt_irrefl _)
  have hinum : (boot im n x).inum 0 = n := by
    rw [FsState.inum, hslot]
    rfl
  refine ⟨im.ok, im.diskInv, fun _ => rfl, fun j => ?_, fun j => ?_, fun j hj => ?_, fun j hj hv => ?_,
    fun i j hi hj _ => by rw [hzero hi, hzero hj]⟩
  · rw [hslot]
    split <;> rfl
  · rw [FsState.ref, hslot]
    split
    · exact Int.one_nonneg
    · exact le_refl _
  · rw [hzero hj, hinum]
    refine ⟨by rw [hslot]; rfl, hn, ?_⟩
    show (sb.dinode im.disk n).type ≠ 0
    rw [im.dinode_disk hn]
    exact htype
  · rw [hslot, hzero hj] at hv
    cases hv

section Files

variable [DecidableEq P]

/-- The operations on open files. -/
def fileExec (p : P) (g : FileSig.Op) : FileState P → Outcome (FileState P) (FileSig.Ret g) := FileState.exec p g

/-- The machine with the open files. -/
abbrev files : Machine (Client Nat (FsSig FileSig)) P (FsState P (FileState P)) := machine fileExec

variable {α : Type} {p : P} {s : FsState P (FileState P)} {f : Fin NFILE}

theorem run_fload {k : File → FsM Nat FileSig α} :
    files.run p (Fs.fload f >>= k) s = files.run p (k (s.ext.file f)) s := rfl

theorem run_fstore {v : File} {k : Unit → FsM Nat FileSig α} :
    files.run p (Fs.fstore f v >>= k) s = files.run p (k ()) (s.setExt (s.ext.setFile f v)) := rfl

end Files

end FsState

end Xv6
