import Xv6.Seq.Content
import Xv6.Seq.Cache

/-! A well-formed file system that nobody is working on, and what is in its files, read off the disk. -/

namespace Xv6

open Lib List Dinode

/-! ### Bytes in the middle of a list -/

section Splice

variable {α : Type}

/-- The elements from `off` on replaced by those of `b`, as far as they go. -/
def splice (l : List α) (off : Nat) (b : List α) : List α := l.take off ++ b ++ l.drop (off + b.length)

theorem splice_nil (l : List α) (off : Nat) : splice l off [] = l := by
  rw [splice, append_nil, length_nil, Nat.add_zero, take_append_drop]

theorem length_splice {l : List α} {off : Nat} {b : List α} (h : off ≤ l.length) :
    (splice l off b).length = max l.length (off + b.length) := by
  simp only [splice, length_append, length_take, length_drop]
  omega

theorem splice_splice {l : List α} {off : Nat} (a b : List α) (h : off ≤ l.length) :
    splice (splice l off a) (off + a.length) b = splice l off (a ++ b) := by
  have hlen : (l.take off ++ a).length = off + a.length := by
    rw [length_append, length_take, Nat.min_eq_left h]
  have htake : (splice l off a).take (off + a.length) = l.take off ++ a := by
    rw [splice, ← hlen, take_left]
  have hdrop : (splice l off a).drop (off + a.length + b.length) = l.drop (off + (a.length + b.length)) := by
    rw [splice, ← drop_drop, ← hlen, drop_left, drop_drop, hlen, Nat.add_assoc]
  unfold splice at htake hdrop ⊢
  rw [htake, hdrop, length_append, append_assoc (l.take off)]

theorem getD_splice {l : List α} {off : Nat} {b : List α} (h : off ≤ l.length) (i : Nat) (x : α) :
    (splice l off b).getD i x = if off ≤ i ∧ i < off + b.length then b.getD (i - off) x else l.getD i x := by
  have hlen : (l.take off).length = off := by rw [length_take, Nat.min_eq_left h]
  rw [splice, append_assoc]
  by_cases hlt : i < off
  · rw [if_neg (by omega), getD_append _ _ _ _ (by omega), getD_eq_getElem?_getD, List.getElem?_take,
      if_pos hlt, getD_eq_getElem?_getD]
  · rw [getD_append_right _ _ _ _ (by omega), hlen]
    by_cases hin : i < off + b.length
    · rw [if_pos (by omega), getD_append _ _ _ _ (by omega)]
    · rw [if_neg (by omega), getD_append_right _ _ _ _ (by omega), getD_eq_getElem?_getD,
        List.getElem?_drop, getD_eq_getElem?_getD]
      congr 2
      omega

end Splice

/-! ### Files on disk -/

namespace Dinode

variable {v v' : Dinode} {m m' : BlockMap}

theorem getD_fileBytes {off n i : Nat} (h : i < n) : (v.fileBytes m off n).getD i 0 = v.fileByte m (off + i) := by
  rw [fileBytes, getD_eq_getElem?_getD]
  simp [h]

theorem fileBytes_eq_splice {off : Nat} {b : List UInt8} (hoff : off ≤ v.size.val)
    (hsize : v'.size.val = max v.size.val (off + b.length)) (hmax : v'.size.val ≤ MAXFILE * BSIZE)
    (hbyte : ∀ i, i < MAXFILE * BSIZE → v'.fileByte m' i =
      if off ≤ i ∧ i < off + b.length then b.getD (i - off) 0 else v.fileByte m i) :
    v'.fileBytes m' 0 v'.size.val = splice (v.fileBytes m 0 v.size.val) off b := by
  have hle : off ≤ (v.fileBytes m 0 v.size.val).length := by rw [length_fileBytes]; exact hoff
  refine ext_getElem ?_ fun i h₁ h₂ => ?_
  · rw [length_splice hle, length_fileBytes, length_fileBytes, hsize]
  · rw [← getD_eq_getElem _ 0 h₁, ← getD_eq_getElem _ 0 h₂, getD_splice hle]
    rw [length_fileBytes] at h₁
    rw [getD_fileBytes h₁, Nat.zero_add, hbyte i (by omega)]
    split
    · rfl
    · rw [getD_fileBytes (by omega), Nat.zero_add]

end Dinode

/-- The blocks of a disk, where block 0 stands for none. -/
def view (disk : Nat → Block) : BlockMap := fun b => if b = 0 then none else some (disk b)

def Superblock.bytes (sb : Superblock) (disk : Nat → Block) (n : Nat) : List UInt8 :=
  (sb.dinode disk n).fileBytes (view disk) 0 (sb.dinode disk n).size.val

section View

variable {disk : Nat → Block} {own : Nat → Option Nat} {n : Nat} {v : Dinode}
  (h : v.Mapped (content disk own n))
include h

theorem slot_view (j : Nat) : v.slot (view disk) j = v.slot (content disk own n) j := by
  by_cases hj : j ≤ NDIRECT
  · rw [slot_of_le hj, slot_of_le hj]
  · have hgt : NDIRECT < j := by omega
    by_cases hzero : v.addr NDIRECT = 0
    · rw [slot_of_none hgt (by rw [hzero]; rfl), slot_of_none hgt (by rw [hzero]; exact h.zero)]
    · obtain ⟨d, hd⟩ := h.indirect hzero
      have hown := (isSome_content disk).1 (Option.isSome_iff_exists.2 ⟨d, hd⟩)
      rw [slot_of_gt hgt hd]
      rw [content_of_own hown] at hd
      exact slot_of_gt hgt (by rw [view, if_neg hzero]; exact hd)

theorem data_view {bn : Nat} (hbn : bn < MAXFILE) : v.data (view disk) bn = v.data (content disk own n) bn := by
  rw [Dinode.data, slot_view h, Dinode.data]
  by_cases hzero : v.slot (content disk own n) (fileSlot bn) = 0
  · rw [hzero, h.zero]
    rfl
  · have hown := (isSome_content disk).1 (h.isSome (fileSlot_lt hbn) hzero)
    rw [content_of_own hown, view, if_neg hzero]

theorem fileByte_view {i : Nat} (hi : i < MAXFILE * BSIZE) :
    v.fileByte (view disk) i = v.fileByte (content disk own n) i :=
  fileByte_congr (data_view h (Nat.div_lt_of_lt_mul (Nat.mul_comm MAXFILE BSIZE ▸ hi)))

end View

namespace FsState

variable {P X : Type} {p : P} {sb : Superblock} {own : Nat → Option Nat} {s : FsState P X} {ip : Fin NINODE}

/-- Well-formed, with nobody at work: no buffer and no inode is locked. -/
structure Wf (sb : Superblock) (own : Nat → Option Nat) (s : FsState P X) : Prop where
  ok : sb.Ok
  disk : DiskInv sb own s.disk fun _ : Fin NINODE => none
  owner : ∀ b, s.owner b = none
  unlocked : ∀ ip, (s.icache.slot ip).lock = none
  ref : ∀ ip, 0 ≤ s.ref ip
  used : ∀ ip, 0 < s.ref ip → (s.icache.slot ip).inode.dev = ROOTDEV ∧ s.inum ip < sb.ninodes ∧
    (sb.dinode s.disk (s.inum ip)).type ≠ 0
  clean : ∀ ip, 0 < s.ref ip → (s.icache.slot ip).inode.valid = true → s.mem ip = sb.dinode s.disk (s.inum ip)
  uniq : ∀ i j, 0 < s.ref i → 0 < s.ref j → s.inum i = s.inum j → i = j

variable (sb own) in
theorem held_eq_none (h : ∀ ip, (s.icache.slot ip).lock = none) : s.held sb own = fun _ => none := by
  funext ip
  exact held_of_unlocked (h ip)

theorem Wf.alone (h : Wf sb own s) : Alone sb p own s where
  ok := h.ok
  disk := by
    rw [held_eq_none sb own h.unlocked]
    exact h.disk
  owner := h.owner
  lock ip := Or.inl (h.unlocked ip)
  ref := h.ref
  locked ip hl := by
    rw [h.unlocked ip] at hl
    cases hl
  used := h.used
  clean ip _ := h.clean ip
  uniq := h.uniq

theorem Alone.wf (h : Alone sb p own s) (hunlocked : ∀ ip, (s.icache.slot ip).lock = none) : Wf sb own s where
  ok := h.ok
  disk := by
    rw [← held_eq_none sb own hunlocked]
    exact h.disk
  owner := h.owner
  unlocked := hunlocked
  ref := h.ref
  used := h.used
  clean ip := h.clean ip (hunlocked ip)
  uniq := h.uniq

/-- The flags of operations and the state of the layers above play no part. -/
theorem Alone.congr {t : FsState P X} (h : Alone sb p own s) (hdisk : t.disk = s.disk) (howner : t.owner = s.owner)
    (hcache : t.icache = s.icache) : Alone sb p own t := by
  obtain ⟨disk, owner, op, icache, ext⟩ := t
  obtain rfl : disk = s.disk := hdisk
  obtain rfl : owner = s.owner := howner
  obtain rfl : icache = s.icache := hcache
  exact ⟨h.ok, h.disk, h.owner, h.lock, h.ref, h.locked, h.used, h.clean, h.uniq⟩

end FsState

end Xv6
