import Xv6.Seq.Ops

/-! The state of the file system while one process runs alone. Its inode cache agrees with the disk, except for
the inodes that the process has locked: these it may have changed in memory, and their blocks on disk. What
it does to a locked inode leaves all others as they are. -/

namespace Xv6

open Lib Function

namespace Others

variable {sb : Superblock} {own own' own'' : Nat → Option Nat} {disk disk' disk'' : Nat → Block} {n : Nat}

theorem refl (sb : Superblock) (own : Nat → Option Nat) (disk : Nat → Block) (n : Nat) :
    Others sb own own disk disk n := ⟨fun _ _ _ => rfl, fun _ _ => rfl⟩

theorem trans (h : Others sb own own' disk disk' n) (h' : Others sb own' own'' disk' disk'' n) :
    Others sb own own'' disk disk'' n where
  dinode i hi hne := (h'.dinode i hi hne).trans (h.dinode i hi hne)
  content i hne := (h'.content i hne).trans (h.content i hne)

end Others

namespace FsState

variable {P X : Type}

/-- The blocks of the inode in slot `ip`, where `own` tells to which inode a block belongs. -/
def blocks (s : FsState P X) (own : Nat → Option Nat) (ip : Fin NINODE) : BlockMap :=
  content s.disk own (s.inum ip)

/-- The locked inodes on disk with their blocks. -/
def held (s : FsState P X) (sb : Superblock) (own : Nat → Option Nat) (ip : Fin NINODE) : Option Owned :=
  if (s.icache.slot ip).lock.isSome then some ⟨s.inum ip, sb.dinode s.disk (s.inum ip), s.blocks own ip⟩ else none

/-- The state after the disk and the fields of one inode in memory have changed. -/
def work (s : FsState P X) (ip : Fin NINODE) (disk : Nat → Block) (v : Dinode) : FsState P X :=
  { s with disk := disk, icache := s.icache.set ip ((s.icache.slot ip).setDinode v) }

/-- Process `p` runs alone. -/
structure Alone (sb : Superblock) (p : P) (own : Nat → Option Nat) (s : FsState P X) : Prop where
  ok : sb.Ok
  disk : DiskInv sb own s.disk (s.held sb own)
  owner : ∀ b, s.owner b = none
  lock : ∀ ip, (s.icache.slot ip).lock = none ∨ (s.icache.slot ip).lock = some p
  ref : ∀ ip, 0 ≤ s.ref ip
  locked : ∀ ip, (s.icache.slot ip).lock = some p → 0 < s.ref ip ∧ (s.icache.slot ip).inode.valid = true
  used : ∀ ip, 0 < s.ref ip → (s.icache.slot ip).inode.dev = ROOTDEV ∧ s.inum ip < sb.ninodes ∧
    (sb.dinode s.disk (s.inum ip)).type ≠ 0
  clean : ∀ ip, (s.icache.slot ip).lock = none → 0 < s.ref ip → (s.icache.slot ip).inode.valid = true →
    s.mem ip = sb.dinode s.disk (s.inum ip)
  uniq : ∀ i j, 0 < s.ref i → 0 < s.ref j → s.inum i = s.inum j → i = j

/-- Only the inode in slot `ip` and its blocks have changed. -/
structure Works (sb : Superblock) (ip : Fin NINODE) (own own' : Nat → Option Nat) (s t : FsState P X) : Prop where
  others : Others sb own own' s.disk t.disk (s.inum ip)
  frame : t = s.work ip t.disk (t.mem ip)

variable {j : Fin NINODE}

section Work

variable (s : FsState P X) (ip : Fin NINODE) (disk : Nat → Block) (v : Dinode)

@[simp] theorem disk_work : (s.work ip disk v).disk = disk := rfl
@[simp] theorem op_work : (s.work ip disk v).op = s.op := rfl
@[simp] theorem ext_work : (s.work ip disk v).ext = s.ext := rfl

@[simp] theorem slot_work_self : (s.work ip disk v).icache.slot ip = (s.icache.slot ip).setDinode v :=
  update_self ..

theorem slot_work_of_ne (h : j ≠ ip) : (s.work ip disk v).icache.slot j = s.icache.slot j :=
  update_of_ne h ..

@[simp] theorem mem_work : (s.work ip disk v).mem ip = v := by
  rw [mem, slot_work_self]
  rfl

theorem mem_work_of_ne (h : j ≠ ip) : (s.work ip disk v).mem j = s.mem j := by
  rw [mem, slot_work_of_ne _ _ _ _ h]
  rfl

@[simp] theorem ref_work (j : Fin NINODE) : (s.work ip disk v).ref j = s.ref j := by
  by_cases h : j = ip
  · rw [h, ref, slot_work_self]
    rfl
  · rw [ref, slot_work_of_ne _ _ _ _ h]
    rfl

@[simp] theorem inum_work (j : Fin NINODE) : (s.work ip disk v).inum j = s.inum j := by
  by_cases h : j = ip
  · rw [h, inum, slot_work_self]
    rfl
  · rw [inum, slot_work_of_ne _ _ _ _ h]
    rfl

@[simp] theorem lock_work (j : Fin NINODE) : ((s.work ip disk v).icache.slot j).lock = (s.icache.slot j).lock := by
  by_cases h : j = ip
  · rw [h, slot_work_self]
    rfl
  · rw [slot_work_of_ne _ _ _ _ h]

@[simp] theorem valid_work (j : Fin NINODE) :
    ((s.work ip disk v).icache.slot j).inode.valid = (s.icache.slot j).inode.valid := by
  by_cases h : j = ip
  · rw [h, slot_work_self]
    rfl
  · rw [slot_work_of_ne _ _ _ _ h]

@[simp] theorem dev_work (j : Fin NINODE) :
    ((s.work ip disk v).icache.slot j).inode.dev = (s.icache.slot j).inode.dev := by
  by_cases h : j = ip
  · rw [h, slot_work_self]
    rfl
  · rw [slot_work_of_ne _ _ _ _ h]

theorem work_work (disk' : Nat → Block) (v' : Dinode) : (s.work ip disk v).work ip disk' v' = s.work ip disk' v' := by
  unfold work ICache.set
  simp only [update_self, update_idem]
  rfl

theorem work_self : s.work ip s.disk (s.mem ip) = s := by
  have hslot : (s.icache.slot ip).setDinode (s.mem ip) = s.icache.slot ip := rfl
  unfold work ICache.set
  rw [hslot, update_eq_self]

theorem setCache_set : s.setCache (s.icache.set ip ((s.icache.slot ip).setDinode v)) = s.work ip s.disk v := rfl

theorem setDisk_eq_work (b : Nat) (d : Block) : s.setDisk b d = s.work ip (update s.disk b d) (s.mem ip) := by
  conv_lhs => rw [← work_self s ip]
  rfl

end Work

section Held

variable {s : FsState P X} {sb : Superblock} {own : Nat → Option Nat} {ip : Fin NINODE} {p : P}

variable (sb own) in
theorem held_of_lock (h : (s.icache.slot ip).lock = some p) :
    s.held sb own ip = some ⟨s.inum ip, sb.dinode s.disk (s.inum ip), s.blocks own ip⟩ := by
  rw [held, h]
  rfl

theorem held_of_unlocked (h : (s.icache.slot ip).lock = none) : s.held sb own ip = none := by
  rw [held, h]
  rfl

theorem lock_of_held (hlock : (s.icache.slot ip).lock = none ∨ (s.icache.slot ip).lock = some p) {r : Owned}
    (h : s.held sb own ip = some r) :
    (s.icache.slot ip).lock = some p ∧ r = ⟨s.inum ip, sb.dinode s.disk (s.inum ip), s.blocks own ip⟩ := by
  rcases hlock with hnone | hsome
  · rw [held_of_unlocked hnone] at h
    cases h
  · rw [held_of_lock _ _ hsome] at h
    cases h
    exact ⟨hsome, rfl⟩

end Held

namespace Works

variable {sb : Superblock} {ip : Fin NINODE} {own own' own'' : Nat → Option Nat} {s t u : FsState P X}

theorem refl (sb : Superblock) (ip : Fin NINODE) (own : Nat → Option Nat) (s : FsState P X) : Works sb ip own own s s :=
  ⟨Others.refl .., (work_self s ip).symm⟩

section Frame

variable (h : Works sb ip own own' s t)
include h

theorem inum (j : Fin NINODE) : t.inum j = s.inum j := by
  rw [h.frame, inum_work]

theorem ref (j : Fin NINODE) : t.ref j = s.ref j := by
  rw [h.frame, ref_work]

theorem lock (j : Fin NINODE) : (t.icache.slot j).lock = (s.icache.slot j).lock := by
  rw [h.frame, lock_work]

theorem op : t.op = s.op := by
  rw [h.frame, op_work]

theorem ext : t.ext = s.ext := by
  rw [h.frame, ext_work]

theorem slot (hj : j ≠ ip) : t.icache.slot j = s.icache.slot j := by
  rw [h.frame, slot_work_of_ne _ _ _ _ hj]

theorem trans (h' : Works sb ip own' own'' t u) : Works sb ip own own'' s u where
  others := by
    have hothers := h'.others
    rw [h.inum ip] at hothers
    exact h.others.trans hothers
  frame := by
    have hframe := h'.frame
    rw [h.frame, work_work] at hframe
    exact hframe

/-- Another inode keeps its blocks. -/
theorem blocks (hj : s.inum j ≠ s.inum ip) : t.blocks own' j = s.blocks own j := by
  rw [FsState.blocks, FsState.blocks, h.inum]
  exact h.others.content _ hj

end Frame

end Works

namespace Alone

variable {sb : Superblock} {p : P} {own own' : Nat → Option Nat} {s : FsState P X} {ip : Fin NINODE}

theorem inum_ne (h : Alone sb p own s) (hj : j ≠ ip) (hi : 0 < s.ref ip) (href : 0 < s.ref j) :
    s.inum j ≠ s.inum ip := fun heq => hj (h.uniq j ip href hi heq)

section Locked

variable (h : Alone sb p own s) (hlock : (s.icache.slot ip).lock = some p)
include h hlock

theorem inum_lt : s.inum ip < sb.ninodes := (h.used ip (h.locked ip hlock).1).2.1

theorem type_ne : (sb.dinode s.disk (s.inum ip)).type ≠ 0 := (h.used ip (h.locked ip hlock).1).2.2

/-- Work on a locked inode, by what it does to the disk. -/
theorem work {disk : Nat → Block} {r : Owned}
    (hdisk : DiskInv sb own' disk (update (s.held sb own) ip (some r))) (hr : r.inum = s.inum ip)
    (hothers : Others sb own own' s.disk disk (s.inum ip)) (v : Dinode) :
    Alone sb p own' (s.work ip disk v) ∧ Works sb ip own own' s (s.work ip disk v) := by
  have hself := hdisk.owned ip r (update_self ..)
  have href := (h.locked ip hlock).1
  have hne : ∀ {j : Fin NINODE}, j ≠ ip → 0 < s.ref j → s.inum j ≠ s.inum ip := fun hj => h.inum_ne hj href
  have hheld : (s.work ip disk v).held sb own' = update (s.held sb own) ip (some r) := by
    funext j
    by_cases hj : j = ip
    · rw [hj, update_self, held_of_lock _ _ (p := p) (by rw [lock_work, hlock]), inum_work]
      rw [hr] at hself
      cases r with
      | mk inum d m =>
        simp only [FsState.blocks, inum_work, disk_work] at hself hr ⊢
        rw [← hself.2.1, ← hself.2.2.2, hr]
    · rw [update_of_ne hj]
      rcases h.lock j with hnone | hsome
      · rw [held_of_unlocked hnone, held_of_unlocked (by rw [lock_work, hnone])]
      · have hjne := hne hj (h.locked j hsome).1
        rw [held_of_lock _ _ hsome, held_of_lock _ _ (p := p) (by rw [lock_work, hsome]), inum_work]
        simp only [FsState.blocks, inum_work, disk_work]
        rw [hothers.dinode _ (h.inum_lt hsome) hjne, hothers.content _ hjne]
  have hwork : Works sb ip own own' s (s.work ip disk v) := ⟨hothers, by rw [disk_work, mem_work]⟩
  refine ⟨⟨h.ok, by rw [hheld]; exact hdisk, h.owner, fun j => ?_, fun j => ?_, fun j hj => ?_, fun j hj => ?_,
    fun j hj hpos hv => ?_, fun i j hi hj heq => ?_⟩, hwork⟩
  · rw [lock_work]
    exact h.lock j
  · rw [ref_work]
    exact h.ref j
  · rw [lock_work] at hj
    rw [ref_work, valid_work]
    exact h.locked j hj
  · rw [ref_work] at hj
    rw [inum_work, dev_work, disk_work]
    obtain ⟨hdev, hlt, htype⟩ := h.used j hj
    refine ⟨hdev, hlt, ?_⟩
    by_cases hji : s.inum j = s.inum ip
    · rw [hji, ← hr, hself.2.1]
      exact hself.2.2.1
    · rw [hothers.dinode _ hlt hji]
      exact htype
  · rw [lock_work] at hj
    rw [ref_work] at hpos
    rw [valid_work] at hv
    have hji : j ≠ ip := by
      rintro rfl
      rw [hlock] at hj
      cases hj
    rw [mem_work_of_ne _ _ _ _ hji, inum_work, disk_work, hothers.dinode _ (h.used j hpos).2.1 (hne hji hpos)]
    exact h.clean j hj hpos hv
  · rw [ref_work] at hi hj
    rw [inum_work, inum_work] at heq
    exact h.uniq i j hi hj heq

theorem work_mem (v : Dinode) : Alone sb p own (s.work ip s.disk v) ∧ Works sb ip own own s (s.work ip s.disk v) := by
  have hheld := held_of_lock sb own hlock
  refine h.work hlock (r := ⟨s.inum ip, sb.dinode s.disk (s.inum ip), s.blocks own ip⟩) ?_ rfl (Others.refl ..) v
  rw [← hheld, update_eq_self]
  exact h.disk

end Locked

end Alone

end FsState

end Xv6
