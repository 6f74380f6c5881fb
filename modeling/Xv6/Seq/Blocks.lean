import Xv6.Seq.State

/-! Blocks and the blocks of an inode, for a process that runs alone: `balloc` finds a free block if there is
one, and `bmap` gives the inode a block where it has none. -/

namespace Xv6

open Lib Function Machine Superblock Dinode Finset Option

namespace Fs

variable {sb : Superblock}

theorem freeBit_none {b : Nat} {d : Block} (h : freeBit sb b d = none) {bi : Nat} (hbi : bi < BPB)
    (hlt : b + bi < sb.size) : d.bit bi = true := by
  unfold freeBit at h
  have hbit := List.find?_eq_none.1 h bi (List.mem_range.2 hbi)
  simp only [Bool.and_eq_true, decide_eq_true_eq, Bool.not_eq_true', not_and, Bool.not_eq_false] at hbit
  exact hbit hlt

variable (sb) in
theorem bblock_add {b bi : Nat} (hb : b % BPB = 0) (hbi : bi < BPB) :
    sb.bblock (b + bi) = sb.bblock b ∧ (b + bi) % BPB = bi := by
  have hb' : b % 8192 = 0 := hb
  have hbi' : bi < 8192 := hbi
  constructor
  · show (b + bi) / 8192 + sb.bmapstart = b / 8192 + sb.bmapstart
    omega
  · show (b + bi) % 8192 = bi
    omega

end Fs

/-! ### Free blocks -/

namespace Superblock

variable {sb : Superblock} {disk disk' : Nat → Block}

variable (sb disk) in
def free : Nat := ((Finset.range sb.size).filter fun x => sb.used disk x = false).card

theorem free_congr (h : ∀ x, x < sb.size → sb.used disk' x = sb.used disk x) : sb.free disk' = sb.free disk := by
  unfold free
  congr 1
  refine filter_congr fun x hx => ?_
  rw [h x (mem_range.1 hx)]

theorem free_eq_zero (h : ∀ x, x < sb.size → sb.used disk x = true) : sb.free disk = 0 := by
  rw [free, card_eq_zero, filter_eq_empty_iff]
  intro x hx hfree
  rw [h x (mem_range.1 hx)] at hfree
  cases hfree

theorem free_use {x : Nat} (hx : x < sb.size) (hfree : sb.used disk x = false)
    (h : ∀ b, b < sb.size → sb.used disk' b = if b = x then true else sb.used disk b) :
    sb.free disk' + 1 = sb.free disk := by
  have hmem : x ∈ (Finset.range sb.size).filter fun b => sb.used disk b = false :=
    mem_filter.2 ⟨mem_range.2 hx, hfree⟩
  have herase : (Finset.range sb.size).filter (fun b => sb.used disk' b = false) =
      ((Finset.range sb.size).filter fun b => sb.used disk b = false).erase x := by
    ext b
    rw [mem_erase, mem_filter, mem_filter]
    constructor
    · rintro ⟨hb, hused⟩
      rw [h b (mem_range.1 hb)] at hused
      split at hused
      · cases hused
      · rename_i hne
        exact ⟨hne, hb, hused⟩
    · rintro ⟨hne, hb, hused⟩
      rw [h b (mem_range.1 hb), if_neg hne]
      exact ⟨hb, hused⟩
  rw [free, free, herase]
  exact card_erase_add_one hmem

end Superblock

theorem Dinode.val_slot (v : Dinode) (m : BlockMap) (j : Nat) : (Uint.of (v.slot m j)).val = v.slot m j := by
  refine Uint.val_of ?_
  unfold slot
  split
  · exact v.addr_lt j
  · split
    · exact Fin.isLt _
    · decide

/-- The number of blocks that `bmap` has to allocate for block `bn` of a file. -/
def Dinode.need (v : Dinode) (m : BlockMap) (bn : Nat) : Nat :=
  (if v.slot m (fileSlot bn) = 0 then 1 else 0) + if ¬bn < NDIRECT ∧ v.addr NDIRECT = 0 then 1 else 0

theorem Dinode.need_eq_zero {v : Dinode} {m : BlockMap} {bn : Nat} (hmapped : v.Mapped m)
    (h : v.slot m (fileSlot bn) ≠ 0) : v.need m bn = 0 := by
  have hind : ¬(¬bn < NDIRECT ∧ v.addr NDIRECT = 0) := by
    rintro ⟨hdir, hzero⟩
    rw [fileSlot_of_ge hdir] at h
    exact h (slot_of_none (by omega) (by rw [hzero]; exact hmapped.zero))
  rw [need, if_neg h, if_neg hind]

namespace FsState

open Fs

variable {P X : Type} [DecidableEq P] {F : Sig} {more : P → (f : F.Op) → X → Outcome X (F.Ret f)} {p : P}
  {sb : Superblock} {s : FsState P X} {may : String → Prop} {own : Nat → Option Nat} {ip : Fin NINODE}

/-! ### Allocation -/

/-- `balloc` has taken block `x`. -/
def alloc (s : FsState P X) (sb : Superblock) (x : Nat) : FsState P X :=
  (s.setDisk (sb.bblock x) ((s.disk (sb.bblock x)).setBit (x % BPB))).setDisk x Block.zero

theorem run_bzero {b : Nat} (h : s.owner b = none) (hop : s.op p = true) :
    (machine more).run p (bzero b) s = .ok () (s.setDisk b Block.zero) := by
  unfold bzero
  rw [run_bread h]
  exact run_modify_last h hop

section Balloc

variable (hop : s.op p = true) (hmap : ∀ x, x < sb.size → s.owner (sb.bblock x) = none)
  (hfree : ∀ x, x < sb.size → sb.used s.disk x = false → s.owner x = none)
  (hmay : (∀ x, x < sb.size → sb.used s.disk x = true) → may "balloc: out of blocks")
  {Q : Uint → FsState P X → Prop}
  (hQ : ∀ x, x < sb.size → sb.used s.disk x = false → Q (Uint.of x) (s.alloc sb x))
include hop hmap hfree hmay hQ

theorem holds_ballocFrom : ∀ (fuel b : Nat), b % BPB = 0 → sb.size < fuel + b →
    (∀ x, x < b → x < sb.size → sb.used s.disk x = true) →
    ((machine more).run p (ballocFrom sb fuel b) s).Holds may Q := by
  intro fuel
  induction fuel with
  | zero =>
    intro b _ hsize hused
    exact hmay fun x hx => hused x (by omega) hx
  | succ fuel ih =>
    intro b hb hsize hused
    rw [ballocFrom]
    split
    · rename_i hlt
      have hsame : ∀ bi, bi < BPB → sb.used s.disk (b + bi) = (s.disk (sb.bblock b)).bit bi := by
        intro bi hbi
        obtain ⟨hdiv, hmod⟩ := bblock_add sb hb hbi
        rw [Superblock.used, hdiv, hmod]
      rw [run_bread (hmap b hlt), run_bdata, disk_setOwner]
      cases hbit : freeBit sb b (s.disk (sb.bblock b)) with
      | none =>
        rw [run_brelse (update_self ..), setOwner_setOwner _ (hmap b hlt)]
        have hpos : 0 < BPB := by decide
        refine ih _ (by rw [Nat.add_mod_right, hb]) (by omega) fun x hx hxs => ?_
        by_cases hxb : x < b
        · exact hused x hxb hxs
        · have hbi : x - b < BPB := by omega
          have hx' : b + (x - b) = x := by omega
          have hset := freeBit_none hbit hbi (by rw [hx']; exact hxs)
          rw [← hsame _ hbi, hx'] at hset
          exact hset
      | some bi =>
        obtain ⟨hbi, hlt', hclear⟩ := freeBit_some hbit
        rw [← hsame bi hbi] at hclear
        obtain ⟨hdiv, hmod⟩ := bblock_add sb hb hbi
        rw [run_modify (hmap b hlt) hop]
        have hfree' : (s.setDisk (sb.bblock b) ((s.disk (sb.bblock b)).setBit bi)).owner (b + bi) = none :=
          hfree _ hlt' hclear
        rw [run_bind_ok (run_bzero hfree' hop)]
        have hpost := hQ _ hlt' hclear
        rw [alloc, hdiv, hmod] at hpost
        exact hpost
    · rename_i hge
      exact hmay fun x hx => hused x (by omega) hx

theorem holds_balloc : ((machine more).run p (balloc sb) s).Holds may Q :=
  holds_ballocFrom hop hmap hfree hmay hQ (sb.size + 1) 0 rfl (by omega) fun x hx => absurd hx (Nat.not_lt_zero _)

end Balloc

section Alloc

variable (h : Alone sb p own s) (hlock : (s.icache.slot ip).lock = some p) {x : Nat} (hx : x < sb.size)
  (hfree : sb.used s.disk x = false)
include h hlock hx hfree

omit [DecidableEq P]

/-- What the new block does to the disk. -/
theorem Alone.alloc : sb.IsData x ∧ s.blocks own ip x = none ∧
    Others sb own (update own x (some (s.inum ip))) s.disk (s.alloc sb x).disk (s.inum ip) ∧
    DiskInv sb (update own x (some (s.inum ip))) (s.alloc sb x).disk
      (update (s.held sb own) ip (some ⟨s.inum ip, sb.dinode s.disk (s.inum ip),
        update (s.blocks own ip) x (some Block.zero)⟩)) ∧ sb.free (s.alloc sb x).disk + 1 = sb.free s.disk := by
  have hheld := held_of_lock sb own hlock
  obtain ⟨hdata, hnone, hothers, hdisk⟩ := h.disk.alloc hheld h.ok hx hfree
  have hsome : ((Owned.put ⟨s.inum ip, sb.dinode s.disk (s.inum ip), s.blocks own ip⟩ x (s.disk x)).blocks x).isSome := by
    simp [Owned.put]
  obtain ⟨hothers', hdisk'⟩ := hdisk.write (update_self ..) h.ok (d := Block.zero) hsome
  rw [update_idem] at hdisk'
  simp only [Owned.put, update_idem] at hothers' hdisk'
  refine ⟨hdata, hnone, hothers.trans hothers', hdisk', ?_⟩
  refine free_use hx hfree fun b hb => ?_
  show sb.used (update _ x Block.zero) b = _
  rw [used_update_of_ne (hdata.ne_bblock hb)]
  exact used_setBit b

/-- The inode gets the new block, and `v` in memory. -/
theorem Alone.work_alloc (v : Dinode) : Alone sb p (update own x (some (s.inum ip))) (s.work ip (s.alloc sb x).disk v) ∧
    Works sb ip own (update own x (some (s.inum ip))) s (s.work ip (s.alloc sb x).disk v) ∧
    (s.work ip (s.alloc sb x).disk v).blocks (update own x (some (s.inum ip))) ip =
      update (s.blocks own ip) x (some Block.zero) := by
  obtain ⟨-, -, hothers, hdisk, -⟩ := h.alloc hlock hx hfree
  obtain ⟨halone, hworks⟩ := h.work hlock hdisk rfl hothers v
  refine ⟨halone, hworks, ?_⟩
  have howned := (hdisk.owned ip _ (update_self ..)).2.2.2
  rw [FsState.blocks, inum_work, disk_work]
  exact howned.symm

end Alloc

/-! ### The blocks of an inode -/

/-- A locked inode got blocks. -/
structure Grown (sb : Superblock) (p : P) (ip : Fin NINODE) (own own' : Nat → Option Nat) (s t : FsState P X) :
    Prop where
  alone : Alone sb p own' t
  works : Works sb ip own own' s t
  grows : Dinode.Grows (s.mem ip) (s.blocks own ip) (t.mem ip) (t.blocks own' ip)

omit [DecidableEq P] in
theorem Grown.trans {own' own'' : Nat → Option Nat} {t u : FsState P X} (h : Grown sb p ip own own' s t)
    (h' : Grown sb p ip own' own'' t u) : Grown sb p ip own own'' s u :=
  ⟨h'.alone, h.works.trans h'.works, h.grows.trans h'.grows⟩

theorem run_bmap_mapped {bn : Nat} (howner : ∀ b, s.owner b = none) (hmapped : (s.mem ip).Mapped (s.blocks own ip))
    (hbn : bn < MAXFILE) (hslot : (s.mem ip).slot (s.blocks own ip) (fileSlot bn) ≠ 0) :
    (machine more).run p (bmap sb ip bn) s = .ok (Uint.of ((s.mem ip).slot (s.blocks own ip) (fileSlot bn))) s := by
  rw [bmap, run_iload]
  split
  · rename_i hdir
    rw [fileSlot_of_lt hdir, slot_of_le hdir.le] at hslot ⊢
    exact congrArg (fun m => (machine more).run p m s) (if_neg hslot)
  · rename_i hdir
    have hk := lt_of_not_direct hbn hdir
    rw [fileSlot_of_ge hdir] at hslot ⊢
    have hgt : NDIRECT < NDIRECT + 1 + (bn - NDIRECT) := by omega
    have hsub : NDIRECT + 1 + (bn - NDIRECT) - (NDIRECT + 1) = bn - NDIRECT := by omega
    have hne : (s.mem ip).addr NDIRECT ≠ 0 := by
      intro hzero
      exact hslot (slot_of_none hgt (by rw [hzero]; exact hmapped.zero))
    obtain ⟨c, hc⟩ := hmapped.indirect hne
    have hdisk : s.disk ((s.mem ip).addr NDIRECT) = c := by
      have hown := (isSome_content s.disk).1 (isSome_iff_exists.2 ⟨c, hc⟩)
      rw [FsState.blocks, content_of_own hown] at hc
      exact Option.some.inj hc
    rw [slot_of_gt hgt hc, hsub] at hslot ⊢
    rw [if_pos hk]
    have hne' : ¬(s.icache.slot ip).inode.addr NDIRECT = 0 := hne
    rw [bmapIndirect, if_neg hne', pure_bind, val_addr, bmapEntry, run_bread (howner _), run_bdata, disk_setOwner]
    have hentry : ¬(s.disk ((s.icache.slot ip).inode.addr NDIRECT)).entry (bn - NDIRECT) = 0 := by
      intro hzero
      have hdisk' : s.disk ((s.icache.slot ip).inode.addr NDIRECT) = c := hdisk
      rw [hdisk'] at hzero
      exact hslot (by rw [hzero]; rfl)
    rw [if_neg hentry, run_brelse (update_self ..), setOwner_setOwner _ (howner _)]
    show Outcome.ok ((s.disk ((s.mem ip).addr NDIRECT)).entry (bn - NDIRECT)) s = _
    rw [hdisk]
    congr 1
    exact Fin.ext (Nat.mod_eq_of_lt (c.entry (bn - NDIRECT)).isLt).symm

section Bmap

variable (h : Alone sb p own s) (hlock : (s.icache.slot ip).lock = some p) (hop : s.op p = true)
  (hmapped : (s.mem ip).Mapped (s.blocks own ip))
include h hlock hop hmapped

omit [DecidableEq P] hlock hop hmapped in
/-- Nobody has the blocks that `balloc` looks at while the process has a block of an inode. -/
theorem Alone.owner_setOwner (o : Option P) {b : Nat} (hb : (own b).isSome) :
    (∀ x, x < sb.size → (s.setOwner b o).owner (sb.bblock x) = none) ∧
    ∀ x, x < sb.size → sb.used (s.setOwner b o).disk x = false → (s.setOwner b o).owner x = none := by
  have hdata := h.disk.data b hb
  refine ⟨fun x hx => ?_, fun x hx hfree => ?_⟩
  · rw [FsState.owner_setOwner, update_of_ne (hdata.ne_bblock hx)]
    exact h.owner _
  · rw [FsState.owner_setOwner, update_of_ne]
    · exact h.owner x
    · rintro rfl
      rw [disk_setOwner, (h.disk.used x hdata.2).2 (Or.inr hb)] at hfree
      cases hfree

/-- One entry of `addrs` gets a new block. -/
theorem holds_newAddr {j : Nat} (hj : j ≤ NDIRECT) (hempty : (s.mem ip).addr j = 0)
    (hmay : sb.free s.disk = 0 → may "balloc: out of blocks") :
    ((machine more).run p (newAddr sb ip j) s).Holds may fun a t => ∃ own', Grown sb p ip own own' s t ∧ a.val ≠ 0 ∧
        t.mem ip = (s.mem ip).setAddr j a ∧ s.blocks own ip a.val = none ∧
        t.blocks own' ip = update (s.blocks own ip) a.val (some Block.zero) ∧
        sb.free t.disk + 1 = sb.free s.disk := by
  refine holds_bind.2 (holds_balloc hop (fun x _ => h.owner _) (fun x _ _ => h.owner x)
    (fun hfull => hmay (free_eq_zero hfull)) fun x hx hfree => ?_)
  obtain ⟨hdata, hnone, hothers, hdisk, hcount⟩ := h.alloc hlock hx hfree
  obtain ⟨halone, hworks, hblocks⟩ := h.work_alloc hlock hx hfree ((s.mem ip).setAddr j (Uint.of x))
  have hval : (Uint.of x).val = x := Uint.val_of (Nat.lt_trans hx h.ok.uint)
  rw [run_iload, run_istore]
  have ha : (Uint.of x).val ≠ 0 := by
    rw [hval]
    exact hdata.ne_zero
  have hnew : s.blocks own ip (Uint.of x).val = none := by
    rw [hval]
    exact hnone
  change ((machine more).run p (pure (Uint.of x))
    (s.work ip (s.alloc sb x).disk ((s.mem ip).setAddr j (Uint.of x)))).Holds may _
  refine ⟨_, ⟨halone, hworks, ?_⟩, ha, mem_work .., hnew, by rw [hval]; exact hblocks, hcount⟩
  rw [hblocks, mem_work]
  by_cases hdir : j < NDIRECT
  · have hgrow := grows_direct hmapped hnew ha hdir hempty
    rw [hval] at hgrow
    exact hgrow
  · obtain rfl : j = NDIRECT := by omega
    have hgrow := grows_indirect hmapped hnew ha hempty
    rw [hval] at hgrow
    exact hgrow

theorem holds_newEntry {k b : Nat} {c : Block} (hk : k < NINDIRECT) (hb : (s.mem ip).addr NDIRECT = b)
    (hc : s.blocks own ip b = some c) (hempty : c.entry k = 0)
    (hmay : sb.free s.disk = 0 → may "balloc: out of blocks") :
    ((machine more).run p (newEntry sb b k c) (s.setOwner b (some p))).Holds may fun a t => ∃ own', Grown sb p ip own own' s t ∧ a.val ≠ 0 ∧
        a.val = (t.mem ip).slot (t.blocks own' ip) (NDIRECT + 1 + k) ∧
        t.mem ip = s.mem ip ∧ sb.free t.disk + 1 = sb.free s.disk := by
  have hown : own b = some (s.inum ip) := (isSome_content s.disk).1 (isSome_iff_exists.2 ⟨c, hc⟩)
  have hbdata := h.disk.data b (by rw [hown]; rfl)
  have hbused : sb.used s.disk b = true := (h.disk.used b hbdata.2).2 (Or.inr (by rw [hown]; rfl))
  obtain ⟨hmap, hnotb⟩ := h.owner_setOwner (some p) (b := b) (by rw [hown]; rfl)
  refine holds_bind.2 (holds_balloc (s := s.setOwner b (some p)) hop hmap hnotb
    (fun hfull => hmay (free_eq_zero hfull)) fun x hx hfree => ?_)
  · rw [disk_setOwner] at hfree
    have hxb : b ≠ x := by
      rintro rfl
      rw [hbused] at hfree
      cases hfree
    obtain ⟨hdata, hnone, hothers, hdisk, hcount⟩ := h.alloc hlock hx hfree
    have hval : (Uint.of x).val = x := Uint.val_of (Nat.lt_trans hx h.ok.uint)
    have halloc : (s.setOwner b (some p)).alloc sb x = (s.alloc sb x).setOwner b (some p) := rfl
    rw [halloc, run_modify (s := s.alloc sb x) (h.owner b) hop]
    -- the store to the indirect block
    have hsome : ((⟨s.inum ip, sb.dinode s.disk (s.inum ip),
        update (s.blocks own ip) x (some Block.zero)⟩ : Owned).blocks b).isSome := by
      show (update (s.blocks own ip) x (some Block.zero) b).isSome
      rw [update_of_ne hxb, hc]
      rfl
    obtain ⟨hothers', hdisk'⟩ := hdisk.write (update_self ..) h.ok (d := c.setEntry k (Uint.of x)) hsome
    rw [update_idem] at hdisk'
    obtain ⟨halone, hworks⟩ := h.work hlock hdisk' rfl (hothers.trans hothers') (s.mem ip)
    have hstate : (s.alloc sb x).setDisk b (c.setEntry k (Uint.of x)) =
        s.work ip (update (s.alloc sb x).disk b (c.setEntry k (Uint.of x))) (s.mem ip) :=
      setDisk_eq_work (s.alloc sb x) ip b _
    rw [hstate]
    have hblocks : (s.work ip (update (s.alloc sb x).disk b (c.setEntry k (Uint.of x))) (s.mem ip)).blocks
        (update own x (some (s.inum ip))) ip =
        update (update (s.blocks own ip) (Uint.of x).val (some Block.zero)) b (some (c.setEntry k (Uint.of x))) := by
      rw [hval, FsState.blocks, inum_work, disk_work]
      exact (hdisk'.owned ip _ (update_self ..)).2.2.2.symm
    have ha : (Uint.of x).val ≠ 0 := by
      rw [hval]
      exact hdata.ne_zero
    have hnew : s.blocks own ip (Uint.of x).val = none := by
      rw [hval]
      exact hnone
    have hgrow := grows_entry hmapped hnew ha hk (hb ▸ hc) hempty
    rw [hb] at hgrow
    refine ⟨_, ⟨halone, hworks, ?_⟩, ha, ?_, mem_work .., ?_⟩
    · rw [mem_work, hblocks]
      exact hgrow
    · have hgt : NDIRECT < NDIRECT + 1 + k := by omega
      have hsub : NDIRECT + 1 + k - (NDIRECT + 1) = k := by omega
      rw [mem_work, hblocks, slot_of_gt hgt (d := c.setEntry k (Uint.of x)) (by rw [hb, update_self]),
        hsub, Block.entry_setEntry hk, if_pos rfl]
    · rw [← hcount, disk_work]
      congr 1
      exact free_congr fun y hy => used_update_of_ne (hbdata.ne_bblock hy)

theorem holds_bmap {bn : Nat} (hbn : bn < MAXFILE)
    (hmay : sb.free s.disk < (s.mem ip).need (s.blocks own ip) bn → may "balloc: out of blocks") :
    ((machine more).run p (bmap sb ip bn) s).Holds may fun a t => ∃ own', Grown sb p ip own own' s t ∧
      a.val = (t.mem ip).slot (t.blocks own' ip) (fileSlot bn) ∧ a.val ≠ 0 ∧
      sb.free t.disk + (s.mem ip).need (s.blocks own ip) bn = sb.free s.disk := by
  have hrefl : Grown sb p ip own own s s := ⟨h, Works.refl .., Dinode.Grows.refl hmapped⟩
  by_cases hslot : (s.mem ip).slot (s.blocks own ip) (fileSlot bn) = 0
  · rw [bmap, run_iload]
    split
    · rename_i hdir
      have hneed : (s.mem ip).need (s.blocks own ip) bn = 1 := by
        rw [Dinode.need, if_pos hslot, if_neg fun hno => hno.1 hdir]
      rw [hneed] at hmay ⊢
      rw [fileSlot_of_lt hdir, slot_of_le hdir.le] at hslot
      have hempty : (s.icache.slot ip).inode.addr bn = 0 := hslot
      rw [if_pos hempty]
      refine (holds_newAddr h hlock hop hmapped hdir.le hslot fun hfull => hmay (by omega)).mono ?_
      rintro a t ⟨own', hgrown, ha, hmem, -, -, hfree⟩
      refine ⟨own', hgrown, ?_, ha, hfree⟩
      rw [fileSlot_of_lt hdir, slot_of_le hdir.le, hmem, addr_setAddr hdir.le, if_pos rfl]
    · rename_i hdir
      have hk := lt_of_not_direct hbn hdir
      have hgt : NDIRECT < NDIRECT + 1 + (bn - NDIRECT) := by omega
      have hsub : NDIRECT + 1 + (bn - NDIRECT) - (NDIRECT + 1) = bn - NDIRECT := by omega
      have hneed : (s.mem ip).need (s.blocks own ip) bn = 1 + if (s.mem ip).addr NDIRECT = 0 then 1 else 0 := by
        rw [Dinode.need, if_pos hslot]
        simp only [hdir, not_false_eq_true, true_and]
      rw [hneed] at hmay ⊢
      rw [fileSlot_of_ge hdir] at hslot ⊢
      rw [if_pos hk]
      -- the indirect block, which may be new
      refine holds_seq (A := fun a t => ∃ own', Grown sb p ip own own' s t ∧
        (t.mem ip).addr NDIRECT = a.val ∧ a.val ≠ 0 ∧
        (t.mem ip).slot (t.blocks own' ip) (NDIRECT + 1 + (bn - NDIRECT)) = 0 ∧
        sb.free t.disk + (if (s.mem ip).addr NDIRECT = 0 then 1 else 0) = sb.free s.disk) ?_ ?_
      · unfold bmapIndirect
        by_cases hempty : (s.mem ip).addr NDIRECT = 0
        · have hempty' : (s.icache.slot ip).inode.addr NDIRECT = 0 := hempty
          rw [if_pos hempty']
          refine (holds_newAddr h hlock hop hmapped (le_refl _) hempty fun hfull => hmay (by omega)).mono ?_
          rintro a t ⟨own', hgrown, ha, hmem, -, hblocks, hfree⟩
          have haddr : (t.mem ip).addr NDIRECT = a.val := by
            rw [hmem, addr_setAddr (le_refl _), if_pos rfl]
          refine ⟨own', hgrown, haddr, ha, ?_, by rw [if_pos hempty]; exact hfree⟩
          rw [slot_of_gt hgt (d := Block.zero) (by rw [haddr, hblocks, update_self]), Block.entry_zero]
          rfl
        · have hempty' : ¬(s.icache.slot ip).inode.addr NDIRECT = 0 := hempty
          rw [if_neg hempty']
          refine ⟨own, hrefl, (val_addr ..).symm, by rw [val_addr]; exact hempty, hslot, ?_⟩
          rw [if_neg hempty, Nat.add_zero]
      · rintro a t ⟨own', hgrown, haddr, ha, hzero, hfree⟩
        obtain ⟨c, hc⟩ := hgrown.grows.mapped.indirect (by rw [haddr]; exact ha)
        rw [slot_of_gt hgt hc, hsub] at hzero
        have hentry : c.entry (bn - NDIRECT) = 0 := Fin.ext hzero
        rw [haddr] at hc
        have hdisk : t.disk a.val = c := by
          have hown := (isSome_content t.disk).1 (isSome_iff_exists.2 ⟨c, hc⟩)
          rw [FsState.blocks, content_of_own hown] at hc
          exact Option.some.inj hc
        rw [bmapEntry, run_bread (hgrown.alone.owner _), run_bdata, disk_setOwner, hdisk, if_pos hentry]
        have hlock' : (t.icache.slot ip).lock = some p := by rw [hgrown.works.lock, hlock]
        have hop' : t.op p = true := by rw [hgrown.works.op, hop]
        refine (holds_newEntry hgrown.alone hlock' hop' hgrown.grows.mapped hk haddr hc hentry
          fun hfull => hmay (by omega)).mono ?_
        rintro a' u ⟨own'', hgrown', ha', hslot', -, hfree'⟩
        exact ⟨own'', hgrown.trans hgrown', hslot', ha', by omega⟩
  · rw [run_bmap_mapped h.owner hmapped hbn hslot]
    have hval := (s.mem ip).val_slot (s.blocks own ip) (fileSlot bn)
    exact ⟨own, hrefl, hval, by rw [hval]; exact hslot, by rw [need_eq_zero hmapped hslot, Nat.add_zero]⟩

end Bmap

end FsState

end Xv6
