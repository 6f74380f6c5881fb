import Xv6.Fs.Content
import Xv6.Lib.Threads

/-! The invariant of the logical disk. Every used data block belongs to one inode; an inode on disk is
owned by the process that has locked it, or it is intact. The owners are indexed by any type. -/

namespace Xv6

open Lib Superblock Option Function

/-- An inode on disk with its blocks. -/
structure Owned where
  inum : Nat
  disk : Dinode
  blocks : BlockMap

namespace Owned

def put (r : Owned) (b : Nat) (d : Block) : Owned :=
  { r with blocks := update r.blocks b (some d) }

def erase (r : Owned) (b : Nat) : Owned := { r with blocks := update r.blocks b none }

end Owned

/-- The blocks that belong to an inode, with their contents. -/
def content (disk : Nat → Block) (own : Nat → Option Nat) (inum : Nat) : BlockMap :=
  fun b => if own b = some inum then some (disk b) else none

/-- The disk with another inode `n`. -/
@[reducible] def Superblock.setDinode (sb : Superblock) (disk : Nat → Block) (n : Nat) (v : Dinode) : Nat → Block :=
  update disk (sb.iblock n) ((disk (sb.iblock n)).putInode (n % IPB) v)

variable {d : Block}

section Content

variable {disk : Nat → Block} {own : Nat → Option Nat} {inum b : Nat}

theorem isSome_content (disk : Nat → Block) : (content disk own inum b).isSome ↔ own b = some inum := by
  unfold content
  split <;> simp [*]

theorem content_of_own (h : own b = some inum) : content disk own inum b = some (disk b) := if_pos h

theorem content_update_disk (h : own b = some inum) :
    content (update disk b d) own inum = update (content disk own inum) b (some d) := by
  funext x
  by_cases hx : x = b
  · rw [hx, content_of_own h, update_self, update_self]
  · rw [update_of_ne hx, content, content, update_of_ne hx]

theorem content_update_disk_of_ne (h : own b ≠ some inum) :
    content (update disk b d) own inum = content disk own inum := by
  funext x
  unfold content
  split
  · rename_i hx
    rw [update_of_ne]
    rintro rfl
    exact h hx
  · rfl

theorem content_give : content disk (update own b (some inum)) inum =
    update (content disk own inum) b (some (disk b)) := by
  funext x
  by_cases hx : x = b
  · rw [hx, update_self, content, update_self, if_pos rfl]
  · rw [update_of_ne hx, content, content, update_of_ne hx]

theorem content_take : content disk (update own b none) inum = update (content disk own inum) b none := by
  funext x
  by_cases hx : x = b
  · rw [hx, update_self, content, update_self, if_neg (some_ne_none _).symm]
  · rw [update_of_ne hx, content, content, update_of_ne hx]

theorem content_update_own_of_ne {o : Option Nat} (h : own b ≠ some inum) (ho : o ≠ some inum) :
    content disk (update own b o) inum = content disk own inum := by
  funext x
  by_cases hx : x = b
  · rw [hx, content, content, update_self, if_neg ho, if_neg h]
  · rw [content, content, update_of_ne hx]

end Content

/-- The invariant: `own` tells to which inode a data block belongs, `held` the inodes that are owned. -/
structure DiskInv {ι : Type} (sb : Superblock) (own : Nat → Option Nat) (disk : Nat → Block)
    (held : ι → Option Owned) : Prop where
  data : ∀ b, (own b).isSome → sb.IsData b
  used : ∀ b, b < sb.size → (sb.used disk b = true ↔ b < sb.dataStart ∨ (own b).isSome)
  alive : ∀ b inum, own b = some inum → inum < sb.ninodes ∧ (sb.dinode disk inum).type ≠ 0
  owned : ∀ i r, held i = some r → r.inum < sb.ninodes ∧ sb.dinode disk r.inum = r.disk ∧
    r.disk.type ≠ 0 ∧ r.blocks = content disk own r.inum
  excl : ∀ i j r r', held i = some r → held j = some r' → r.inum = r'.inum → i = j
  intact : ∀ inum, inum < sb.ninodes → (sb.dinode disk inum).type ≠ 0 →
    (∀ i r, held i = some r → r.inum ≠ inum) → (sb.dinode disk inum).Intact sb (content disk own inum)

/-- The other inodes and their blocks stay. -/
structure Others (sb : Superblock) (own own' : Nat → Option Nat) (disk disk' : Nat → Block) (n : Nat) : Prop where
  dinode : ∀ inum, inum < sb.ninodes → inum ≠ n → sb.dinode disk' inum = sb.dinode disk inum
  content : ∀ inum, inum ≠ n → content disk' own' inum = content disk own inum

namespace DiskInv

variable {ι : Type} [DecidableEq ι] {sb : Superblock} {own : Nat → Option Nat} {disk : Nat → Block}
  {held : ι → Option Owned} {i : ι} {r : Owned}

omit [DecidableEq ι] in
theorem own_of_isSome (h : DiskInv sb own disk held) (hi : held i = some r) {b : Nat}
    (hb : (r.blocks b).isSome) : own b = some r.inum := by
  rw [(h.owned i r hi).2.2.2] at hb
  exact (isSome_content _).1 hb

theorem forall_update (h : DiskInv sb own disk held) (hi : held i = some r) {o : Option Owned}
    {A : ι → Owned → Prop} (hself : ∀ r', o = some r' → A i r')
    (hrest : ∀ j r', held j = some r' → r'.inum ≠ r.inum → A j r') (j : ι) (r' : Owned)
    (hj : update held i o j = some r') : A j r' := by
  by_cases hij : j = i
  · rw [hij, update_self] at hj
    rw [hij]
    exact hself r' hj
  · rw [update_of_ne hij] at hj
    exact hrest j r' hj fun heq => hij (h.excl j i r' r hj hi heq)

/-- An inode that nobody owns but for the owner of another one. -/
theorem unowned (hi : held i = some r) {o : Option Owned} {inum : Nat} (hne : inum ≠ r.inum)
    (hnone : ∀ j a, update held i o j = some a → a.inum ≠ inum) : ∀ j a, held j = some a → a.inum ≠ inum := by
  intro j a hj heq
  by_cases hij : j = i
  · rw [hij, hi] at hj
    cases hj
    exact hne heq.symm
  · exact hnone j a (by rwa [update_of_ne hij]) heq

/-- The owner of an inode changes it, and blocks that belong to it or to none. -/
theorem change (h : DiskInv sb own disk held) (hi : held i = some r) {own' : Nat → Option Nat}
    {disk' : Nat → Block} {r' : Owned} (hr : r'.inum = r.inum) (hdata : ∀ b, (own' b).isSome → sb.IsData b)
    (hused : ∀ b, b < sb.size → (sb.used disk' b = true ↔ b < sb.dataStart ∨ (own' b).isSome))
    (hself : sb.dinode disk' r.inum = r'.disk) (htype : r'.disk.type ≠ 0)
    (hblocks : r'.blocks = content disk' own' r.inum) (hothers : Others sb own own' disk disk' r.inum) :
    DiskInv sb own' disk' (update held i (some r')) := by
  have hlt := (h.owned i r hi).1
  refine ⟨hdata, hused, fun b inum hb => ?_, ?_, fun j k a b hj hk heq => ?_, fun inum hinum ht hnone => ?_⟩
  · by_cases hinum : inum = r.inum
    · rw [hinum, hself]
      exact ⟨hlt, htype⟩
    · rw [← isSome_content disk', hothers.content inum hinum, isSome_content] at hb
      have halive := h.alive b inum hb
      rw [hothers.dinode inum halive.1 hinum]
      exact halive
  · refine h.forall_update hi (fun a ha => ?_) fun j a hj hne => ?_
    · cases ha
      rw [hr]
      exact ⟨hlt, hself, htype, hblocks⟩
    · obtain ⟨hlt', hdn, ht, hb⟩ := h.owned j a hj
      exact ⟨hlt', (hothers.dinode _ hlt' hne).trans hdn, ht, hb.trans (hothers.content _ hne).symm⟩
  · have hinum : ∀ j a, update held i (some r') j = some a → j = i ∧ a.inum = r.inum ∨
        held j = some a ∧ a.inum ≠ r.inum :=
      h.forall_update hi (fun a ha => Or.inl ⟨rfl, Option.some.inj ha ▸ hr⟩) fun j a hj hne => Or.inr ⟨hj, hne⟩
    rcases hinum j a hj with ⟨rfl, ha⟩ | ⟨hj', ha⟩ <;> rcases hinum k b hk with ⟨rfl, hb⟩ | ⟨hk', hb⟩
    · rfl
    · exact absurd (heq.symm.trans ha) hb
    · exact absurd (heq.trans hb) ha
    · exact h.excl j k a b hj' hk' heq
  · have hne : inum ≠ r.inum := fun heq =>
      hnone i r' (update_self ..) (hr.trans heq.symm)
    rw [hothers.dinode inum hinum hne] at ht ⊢
    rw [hothers.content inum hne]
    exact h.intact inum hinum ht (unowned hi hne hnone)

theorem map_store {sb : Superblock} (disk : Nat → Block) (hok : sb.Ok) {x : Nat} (hx : x < sb.size) :
    (∀ inum, inum < sb.ninodes → sb.dinode (update disk (sb.bblock x) d) inum = sb.dinode disk inum) ∧
    ∀ own' : Nat → Option Nat, (∀ b, (own' b).isSome → sb.IsData b) → ∀ inum,
      content (update disk (sb.bblock x) d) own' inum = content disk own' inum := by
  refine ⟨fun inum hinum => dinode_update_of_ne (hok.iblock_ne_bblock hinum x),
    fun own' hdata inum => content_update_disk_of_ne fun heq => ?_⟩
  exact (hdata _ (by rw [heq]; rfl)).ne_bblock hx rfl

omit [DecidableEq ι] in
theorem inode_store (h : DiskInv sb own disk held) (hok : sb.Ok) {n : Nat} (hn : n < sb.ninodes) (v : Dinode) :
    (∀ b, sb.used (sb.setDinode disk n v) b = sb.used disk b) ∧
    ∀ inum, content (sb.setDinode disk n v) own inum = content disk own inum := by
  refine ⟨fun b => used_update_of_ne (hok.iblock_ne_bblock hn b).symm,
    fun inum => content_update_disk_of_ne fun heq => ?_⟩
  exact hok.iblock_ne_data (h.data _ (by rw [heq]; rfl)) hn rfl

section Steps

variable (h : DiskInv sb own disk held) (hi : held i = some r) (hok : sb.Ok)
include h hi hok

/-- A store to a block of the inode. -/
theorem write {b : Nat} (hb : (r.blocks b).isSome) : Others sb own own disk (update disk b d) r.inum ∧
      DiskInv sb own (update disk b d) (update held i (some (r.put b d))) := by
  have hown := h.own_of_isSome hi hb
  have hdata : sb.IsData b := h.data b (by rw [hown]; rfl)
  obtain ⟨hlt, hdn, ht, hblocks⟩ := h.owned i r hi
  have hdinode : ∀ inum, inum < sb.ninodes → sb.dinode (update disk b d) inum = sb.dinode disk inum := fun inum hinum =>
    dinode_update_of_ne (hok.iblock_ne_data hdata hinum)
  have hothers : Others sb own own disk (update disk b d) r.inum := by
    refine ⟨fun inum hinum _ => hdinode inum hinum, fun inum hne => content_update_disk_of_ne ?_⟩
    rw [hown]
    exact fun heq => hne (Option.some.inj heq).symm
  refine ⟨hothers, h.change hi rfl h.data (fun x hx => ?_) ((hdinode _ hlt).trans hdn) ht ?_ hothers⟩
  · rw [used_update_of_ne (hdata.ne_bblock hx)]
    exact h.used x hx
  · rw [content_update_disk hown, ← hblocks]
    rfl

/-- The bit of a block is set, and the block now belongs to the inode or to none. -/
theorem assign {x : Nat} {o : Option Nat} {blocks : BlockMap} (hx : sb.IsData x)
    (hold : ∀ n, own x = some n → n = r.inum) (hnew : ∀ n, o = some n → n = r.inum)
    (hbit : ∀ b, sb.used (update disk (sb.bblock x) d) b = if b = x then o.isSome else sb.used disk b)
    (hblocks : blocks = content disk (update own x o) r.inum) :
    Others sb own (update own x o) disk (update disk (sb.bblock x) d) r.inum ∧
      DiskInv sb (update own x o) (update disk (sb.bblock x) d) (update held i (some { r with blocks := blocks })) := by
  obtain ⟨hlt, hdn, ht, -⟩ := h.owned i r hi
  have hdata : ∀ b, (update own x o b).isSome → sb.IsData b := by
    intro b hb
    by_cases hbx : b = x
    · exact hbx ▸ hx
    · rw [update_of_ne hbx] at hb
      exact h.data b hb
  obtain ⟨hdinode, hcontent⟩ := map_store disk hok hx.2 (d := d)
  have hothers : Others sb own (update own x o) disk (update disk (sb.bblock x) d) r.inum := by
    refine ⟨fun inum hinum _ => hdinode inum hinum, fun inum hne => ?_⟩
    rw [hcontent _ hdata]
    exact content_update_own_of_ne (fun heq => hne (hold inum heq)) fun heq => hne (hnew inum heq)
  refine ⟨hothers, h.change hi rfl hdata (fun b hb => ?_) ((hdinode _ hlt).trans hdn) ht
    (hblocks.trans (hcontent _ hdata _).symm) hothers⟩
  rw [hbit]
  by_cases hbx : b = x
  · rw [if_pos hbx, hbx, update_self, or_iff_right (Nat.not_lt.2 hx.1)]
  · rw [if_neg hbx, update_of_ne hbx]
    exact h.used b hb

/-- `balloc` takes a block for the inode. -/
theorem alloc {x : Nat} (hx : x < sb.size) (hfree : sb.used disk x = false) : sb.IsData x ∧ r.blocks x = none ∧
      Others sb own (update own x (some r.inum)) disk
        (update disk (sb.bblock x) ((disk (sb.bblock x)).setBit (x % BPB))) r.inum ∧
      DiskInv sb (update own x (some r.inum)) (update disk (sb.bblock x) ((disk (sb.bblock x)).setBit (x % BPB)))
        (update held i (some (r.put x (disk x)))) := by
  have hiff := h.used x hx
  rw [hfree] at hiff
  simp only [Bool.false_eq_true, false_iff, not_or, not_lt, not_isSome_iff_eq_none] at hiff
  obtain ⟨hstart, hnone⟩ := hiff
  have hblocks := (h.owned i r hi).2.2.2
  refine ⟨⟨hstart, hx⟩, ?_, h.assign hi hok ⟨hstart, hx⟩ ?_ (fun n hn => (Option.some.inj hn).symm) used_setBit ?_⟩
  · rw [hblocks, content, hnone, if_neg (some_ne_none _).symm]
  · intro n hn
    cases hnone.symm.trans hn
  · rw [content_give, ← hblocks]

/-- `bfree` gives a block of the inode back. -/
theorem release {x : Nat} (hx : (r.blocks x).isSome) : Others sb own (update own x none) disk
        (update disk (sb.bblock x) ((disk (sb.bblock x)).clearBit (x % BPB))) r.inum ∧
      DiskInv sb (update own x none) (update disk (sb.bblock x) ((disk (sb.bblock x)).clearBit (x % BPB)))
        (update held i (some (r.erase x))) := by
  have hown := h.own_of_isSome hi hx
  refine h.assign hi hok (h.data x (by rw [hown]; rfl)) (fun n hn => ?_) nofun used_clearBit ?_
  · exact Option.some.inj (hn.symm.trans hown)
  · rw [content_take, ← (h.owned i r hi).2.2.2]

omit [DecidableEq ι] in
theorem inode_others (v : Dinode) : Others sb own own disk (sb.setDinode disk r.inum v) r.inum := by
  obtain ⟨-, hcontent⟩ := h.inode_store hok (h.owned i r hi).1 v
  refine ⟨fun inum _ hne => ?_, fun inum _ => hcontent inum⟩
  rw [dinode_putInode, if_neg hne]

/-- `iupdate`. -/
theorem iupdate {v : Dinode} (hv : v.type ≠ 0) :
    DiskInv sb own (sb.setDinode disk r.inum v) (update held i (some { r with disk := v })) := by
  obtain ⟨hlt, hdn, ht, hblocks⟩ := h.owned i r hi
  obtain ⟨hused, hcontent⟩ := h.inode_store hok hlt v
  refine h.change hi rfl h.data (fun b hb => ?_) ?_ hv ?_ (h.inode_others hi hok v)
  · rw [hused]
    exact h.used b hb
  · rw [dinode_putInode, if_pos rfl]
  · rw [hcontent, ← hblocks]

/-- `iput` frees an inode that has no blocks. -/
theorem destroy {v : Dinode} (hv : v.type = 0) (hnone : ∀ b, r.blocks b = none) :
    DiskInv sb own (sb.setDinode disk r.inum v) (update held i none) := by
  obtain ⟨hlt, hdn, ht, hblocks⟩ := h.owned i r hi
  obtain ⟨hused, hcontent⟩ := h.inode_store hok hlt v
  have hrest : ∀ inum, inum ≠ r.inum → sb.dinode (sb.setDinode disk r.inum v) inum = sb.dinode disk inum := by
    intro inum hne
    rw [dinode_putInode, if_neg hne]
  have hkeep : ∀ j a, update held i none j = some a → held j = some a ∧ a.inum ≠ r.inum :=
    h.forall_update hi nofun fun j a hj hne => ⟨hj, hne⟩
  refine ⟨h.data, fun b hb => ?_, fun b inum hb => ?_, fun j a hj => ?_, fun j k a b hj hk heq => ?_,
    fun inum hinum ht' hnot => ?_⟩
  · rw [hused]
    exact h.used b hb
  · have hne : inum ≠ r.inum := by
      rintro rfl
      have hsome : (r.blocks b).isSome := by
        rw [hblocks]
        exact (isSome_content _).2 hb
      rw [hnone] at hsome
      cases hsome
    rw [hrest inum hne]
    exact h.alive b inum hb
  · obtain ⟨hj', hne⟩ := hkeep j a hj
    obtain ⟨hlt', hdn', ht', hb'⟩ := h.owned j a hj'
    exact ⟨hlt', (hrest _ hne).trans hdn', ht', hb'.trans (hcontent _).symm⟩
  · exact h.excl j k a b (hkeep j a hj).1 (hkeep k b hk).1 heq
  · have hne : inum ≠ r.inum := by
      rintro rfl
      rw [dinode_putInode, if_pos rfl] at ht'
      exact ht' hv
    rw [hrest inum hne] at ht' ⊢
    rw [hcontent]
    exact h.intact inum hinum ht' (unowned hi hne hnot)

omit hok in
/-- The owner unlocks an intact inode. -/
theorem put (hintact : r.disk.Intact sb r.blocks) : DiskInv sb own disk (update held i none) := by
  obtain ⟨hlt, hdn, ht, hblocks⟩ := h.owned i r hi
  have hkeep : ∀ j a, update held i none j = some a → held j = some a :=
    h.forall_update hi nofun fun j a hj _ => hj
  refine ⟨h.data, h.used, h.alive, fun j a hj => h.owned j a (hkeep j a hj), fun j k a b hj hk heq =>
    h.excl j k a b (hkeep j a hj) (hkeep k b hk) heq, fun inum hinum ht' hnot => ?_⟩
  by_cases hne : inum = r.inum
  · rw [hne, hdn, ← hblocks]
    exact hintact
  · exact h.intact inum hinum ht' (unowned hi hne hnot)

end Steps

/-- A process locks an inode that nobody owns. -/
theorem take (h : DiskInv sb own disk held) (hi : held i = none) {inum : Nat} (hlt : inum < sb.ninodes)
    (ht : (sb.dinode disk inum).type ≠ 0) (hfree : ∀ j r', held j = some r' → r'.inum ≠ inum) :
    (sb.dinode disk inum).Intact sb (content disk own inum) ∧ DiskInv sb own disk
      (update held i (some ⟨inum, sb.dinode disk inum, content disk own inum⟩)) := by
  have hkeep : ∀ j a, update held i (some ⟨inum, sb.dinode disk inum, content disk own inum⟩) j =
      some a → j = i ∧ a = ⟨inum, sb.dinode disk inum, content disk own inum⟩ ∨ held j = some a := by
    intro j a hj
    by_cases hij : j = i
    · rw [hij, update_self] at hj
      exact Or.inl ⟨hij, (Option.some.inj hj).symm⟩
    · rw [update_of_ne hij] at hj
      exact Or.inr hj
  refine ⟨h.intact inum hlt ht hfree, h.data, h.used, h.alive, fun j a hj => ?_, fun j k a b hj hk heq => ?_,
    fun n hn ht' hnot => h.intact n hn ht' fun j a hj => ?_⟩
  · rcases hkeep j a hj with ⟨-, rfl⟩ | hj'
    · exact ⟨hlt, rfl, ht, rfl⟩
    · exact h.owned j a hj'
  · rcases hkeep j a hj with ⟨rfl, rfl⟩ | hj' <;> rcases hkeep k b hk with ⟨rfl, rfl⟩ | hk'
    · rfl
    · exact absurd heq.symm (hfree k b hk')
    · exact absurd heq (hfree j a hj')
    · exact h.excl j k a b hj' hk' heq
  · refine hnot j a ?_
    rwa [update_of_ne]
    rintro rfl
    rw [hi] at hj
    cases hj

omit [DecidableEq ι] in
/-- `ialloc` takes an unused inode. -/
theorem create (h : DiskInv sb own disk held) (hok : sb.Ok) {n : Nat} (hn : n < sb.ninodes)
    (hfree : (sb.dinode disk n).type = 0) {v : Dinode} (hv : v.Intact sb fun _ => none) :
    DiskInv sb own (sb.setDinode disk n v) held := by
  obtain ⟨hused, hcontent⟩ := h.inode_store hok hn v
  have hrest : ∀ inum, (sb.dinode disk inum).type ≠ 0 →
      sb.dinode (sb.setDinode disk n v) inum = sb.dinode disk inum := by
    intro inum ht
    rw [dinode_putInode, if_neg]
    rintro rfl
    exact ht hfree
  refine ⟨h.data, fun b hb => ?_, fun b inum hb => ?_, fun j a hj => ?_, h.excl, fun inum hinum ht hnot => ?_⟩
  · rw [hused]
    exact h.used b hb
  · have halive := h.alive b inum hb
    rw [hrest inum halive.2]
    exact halive
  · obtain ⟨hlt', hdn, ht, hb⟩ := h.owned j a hj
    refine ⟨hlt', ?_, ht, hb.trans (hcontent _).symm⟩
    rw [hrest _ (by rwa [hdn]), hdn]
  · rw [hcontent]
    by_cases hinum' : inum = n
    · have hempty : content disk own n = fun _ => none := by
        funext b
        rw [← not_isSome_iff_eq_none, isSome_content]
        exact fun hb => (h.alive b n hb).2 hfree
      rw [hinum', dinode_putInode, if_pos rfl, hempty]
      exact hv
    · rw [dinode_putInode, if_neg hinum'] at ht ⊢
      exact h.intact inum hinum ht hnot

end DiskInv

end Xv6
