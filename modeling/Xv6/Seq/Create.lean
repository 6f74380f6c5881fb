import Xv6.Seq.Trunc

/-! `ialloc` and `create`, for a process that runs alone. The new inode and the directory are locked together; every
other inode stays as it is. -/

namespace Xv6

open Lib Machine Slots

/-- The device numbers and the links play no part. -/
theorem Dinode.Intact.congr {sb : Superblock} {v w : Dinode} {m : BlockMap} (h : v.Intact sb m) (htype : w.type = v.type)
    (hsize : w.size = v.size) (haddrs : w.addrs = v.addrs) : w.Intact sb m := by
  obtain ⟨type, major, minor, nlink, size, addrs⟩ := w
  obtain rfl : type = v.type := htype
  obtain rfl : size = v.size := hsize
  obtain rfl : addrs = v.addrs := haddrs
  exact ⟨⟨h.mapped.1, h.mapped.2⟩, h.full, h.dir⟩

theorem direntInum_dirent_le (inum : Nat) (name : List UInt8) : direntInum (dirent inum name) ≤ inum := by
  unfold direntInum dirent
  simp
  omega

theorem Superblock.entries_of_content {sb : Superblock} {disk disk' : Nat → Block} {own own' : Nat → Option Nat} {n : Nat}
    (hdinode : sb.dinode disk' n = sb.dinode disk n) (hcontent : content disk' own' n = content disk own n)
    (hintact : (sb.dinode disk n).Intact sb (content disk own n)) : sb.entries disk' n = sb.entries disk n := by
  have hmapped : (sb.dinode disk n).Mapped (content disk' own' n) := by
    rw [hcontent]
    exact hintact.mapped
  rw [entries, hdinode, entries_view hmapped hintact.size_le, hcontent, entries, entries_view hintact.mapped hintact.size_le]

namespace FsState

open Fs

variable {P X : Type} {p : P} {sb : Superblock} {own own' : Nat → Option Nat} {s t u : FsState P X} {ip dp : Fin NINODE}
  {n m : Nat} {v : Dinode}

/-! ### `ialloc` -/

/-- An inode that was not in use is stored. -/
theorem Alone.create (h : Alone sb p own s) (hm : m < sb.ninodes) (hfree : (sb.dinode s.disk m).type = 0)
    (hv : v.Intact sb fun _ => none) : Alone sb p own (s.stored sb m v) ∧
      (∀ i, content (s.stored sb m v).disk own i = content s.disk own i) ∧
      sb.free (s.stored sb m v).disk = sb.free s.disk := by
  obtain ⟨hused, hcontent⟩ := h.disk.inode_store h.ok hm v
  have hdinode : ∀ i, (sb.dinode s.disk i).type ≠ 0 → sb.dinode (s.stored sb m v).disk i = sb.dinode s.disk i := by
    intro i hi
    rw [dinode_stored, if_neg]
    rintro rfl
    exact hi hfree
  have hheld : (s.stored sb m v).held sb own = s.held sb own := by
    funext j
    rcases h.lock j with hnone | hsome
    · rw [held_of_unlocked hnone]
      exact held_of_unlocked hnone
    · have hslot : ((s.stored sb m v).icache.slot j).lock = some p := hsome
      have hblocks : (s.stored sb m v).blocks own j = s.blocks own j := hcontent _
      have hinum : (s.stored sb m v).inum j = s.inum j := rfl
      rw [held_of_lock _ _ hsome, held_of_lock _ _ hslot, hblocks, hinum, hdinode _ (h.type_ne hsome)]
  refine ⟨⟨h.ok, by rw [hheld]; exact h.disk.create h.ok hm hfree hv, h.owner, h.lock, h.ref, h.locked, fun j hj => ?_,
    fun j hl hj hvalid => ?_, h.uniq⟩, hcontent, Superblock.free_congr fun x _ => hused x⟩
  · obtain ⟨hdev, hlt, htype⟩ := h.used j hj
    have hsame : sb.dinode (s.stored sb m v).disk ((s.stored sb m v).inum j) = sb.dinode s.disk (s.inum j) := hdinode _ htype
    rw [hsame]
    exact ⟨hdev, hlt, htype⟩
  · have hsame : sb.dinode (s.stored sb m v).disk ((s.stored sb m v).inum j) = sb.dinode s.disk (s.inum j) :=
      hdinode _ (h.used j hj).2.2
    rw [hsame]
    exact h.clean j hl hj hvalid

variable [DecidableEq P] {F : Sig} {α : Type} {more : P → (f : F.Op) → X → Outcome X (F.Ret f)} {may : String → Prop}

/-- What `ialloc` stores. -/
def blank (type : Short) : Dinode := { Dinode.zero with type := type }

theorem holds_iallocFrom (howner : ∀ b, s.owner b = none) (hop : s.op p = true) (type : Short)
    (hfull : (∀ j, s.ref j ≠ 0) → may "iget: no inodes") : ∀ fuel inum : Nat, sb.ninodes - inum < fuel →
    ((∀ i, inum ≤ i → i < sb.ninodes → (sb.dinode s.disk i).type ≠ 0) → may "ialloc: no inodes") →
    ((machine more).run p (iallocFrom sb ROOTDEV type fuel inum) s).Holds may fun ip t => ∃ m c, inum ≤ m ∧
      m < sb.ninodes ∧ (sb.dinode s.disk m).type = 0 ∧ (∀ i, inum ≤ i → i < m → (sb.dinode s.disk i).type ≠ 0) ∧
      s.icache.iget p ROOTDEV m = .ok ip c ∧ t = (s.stored sb m (blank type)).setCache c := by
  intro fuel
  induction fuel with
  | zero => intro inum hfuel; omega
  | succ fuel ih =>
    intro inum hfuel hnone
    rw [iallocFrom]
    by_cases hlt : inum < sb.ninodes
    · rw [if_pos hlt, run_bread (howner _), run_bdata]
      have htype : ((s.setOwner (sb.iblock inum) (some p)).disk (sb.iblock inum)).getInode (inum % IPB) =
        sb.dinode s.disk inum := rfl
      rw [htype]
      by_cases hzero : (sb.dinode s.disk inum).type = 0
      · rw [if_pos hzero, run_modify (howner _) hop, ← bind_pure (iget ROOTDEV inum)]
        change ((machine more).run p (iget ROOTDEV inum >>= pure) (s.stored sb inum (blank type))).Holds _ _
        rcases s.icache.iget_cases p ROOTDEV inum with ⟨ip, c, hget⟩ | ⟨hget, hrefs⟩
        · rw [run_iget (s := s.stored sb inum (blank type)) hget]
          exact ⟨inum, c, Nat.le_refl _, hlt, hzero, fun i h₁ h₂ => by omega, hget, rfl⟩
        · rw [run_iget_panic (s := s.stored sb inum (blank type)) hget]
          exact hfull hrefs
      · rw [if_neg hzero, run_brelse (Function.update_self ..), setOwner_setOwner _ (howner _)]
        have hstep : ∀ {i}, inum ≤ i → i ≠ inum → inum + 1 ≤ i := fun h₁ h₂ => by omega
        have hhere : ∀ {i}, i = inum → (sb.dinode s.disk i).type ≠ 0 := fun heq => by rw [heq]; exact hzero
        refine (ih (inum + 1) (by omega) fun hall => hnone fun i h₁ h₂ => ?_).mono ?_
        · by_cases heq : i = inum
          · exact hhere heq
          · exact hall i (hstep h₁ heq) h₂
        · rintro ip t ⟨m, c, hle, hm, htype', hleast, hget, rfl⟩
          refine ⟨m, c, by omega, hm, htype', fun i h₁ h₂ => ?_, hget, rfl⟩
          by_cases heq : i = inum
          · exact hhere heq
          · exact hleast i (hstep h₁ heq) h₂
    · rw [if_neg hlt]
      exact hnone fun i h₁ h₂ => by omega

/-! ### Two inodes -/

/-- Process `p` has locked inodes `n` and `m` and nothing else. -/
structure Pair (sb : Superblock) (p : P) (own : Nat → Option Nat) (dp : Fin NINODE) (n : Nat) (ip : Fin NINODE) (m : Nat)
    (t : FsState P X) : Prop where
  alone : Alone sb p own t
  lock : (t.icache.slot dp).lock = some p
  lock' : (t.icache.slot ip).lock = some p
  other : ∀ j, j ≠ dp → j ≠ ip → (t.icache.slot j).lock = none
  inum : t.inum dp = n
  inum' : t.inum ip = m
  ne : n ≠ m
  tidy : Tidy sb own t dp
  tidy' : Tidy sb own t ip

variable {name : List UInt8}

namespace Pair

variable (h : Pair sb p own dp n ip m t)
include h
omit [DecidableEq P]

theorem symm : Pair sb p own ip m dp n t :=
  ⟨h.alone, h.lock', h.lock, fun j hj hj' => h.other j hj' hj, h.inum', h.inum, h.ne.symm, h.tidy', h.tidy⟩

theorem slot_ne : ip ≠ dp := by
  rintro rfl
  exact h.ne (h.inum.symm.trans h.inum')

/-- Work on one of them leaves the other. -/
theorem work (hworks : Works sb dp own own' t u) (halone : Alone sb p own' u) (htidy : Tidy sb own' u dp) :
    Pair sb p own' dp n ip m u ∧ u.mem ip = t.mem ip ∧ u.blocks own' ip = t.blocks own ip ∧
      sb.dinode u.disk m = sb.dinode t.disk m := by
  have hslot := hworks.slot h.slot_ne
  have hne : t.inum ip ≠ t.inum dp := by
    rw [h.inum, h.inum']
    exact h.ne.symm
  have hmem : u.mem ip = t.mem ip := by rw [FsState.mem, hslot, FsState.mem]
  have hblocks := hworks.blocks hne
  have hdinode := hworks.others.dinode _ (h.alone.inum_lt h.lock') hne
  refine ⟨⟨halone, by rw [hworks.lock]; exact h.lock, by rw [hworks.lock]; exact h.lock', fun j hj hj' => ?_,
    by rw [hworks.inum]; exact h.inum, by rw [hworks.inum]; exact h.inum', h.ne, htidy, ?_, ?_⟩, hmem, hblocks, ?_⟩
  · rw [hworks.lock]
    exact h.other j hj hj'
  · rw [hmem, hworks.inum, hdinode]
    exact h.tidy'.clean
  · rw [hmem, hblocks]
    exact h.tidy'.intact
  · rw [← h.inum']
    exact hdinode

theorem assign {v : Dinode} (hv : v.Intact sb (t.blocks own dp)) (htype : v.type ≠ 0) :
    Pair sb p own dp n ip m (t.assigned sb dp v) ∧ Works sb dp own own t (t.assigned sb dp v) ∧
      (t.assigned sb dp v).mem ip = t.mem ip ∧ (t.assigned sb dp v).blocks own ip = t.blocks own ip ∧
      (t.assigned sb dp v).mem dp = v ∧ (t.assigned sb dp v).blocks own dp = t.blocks own dp ∧
      sb.free (t.assigned sb dp v).disk = sb.free t.disk := by
  obtain ⟨halone, hworks, hmem, hdinode, hblocks, hfree⟩ := h.alone.assigned h.lock htype
  obtain ⟨hpair, hmem', hblocks', -⟩ := h.work hworks halone
    ⟨by rw [hmem, hworks.inum]; exact hdinode.symm, by rw [hmem, hblocks]; exact hv⟩
  exact ⟨hpair, hworks, hmem', hblocks', hmem, hblocks, hfree⟩

theorem lockedDir (htype : (t.mem dp).type = T_DIR) (hwhole : DIRENT ∣ (t.mem dp).size.val) : LockedDir sb p own t dp :=
  ⟨h.alone, h.lock, h.tidy.clean, h.tidy.intact.mapped, h.tidy.intact.full, htype, hwhole⟩

end Pair

/-- `dirlink` into the first one. -/
theorem Pair.holds_dirlink (h : Pair sb p own dp n ip m t) (hdir : LockedDir sb p own t dp) (hop : t.op p = true) {inum : Nat}
    (hinum : inum < sb.ninodes) (hfind : Slots.find (cstr DIRSIZ name) (t.entries sb dp) = none)
    (hmax : DIRENT * Slots.free (t.entries sb dp) + DIRENT ≤ MAXFILE * BSIZE)
    (hmay : sb.free t.disk < (t.mem dp).missing (t.blocks own dp) (direntSlots (Slots.free (t.entries sb dp))) →
      may "balloc: out of blocks") :
    ((machine more).run p (dirlink sb dp name inum) t).Holds may fun r u => r = 0 ∧ ∃ own',
      Pair sb p own' dp n ip m u ∧ u.mem ip = t.mem ip ∧ u.blocks own' ip = t.blocks own ip ∧
        Replaced sb p dp (Slots.free (t.entries sb dp)) (dirent inum name) own own' t u := by
  refine (hdir.holds_dirlink hop inum hfind hmax hmay).mono ?_
  rintro r u ⟨hr, own', hrep⟩
  have hintact := hrep.intact (Nat.lt_of_le_of_lt (direntInum_dirent_le inum name) hinum) h.tidy.intact
  obtain ⟨hpair, hmem, hblocks, -⟩ := h.work hrep.works hrep.dir.alone ⟨hrep.dir.clean, hintact⟩
  exact ⟨hr, own', hpair, hmem, hblocks, hrep⟩

/-! ### `create` -/

section Fields

variable {k : Nat} {de : List UInt8} (h : Replaced sb p dp k de own own' s t)
include h
omit [DecidableEq P]

theorem Replaced.type : (t.mem dp).type = (s.mem dp).type := by rw [← h.fields]

theorem Replaced.nlink : (t.mem dp).nlink = (s.mem dp).nlink := by rw [← h.fields]

end Fields

theorem direntSlots_of_le {k : Nat} (hk : k ≤ 1) : direntSlots k = direntSlots 0 := by
  rcases Nat.le_one_iff_eq_zero_or_eq_one.1 hk with rfl | rfl <;> rfl

theorem missing_zero_le (v : Dinode) (m : BlockMap) : v.missing m (direntSlots 0) ≤ 1 := Finset.card_filter_le _ _

theorem find_dotdot (inum : Nat) {t : Slots (List UInt8) Nat}
    (ht : ∀ j : Nat, t[j]? = if j = 0 then some (binding (dirent inum dot)) else none) :
    Slots.find (cstr DIRSIZ dotdot) t = none := by
  refine find_eq_none_iff.2 fun i v hi => ?_
  rw [ht] at hi
  split at hi
  · rw [Option.some.injEq, binding] at hi
    split at hi
    · cases hi
    · rw [direntName_dirent, cstr_strncpy, Option.some.injEq, Prod.mk.injEq] at hi
      exact absurd hi.1 (by decide)
  · cases hi

/-- The entries `.` and `..` take one block. -/
theorem Pair.holds_createDots (h : Pair sb p own dp n ip m t) (hop : t.op p = true)
    (hnew : (t.mem ip).type = T_DIR) (hsize : (t.mem ip).size = 0)
    (hmay : sb.free t.disk < 3 → may "balloc: out of blocks") :
    ((machine more).run p (createDots sb dp ip m) t).Holds may fun _ u => ∃ own', Pair sb p own' dp n ip m u ∧
      u.mem dp = { t.mem dp with nlink := (t.mem dp).nlink + 1 } ∧ u.blocks own' dp = t.blocks own dp ∧
      (u.mem ip).type = (t.mem ip).type ∧
      (u.mem ip).nlink = (t.mem ip).nlink ∧ u.op = t.op ∧ u.ext = t.ext ∧ sb.free t.disk ≤ sb.free u.disk + 1 := by
  obtain ⟨h₁, hworks, hmem, -, hmem', hblocks, hfree⟩ := h.assign (v := { t.mem dp with nlink := (t.mem dp).nlink + 1 })
    (h.tidy.intact.congr rfl rfl rfl) (by rw [h.tidy.clean]; exact h.alone.type_ne h.lock)
  have hinum : (t.icache.slot dp).inode.inum = n := h.inum
  unfold createDots
  rw [run_iload, run_assign h.alone.owner hop, hinum]
  change ((machine more).run p _ (t.assigned sb dp { t.mem dp with nlink := (t.mem dp).nlink + 1 })).Holds _ _
  generalize t.assigned sb dp { t.mem dp with nlink := (t.mem dp).nlink + 1 } = t₁ at h₁ hmem hmem' hblocks hfree hworks ⊢
  have hdir₁ : LockedDir sb p own t₁ ip := h₁.symm.lockedDir (by rw [hmem]; exact hnew) (by rw [hmem, hsize]; exact dvd_zero _)
  have hempty : t₁.entries sb ip = [] := by
    rw [hdir₁.entries_eq, Dinode.entries, hmem, hsize]
    rfl
  have hop₁ : t₁.op p = true := by
    rw [hworks.op]
    exact hop
  have hlt : m < sb.ninodes := by
    rw [← h₁.inum']
    exact h₁.alone.inum_lt h₁.lock'
  have hlt' : n < sb.ninodes := by
    rw [← h₁.inum]
    exact h₁.alone.inum_lt h₁.lock
  have hfind : Slots.find (cstr DIRSIZ dot) (t₁.entries sb ip) = none := by
    rw [hempty]
    rfl
  have hzero : Slots.free (t₁.entries sb ip) = 0 := by
    rw [hempty]
    rfl
  have hone := missing_zero_le (t₁.mem ip) (t₁.blocks own ip)
  refine holds_seq (h₁.symm.holds_dirlink hdir₁ hop₁ hlt hfind (by rw [hzero]; decide) fun hroom => hmay ?_) ?_
  · rw [hzero] at hroom
    omega
  rintro r t₂ ⟨rfl, own₂, h₂, hmem₂, hblocks₂, hrep⟩
  rw [hzero] at hrep
  have hsize₂ : (t₂.mem ip).size.val = 16 := by
    rw [hrep.size, hmem, hsize]
    rfl
  have hlen : Slots.free (t₂.entries sb ip) ≤ 1 := by
    refine (free_le _).trans ?_
    rw [hrep.dir.entries_eq, Dinode.length_entries, hsize₂]
    decide
  have hfind₂ : Slots.find (cstr DIRSIZ dotdot) (t₂.entries sb ip) = none := by
    refine find_dotdot m fun j => ?_
    rw [hrep.entry j, hempty]
    rfl
  have hmiss : (t₂.mem ip).missing (t₂.blocks own₂ ip) (direntSlots (Slots.free (t₂.entries sb ip))) = 0 := by
    rw [direntSlots_of_le hlen]
    exact hrep.dir.missing_eq_zero (by rw [hsize₂]; decide)
  have hop₂ : t₂.op p = true := by
    rw [hrep.works.op]
    exact hop₁
  have hmax : DIRENT * Slots.free (t₂.entries sb ip) + DIRENT ≤ MAXFILE * BSIZE := by
    show 16 * _ + 16 ≤ 274432
    omega
  simp only [Int.lt_irrefl, if_false]
  refine holds_seq (h₂.holds_dirlink hrep.dir hop₂ hlt' hfind₂ hmax fun hroom => ?_) ?_
  · rw [hmiss] at hroom
    omega
  rintro r t₃ ⟨rfl, own₃, h₃, hmem₃, hblocks₃, hrep₃⟩
  have hroom := hrep.room
  have hroom₃ := hrep₃.room
  refine ⟨own₃, h₃.symm, by rw [hmem₃, hmem₂, hmem'], by rw [hblocks₃, hblocks₂, hblocks], ?_, ?_, ?_, ?_, ?_⟩
  · rw [hrep₃.type, hrep.type, hmem]
  · rw [hrep₃.nlink, hrep.nlink, hmem]
  · rw [hrep₃.works.op, hrep.works.op, hworks.op]
  · rw [hrep₃.works.ext, hrep.works.ext, hworks.ext]
  · rw [hmiss] at hroom₃
    omega

/-- A new inode, locked beside the directory. -/
structure Fresh (sb : Superblock) (p : P) (own : Nat → Option Nat) (t : FsState P X) (dp : Fin NINODE) (n : Nat) (type : Short)
    (ip : Fin NINODE) (m : Nat) (u : FsState P X) : Prop where
  pair : Pair sb p own dp n ip m u
  pos : 0 < m
  new : (sb.dinode t.disk m).type = 0
  mem : u.mem ip = blank type
  dir : u.mem dp = t.mem dp
  blocks : u.blocks own dp = t.blocks own dp
  free : sb.free u.disk = sb.free t.disk
  op : u.op = t.op
  ext : u.ext = t.ext

theorem Inside.holds_ialloc (h : Inside sb p own s dp n t) (hop : t.op p = true) {type : Short} (htype : type ≠ 0)
    (hfull : (∀ j, t.ref j ≠ 0) → may "iget: no inodes")
    (hnone : (∀ i, 0 < i → i < sb.ninodes → (sb.dinode t.disk i).type ≠ 0) → may "ialloc: no inodes") :
    ((machine more).run p (ialloc sb ROOTDEV type) t).Holds may fun ip u => ∃ m v,
      (machine more).run p (ilock sb ip) u = .ok () v ∧ Fresh sb p own t dp n type ip m v := by
  unfold ialloc
  refine (holds_iallocFrom h.alone.owner hop type hfull (sb.ninodes + 1) 1 (by omega) hnone).mono ?_
  rintro ip u ⟨m, c, hpos, hm, hzero, -, hget, rfl⟩
  obtain ⟨hstored, hcontent, hfree⟩ := h.alone.create (v := blank type) hm hzero (Dinode.intact_zero type)
  have hdinode : sb.dinode (t.stored sb m (blank type)).disk m = blank type := by rw [dinode_stored, if_pos rfl]
  have hused : (sb.dinode t.disk n).type ≠ 0 := by
    rw [← h.inum]
    exact h.alone.type_ne h.lock
  have hne : n ≠ m := by
    rintro rfl
    exact hused hzero
  have hsame : sb.dinode (t.stored sb m (blank type)).disk n = sb.dinode t.disk n := by rw [dinode_stored, if_neg hne]
  rcases hstored.iget (Kept.refl hstored) hm (by rw [hdinode]; exact htype) with
    ⟨-, hpanic⟩ | ⟨ip', c', hget', halone, hkept, hinum, hlock, hinode⟩
  · cases hget.symm.trans hpanic
  obtain ⟨rfl, rfl⟩ : ip = ip' ∧ c = c' := by
    cases hget.symm.trans hget'
    exact ⟨rfl, rfl⟩
  have hinode' := hinode dp h.ref_pos
  have hslot : dp ≠ ip := by
    rintro rfl
    refine hne ?_
    rw [← h.inum, ← hinum, FsState.inum, FsState.inum, icache_setCache, hinode']
    rfl
  have href := hkept.ref ip
  have hbase := hkept.base ip
  rw [plus_self] at href
  obtain ⟨v, hrun, hin⟩ := run_ilock more halone hkept (by rw [icache_setCache, hlock]; exact h.other ip hslot.symm) (by omega)
  have hdisk : v.disk = (t.stored sb m (blank type)).disk := by
    rw [hin.frame]
    rfl
  have hdp : (v.icache.slot dp).inode = (t.icache.slot dp).inode := by
    rw [hin.rest dp hslot]
    exact hinode'
  have hinum' : v.inum dp = n := by
    rw [FsState.inum, hdp]
    exact h.inum
  have hmem : v.mem dp = t.mem dp := by rw [FsState.mem, hdp, FsState.mem]
  have hclean : t.mem dp = sb.dinode t.disk n := by rw [h.tidy.clean, h.inum]
  have hblocks : content v.disk own n = content t.disk own n := by rw [hdisk, hcontent]
  have hintact : (sb.dinode t.disk n).Intact sb (content t.disk own n) := by
    have hintact := h.tidy.intact
    rwa [hclean, FsState.blocks, h.inum] at hintact
  refine ⟨m, v, hrun, ⟨hin.alone, ?_, hin.lock, fun j hj hj' => ?_, hinum', hin.inum.trans hinum, hne, ⟨?_, ?_⟩, hin.tidy⟩, hpos,
    hzero, ?_, hmem, ?_, ?_, ?_, ?_⟩
  · rw [hin.rest dp hslot, icache_setCache, hlock]
    exact h.lock
  · rw [hin.rest j hj', icache_setCache, hlock]
    exact h.other j hj
  · rw [hmem, hinum', hdisk, hsame, hclean]
  · rw [hmem, FsState.blocks, hinum', hblocks, hclean]
    exact hintact
  · rw [hin.tidy.clean, hin.inum, hinum, hdisk, hdinode]
  · rw [FsState.blocks, hinum', hblocks, FsState.blocks, h.inum]
  · rw [hdisk, hfree]
  · rw [hin.frame]
    rfl
  · rw [hin.frame]
    rfl

/-- No more entries fit into the directory. -/
def Full (sb : Superblock) (disk : Nat → Block) (n : Nat) : Prop :=
  MAXFILE * BSIZE < DIRENT * Slots.free (sb.entries disk n) + DIRENT

/-- The reasons for a call that makes a name not to return. -/
def Stuck (sb : Superblock) (s : FsState P X) (full : Prop) (msg : String) : Prop :=
  NoInodes s msg ∨ msg = "ialloc: no inodes" ∧ (∀ i, 0 < i → i < sb.ninodes → (sb.dinode s.disk i).type ≠ 0) ∨
    msg = "balloc: out of blocks" ∧ sb.free s.disk < 3 ∨ msg = "dirlink" ∧ full

/-- `create` has made inode `m`, and gives it locked. -/
structure Made (sb : Superblock) (p : P) (own : Nat → Option Nat) (s : FsState P X) (ty : Short) (ip : Fin NINODE) (m : Nat)
    (u : FsState P X) : Prop where
  alone : Alone sb p own u
  lock : (u.icache.slot ip).lock = some p
  other : ∀ j, j ≠ ip → (u.icache.slot j).lock = none
  tidy : Tidy sb own u ip
  inum : u.inum ip = m
  type : (u.mem ip).type = ty
  nlink : (u.mem ip).nlink = 1
  new : (sb.dinode s.disk m).type = 0
  op : u.op = s.op
  ext : u.ext = s.ext

variable (more) in
theorem Pair.run_iunlockput (h : Pair sb p own dp n ip m t) (hop : t.op p = true) :
    ∃ own' u, (machine more).run p (iunlockput sb dp) t = .ok () u ∧ Alone sb p own' u ∧
      (u.icache.slot ip).lock = some p ∧ (∀ j, j ≠ ip → (u.icache.slot j).lock = none) ∧ Tidy sb own' u ip ∧
      u.inum ip = m ∧ u.mem ip = t.mem ip ∧ u.op = t.op ∧ u.ext = t.ext := by
  obtain ⟨own', u, hrun, hu, -⟩ := run_iunlockput_any more h.alone hop h.lock h.tidy
  have hslot := hu.rest ip h.slot_ne
  have hne : t.inum ip ≠ t.inum dp := by
    rw [h.inum, h.inum']
    exact h.ne.symm
  have hinum : u.inum ip = t.inum ip := by rw [FsState.inum, hslot, FsState.inum]
  have hmem : u.mem ip = t.mem ip := by rw [FsState.mem, hslot, FsState.mem]
  refine ⟨own', u, hrun, hu.alone, by rw [hslot]; exact h.lock', fun j hj => ?_, ⟨?_, ?_⟩, hinum.trans h.inum', hmem, hu.op,
    hu.ext⟩
  · by_cases hjd : j = dp
    · rw [hjd]
      exact hu.lock
    · rw [hu.rest j hjd]
      exact h.other j hjd hj
  · rw [hmem, hinum, hu.others.dinode _ (h.alone.inum_lt h.lock') hne]
    exact h.tidy'.clean
  · rw [hmem, FsState.blocks, hinum, hu.others.content _ hne]
    exact h.tidy'.intact

/-- Inode `m` has been made; it has no name yet. -/
structure Prepared (sb : Superblock) (p : P) (own : Nat → Option Nat) (s : FsState P X) (dp : Fin NINODE) (n : Nat) (ty : Short)
    (ip : Fin NINODE) (m : Nat) (w : FsState P X) : Prop where
  pair : Pair sb p own dp n ip m w
  dir : LockedDir sb p own w dp
  entries : w.entries sb dp = sb.entries s.disk n
  type : (w.mem ip).type = ty
  nlink : (w.mem ip).nlink = 1
  new : (sb.dinode s.disk m).type = 0
  op : w.op = s.op
  ext : w.ext = s.ext
  room : sb.free w.disk < 2 → sb.free s.disk < 3

theorem Prepared.holds_enter {ty : Short} (h : Prepared sb p own s dp n ty ip m t) (hop : s.op p = true)
    (hfind : Slots.find (cstr DIRSIZ name) (sb.entries s.disk n) = none) :
    ((machine more).run p (createEnter sb dp name ip m) t).Holds (Stuck sb s (Full sb s.disk n)) fun r u =>
      ¬Full sb s.disk n ∧ ∃ own' ip m, r = some ip ∧ Made sb p own' s ty ip m u := by
  have hop' : t.op p = true := by
    rw [h.op]
    exact hop
  rw [← h.entries] at hfind
  unfold createEnter
  by_cases hfull : Full sb s.disk n
  · have hmax : ¬DIRENT * Slots.free (t.entries sb dp) + DIRENT ≤ MAXFILE * BSIZE := by
      rw [h.entries]
      exact Nat.not_le_of_lt hfull
    rw [run_bind, h.dir.run_dirlink_full more m hfind hmax]
    exact Or.inr (Or.inr (Or.inr ⟨rfl, hfull⟩))
  · have hmax : DIRENT * Slots.free (t.entries sb dp) + DIRENT ≤ MAXFILE * BSIZE := by
      rw [h.entries]
      exact Nat.le_of_not_lt hfull
    have hlt : m < sb.ninodes := by
      rw [← h.pair.inum']
      exact h.pair.alone.inum_lt h.pair.lock'
    have hmiss := missing_direntSlots_le (t.mem dp) (t.blocks own dp) (Slots.free (t.entries sb dp))
    refine holds_seq (h.pair.holds_dirlink h.dir hop' hlt hfind hmax fun hroom => ?_) ?_
    · exact Or.inr (Or.inr (Or.inl ⟨rfl, h.room (by omega)⟩))
    rintro r w ⟨rfl, own', hpair, hmem, -, hrep⟩
    obtain ⟨own'', u, hrun, halone, hlock, hother, htidy, hinum, hmem', hop'', hext⟩ :=
      hpair.run_iunlockput more (by rw [hrep.works.op]; exact hop')
    simp only [Int.lt_irrefl, if_false]
    rw [run_bind_ok hrun]
    exact ⟨hfull, own'', ip, m, rfl, halone, hlock, hother, htidy, hinum, by rw [hmem', hmem, h.type],
      by rw [hmem', hmem, h.nlink], h.new, by rw [hop'', hrep.works.op, h.op], by rw [hext, hrep.works.ext, h.ext]⟩

omit [DecidableEq P] in
/-- The directory is as it was, but for the count of its links. -/
theorem Pair.prepared {own' : Nat → Option Nat} {w : FsState P X} (h : Pair sb p own' dp n ip m w)
    (hdir : (sb.dinode s.disk n).type = T_DIR) (hwhole : DIRENT ∣ (sb.dinode s.disk n).size.val)
    (hintact : (sb.dinode s.disk n).Intact sb (content s.disk own n)) {l : Short}
    (hmem : w.mem dp = { sb.dinode s.disk n with nlink := l }) (hblocks : w.blocks own' dp = content s.disk own n) :
    LockedDir sb p own' w dp ∧ w.entries sb dp = sb.entries s.disk n := by
  have hlocked : LockedDir sb p own' w dp := h.lockedDir (by rw [hmem]; exact hdir) (by rw [hmem]; exact hwhole)
  refine ⟨hlocked, ?_⟩
  rw [hlocked.entries_eq, hmem, hblocks, Superblock.entries, entries_view hintact.mapped hintact.size_le]
  rfl

theorem Inside.holds_createAt (h : Inside sb p own s dp n t) (htree : Tree sb s) (hlive : Live sb s n)
    (hdir : (sb.dinode s.disk n).type = T_DIR) (hop : s.op p = true)
    (hfind : Slots.find (cstr DIRSIZ name) (sb.entries s.disk n) = none) {ty : Short} (hty : ty ≠ 0) (major minor : Short) :
    ((machine more).run p (createAt sb dp name ty major minor) t).Holds (Stuck sb s (Full sb s.disk n)) fun r u =>
      ¬Full sb s.disk n ∧ ∃ own' ip m, r = some ip ∧ Made sb p own' s ty ip m u := by
  have hdisk := h.kept.disk
  have hop' : t.op p = true := by
    rw [h.kept.op]
    exact hop
  have hwhole := htree.whole n hlive.lt hdir
  have hblocks : t.blocks own dp = content s.disk own n := by rw [FsState.blocks, h.inum, hdisk]
  have hintact : (sb.dinode s.disk n).Intact sb (content s.disk own n) := by
    rw [← h.mem_eq, ← hblocks]
    exact h.tidy.intact
  unfold createAt
  rw [run_iload, (h.lockedDir htree hlive.lt hdir).dev]
  refine holds_seq (h.holds_ialloc hop' hty (fun hfull => Or.inl ⟨rfl, h.kept.crowded hfull⟩) fun hnone =>
    Or.inr (Or.inl ⟨rfl, by rw [← hdisk]; exact hnone⟩)) ?_
  rintro ip u ⟨m, v, hrun, hfresh⟩
  have hpair := hfresh.pair
  have hopv : v.op p = true := by
    rw [hfresh.op]
    exact hop'
  obtain ⟨h₁, hworks, hmem, hkeep, hmem', -, hfree⟩ := hpair.symm.assign
    (v := { blank ty with major := major, minor := minor, nlink := 1 })
    (hpair.tidy'.intact.congr (by rw [hfresh.mem]) (by rw [hfresh.mem]) (by rw [hfresh.mem])) hty
  have hload : { (v.icache.slot ip).inode.toDinode with major := major, minor := minor, nlink := 1 } =
      { blank ty with major := major, minor := minor, nlink := 1 } := by
    have hslot : (v.icache.slot ip).inode.toDinode = blank ty := hfresh.mem
    rw [hslot]
  have hinum : (v.icache.slot ip).inode.inum = m := hpair.inum'
  rw [run_bind_ok hrun, run_iload, hload, run_assign hpair.alone.owner hopv, hinum]
  generalize v.assigned sb ip { blank ty with major := major, minor := minor, nlink := 1 } = w at *
  have hnew : (sb.dinode s.disk m).type = 0 := by
    rw [← hdisk]
    exact hfresh.new
  have hopw : w.op = s.op := by rw [hworks.op, hfresh.op, h.kept.op]
  have hextw : w.ext = s.ext := by rw [hworks.ext, hfresh.ext, h.kept.ext]
  have hmemw : w.mem dp = sb.dinode s.disk n := by rw [hmem, hfresh.dir, h.mem_eq]
  have hblocksw : w.blocks own dp = content s.disk own n := by rw [hkeep, hfresh.blocks, hblocks]
  have hfreew : sb.free w.disk = sb.free s.disk := by rw [hfree, hfresh.free, hdisk]
  have hdots : ((machine more).run p (if ty = T_DIR then createDots sb dp ip m else pure () : FsM Nat F Unit) w).Holds
      (Stuck sb s (Full sb s.disk n)) fun _ x => ∃ own', Prepared sb p own' s dp n ty ip m x := by
    split
    · rename_i hisdir
      refine (h₁.symm.holds_createDots (by rw [hopw]; exact hop) (by rw [hmem']; exact hisdir) (by rw [hmem']; rfl)
        fun hroom => Or.inr (Or.inr (Or.inl ⟨rfl, by rw [← hfreew]; exact hroom⟩))).mono ?_
      rintro _ x ⟨own', hx, hmemx, hblocksx, htypex, hlinkx, hopx, hextx, hroomx⟩
      obtain ⟨hdirx, hentriesx⟩ := hx.prepared hdir hwhole hintact (by rw [hmemx, hmemw]) (by rw [hblocksx, hblocksw])
      exact ⟨own', hx, hdirx, hentriesx, by rw [htypex, hmem']; rfl, by rw [hlinkx, hmem'], hnew,
        hopx.trans hopw, hextx.trans hextw, fun hroom => by omega⟩
    · obtain ⟨hdirw, hentriesw⟩ := h₁.symm.prepared hdir hwhole hintact hmemw hblocksw
      exact ⟨own, h₁.symm, hdirw, hentriesw, by rw [hmem']; rfl, by rw [hmem'], hnew, hopw, hextw,
        fun hroom => by rw [← hfreew]; omega⟩
  exact holds_seq hdots fun _ x hx => hx.elim fun own' hx => hx.holds_enter hop hfind

/-- The path gives a directory, and a name that it does not have. -/
def NewName (sb : Superblock) (s : FsState P X) (cwd : Fin NINODE) (path : List UInt8) (n : Nat) (name : List UInt8) : Prop :=
  sb.walkParent s.disk (s.start cwd path) (components path) = some (n, name) ∧ sb.lookup s.disk n name = none

/-- The new name does not fit into the directory. -/
def Overfull (sb : Superblock) (s : FsState P X) (cwd : Fin NINODE) (path : List UInt8) : Prop :=
  ∃ n name, NewName sb s cwd path n name ∧ Full sb s.disk n

/-- `create` gives an inode that was there, a new one, or nothing. -/
def Creates (sb : Superblock) (p : P) (own : Nat → Option Nat) (s : FsState P X) (cwd : Fin NINODE) (path : List UInt8)
    (ty : Short) : Option (Fin NINODE) → FsState P X → Prop
  | none, t => (∀ n name, ¬NewName sb s cwd path n name) ∧ Rests sb p own s (fun _ => 0) t
  | some ip, t => (∀ n name, ¬NewName sb s cwd path n name) ∧ ty = T_FILE ∧ (∃ m, Inside sb p own s ip m t ∧ Live sb s m) ∨
      ∃ n name own' m, NewName sb s cwd path n name ∧ ¬Full sb s.disk n ∧ Made sb p own' s ty ip m t

theorem type_of_walkParent {disk : Nat → Block} {i n : Nat} {names : List (List UInt8)}
    (h : sb.walkParent disk i names = some (n, name)) : (sb.dinode disk n).type = T_DIR := by
  unfold Superblock.walkParent at h
  split at h
  · cases h
  · obtain ⟨m, -, hm⟩ := Option.bind_eq_some_iff.1 h
    split at hm
    · rename_i htype
      cases hm
      exact htype
    · cases hm

theorem Rests.holds_createIn (h : Rests sb p own s (one dp) t) (htree : Tree sb s) (hlive : Live sb s (t.inum dp))
    (hop : s.op p = true) {cwd : Fin NINODE} {path name : List UInt8}
    (hwalk : sb.walkParent s.disk (s.start cwd path) (components path) = some (t.inum dp, name)) {ty : Short} (hty : ty ≠ 0)
    (major minor : Short) : ((machine more).run p (createIn sb dp name ty major minor) t).Holds
      (Stuck sb s (Overfull sb s cwd path)) (Creates sb p own s cwd path ty) := by
  have hdir := type_of_walkParent hwalk
  have hname : ∀ {n' name'}, NewName sb s cwd path n' name' → n' = t.inum dp ∧ name' = name := by
    intro n' name' hnew
    have heq := hnew.1.symm.trans hwalk
    cases heq
    exact ⟨rfl, rfl⟩
  obtain ⟨u, hrun, hin⟩ := h.run_ilock more
  unfold createIn
  rw [run_bind_ok hrun]
  cases hfind : Slots.find (cstr DIRSIZ name) (sb.entries s.disk (t.inum dp)) with
  | none =>
    have hlookup := (hin.lockedDir htree hlive.lt hdir).run_dirlookup more name
    have hnew : NewName sb s cwd path (t.inum dp) name := ⟨hwalk, by rw [Superblock.lookup, hfind]; rfl⟩
    rw [hin.entries_eq, hfind, answer] at hlookup
    rw [run_bind_ok hlookup]
    refine ((hin.holds_createAt htree hlive hdir hop hfind hty major minor).mono ?_).mono_may ?_
    · rintro r v ⟨hfull, own', ip, m, rfl, hmade⟩
      exact Or.inr ⟨_, name, own', m, hnew, hfull, hmade⟩
    · rintro msg (hmsg | hmsg | hmsg | ⟨hmsg, hfull⟩)
      · exact Or.inl hmsg
      · exact Or.inr (Or.inl hmsg)
      · exact Or.inr (Or.inr (Or.inl hmsg))
      · exact Or.inr (Or.inr (Or.inr ⟨hmsg, _, name, hnew, hfull⟩))
  | some b =>
    obtain ⟨k, m⟩ := b
    have hold : ∀ n name, ¬NewName sb s cwd path n name := by
      intro n' name' hnew
      obtain ⟨rfl, rfl⟩ := hname hnew
      have hnone := hnew.2
      rw [Superblock.lookup, hfind] at hnone
      cases hnone
    rcases hin.run_step more htree hlive hdir hfind with ⟨hcrowded, hpanic⟩ | ⟨next, w, x, hok, hput, hnext, hinum⟩
    · rw [run_bind, hpanic]
      exact Or.inl ⟨rfl, hcrowded⟩
    · have hm := htree.entry _ hlive.lt hdir k _ (Slots.getElem?_of_find hfind)
      obtain ⟨y, hlock, hin'⟩ := hnext.run_ilock more
      rw [hinum] at hin'
      rw [run_bind_ok hok]
      simp only []
      rw [run_bind_ok hput, run_bind_ok hlock, run_iload]
      split
      · rename_i hfile
        exact Or.inl ⟨hold, hfile.1, m, hin', hm⟩
      · obtain ⟨z, hput', hrests⟩ := hin'.run_iunlockput more hm
        rw [run_bind_ok hput']
        exact ⟨hold, hrests⟩

theorem holds_create (h : Wf sb own s) (htree : Tree sb s) {cwd : Fin NINODE} (hcwd : 0 < s.ref cwd) (hop : s.op p = true)
    (path : List UInt8) {ty : Short} (hty : ty ≠ 0) (major minor : Short) :
    ((machine more).run p (create sb cwd path ty major minor) s).Holds (Stuck sb s (Overfull sb s cwd path))
      (Creates sb p own s cwd path ty) := by
  unfold create
  refine holds_seq ((holds_nameiparent h htree hcwd path).mono_may fun _ => Or.inl) ?_
  intro r t hr
  cases r with
  | none =>
    refine ⟨fun n name hnew => ?_, hr.2⟩
    cases hnew.1.symm.trans hr.1
  | some r =>
    obtain ⟨hwalk, hrests, hlive⟩ := hr
    exact hrests.holds_createIn htree hlive hop hwalk hty major minor

end FsState

end Xv6
