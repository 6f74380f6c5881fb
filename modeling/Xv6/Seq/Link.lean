import Xv6.Seq.Create

/-! `sys_link`, for a process that runs alone. The count of links is raised first, and lowered again when the new name
cannot be made. -/

namespace Xv6

open Lib Function Machine Option

/-! ### The same tree on two disks -/

/-- The directories are the same. -/
structure SameTree (sb : Superblock) (disk disk' : Nat → Block) : Prop where
  type : ∀ i, i < sb.ninodes → (sb.dinode disk' i).type = (sb.dinode disk i).type
  entries : ∀ i, i < sb.ninodes → (sb.dinode disk i).type = T_DIR → sb.entries disk' i = sb.entries disk i
  closed : ∀ i, i < sb.ninodes → (sb.dinode disk i).type = T_DIR → ∀ (k : Nat) b,
    (sb.entries disk i)[k]? = some (some b) → b.2 < sb.ninodes

namespace SameTree

variable {sb : Superblock} {disk disk' : Nat → Block} (h : SameTree sb disk disk')
include h

theorem lookup {i : Nat} (hi : i < sb.ninodes) (hdir : (sb.dinode disk i).type = T_DIR) (name : List UInt8) :
    sb.lookup disk' i name = sb.lookup disk i name := by
  rw [Superblock.lookup, h.entries i hi hdir, Superblock.lookup]

theorem lookup_lt {i m : Nat} (hi : i < sb.ninodes) (hdir : (sb.dinode disk i).type = T_DIR) {name : List UInt8}
    (hm : sb.lookup disk i name = some m) : m < sb.ninodes := by
  obtain ⟨b, hb, rfl⟩ := map_eq_some_iff.1 hm
  exact h.closed i hi hdir b.1 _ (Slots.getElem?_of_find hb)

theorem walk : ∀ (names : List (List UInt8)) {n : Nat}, n < sb.ninodes →
    sb.walk disk' n names = sb.walk disk n names ∧ ∀ m, sb.walk disk n names = some m → m < sb.ninodes := by
  intro names
  induction names with
  | nil =>
    intro n hn
    refine ⟨rfl, fun m hm => ?_⟩
    cases hm
    exact hn
  | cons name names ih =>
    intro n hn
    unfold Superblock.walk
    rw [h.type n hn]
    by_cases hdir : (sb.dinode disk n).type = T_DIR
    · rw [if_pos hdir, if_pos hdir, h.lookup hn hdir]
      cases hnext : sb.lookup disk n name with
      | none => exact ⟨rfl, fun _ h => by cases h⟩
      | some m => exact ih (h.lookup_lt hn hdir hnext)
    · rw [if_neg hdir, if_neg hdir]
      exact ⟨rfl, fun _ h => by cases h⟩

theorem walkParent (names : List (List UInt8)) {n : Nat} (hn : n < sb.ninodes) :
    sb.walkParent disk' n names = sb.walkParent disk n names := by
  unfold Superblock.walkParent
  cases names.getLast? with
  | none => rfl
  | some name =>
    obtain ⟨hwalk, hlt⟩ := h.walk names.dropLast hn
    simp only []
    rw [hwalk]
    cases hm : sb.walk disk n names.dropLast with
    | none => rfl
    | some m =>
      rw [bind_some, bind_some, h.type m (hlt m hm)]

end SameTree

theorem Short.add_sub_one (x : Short) : x + 1 - 1 = x := by
  ext
  simp only [Fin.sub_def, Fin.add_def]
  have hx := x.isLt
  show (65536 - 1 + (x.val + 1) % 65536) % 65536 = x.val
  omega

namespace FsState

open Fs

variable {P X : Type} {p : P} {sb : Superblock} {own : Nat → Option Nat} {s t u : FsState P X} {ip dp cwd : Fin NINODE}
  {n m : Nat} {v : Dinode}

/-! ### Another count of links -/

theorem disk_stored_stored : (((s.stored sb m v).stored sb m (sb.dinode s.disk m))).disk = s.disk := by
  unfold stored
  rw [disk_setDisk, disk_setDisk, update_self, Block.putInode_putInode, Superblock.dinode, Block.putInode_getInode,
    update_idem, update_eq_self]

/-- Inode `n` has another count of links, and a reference from slot `ip`; nothing is locked. -/
structure Relinked (sb : Superblock) (own : Nat → Option Nat) (s : FsState P X) (ip : Fin NINODE) (n : Nat) (l : Short)
    (t : FsState P X) : Prop where
  wf : Wf sb own t
  tree : Tree sb t
  same : SameTree sb s.disk t.disk
  disk : t.disk = (s.stored sb n { sb.dinode s.disk n with nlink := l }).disk
  ref : ∀ j, t.ref j = s.ref j + one ip j
  inum : ∀ j, 0 < s.ref j → t.inum j = s.inum j
  self : t.inum ip = n
  op : t.op = s.op
  ext : t.ext = s.ext
  free : sb.free t.disk = sb.free s.disk

theorem Inside.relink (h : Inside sb p own s ip n t) (hwf : Wf sb own s) (htree : Tree sb s) (hn : n < sb.ninodes)
    (hdir : (sb.dinode s.disk n).type ≠ T_DIR) (l : Short) : Relinked sb own s ip n l
      ((t.assigned sb ip { sb.dinode s.disk n with nlink := l }).setCache
        ((t.assigned sb ip { sb.dinode s.disk n with nlink := l }).icache.releasesleep ip)) := by
  have hdisk := h.kept.disk
  have htype : (sb.dinode s.disk n).type ≠ 0 := by
    rw [← hdisk, ← h.inum]
    exact h.alone.type_ne h.lock
  obtain ⟨halone, hworks, hmem, hdinode, hblocks, hfree⟩ := h.alone.assigned h.lock
    (v := { sb.dinode s.disk n with nlink := l }) htype
  have hstored : (t.assigned sb ip { sb.dinode s.disk n with nlink := l }).disk =
      (s.stored sb n { sb.dinode s.disk n with nlink := l }).disk := by
    rw [disk_assigned, h.inum, stored, stored, disk_setDisk, disk_setDisk, hdisk]
  generalize t.assigned sb ip { sb.dinode s.disk n with nlink := l } = w
    at halone hworks hmem hdinode hblocks hfree hstored ⊢
  rw [h.inum] at hdinode
  have hothers := hworks.others
  rw [h.inum, hdisk] at hothers
  have htidy : Tidy sb own w ip := by
    refine ⟨by rw [hmem, hworks.inum, h.inum, hdinode], ?_⟩
    rw [hmem, hblocks]
    exact h.tidy.intact.congr (by rw [h.mem_eq]) (by rw [h.mem_eq]) (by rw [h.mem_eq])
  have hout := halone.iunlock (Kept.refl halone) (by rw [hworks.lock]; exact h.lock) htidy
  have hkept := hout.kept
  have hsame : SameTree sb s.disk w.disk := by
    refine ⟨fun i hi => ?_, fun i hi hidir => ?_, fun i hi hidir k b hb => (htree.entry i hi hidir k b hb).lt⟩
    · by_cases hin : i = n
      · rw [hin, hdinode]
      · rw [hothers.dinode i hi hin]
    · have hin : i ≠ n := by
        rintro rfl
        exact hdir hidir
      have hused : (sb.dinode s.disk i).type ≠ 0 := by
        rw [hidir]
        decide
      exact Superblock.entries_of_content (hothers.dinode i hi hin) (hothers.content i hin)
        (hwf.disk.intact i hi hused nofun)
  have href : ∀ j, (w.setCache (w.icache.releasesleep ip)).ref j = s.ref j + one ip j := by
    intro j
    rw [hkept.ref j, Nat.cast_zero, Int.add_zero, hworks.ref, h.kept.ref]
  have hinum : ∀ j, 0 < s.ref j → (w.setCache (w.icache.releasesleep ip)).inum j = s.inum j := by
    intro j hj
    have hj' := h.kept.ref_pos hj
    rw [hkept.inum j (by rw [hworks.ref]; exact hj'), hworks.inum, h.kept.inum j hj]
  have hself : (w.setCache (w.icache.releasesleep ip)).inum ip = n := by rw [hout.inum, hworks.inum, h.inum]
  have hlive : ∀ {i}, Live sb s i → Live sb (w.setCache (w.icache.releasesleep ip)) i := by
    intro i hi
    refine ⟨hi.lt, by rw [disk_setCache, hsame.type i hi.lt]; exact hi.type, ?_⟩
    by_cases hin : i = n
    · refine Or.inr ⟨ip, ?_, hself.trans hin.symm⟩
      have hbase := h.kept.base ip
      have hone := one_self ip
      rw [href]
      omega
    · rcases hi.stays with hlink | ⟨j, hj, hji⟩
      · refine Or.inl ?_
        rw [disk_setCache, hothers.dinode i hi.lt hin]
        exact hlink
      · exact Or.inr ⟨j, by rw [href]; omega, (hinum j hj).trans hji⟩
  refine ⟨hout.alone.wf fun j => ?_, ⟨hlive htree.root, fun i hi hidir => ?_, fun i hi hidir k b hb => ?_⟩, hsame, hstored, href,
    hinum, hself, hworks.op.trans h.kept.op, hworks.ext.trans h.kept.ext, hfree.trans (by rw [hdisk])⟩
  · by_cases hj : j = ip
    · rw [hj]
      exact hout.lock
    · rw [hout.rest j hj, hworks.lock]
      exact h.other j hj
  · rw [disk_setCache, hsame.type i hi] at hidir
    have hin : i ≠ n := by
      rintro rfl
      exact hdir hidir
    rw [disk_setCache, hothers.dinode i hi hin]
    exact htree.whole i hi hidir
  · rw [disk_setCache, hsame.type i hi] at hidir
    rw [disk_setCache, hsame.entries i hi hidir] at hb
    exact hlive (htree.entry i hi hidir k b hb)

theorem Inside.of_idle (h : Inside sb p own s ip n t) (halone : Alone sb p own u) (hidle : Idle t u) :
    Inside sb p own s ip n u := by
  have hslot := hidle.slot ip h.ref_pos
  have hdisk : u.disk = t.disk := by rw [hidle.frame, disk_setCache]
  refine ⟨halone, ⟨h.kept.base, ?_, fun j hj => ?_, fun j => ?_⟩, by rw [hslot]; exact h.lock, fun j hj => ?_,
    h.tidy.congr (by rw [hslot]) hdisk, by rw [FsState.inum, hslot]; exact h.inum⟩
  · rw [hidle.frame, h.kept.frame]
    rfl
  · rw [FsState.inum, hidle.slot j (h.kept.ref_pos hj)]
    exact h.kept.inum j hj
  · rw [hidle.ref]
    exact h.kept.ref j
  · rcases halone.lock j with hnone | hsome
    · exact hnone
    · have hpos := (halone.locked j hsome).1
      rw [hidle.ref] at hpos
      rw [hidle.slot j hpos]
      exact h.other j hj

theorem eq_setCache (hdisk : t.disk = s.disk) (howner : t.owner = s.owner) (hop : t.op = s.op) (hext : t.ext = s.ext) :
    t = s.setCache t.icache := by
  obtain ⟨disk, owner, op, icache, ext⟩ := t
  obtain rfl : disk = s.disk := hdisk
  obtain rfl : owner = s.owner := howner
  obtain rfl : op = s.op := hop
  obtain rfl : ext = s.ext := hext
  rfl

variable [DecidableEq P] {F : Sig} {more : P → (f : F.Op) → X → Outcome X (F.Ret f)}

variable (more) in
theorem Relinked.run_linkBad {l : Short} (h : Relinked sb own s ip n l t) (hwf : Wf sb own s) (hlive : Live sb s n)
    (hl : l = (sb.dinode s.disk n).nlink + 1) (hop : s.op p = true) (hrests : Rests sb p own t (fun _ => 0) u) :
    ∃ w, (machine more).run p (linkBad sb ip) u = .ok (-1 : Int) (w.setOp p false) ∧ Rests sb p own s (fun _ => 0) w := by
  have hbase := hwf.ref ip
  have hone := one_self ip
  have hpos : 0 < u.ref ip := by
    rw [hrests.kept.ref, h.ref]
    omega
  have hself : 0 < t.ref ip := by
    rw [h.ref]
    omega
  obtain ⟨v, hrun, hin⟩ := run_ilock more hrests.alone hrests.kept (hrests.unlocked ip) hpos
  have hinum : v.inum ip = n := by rw [hin.inum, hrests.kept.inum ip hself, h.self]
  have hdisk : v.disk = (s.stored sb n { sb.dinode s.disk n with nlink := l }).disk := by rw [hin.kept.disk, h.disk]
  have hmem : v.mem ip = { sb.dinode s.disk n with nlink := l } := by
    rw [hin.tidy.clean, hinum, hdisk, dinode_stored, if_pos rfl]
  have hback : { (v.icache.slot ip).inode.toDinode with nlink := (v.icache.slot ip).inode.nlink - 1 } = sb.dinode s.disk n := by
    have hslot : (v.icache.slot ip).inode.toDinode = { sb.dinode s.disk n with nlink := l } := hmem
    rw [hslot, hl]
    simp only [Short.add_sub_one]
  have hop' : v.op p = true := by
    rw [hin.kept.op, h.op]
    exact hop
  obtain ⟨halone, hworks, hmem', hdinode, hblocks, -⟩ := hin.alone.assigned hin.lock (v := sb.dinode s.disk n) hlive.type
  have hdisk' : (v.assigned sb ip (sb.dinode s.disk n)).disk = s.disk := by
    calc (v.assigned sb ip (sb.dinode s.disk n)).disk = (v.stored sb n (sb.dinode s.disk n)).disk := by
          rw [disk_assigned, hinum]
      _ = ((s.stored sb n { sb.dinode s.disk n with nlink := l }).stored sb n (sb.dinode s.disk n)).disk := by
          rw [stored, stored, disk_setDisk, disk_setDisk, hdisk]
      _ = s.disk := disk_stored_stored
  have hinside : Inside sb p own s ip n (v.assigned sb ip (sb.dinode s.disk n)) := by
    have hinum' : (v.assigned sb ip (sb.dinode s.disk n)).inum ip = n := (hworks.inum ip).trans hinum
    refine ⟨halone, ⟨hwf.ref, eq_setCache hdisk' ?_ ?_ ?_, fun j hj => ?_, fun j => ?_⟩, by rw [hworks.lock]; exact hin.lock,
      fun j hj => ?_, ⟨?_, ?_⟩, hinum'⟩
    · funext b
      rw [halone.owner, hwf.owner]
    · rw [hworks.op, hin.kept.op, h.op]
    · rw [hworks.ext, hin.kept.ext, h.ext]
    · have hj' : 0 < t.ref j := by
        rw [h.ref]
        omega
      rw [hworks.inum, hin.kept.inum j hj', h.inum j hj]
    · rw [hworks.ref, hin.kept.ref, h.ref, Nat.cast_zero, Int.add_zero]
    · rw [hworks.lock, hin.rest j hj]
      exact hrests.unlocked j
    · rw [hmem', hinum', hdisk']
    · rw [hmem', blocks, hinum', hdisk']
      exact hwf.disk.intact n hlive.lt hlive.type (by simp)
  obtain ⟨w, hput, hw⟩ := hinside.run_iunlockput more hlive
  refine ⟨w, ?_, hw⟩
  unfold linkBad putFail
  rw [run_bind_ok hrun, run_iload, hback, run_assign hin.alone.owner hop', run_bind_ok hput]
  rfl

/-- The inode cache has at most two slots that are free. -/
def Cramped (s : FsState P X) : Prop := ∃ ip, ∀ i j, i ≠ ip → j ≠ ip → s.ref i = 0 → s.ref j = 0 → i = j

omit [DecidableEq P] in
theorem Crowded.cramped (h : Crowded s) : Cramped s := ⟨0, fun i j _ _ => h i j⟩

/-- The old name is that of a file, and the new one does not fit into its directory. -/
def LinkFull (sb : Superblock) (s : FsState P X) (cwd : Fin NINODE) (old new : List UInt8) : Prop :=
  (∃ m, sb.walk s.disk (s.start cwd old) (components old) = some m ∧ (sb.dinode s.disk m).type ≠ T_DIR) ∧
    Overfull sb s cwd new

/-- The reasons for `sys_link` not to return. -/
def StuckLink (sb : Superblock) (s : FsState P X) (full : Prop) (msg : String) : Prop :=
  msg = "iget: no inodes" ∧ Cramped s ∨ msg = "balloc: out of blocks" ∧ sb.free s.disk < 3 ∨ msg = "dirlink" ∧ full

/-- `sys_link` has failed and everything is as before, or it has made the name. -/
def Links (sb : Superblock) (p : P) (own : Nat → Option Nat) (s : FsState P X) (full : Prop) (r : Int) (t : FsState P X) :
    Prop :=
  ¬full ∧ (r = -1 ∧ (∃ w, t = w.setOp p false ∧ Rests sb p own s (fun _ => 0) w) ∨ r = 0)

omit [DecidableEq P] in
theorem Wf.start_lt (h : Wf sb own s) (hcwd : 0 < s.ref cwd) (path : List UInt8) : s.start cwd path < sb.ninodes := by
  unfold start
  split
  · exact h.ok.root
  · exact (h.used cwd hcwd).2.1

section Tail

variable {l : Short} (h : Relinked sb own s ip n l t) (hwf : Wf sb own s) (hlive : Live sb s n)
  (hl : l = (sb.dinode s.disk n).nlink + 1) (hop : s.op p = true)
include h hwf hlive hl hop

theorem Relinked.holds_bad {full : Prop} (hfull : ¬full) {may : String → Prop} (hrests : Rests sb p own t (fun _ => 0) u) :
    ((machine more).run p (linkBad sb ip) u).Holds may (Links sb p own s full) := by
  obtain ⟨w, hrun, hw⟩ := h.run_linkBad more hwf hlive hl hop hrests
  rw [hrun]
  exact ⟨hfull, Or.inl ⟨rfl, w, rfl, hw⟩⟩

omit hlive hl in
theorem Relinked.run_done (hne : ip ≠ dp) {k : Nat} {de : List UInt8} {own' : Nat → Option Nat} {v w : FsState P X}
    (hin : Inside sb p own t dp m v) (hrep : Replaced sb p dp k de own own' v w) (hde : direntInum de < sb.ninodes) :
    ∃ x, (machine more).run p (linkDone sb dp ip) w = .ok (0 : Int) x := by
  have hop' : w.op p = true := by
    rw [hrep.works.op, hin.kept.op, h.op]
    exact hop
  obtain ⟨own₁, x, hrun, hx, -⟩ := run_iunlockput_any more hrep.dir.alone hop' hrep.dir.lock
    ⟨hrep.dir.clean, hrep.intact hde hin.tidy.intact⟩
  have hslot := hx.rest ip hne
  have hlock : (x.icache.slot ip).lock = none := by
    rw [hslot, hrep.works.lock]
    exact hin.other ip hne
  have hpos : 0 < x.ref ip := by
    have href : x.ref ip = v.ref ip := by
      rw [FsState.ref, hslot]
      exact hrep.works.ref ip
    have hbase := hwf.ref ip
    have hone := one_self ip
    rw [href, hin.kept.ref, h.ref]
    omega
  obtain ⟨own₂, y, hrun', hy, -⟩ := run_iput_any more hx.alone (by rw [hx.op]; exact hop') hlock hpos
  refine ⟨y.setOp p false, ?_⟩
  unfold linkDone
  rw [run_bind_ok hrun, run_bind_ok hrun']
  rfl

theorem Relinked.holds_linkTo (hcwd : 0 < s.ref cwd) (hdir : (sb.dinode s.disk n).type ≠ T_DIR) {i : Inode}
    (hi : i.inum = n) (hdev : i.dev = ROOTDEV) (new : List UInt8) :
    ((machine more).run p (linkTo sb cwd ip i new) t).Holds (StuckLink sb s (Overfull sb s cwd new))
      (Links sb p own s (Overfull sb s cwd new)) := by
  have hcwd' : 0 < t.ref cwd := by
    rw [h.ref]
    omega
  have hstart : t.start cwd new = s.start cwd new := by rw [start, h.inum cwd hcwd, start]
  have hcramped : Crowded t → Cramped s := by
    intro hcrowded
    refine ⟨ip, fun i j hi hj hi' hj' => hcrowded i j ?_ ?_⟩
    · rw [h.ref, hi', one, plus, update_of_ne hi]
      rfl
    · rw [h.ref, hj', one, plus, update_of_ne hj]
      rfl
  unfold linkTo
  refine holds_seq ((holds_nameiparent h.wf h.tree hcwd' new).mono_may fun _ hmsg =>
    Or.inl ⟨hmsg.1, hcramped hmsg.2⟩) ?_
  rw [hstart, h.same.walkParent _ (hwf.start_lt hcwd new)]
  intro r u hr
  cases r with
  | none =>
    refine h.holds_bad hwf hlive hl hop ?_ hr.2
    rintro ⟨m, name, hnew, -⟩
    cases hnew.1.symm.trans hr.1
  | some r =>
    obtain ⟨dp, name⟩ := r
    obtain ⟨hwalk, hrests, hlive'⟩ := hr
    have hisdir := type_of_walkParent hwalk
    have hentries := h.same.entries _ hlive'.lt hisdir
    have hisdir' : (sb.dinode t.disk (u.inum dp)).type = T_DIR := by
      rw [h.same.type _ hlive'.lt]
      exact hisdir
    obtain ⟨v, hrun, hin⟩ := hrests.run_ilock more
    have hlocked := hin.lockedDir h.tree hlive'.lt hisdir'
    simp only []
    rw [run_bind_ok hrun, run_iload, hlocked.dev, hdev, if_neg (fun hne => hne rfl), hi]
    cases hfind : Slots.find (cstr DIRSIZ name) (v.entries sb dp) with
    | some b =>
      obtain ⟨k, m⟩ := b
      have hold : ¬Overfull sb s cwd new := by
        rintro ⟨m', name', hnew, -⟩
        obtain ⟨rfl, rfl⟩ : m' = u.inum dp ∧ name' = name := by
          cases hnew.1.symm.trans hwalk
          exact ⟨rfl, rfl⟩
        have hnone := hnew.2
        rw [Superblock.lookup, ← hentries, ← hin.entries_eq, hfind] at hnone
        cases hnone
      rcases v.icache.iget_cases p ROOTDEV m with ⟨jp, c, hget⟩ | ⟨hget, hfull⟩
      · obtain ⟨w, hlink, halone, hidle⟩ := hlocked.run_dirlink_found more n hfind hget
        obtain ⟨y, hput, hrests'⟩ := (hin.of_idle halone hidle).run_iunlockput more hlive'
        rw [run_bind_ok hlink, if_pos (by decide), run_bind_ok hput]
        exact h.holds_bad hwf hlive hl hop hold hrests'
      · have hpanic : (machine more).run p (dirlink sb dp name n) v = .panic "iget: no inodes" := by
          have hlookup := hlocked.run_dirlookup more name
          rw [hfind, answer, hget] at hlookup
          unfold dirlink
          rw [run_bind, hlookup]
        rw [run_bind, hpanic]
        exact Or.inl ⟨rfl, hcramped (hin.kept.crowded hfull)⟩
    | none =>
      have hnew : NewName sb s cwd new (u.inum dp) name := by
        refine ⟨hwalk, ?_⟩
        rw [Superblock.lookup, ← hentries, ← hin.entries_eq, hfind]
        rfl
      by_cases hfull : Full sb s.disk (u.inum dp)
      · have hmax : ¬DIRENT * Slots.free (v.entries sb dp) + DIRENT ≤ MAXFILE * BSIZE := by
          rw [hin.entries_eq, hentries]
          exact Nat.not_le_of_lt hfull
        rw [run_bind, hlocked.run_dirlink_full more n hfind hmax]
        exact Or.inr (Or.inr ⟨rfl, _, name, hnew, hfull⟩)
      · have hmax : DIRENT * Slots.free (v.entries sb dp) + DIRENT ≤ MAXFILE * BSIZE := by
          rw [hin.entries_eq, hentries]
          exact Nat.le_of_not_lt hfull
        have hop' : v.op p = true := by
          rw [hin.kept.op, h.op]
          exact hop
        have hne : ip ≠ dp := by
          rintro rfl
          have hpos : 0 < t.ref ip := by
            have hbase := hwf.ref ip
            have hone := one_self ip
            rw [h.ref]
            omega
          rw [hrests.kept.inum ip hpos, h.self] at hisdir
          exact hdir hisdir
        refine holds_seq (hlocked.holds_dirlink hop' n hfind hmax fun hroom => ?_) ?_
        · have hmiss := missing_direntSlots_le (v.mem dp) (v.blocks own dp) (Slots.free (v.entries sb dp))
          rw [hin.kept.disk, h.free] at hroom
          exact Or.inr (Or.inl ⟨rfl, by omega⟩)
        · rintro r w ⟨rfl, own', hrep⟩
          obtain ⟨y, hdone⟩ := h.run_done hwf hop hne hin hrep
            (Nat.lt_of_le_of_lt (direntInum_dirent_le n name) hlive.lt)
          simp only [Int.lt_irrefl, if_false]
          rw [hdone]
          refine ⟨?_, Or.inr rfl⟩
          rintro ⟨m', name', hnew', hfull'⟩
          cases hnew'.1.symm.trans hwalk
          exact hfull hfull'

end Tail

theorem holds_link (hwf : Wf sb own s) (htree : Tree sb s) (hcwd : 0 < s.ref cwd) (hop : s.op p = true) (old new : List UInt8) :
    ((machine more).run p (linkFrom sb cwd old new) s).Holds (StuckLink sb s (LinkFull sb s cwd old new))
      (Links sb p own s (LinkFull sb s cwd old new)) := by
  unfold linkFrom
  refine holds_seq ((holds_namei hwf htree hcwd old).mono_may fun _ hmsg => Or.inl ⟨hmsg.1, hmsg.2.cramped⟩) ?_
  intro r t hr
  cases r with
  | none =>
    refine ⟨?_, Or.inl ⟨rfl, t, rfl, hr.2⟩⟩
    rintro ⟨⟨m, hm, -⟩, -⟩
    cases hm.symm.trans hr.1
  | some ip =>
    obtain ⟨hwalk, hrests, hlive⟩ := hr
    obtain ⟨v, hrun, hin⟩ := hrests.run_ilock more
    simp only []
    rw [run_bind_ok hrun, run_iload, hin.type_eq]
    by_cases hdir : (sb.dinode s.disk (t.inum ip)).type = T_DIR
    · obtain ⟨w, hput, hrests'⟩ := hin.run_iunlockput more hlive
      unfold putFail
      rw [if_pos hdir, run_bind_ok hput]
      refine ⟨?_, Or.inl ⟨rfl, w, rfl, hrests'⟩⟩
      rintro ⟨⟨m, hm, hne⟩, -⟩
      cases hm.symm.trans hwalk
      exact hne hdir
    · have hop' : v.op p = true := by
        rw [hin.kept.op]
        exact hop
      have hmem : (v.icache.slot ip).inode.toDinode = sb.dinode s.disk (t.inum ip) := hin.mem_eq
      have hslot : ∀ w, ((v.assigned sb ip w).icache.slot ip) = (v.icache.slot ip).setDinode w := slot_work_self v ip v.disk
      have hlock : ∀ w, ((v.assigned sb ip w).icache.slot ip).lock = some p := by
        intro w
        rw [hslot]
        exact hin.lock
      have hpos : ∀ w, 0 < (v.assigned sb ip w).ref ip := by
        intro w
        rw [FsState.ref, hslot]
        exact hin.ref_pos
      have hrel := hin.relink hwf htree hlive.lt hdir ((sb.dinode s.disk (t.inum ip)).nlink + 1)
      have hfull : Overfull sb s cwd new → LinkFull sb s cwd old new := fun hover => ⟨⟨_, hwalk, hdir⟩, hover⟩
      rw [if_neg hdir, run_assign hin.alone.owner hop', run_iunlock (hlock _) (hpos _), hmem]
      refine ((hrel.holds_linkTo hwf hlive rfl hop hcwd hdir hin.inum (hin.alone.used ip hin.ref_pos).1 new).mono ?_).mono_may ?_
      · rintro r w ⟨hnot, hr⟩
        exact ⟨fun hover => hnot hover.2, hr⟩
      · rintro msg (hmsg | hmsg | ⟨hmsg, hover⟩)
        · exact Or.inl hmsg
        · exact Or.inr (Or.inl hmsg)
        · exact Or.inr (Or.inr ⟨hmsg, hfull hover⟩)

end FsState

end Xv6
