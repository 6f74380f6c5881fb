import Xv6.Lib.Slots
import Xv6.Seq.View

/-! Directories as finite maps, for a process that runs alone. The entries of a directory are a table of slots:
`dirlookup` finds a name in it, `dirlink` puts one there, and `sys_unlink` clears a slot. -/

namespace Xv6

open Lib Function Machine Dinode Finset Option

/-! ### The table of a directory -/

/-- What an entry binds: a name, as far as names are compared, to an inode. -/
def binding (de : List UInt8) : Option (List UInt8 × Nat) :=
  if direntInum de = 0 then none else some (cstr DIRSIZ (direntName de), direntInum de)

theorem binding_dirent {inum : Nat} (hpos : 0 < inum) (h : inum < 65536) (name : List UInt8) :
    binding (dirent inum name) = some (cstr DIRSIZ name, inum) := by
  rw [binding, direntInum_dirent h, if_neg (by omega), direntName_dirent, cstr_strncpy]

theorem binding_zero : binding (List.replicate DIRENT 0) = none := rfl

namespace Dinode

variable {v v' : Dinode} {m m' : BlockMap}

def entries (v : Dinode) (m : BlockMap) : Slots (List UInt8) Nat :=
  (List.range (v.size.val / DIRENT)).map fun k => binding (v.dirent m k)

@[simp] theorem length_entries : (v.entries m).length = v.size.val / DIRENT := by simp [entries]

theorem getElem?_entries (k : Nat) :
    (v.entries m)[k]? = if k < v.size.val / DIRENT then some (binding (v.dirent m k)) else none := by
  unfold entries
  rw [List.getElem?_map]
  split
  · rename_i hk
    rw [List.getElem?_range hk, map_some]
  · rename_i hk
    rw [List.getElem?_eq_none (by rw [List.length_range]; omega), map_none]

theorem drop_entries {k : Nat} (hk : k < v.size.val / DIRENT) :
    (v.entries m).drop k = binding (v.dirent m k) :: (v.entries m).drop (k + 1) := by
  have hlt : k < (v.entries m).length := by rw [length_entries]; exact hk
  rw [List.drop_eq_getElem_cons hlt]
  simp [entries]

theorem entries_congr (hsize : v'.size = v.size)
    (h : ∀ i, i < v.size.val → v'.fileByte m' i = v.fileByte m i) : v'.entries m' = v.entries m := by
  unfold entries
  rw [hsize]
  refine List.map_congr_left fun k hk => ?_
  have hlt := List.mem_range.1 hk
  congr 1
  refine fileBytes_congr fun i _ hi' => h i ?_
  have hlt' : k < v.size.val / 16 := hlt
  have hi : i < 16 * k + 16 := hi'
  omega

theorem direntInum_eq_getLE {bn k : Nat} {d : Block} (hd : v.data m bn = some d) (hk : k < BSIZE / DIRENT) :
    direntInum (v.dirent m (BSIZE / DIRENT * bn + k)) = d.getLE (DIRENT * k) 2 := by
  have hk' : k < 64 := hk
  have hbyte : ∀ j, j < 2 → (v.dirent m (BSIZE / DIRENT * bn + k)).getD j 0 = d.get (DIRENT * k + j) := by
    intro j hj
    have hoff : DIRENT * (BSIZE / DIRENT * bn + k) + j = BSIZE * bn + (DIRENT * k + j) := by
      show 16 * (64 * bn + k) + j = 1024 * bn + (16 * k + j)
      omega
    have hlt : DIRENT * k + j < BSIZE := by
      show 16 * k + j < 1024
      omega
    rw [dirent, getD_fileBytes (Nat.lt_trans hj (by decide)), hoff, fileByte_of_data (d := d), Nat.mul_add_mod,
      Nat.mod_eq_of_lt hlt]
    rw [Nat.mul_add_div (by decide), Nat.div_eq_of_lt hlt]
    exact hd
  rw [direntInum, hbyte 0 (by decide), hbyte 1 (by decide)]
  simp [Bytes.getLE]

end Dinode

/-- The entries of a directory on disk. -/
def Superblock.entries (sb : Superblock) (disk : Nat → Block) (n : Nat) : Slots (List UInt8) Nat :=
  (sb.dinode disk n).entries (view disk)

theorem entries_view {disk : Nat → Block} {own : Nat → Option Nat} {n : Nat} {v : Dinode}
    (h : v.Mapped (content disk own n)) (hsize : v.size.val ≤ MAXFILE * BSIZE) :
    v.entries (view disk) = v.entries (content disk own n) :=
  entries_congr rfl fun _ hi => fileByte_view h (Nat.lt_of_lt_of_le hi hsize)

namespace ICache

variable {P : Type} {c c' : ICache P} {p : P} {dev n : Nat} {ip : Fin NINODE}

/-- What `iget` does to the slot it gives. -/
theorem iget_eq_ok [DecidableEq P] (h : c.iget p dev n = .ok ip c') : ∃ x, c' = (c.set ip x).got p ip ∧ x.inode.inum = n ∧
    (0 < (c.slot ip).ref ∧ x = (c.slot ip).setRef ((c.slot ip).ref + 1) ∨
      (c.slot ip).ref = 0 ∧ x = (c.slot ip).recycle dev n) := by
  unfold iget at h
  split at h
  · rename_i ip' hlookup
    have hfound := List.find?_some hlookup
    simp only [decide_eq_true_eq] at hfound
    cases h
    exact ⟨_, rfl, hfound.2.2, Or.inl ⟨hfound.1, rfl⟩⟩
  · split at h
    · rename_i ip' hempty
      have hfound := List.find?_some hempty
      simp only [decide_eq_true_eq] at hfound
      cases h
      exact ⟨_, rfl, rfl, Or.inr ⟨hfound, rfl⟩⟩
    · cases h

theorem iget_cases [DecidableEq P] (c : ICache P) (p : P) (dev n : Nat) : (∃ ip c', c.iget p dev n = .ok ip c') ∨
    c.iget p dev n = .panic "iget: no inodes" ∧ ∀ j, (c.slot j).ref ≠ 0 := by
  unfold iget
  split
  · exact Or.inl ⟨_, _, rfl⟩
  · split
    · exact Or.inl ⟨_, _, rfl⟩
    · rename_i hempty
      refine Or.inr ⟨rfl, fun j => ?_⟩
      have hj := List.find?_eq_none.1 hempty j (List.mem_finRange j)
      simp only [decide_eq_true_eq] at hj
      exact hj

theorem slot_set_got_drop [DecidableEq P] (c : ICache P) (p : P) (ip : Fin NINODE) (x : ISlot P) :
    (((c.set ip x).got p ip).drop p ip).slot = update c.slot ip (x.setRef (x.ref - 1)) := by
  have hself : ((c.set ip x).got p ip).slot ip = x := update_self ..
  unfold drop
  rw [hself]
  show update (update c.slot ip x) ip _ = _
  rw [update_idem]

end ICache

namespace FsState

open Fs

variable {P X : Type} {p : P} {sb : Superblock} {own : Nat → Option Nat} {s t : FsState P X} {dp : Fin NINODE}

/-! ### A locked directory -/

/-- Process `p` has locked a directory, and its entries fill it. -/
structure LockedDir (sb : Superblock) (p : P) (own : Nat → Option Nat) (s : FsState P X) (dp : Fin NINODE) :
    Prop where
  alone : Alone sb p own s
  lock : (s.icache.slot dp).lock = some p
  clean : s.mem dp = sb.dinode s.disk (s.inum dp)
  mapped : (s.mem dp).Mapped (s.blocks own dp)
  full : ∀ bn, bn * BSIZE < (s.mem dp).size.val → bn < MAXFILE ∧ (s.mem dp).slot (s.blocks own dp) (fileSlot bn) ≠ 0
  type : (s.mem dp).type = T_DIR
  whole : DIRENT ∣ (s.mem dp).size.val

/-- The entries of the directory in slot `dp`, as they are on disk. -/
def entries (s : FsState P X) (sb : Superblock) (dp : Fin NINODE) : Slots (List UInt8) Nat :=
  sb.entries s.disk (s.inum dp)

/-- Nothing has changed but slots of the inode cache to which there are no references. -/
structure Idle (s t : FsState P X) : Prop where
  frame : t = s.setCache t.icache
  ref : ∀ j, t.ref j = s.ref j
  slot : ∀ j, 0 < s.ref j → t.icache.slot j = s.icache.slot j

theorem Idle.refl (s : FsState P X) : Idle s s := ⟨rfl, fun _ => rfl, fun _ _ => rfl⟩

namespace LockedDir

section Facts

variable (h : LockedDir sb p own s dp)
include h

theorem size_le : (s.mem dp).size.val ≤ MAXFILE * BSIZE := by
  by_contra hlt
  exact absurd (h.full MAXFILE (by omega)).1 (lt_irrefl _)

theorem entries_eq : s.entries sb dp = (s.mem dp).entries (s.blocks own dp) := by
  rw [FsState.entries, Superblock.entries, ← h.clean]
  exact entries_view h.mapped h.size_le

theorem lt_size_iff (k : Nat) : DIRENT * k < (s.mem dp).size.val ↔ k < (s.mem dp).size.val / DIRENT := by
  obtain ⟨c, hc⟩ := h.whole
  rw [hc, Nat.mul_div_cancel_left _ (by decide)]
  exact Nat.mul_lt_mul_left (by decide)

theorem ref_pos : 0 < s.ref dp := (h.alone.locked dp h.lock).1

theorem dev : (s.icache.slot dp).inode.dev = ROOTDEV := (h.alone.used dp h.ref_pos).1

theorem of_idle (hidle : Idle s t) (halone : Alone sb p own t) :
    LockedDir sb p own t dp ∧ t.inum dp = s.inum dp ∧ t.entries sb dp = s.entries sb dp := by
  have hslot := hidle.slot dp h.ref_pos
  have hdisk : t.disk = s.disk := by rw [hidle.frame, disk_setCache]
  have hinum : t.inum dp = s.inum dp := by rw [FsState.inum, hslot, FsState.inum]
  have hmem : t.mem dp = s.mem dp := by rw [FsState.mem, hslot, FsState.mem]
  have hblocks : t.blocks own dp = s.blocks own dp := by rw [blocks, hdisk, hinum, blocks]
  refine ⟨⟨halone, by rw [hslot]; exact h.lock, by rw [hmem, hdisk, hinum]; exact h.clean, ?_, ?_, ?_, ?_⟩, hinum, ?_⟩
  · rw [hmem, hblocks]
    exact h.mapped
  · rw [hmem, hblocks]
    exact h.full
  · rw [hmem]
    exact h.type
  · rw [hmem]
    exact h.whole
  · rw [FsState.entries, hdisk, hinum, FsState.entries]

end Facts

end LockedDir

variable {c : ICache P}

/-- A slot without references changes and stays without. -/
theorem Alone.forget (h : Alone sb p own s) {ip : Fin NINODE} {x : ISlot P} (hzero : s.ref ip = 0)
    (hslot : c.slot = update s.icache.slot ip x) (hlock : x.lock = (s.icache.slot ip).lock)
    (href : x.ref = 0) : Alone sb p own (s.setCache c) ∧ Idle s (s.setCache c) := by
  have hnone : (s.icache.slot ip).lock = none := by
    rcases h.lock ip with hnone | hsome
    · exact hnone
    · have := (h.locked ip hsome).1
      omega
  have hpos : ¬0 < x.ref := by omega
  refine ⟨h.set hslot ?_ (Or.inl (hlock.trans hnone)) (by omega) (fun hl => ?_) (fun hp => absurd hp hpos)
    (fun _ hp => absurd hp hpos) (fun hp => absurd hp hpos), rfl, fun j => ?_, fun j hj => ?_⟩
  · rw [held_setCache hslot, hlock, hnone, isSome_none, if_neg Bool.false_ne_true,
      ← (held_of_unlocked hnone : s.held sb own ip = none), update_eq_self]
    exact h.disk
  · rw [hlock, hnone] at hl
    cases hl
  · by_cases hj : j = ip
    · rw [hj, hzero, FsState.ref, slot_setCache_self hslot, href]
    · rw [FsState.ref, slot_setCache_of_ne hslot hj, FsState.ref]
  · refine slot_setCache_of_ne hslot ?_
    rintro rfl
    omega

theorem Alone.same_slots (h : Alone sb p own s) (hslot : c.slot = s.icache.slot) :
    Alone sb p own (s.setCache c) ∧ Idle s (s.setCache c) := by
  have hheld : (s.setCache c).held sb own = s.held sb own := by
    unfold held blocks FsState.inum
    rw [icache_setCache, hslot]
    rfl
  refine ⟨⟨h.ok, by rw [hheld]; exact h.disk, h.owner, ?_, ?_, ?_, ?_, ?_, ?_⟩, rfl, fun j => ?_, fun j _ => ?_⟩
  all_goals simp only [FsState.ref, FsState.inum, FsState.mem, icache_setCache, hslot]
  · exact h.lock
  · exact h.ref
  · exact h.locked
  · exact h.used
  · exact h.clean
  · exact h.uniq

variable [DecidableEq P] {F : Sig} {more : P → (f : F.Op) → X → Outcome X (F.Ret f)} {may : String → Prop}

variable (more) in
/-- `iget` and then `iput`, for any number: the slot may have been given to the inode, but nobody refers to
it. -/
theorem Alone.iget_iput (h : Alone sb p own s) {dev n : Nat} {ip : Fin NINODE}
    (hget : s.icache.iget p dev n = .ok ip c) : (c.slot ip).inode.inum = n ∧
    ∃ t, (machine more).run p (iput sb ip) (s.setCache c) = .ok () t ∧ Alone sb p own t ∧ Idle s t := by
  obtain ⟨x, rfl, hinum, hx⟩ := ICache.iget_eq_ok hget
  have hself : ((s.icache.set ip x).got p ip).slot ip = x := update_self ..
  have hslot := ICache.slot_set_got_drop s.icache p ip x
  have hrun : ¬(x.ref = 1 ∧ x.inode.valid ∧ x.inode.nlink = 0) → (machine more).run p (iput sb ip)
      (s.setCache ((s.icache.set ip x).got p ip)) = .ok () (s.setCache (((s.icache.set ip x).got p ip).drop p ip)) := by
    intro hnot
    unfold iput
    rw [run_iputLast_false (by rw [icache_setCache, hself]; exact hnot)]
    rfl
  refine ⟨by rw [hself]; exact hinum, _, hrun ?_, ?_⟩
  · rintro ⟨hone, hvalid, -⟩
    rcases hx with ⟨hpos, rfl⟩ | ⟨-, rfl⟩
    · have hone' : (s.icache.slot ip).ref + 1 = 1 := hone
      omega
    · cases hvalid
  · rcases hx with ⟨hpos, rfl⟩ | ⟨hzero, rfl⟩
    · refine h.same_slots (hslot.trans ?_)
      have hback : ((s.icache.slot ip).setRef ((s.icache.slot ip).ref + 1)).setRef
          (((s.icache.slot ip).setRef ((s.icache.slot ip).ref + 1)).ref - 1) = s.icache.slot ip := by
        unfold ISlot.setRef
        simp
      rw [hback, update_eq_self]
    · exact h.forget hzero hslot rfl rfl

/-! ### Reading -/

/-- What `dirlookup` gives for the slot where it has found the name. -/
def answer (s : FsState P X) (p : P) : Option (Nat × Nat) → Outcome (FsState P X) (Option (Fin NINODE × Nat))
  | none => .ok none s
  | some (k, n) => match s.icache.iget p ROOTDEV n with
    | .ok ip c => .ok (some (ip, DIRENT * k)) (s.setCache c)
    | .panic msg => .panic msg
    | .block => .block

theorem answer_cases (s : FsState P X) (p : P) (k n : Nat) :
    s.answer p (some (k, n)) = .panic "iget: no inodes" ∧ (∀ j, s.ref j ≠ 0) ∨
    ∃ ip c, s.icache.iget p ROOTDEV n = .ok ip c ∧
      s.answer p (some (k, n)) = .ok (some (ip, DIRENT * k)) (s.setCache c) := by
  rcases s.icache.iget_cases p ROOTDEV n with ⟨ip, c, hget⟩ | ⟨hget, hfull⟩
  · exact Or.inr ⟨ip, c, hget, by rw [answer, hget]⟩
  · exact Or.inl ⟨by rw [answer, hget], hfull⟩

namespace LockedDir

variable (more) (h : LockedDir sb p own s dp)
include h

theorem run_dirent {k : Nat} (hk : k < (s.mem dp).size.val / DIRENT) :
    (machine more).run p (readi sb dp .kernel (DIRENT * k) DIRENT) s =
      .ok ((s.mem dp).dirent (s.blocks own dp) k) s := by
  refine run_readi h.alone.owner h.mapped h.full ?_
  have hk' : k < (s.mem dp).size.val / 16 := hk
  show 16 * k + 16 ≤ (s.mem dp).size.val
  omega

/-- A loop over the entries: what one turn does to the outcome of the rest is carried from the end to the start. -/
theorem run_scan {β : Type} (loop : Nat → Nat → FsM Nat F β) {turn : Nat → Nat → List UInt8 → FsM Nat F β}
    {last : Nat → FsM Nat F β} {msg : String} (out : Nat → List (Option (List UInt8 × Nat)) → Outcome (FsState P X) β)
    (hloop : ∀ fuel off, loop (fuel + 1) off = if off < (s.mem dp).size.val then do
        let de ← readi sb dp .kernel off DIRENT
        if de.length ≠ DIRENT then Fs.panic msg else turn fuel off de
      else last off) (hlast : ∀ k, (machine more).run p (last (DIRENT * k)) s = out k [])
    (hturn : ∀ fuel k de l, (machine more).run p (loop fuel (DIRENT * k + DIRENT)) s = out (k + 1) l →
      (machine more).run p (turn fuel (DIRENT * k) de) s = out k (binding de :: l)) :
    ∀ fuel k, (s.mem dp).size.val / DIRENT - k < fuel →
      (machine more).run p (loop fuel (DIRENT * k)) s = out k (((s.mem dp).entries (s.blocks own dp)).drop k) := by
  intro fuel
  induction fuel with
  | zero => intro k hfuel; omega
  | succ fuel ih =>
    intro k hfuel
    rw [hloop]
    by_cases hk : k < (s.mem dp).size.val / DIRENT
    · have hlen : ((s.mem dp).dirent (s.blocks own dp) k).length = DIRENT := length_fileBytes
      rw [if_pos ((h.lt_size_iff k).2 hk), run_bind_ok (h.run_dirent more hk), if_neg (not_not.2 hlen), drop_entries hk]
      exact hturn fuel k _ _ (ih (k + 1) (by omega))
    · rw [if_neg fun hlt => hk ((h.lt_size_iff k).1 hlt), List.drop_eq_nil_of_le (by rw [length_entries]; omega)]
      exact hlast k

theorem run_dirlookupFrom (name : List UInt8) : ∀ (fuel k : Nat), (s.mem dp).size.val / DIRENT - k < fuel →
    (machine more).run p (dirlookupFrom sb dp (s.icache.slot dp).inode name fuel (DIRENT * k)) s =
      s.answer p (Slots.findFrom (cstr DIRSIZ name) k (((s.mem dp).entries (s.blocks own dp)).drop k)) := by
  apply h.run_scan more (dirlookupFrom sb dp _ name) (fun k l => s.answer p (Slots.findFrom (cstr DIRSIZ name) k l))
    (fun _ _ => rfl) (fun _ => rfl)
  intro fuel k de l hnext
  unfold binding
  split
  · rw [Slots.findFrom, hnext]
  · rw [Slots.findFrom]
    by_cases hname : namecmp name (direntName de) = 0
    · rw [if_pos hname, if_pos (namecmp_eq_zero.1 hname), h.dev, answer]
      rcases s.icache.iget_cases p ROOTDEV (direntInum de) with ⟨ip, c, hget⟩ | ⟨hget, -⟩
      · rw [hget]
        exact run_iget hget
      · rw [hget]
        exact run_iget_panic hget
    · rw [if_neg hname, if_neg fun heq => hname (namecmp_eq_zero.2 heq), hnext]

theorem run_dirlookup (name : List UInt8) : (machine more).run p (dirlookup sb dp name) s =
    s.answer p (Slots.find (cstr DIRSIZ name) (s.entries sb dp)) := by
  have htype : ¬(s.icache.slot dp).inode.type ≠ T_DIR := not_not.2 h.type
  unfold dirlookup
  rw [run_iload, if_neg htype, h.entries_eq]
  exact h.run_dirlookupFrom more name _ 0 (Nat.lt_succ_of_le (Nat.div_le_self ..))

theorem run_dirlinkFrom : ∀ (fuel k : Nat), (s.mem dp).size.val / DIRENT - k < fuel →
    (machine more).run p (dirlinkFrom sb dp (s.icache.slot dp).inode fuel (DIRENT * k)) s =
      .ok (DIRENT * Slots.freeFrom k (((s.mem dp).entries (s.blocks own dp)).drop k)) s := by
  apply h.run_scan more (dirlinkFrom sb dp _) (fun k l => .ok (DIRENT * Slots.freeFrom k l) s) (fun _ _ => rfl) (fun _ => rfl)
  intro fuel k de l hnext
  unfold binding
  split
  · rfl
  · exact hnext

end LockedDir

/-! ### Writing -/

/-- The slots that are needed for entry `k`. -/
def direntSlots (k : Nat) : Finset Nat :=
  insert (fileSlot (DIRENT * k / BSIZE)) (if DIRENT * k / BSIZE < NDIRECT then ∅ else {NDIRECT})

/-- Entry `k` of the directory is replaced. -/
structure Replaced (sb : Superblock) (p : P) (dp : Fin NINODE) (k : Nat) (de : List UInt8) (own own' : Nat → Option Nat)
    (s t : FsState P X) : Prop where
  dir : LockedDir sb p own' t dp
  works : Works sb dp own own' s t
  fields : { t.mem dp with addrs := (s.mem dp).addrs, size := (s.mem dp).size } = s.mem dp
  size : (t.mem dp).size.val = max (s.mem dp).size.val (DIRENT * k + DIRENT)
  entry : ∀ j, (t.entries sb dp)[j]? = if j = k then some (binding de) else (s.entries sb dp)[j]?
  intact : direntInum de < sb.ninodes → (s.mem dp).Intact sb (s.blocks own dp) → (t.mem dp).Intact sb (t.blocks own' dp)
  room : sb.free s.disk + (t.mem dp).missing (t.blocks own' dp) (direntSlots k) ≤
    sb.free t.disk + (s.mem dp).missing (s.blocks own dp) (direntSlots k)

theorem card_direntSlots (k : Nat) : (direntSlots k).card ≤ 2 := by
  unfold direntSlots
  refine (card_insert_le _ _).trans ?_
  split <;> simp

theorem missing_direntSlots_le (v : Dinode) (m : BlockMap) (k : Nat) : v.missing m (direntSlots k) ≤ 2 :=
  (card_filter_le _ _).trans (card_direntSlots k)

theorem covers_dirent {k : Nat} (hmax : DIRENT * k + DIRENT ≤ MAXFILE * BSIZE) :
    Dinode.Covers (direntSlots k) (DIRENT * k) DIRENT where
  lt j hj := by
    have hbn : DIRENT * k / BSIZE < MAXFILE := by
      have hmax' : 16 * k + 16 ≤ 274432 := hmax
      show 16 * k / 1024 < 268
      omega
    unfold direntSlots at hj
    rcases mem_insert.1 hj with rfl | hj
    · exact fileSlot_lt hbn
    · split at hj
      · exact absurd hj (notMem_empty j)
      · rw [mem_singleton.1 hj]
        decide
  slot i hi hi' := by
    rw [div_of_dirent hi hi']
    refine ⟨mem_insert_self .., fun hge => mem_insert_of_mem ?_⟩
    rw [if_neg hge]
    exact mem_singleton_self _

omit [DecidableEq P] in
theorem LockedDir.missing_eq_zero (h : LockedDir sb p own s dp) {k : Nat} (hk : k < (s.mem dp).size.val / DIRENT) :
    (s.mem dp).missing (s.blocks own dp) (direntSlots k) = 0 := by
  have hlt := (h.lt_size_iff k).2 hk
  obtain ⟨hbn, hslot⟩ := h.full (DIRENT * k / BSIZE) (Nat.lt_of_le_of_lt (Nat.div_mul_le_self ..) hlt)
  refine card_eq_zero.2 (filter_eq_empty_iff.2 fun j hj hzero => ?_)
  unfold direntSlots at hj
  rcases mem_insert.1 hj with rfl | hj
  · exact hslot hzero
  · split at hj
    · exact absurd hj (notMem_empty j)
    · rename_i hge
      rw [mem_singleton.1 hj, slot_of_le (le_refl _)] at hzero
      refine hslot (slot_of_none ?_ (by rw [hzero]; exact h.mapped.zero))
      rw [fileSlot_of_ge hge]
      omega

namespace Written

variable {k : Nat} {de : List UInt8} {own' : Nat → Option Nat} {stop : Nat} {bytes : List UInt8}
  (hw : Written sb p dp (direntSlots k) (direntSrc de) (DIRENT * k) DIRENT own own' s t stop bytes)
  (hde : de.length = DIRENT)
include hw
omit [DecidableEq P]

theorem length_entry : bytes.length = DIRENT := hw.copied.length_eq_iff.2 fun _ _ => rfl

include hde in
theorem dirent_eq {j : Nat} (hj : DIRENT * j + DIRENT ≤ MAXFILE * BSIZE) : (t.mem dp).dirent (t.blocks own' dp) j =
    if j = k then de else (s.mem dp).dirent (s.blocks own dp) j := by
  have hj' : 16 * j + 16 ≤ 274432 := hj
  have hbyte : ∀ i, i < 16 → (t.mem dp).fileByte (t.blocks own' dp) (16 * j + i) =
      if 16 * k ≤ 16 * j + i ∧ 16 * j + i < 16 * k + 16 then bytes.getD (16 * j + i - 16 * k) 0
        else (s.mem dp).fileByte (s.blocks own dp) (16 * j + i) := by
    intro i hi
    have hcontent := hw.content (16 * j + i) (by show 16 * j + i < 274432; omega)
    rw [hw.length_entry] at hcontent
    exact hcontent
  split
  · rename_i hjk
    refine List.ext_getElem (by rw [hde]; exact length_fileBytes) fun i h₁ h₂ => ?_
    have hi : i < 16 := by rw [hde] at h₂; exact h₂
    rw [← List.getD_eq_getElem _ 0 h₁, ← List.getD_eq_getElem _ 0 h₂]
    refine (getD_fileBytes hi).trans ((hbyte i hi).trans ?_)
    have hread := hw.copied.read i (by rw [hw.length_entry]; exact hi)
    rw [if_pos (by omega), hjk, Nat.add_sub_cancel_left]
    exact (Option.some.inj hread).symm
  · rename_i hjk
    refine fileBytes_congr fun i hi hi' => ?_
    have hi₁ : 16 * j ≤ i := hi
    have hi₂ : i < 16 * j + 16 := hi'
    have heq := hbyte (i - 16 * j) (by omega)
    rw [Nat.add_sub_cancel' hi₁, if_neg (by omega)] at heq
    exact heq

include hde in
theorem replaced (h : LockedDir sb p own s dp) (hk : k ≤ (s.mem dp).size.val / DIRENT)
    (hmax : DIRENT * k + DIRENT ≤ MAXFILE * BSIZE) : Replaced sb p dp k de own own' s t := by
  have hinum := hw.works.inum dp
  have htype : (t.mem dp).type = (s.mem dp).type := by rw [← hw.fields]
  have hsize : (t.mem dp).size.val = max (s.mem dp).size.val (DIRENT * k + DIRENT) := by
    rw [hw.size, hw.done hw.length_entry]
  obtain ⟨c, hc⟩ := h.whole
  have hc' : (s.mem dp).size.val = 16 * c := hc
  have hk' : k ≤ (s.mem dp).size.val / 16 := hk
  have hsize' : (t.mem dp).size.val = max (s.mem dp).size.val (16 * k + 16) := hsize
  have hmax' : 16 * k + 16 ≤ 274432 := hmax
  have hle : (s.mem dp).size.val ≤ 274432 := h.size_le
  have hdir : LockedDir sb p own' t dp := by
    refine ⟨hw.alone, by rw [hw.works.lock]; exact h.lock, by rw [hinum]; exact hw.clean, hw.mapped, hw.full,
      htype.trans h.type, max c (k + 1), ?_⟩
    show (t.mem dp).size.val = 16 * max c (k + 1)
    omega
  refine ⟨hdir, hw.works, hw.fields, hsize, fun j => ?_, fun hn hintact => ⟨hw.mapped, hw.full, fun _ bn d hbn hd => ?_⟩, ?_⟩
  · rw [hdir.entries_eq, h.entries_eq, Dinode.getElem?_entries, Dinode.getElem?_entries]
    have hlt : j < (t.mem dp).size.val / DIRENT ↔ j = k ∨ j < (s.mem dp).size.val / DIRENT := by
      show j < (t.mem dp).size.val / 16 ↔ j = k ∨ j < (s.mem dp).size.val / 16
      omega
    by_cases hj : j < (t.mem dp).size.val / DIRENT
    · have hj' : j < (t.mem dp).size.val / 16 := hj
      rw [if_pos hj, hw.dirent_eq hde (by show 16 * j + 16 ≤ 274432; omega)]
      split
      · rfl
      · rename_i hne
        rw [if_pos ((hlt.1 hj).resolve_left hne)]
    · rw [if_neg hj, if_neg fun heq => hj (hlt.2 (Or.inl heq)), if_neg fun hlt' => hj (hlt.2 (Or.inr hlt'))]
  · -- the numbers in the block, by the entries they belong to
    intro i hi
    have hbn' : bn < 268 := hbn
    have hi' : i < 64 := hi
    have hmax : DIRENT * (BSIZE / DIRENT * bn + i) + DIRENT ≤ MAXFILE * BSIZE := by
      show 16 * (64 * bn + i) + 16 ≤ 274432
      omega
    rw [← direntInum_eq_getLE hd hi, hw.dirent_eq hde hmax]
    split
    · exact hn
    · cases hold : (s.mem dp).data (s.blocks own dp) bn with
      | none =>
        rw [direntInum_of_none]
        · omega
        · have hdiv : DIRENT * (BSIZE / DIRENT * bn + i) / BSIZE = bn := by
            show 16 * (64 * bn + i) / 1024 = bn
            omega
          rw [hdiv]
          exact hold
      | some d' =>
        rw [direntInum_eq_getLE hold hi]
        exact hintact.dir h.type bn d' hbn hold i hi
  · exact hw.room

end Written

namespace LockedDir

variable (h : LockedDir sb p own s dp) (hop : s.op p = true)
include h hop

/-- `writei` of an entry. -/
theorem holds_entry {k : Nat} {de : List UInt8} (hde : de.length = DIRENT) (hk : k ≤ (s.mem dp).size.val / DIRENT)
    (hmax : DIRENT * k + DIRENT ≤ MAXFILE * BSIZE)
    (hmay : sb.free s.disk < (s.mem dp).missing (s.blocks own dp) (direntSlots k) → may "balloc: out of blocks") :
    ((machine more).run p (writei sb dp (direntSrc de) (DIRENT * k) DIRENT) s).Holds may fun r t =>
      r = (DIRENT : Int) ∧ ∃ own', Replaced sb p dp k de own own' s t := by
  have hoff : DIRENT * k ≤ (s.mem dp).size.val := by
    have hk' : k ≤ (s.mem dp).size.val / 16 := hk
    show 16 * k ≤ (s.mem dp).size.val
    omega
  have htype : (s.mem dp).type ≠ 0 := by
    rw [h.type]
    decide
  have hsrc : (direntSrc de).Ok := trivial
  refine (holds_writei (S := direntSlots k) hsrc h.alone h.lock hop htype h.mapped h.full hoff hmax (by decide)
    (covers_dirent hmax) hmay).mono ?_
  rintro r t ⟨hr, own', stop, bytes, hw⟩
  exact ⟨hr, own', hw.replaced hde h hk hmax⟩

section Link

variable {name : List UInt8} (inum : Nat)

omit hop in
variable (more) in
theorem run_dirlink_found {k n : Nat} (hfind : Slots.find (cstr DIRSIZ name) (s.entries sb dp) = some (k, n))
    {ip : Fin NINODE} (hget : s.icache.iget p ROOTDEV n = .ok ip c) :
    ∃ t, (machine more).run p (dirlink sb dp name inum) s = .ok (-1 : Int) t ∧ Alone sb p own t ∧ Idle s t := by
  obtain ⟨-, t, hrun, halone, hidle⟩ := h.alone.iget_iput more hget
  refine ⟨t, ?_, halone, hidle⟩
  have hlookup := h.run_dirlookup more name
  rw [hfind, answer, hget] at hlookup
  unfold dirlink
  rw [run_bind_ok hlookup]
  exact run_bind_ok hrun

variable (hfind : Slots.find (cstr DIRSIZ name) (s.entries sb dp) = none)
include hfind

omit hop in
variable (more) in
theorem run_dirlink_eq : (machine more).run p (dirlink sb dp name inum) s = (machine more).run p (do
      let r ← writei sb dp (direntSrc (dirent inum name)) (DIRENT * Slots.free (s.entries sb dp)) DIRENT
      if r ≠ DIRENT then Fs.panic "dirlink" else pure 0 : FsM Nat F Int) s := by
  have hlookup := h.run_dirlookup more name
  rw [hfind, answer] at hlookup
  have hfrom := h.run_dirlinkFrom more ((s.mem dp).size.val + 1) 0 (Nat.lt_succ_of_le (Nat.div_le_self ..))
  rw [List.drop_zero, ← h.entries_eq, Nat.mul_zero] at hfrom
  unfold dirlink
  rw [run_bind_ok hlookup]
  exact run_bind_ok hfrom

theorem holds_dirlink (hmax : DIRENT * Slots.free (s.entries sb dp) + DIRENT ≤ MAXFILE * BSIZE)
    (hmay : sb.free s.disk < (s.mem dp).missing (s.blocks own dp) (direntSlots (Slots.free (s.entries sb dp))) →
      may "balloc: out of blocks") :
    ((machine more).run p (dirlink sb dp name inum) s).Holds may fun r t => r = 0 ∧ ∃ own',
      Replaced sb p dp (Slots.free (s.entries sb dp)) (dirent inum name) own own' s t := by
  have hle : Slots.free (s.entries sb dp) ≤ (s.mem dp).size.val / DIRENT := by
    rw [h.entries_eq]
    refine (Slots.free_le _).trans ?_
    rw [length_entries]
  rw [h.run_dirlink_eq more inum hfind]
  refine holds_seq (h.holds_entry hop (length_dirent inum name) hle hmax hmay) ?_
  rintro r t ⟨rfl, hreplaced⟩
  rw [if_neg (not_not.2 rfl)]
  exact ⟨rfl, hreplaced⟩

omit hop in
variable (more) in
theorem run_dirlink_full (hmax : ¬DIRENT * Slots.free (s.entries sb dp) + DIRENT ≤ MAXFILE * BSIZE) :
    (machine more).run p (dirlink sb dp name inum) s = .panic "dirlink" := by
  rw [h.run_dirlink_eq more inum hfind, run_bind_ok (run_writei_refused (Or.inr (Nat.lt_of_not_le hmax)))]
  rfl

end Link

end LockedDir

end FsState

end Xv6
