import Xv6.Seq.Path

/-! Truncation of a locked inode, and the `iput` that frees an inode, for a process that runs alone: all blocks go
back to the free map. -/

namespace Xv6

open Lib Function Machine Dinode

/-- The slot of an inode that `iput` has freed. -/
def ICache.retire {P : Type} [DecidableEq P] (c : ICache P) (p : P) (ip : Fin NINODE) : ICache P :=
  ((c.set ip ((c.slot ip).setValid false)).releasesleep ip).drop p ip

theorem ICache.slot_retire {P : Type} [DecidableEq P] (c : ICache P) (p : P) (ip : Fin NINODE) :
    (c.retire p ip).slot = update c.slot ip
      ((((c.slot ip).setValid false).setLock none).setRef ((c.slot ip).ref - 1)) := by
  unfold retire drop releasesleep set setFreeing gave
  simp only [update_self, update_idem]
  rfl

namespace FsState

open Fs

variable {P X : Type} {p : P} {sb : Superblock} {own : Nat → Option Nat} {s t u : FsState P X} {ip : Fin NINODE}
  {m : Nat} {v : Dinode}

/-! ### Inodes on disk -/

def stored (s : FsState P X) (sb : Superblock) (m : Nat) (v : Dinode) : FsState P X :=
  s.setDisk (sb.iblock m) ((s.disk (sb.iblock m)).putInode (m % IPB) v)

/-- The fields of a locked inode are assigned and stored. -/
def assigned (s : FsState P X) (sb : Superblock) (ip : Fin NINODE) (v : Dinode) : FsState P X :=
  (s.work ip s.disk v).saved sb ip

theorem dinode_stored (i : Nat) : sb.dinode (s.stored sb m v).disk i = if i = m then v else sb.dinode s.disk i :=
  Superblock.dinode_putInode i

theorem disk_assigned : (s.assigned sb ip v).disk = (s.stored sb (s.inum ip) v).disk := by
  unfold assigned saved stored
  rw [inum_work, mem_work, disk_setDisk, disk_work, disk_setDisk]

/-- The fields of a locked inode are assigned and stored. -/
theorem Alone.assigned (h : Alone sb p own s) (hlock : (s.icache.slot ip).lock = some p) (hv : v.type ≠ 0) :
    Alone sb p own (s.assigned sb ip v) ∧ Works sb ip own own s (s.assigned sb ip v) ∧ (s.assigned sb ip v).mem ip = v ∧
      sb.dinode (s.assigned sb ip v).disk (s.inum ip) = v ∧ (s.assigned sb ip v).blocks own ip = s.blocks own ip ∧
      sb.free (s.assigned sb ip v).disk = sb.free s.disk := by
  obtain ⟨halone, hworks⟩ := h.work_mem hlock v
  obtain ⟨halone', hworks', hdinode, hblocks, hfree⟩ := halone.saved (by rw [lock_work]; exact hlock)
    (by rw [mem_work]; exact hv)
  rw [inum_work, mem_work] at hdinode
  refine ⟨halone', hworks.trans hworks', ?_, hdinode, hblocks.trans ?_, hfree⟩
  · exact mem_work s ip s.disk v
  · rw [FsState.blocks, inum_work]
    rfl

/-! ### Blocks -/

def freed (s : FsState P X) (sb : Superblock) (x : Nat) : FsState P X :=
  s.setDisk (sb.bblock x) ((s.disk (sb.bblock x)).clearBit (x % BPB))

theorem Alone.freed (h : Alone sb p own s) (hlock : (s.icache.slot ip).lock = some p) {x : Nat}
    (hx : (s.blocks own ip x).isSome) : x < sb.size ∧ sb.used s.disk x = true ∧
      Alone sb p (update own x none) (s.freed sb x) ∧
      Works sb ip own (update own x none) s (s.freed sb x) ∧
      (s.freed sb x).blocks (update own x none) ip = update (s.blocks own ip) x none := by
  have hheld := held_of_lock sb own hlock
  have hown : own x = some (s.inum ip) := (isSome_content _).1 hx
  have hsome : (own x).isSome := by rw [hown]; rfl
  have hdata := h.disk.data x hsome
  obtain ⟨hothers, hdisk⟩ := h.disk.release hheld h.ok hx
  rw [FsState.freed, setDisk_eq_work s ip]
  obtain ⟨halone, hworks⟩ := h.work hlock hdisk rfl hothers (s.mem ip)
  refine ⟨hdata.2, (h.disk.used x hdata.2).2 (Or.inr hsome), halone, hworks, ?_⟩
  have hself := hdisk.owned ip _ (update_self ..)
  rw [FsState.blocks, inum_work, disk_work]
  exact hself.2.2.2.symm

variable [DecidableEq P] {F : Sig} {more : P → (f : F.Op) → X → Outcome X (F.Ret f)}

theorem run_assign {α : Type} {k : Unit → FsM Nat F α} (howner : ∀ b, s.owner b = none) (hop : s.op p = true) :
    (machine more).run p (istore ip v >>= fun _ => iupdate sb ip >>= k) s =
      (machine more).run p (k ()) (s.assigned sb ip v) := by
  have hupdate : (machine more).run p (iupdate sb ip) (s.work ip s.disk v) = .ok () (s.assigned sb ip v) :=
    run_iupdate howner hop
  rw [run_istore, setCache_set, run_bind_ok hupdate]

theorem run_bfree {x : Nat} (howner : s.owner (sb.bblock x) = none) (hop : s.op p = true)
    (hused : sb.used s.disk x = true) : (machine more).run p (bfree sb x) s = .ok () (s.freed sb x) := by
  unfold bfree
  rw [run_bread howner, run_bdata]
  have hbit : ((s.setOwner (sb.bblock x) (some p)).disk (sb.bblock x)).bit (x % BPB) = true := hused
  rw [if_pos hbit]
  exact run_modify_last howner hop

/-! ### Truncation -/

/-- Blocks of the inode have gone back, and fields of it have changed. -/
structure Shrunk (sb : Superblock) (p : P) (ip : Fin NINODE) (own own' : Nat → Option Nat) (s t : FsState P X) (v : Dinode)
    (m : BlockMap) : Prop where
  alone : Alone sb p own' t
  works : Works sb ip own own' s t
  mem : t.mem ip = v
  blocks : t.blocks own' ip = m

namespace Shrunk

variable {own' own'' : Nat → Option Nat} {v w : Dinode} {m m' : BlockMap}
omit [DecidableEq P]

theorem refl (h : Alone sb p own s) : Shrunk sb p ip own own s s (s.mem ip) (s.blocks own ip) :=
  ⟨h, Works.refl .., rfl, rfl⟩

theorem trans (h : Shrunk sb p ip own own' s t v m) (h' : Shrunk sb p ip own' own'' t u w m') :
    Shrunk sb p ip own own'' s u w m' :=
  ⟨h'.alone, h.works.trans h'.works, h'.mem, h'.blocks⟩

theorem lock (h : Shrunk sb p ip own own' s t v m) (hlock : (s.icache.slot ip).lock = some p) :
    (t.icache.slot ip).lock = some p := by
  rw [h.works.lock]
  exact hlock

theorem free (h : Alone sb p own s) (hlock : (s.icache.slot ip).lock = some p) {x : Nat} (hx : (s.blocks own ip x).isSome) :
    Shrunk sb p ip own (update own x none) s (s.freed sb x) (s.mem ip) (update (s.blocks own ip) x none) := by
  obtain ⟨-, -, halone, hworks, hblocks⟩ := h.freed hlock hx
  exact ⟨halone, hworks, rfl, hblocks⟩

theorem store (h : Alone sb p own s) (hlock : (s.icache.slot ip).lock = some p) (v : Dinode) :
    Shrunk sb p ip own own s (s.work ip s.disk v) v (s.blocks own ip) := by
  obtain ⟨halone, hworks⟩ := h.work_mem hlock v
  refine ⟨halone, hworks, mem_work .., ?_⟩
  rw [FsState.blocks, inum_work]
  rfl

end Shrunk

variable (more) in
theorem run_itruncDirect : ∀ (is : List Nat) {own : Nat → Option Nat} {s : FsState P X}, (∀ i ∈ is, i < NDIRECT) →
    Alone sb p own s → (s.icache.slot ip).lock = some p → s.op p = true → (s.mem ip).Mapped (s.blocks own ip) →
    ∃ own' as m t, (machine more).run p (itruncDirect sb ip is) s = .ok () t ∧
      Shrunk sb p ip own own' s t (withAddrs (s.mem ip) as) m ∧ (withAddrs (s.mem ip) as).Mapped m ∧
      ∀ j, (withAddrs (s.mem ip) as).addr j = if j ∈ is then 0 else (s.mem ip).addr j := by
  intro is
  induction is with
  | nil =>
    intro own s _ h _ _ hmapped
    exact ⟨own, (s.mem ip).addrs, _, s, rfl, Shrunk.refl h, hmapped, fun j => rfl⟩
  | cons i is ih =>
    intro own s hlt h hlock hop hmapped
    have hi := hlt i List.mem_cons_self
    have hlt' : ∀ j ∈ is, j < NDIRECT := fun j hj => hlt j (List.mem_cons_of_mem i hj)
    rw [itruncDirect]
    rw [run_iload]
    by_cases hne : (s.mem ip).addr i ≠ 0
    · have hslot : (s.mem ip).slot (s.blocks own ip) i = (s.mem ip).addr i := slot_of_le hi.le
      have hsome := hmapped.isSome (Nat.lt_trans hi (by decide)) (by rw [hslot]; exact hne)
      rw [hslot] at hsome
      obtain ⟨hsize, hused, -⟩ := h.freed hlock hsome
      have hfree := Shrunk.free h hlock hsome
      have hstore := hfree.trans (Shrunk.store hfree.alone (hfree.lock hlock) ((s.mem ip).setAddr i 0))
      have hmapped' := hmapped.drop_direct hi hne
      rw [hfree.blocks] at hstore
      obtain ⟨own', as, m, t, hrun, hshrunk, hm, haddr⟩ := ih hlt' hstore.alone (hstore.lock hlock)
        (by rw [hstore.works.op]; exact hop) (by rw [hstore.mem, hstore.blocks]; exact hmapped')
      rw [hstore.mem] at hshrunk hm haddr
      refine ⟨own', as, m, t, ?_, hstore.trans hshrunk, hm, fun j => (haddr j).trans ?_⟩
      · have hbfree : (machine more).run p (bfree sb ((s.icache.slot ip).inode.addr i)) s =
            .ok () (s.freed sb ((s.mem ip).addr i)) := run_bfree (h.owner _) hop hused
        rw [if_pos (show (s.icache.slot ip).inode.addr i ≠ 0 from hne), run_bind_ok hbfree, run_istore, setCache_set]
        exact hrun
      · rw [addr_setAddr hi.le]
        by_cases hj : j ∈ is <;> by_cases hji : j = i <;> simp [hj, hji]
    · rw [if_neg (show ¬(s.icache.slot ip).inode.addr i ≠ 0 from hne)]
      rw [ne_eq, not_not] at hne
      obtain ⟨own', as, m, t, hrun, hshrunk, hm, haddr⟩ := ih hlt' h hlock hop hmapped
      refine ⟨own', as, m, t, hrun, hshrunk, hm, fun j => (haddr j).trans ?_⟩
      by_cases hji : j = i
      · rw [hji, if_pos List.mem_cons_self]
        split
        · rfl
        · exact hne
      · simp only [List.mem_cons, hji, false_or]

variable (more) in
theorem run_bfreeEntries {b : Nat} : ∀ (as : List Uint) {own : Nat → Option Nat} {s : FsState P X}, Alone sb p own s →
    (s.icache.slot ip).lock = some p → s.op p = true → s.blocks own ip 0 = none → (s.blocks own ip b).isSome →
    b ∉ as.map Fin.val → (∀ a ∈ as, a ≠ 0 → (s.blocks own ip a.val).isSome) → as.Pairwise (fun a b => a ≠ 0 → a ≠ b) →
    ∃ own' t, (machine more).run p (bfreeEntries sb as) (s.setOwner b (some p)) = .ok () (t.setOwner b (some p)) ∧
      Shrunk sb p ip own own' s t (s.mem ip) (without (s.blocks own ip) as) := by
  intro as
  induction as with
  | nil =>
    intro own s h _ _ _ _ _ _ _
    refine ⟨own, s, rfl, ?_⟩
    rw [without_nil]
    exact Shrunk.refl h
  | cons a as ih =>
    intro own s h hlock hop hzero hb hnotin hsome hpair
    obtain ⟨hne, hpair'⟩ := List.pairwise_cons.1 hpair
    rw [List.map_cons, List.mem_cons, not_or] at hnotin
    rw [bfreeEntries]
    by_cases ha : a ≠ 0
    · have hx := hsome a List.mem_cons_self ha
      obtain ⟨hsize, hused, -⟩ := h.freed hlock hx
      have hfree := Shrunk.free h hlock hx
      have hown : (own b).isSome := by
        rw [(isSome_content _).1 hb]
        rfl
      have howner := (h.owner_setOwner (some p) hown).1 a.val hsize
      have hkeep : ∀ {y : Nat}, y ≠ a.val →
          (s.freed sb a.val).blocks (update own a.val none) ip y = s.blocks own ip y := by
        intro y hy
        rw [hfree.blocks, update_of_ne hy]
      have ha' : (0 : Nat) ≠ a.val := fun heq => ha (Fin.ext heq.symm)
      obtain ⟨own', t, hrun, hshrunk⟩ := ih hfree.alone (hfree.lock hlock) (by rw [hfree.works.op]; exact hop)
        (by rw [hkeep ha']; exact hzero) (by rw [hkeep hnotin.1]; exact hb) hnotin.2
        (fun c hc hc0 => by
          rw [hkeep fun heq => hne c hc ha (Fin.ext heq.symm)]
          exact hsome c (List.mem_cons_of_mem a hc) hc0) hpair'
      rw [hfree.blocks, without_cons] at hshrunk
      refine ⟨own', t, ?_, hfree.trans hshrunk⟩
      rw [if_pos ha, run_bind_ok (run_bfree howner hop hused)]
      exact hrun
    · rw [if_neg ha]
      rw [ne_eq, not_not] at ha
      obtain ⟨own', t, hrun, hshrunk⟩ := ih h hlock hop hzero hb hnotin.2
        (fun c hc => hsome c (List.mem_cons_of_mem a hc)) hpair'
      refine ⟨own', t, hrun, ?_⟩
      rw [without_cons_of_none (by rw [ha]; exact hzero)]
      exact hshrunk

section Locked

variable (h : Alone sb p own s) (hlock : (s.icache.slot ip).lock = some p) (hop : s.op p = true)
  (hmapped : (s.mem ip).Mapped (s.blocks own ip))
include h hlock hop hmapped

variable (more) in
theorem run_itruncIndirect (hdirect : ∀ j, j < NDIRECT → (s.mem ip).addr j = 0) :
    ∃ own' t, (machine more).run p (itruncIndirect sb ip) s = .ok () t ∧
      Shrunk sb p ip own own' s t (withAddrs (s.mem ip) fun _ => 0) fun _ => none := by
  unfold itruncIndirect
  rw [run_iload]
  by_cases hne : (s.mem ip).addr NDIRECT ≠ 0
  · obtain ⟨d, hd⟩ := hmapped.indirect hne
    obtain ⟨hsome, hpair, hind, hfinal⟩ := hmapped.indirect_entries hd hne
    have hb : (s.blocks own ip ((s.mem ip).addr NDIRECT)).isSome := by rw [hd]; rfl
    have hdisk : s.disk ((s.mem ip).addr NDIRECT) = d := by
      have hown := (isSome_content s.disk).1 hb
      rw [FsState.blocks, content_of_own hown] at hd
      exact Option.some.inj hd
    obtain ⟨own₁, t₁, hrun₁, h₁⟩ := run_bfreeEntries more _ h hlock hop hmapped.zero hb hind hsome hpair
    have hlast : (t₁.blocks own₁ ip ((s.mem ip).addr NDIRECT)).isSome := by
      rw [h₁.blocks, without, if_neg hind]
      exact hb
    obtain ⟨hsize, hused, -⟩ := h₁.alone.freed (h₁.lock hlock) hlast
    have h₂ := h₁.trans (Shrunk.free h₁.alone (h₁.lock hlock) hlast)
    have h₃ := h₂.trans (Shrunk.store h₂.alone (h₂.lock hlock) ((s.mem ip).setAddr NDIRECT 0))
    rw [h₂.blocks, h₁.blocks] at h₃
    have hzero : ∀ j, j ≤ NDIRECT → ((s.mem ip).setAddr NDIRECT 0).addr j = 0 := by
      intro j hj
      rw [addr_setAddr (le_refl _)]
      split
      · rfl
      · exact hdirect j (by omega)
    have hmem : (s.mem ip).setAddr NDIRECT 0 = withAddrs (s.mem ip) fun _ => 0 := by
      rw [← addrs_eq_zero hzero]
      rfl
    rw [hfinal.eq_none hzero, hmem] at h₃
    refine ⟨_, _, ?_, h₃⟩
    have hentries : (machine more).run p (bfreeEntries sb ((List.range NINDIRECT).map
        ((s.setOwner ((s.mem ip).addr NDIRECT) (some p)).disk ((s.mem ip).addr NDIRECT)).entry))
        (s.setOwner ((s.mem ip).addr NDIRECT) (some p)) = .ok () (t₁.setOwner ((s.mem ip).addr NDIRECT) (some p)) := by
      rw [disk_setOwner, hdisk]
      exact hrun₁
    have hbfree : (machine more).run p (bfree sb ((s.mem ip).addr NDIRECT)) t₁ =
        .ok () (t₁.freed sb ((s.mem ip).addr NDIRECT)) :=
      run_bfree (h₁.alone.owner _) (by rw [h₁.works.op]; exact hop) hused
    have hslot : (s.icache.slot ip).inode.addr NDIRECT = (s.mem ip).addr NDIRECT := rfl
    rw [hslot, if_pos hne, run_bread (h.owner _), run_bdata, run_bind_ok hentries,
      run_brelse (update_self ..), setOwner_setOwner _ (h₁.alone.owner _), run_bind_ok hbfree]
    rw [← hmem]
    rfl
  · rw [if_neg (show ¬(s.icache.slot ip).inode.addr NDIRECT ≠ 0 from hne)]
    rw [ne_eq, not_not] at hne
    have hall : ∀ j, j ≤ NDIRECT → (s.mem ip).addr j = 0 := by
      intro j hj
      rcases Nat.lt_or_eq_of_le hj with hlt | rfl
      · exact hdirect j hlt
      · exact hne
    have hmem : withAddrs (s.mem ip) (fun _ => 0) = s.mem ip := by
      rw [← addrs_eq_zero hall]
      rfl
    refine ⟨own, s, rfl, ?_⟩
    rw [hmem, ← hmapped.eq_none hall]
    exact Shrunk.refl h

variable (more) in
theorem run_itrunc (htype : (s.mem ip).type ≠ 0) : ∃ own' t, (machine more).run p (itrunc sb ip) s = .ok () t ∧
    Shrunk sb p ip own own' s t (truncated (s.mem ip)) (fun _ => none) ∧ t.mem ip = sb.dinode t.disk (s.inum ip) := by
  obtain ⟨own₁, as, m, t₁, hrun₁, h₁, hm, haddr⟩ := run_itruncDirect more (List.range NDIRECT)
    (fun i hi => List.mem_range.1 hi) h hlock hop hmapped
  have hop₁ : t₁.op p = true := by rw [h₁.works.op]; exact hop
  have hdirect : ∀ j, j < NDIRECT → (t₁.mem ip).addr j = 0 := by
    intro j hj
    rw [h₁.mem]
    exact (haddr j).trans (if_pos (List.mem_range.2 hj))
  obtain ⟨own₂, t₂, hrun₂, h₂⟩ := run_itruncIndirect more h₁.alone (h₁.lock hlock) hop₁
    (by rw [h₁.mem, h₁.blocks]; exact hm) hdirect
  have h₂' := h₁.trans h₂
  have hop₂ : t₂.op p = true := by rw [h₂'.works.op]; exact hop
  have hmem : { t₂.mem ip with size := 0 } = truncated (s.mem ip) := by
    rw [h₂'.mem, h₁.mem]
    rfl
  obtain ⟨halone, hworks, hmem', hdinode, hblocks, -⟩ := h₂'.alone.assigned (h₂'.lock hlock)
    (v := truncated (s.mem ip)) htype
  refine ⟨own₂, t₂.assigned sb ip (truncated (s.mem ip)), ?_, ⟨halone, h₂'.works.trans hworks, hmem', ?_⟩, ?_⟩
  · unfold itrunc
    rw [run_bind_ok hrun₁, run_bind_ok hrun₂, run_iload, ← bind_pure_unit (x := iupdate sb ip)]
    have hassign : { (t₂.icache.slot ip).inode.toDinode with size := 0 } = truncated (s.mem ip) := hmem
    rw [hassign, run_assign h₂'.alone.owner hop₂]
    rfl
  · rw [hblocks, h₂'.blocks]
  · rw [hmem', ← h₂'.works.inum ip, hdinode]

end Locked

/-! ### The last reference -/

omit [DecidableEq P] in
/-- An inode without blocks is freed, and its slot of the cache too. -/
theorem Alone.destroy (h : Alone sb p own s) (hlock : (s.icache.slot ip).lock = some p)
    (hnone : ∀ b, s.blocks own ip b = none) {v : Dinode} (hv : v.type = 0)
    (hdisk : u.disk = (s.stored sb (s.inum ip) v).disk) (howner : u.owner = s.owner) (href : u.ref ip = 0)
    (hfree : (u.icache.slot ip).lock = none) (hrest : ∀ j, j ≠ ip → u.icache.slot j = s.icache.slot j) :
    Alone sb p own u ∧ Others sb own own s.disk u.disk (s.inum ip) := by
  have hheld := held_of_lock sb own hlock
  have hothers : Others sb own own s.disk u.disk (s.inum ip) := by
    rw [hdisk]
    exact h.disk.inode_others hheld h.ok v
  have hpos := (h.locked ip hlock).1
  have hinum : ∀ {j : Fin NINODE}, j ≠ ip → u.inum j = s.inum j := fun hj => by rw [FsState.inum, hrest _ hj, FsState.inum]
  -- only other slots have references
  have hother : ∀ {j : Fin NINODE}, 0 < u.ref j → j ≠ ip ∧ 0 < s.ref j := by
    intro j hj
    have hji : j ≠ ip := by
      rintro rfl
      omega
    rw [FsState.ref, hrest j hji] at hj
    exact ⟨hji, hj⟩
  have hheld' : u.held sb own = update (s.held sb own) ip none := by
    funext j
    by_cases hj : j = ip
    · rw [hj, update_self]
      exact held_of_unlocked hfree
    · rw [update_of_ne hj]
      rcases h.lock j with hnone' | hsome
      · rw [held_of_unlocked hnone', held_of_unlocked (by rw [hrest j hj]; exact hnone')]
      · have hne := h.inum_ne hj hpos (h.locked j hsome).1
        rw [held_of_lock _ _ hsome, held_of_lock _ _ (p := p) (by rw [hrest j hj]; exact hsome), FsState.blocks, hinum hj,
          hothers.dinode _ (h.inum_lt hsome) hne, hothers.content _ hne, FsState.blocks]
  refine ⟨⟨h.ok, ?_, by rw [howner]; exact h.owner, fun j => ?_, fun j => ?_, fun j hj => ?_, fun j hj => ?_,
    fun j hl hj hvalid => ?_, fun i j hi hj heq => ?_⟩, hothers⟩
  · rw [hheld', hdisk]
    exact h.disk.destroy hheld h.ok hv hnone
  · by_cases hj : j = ip
    · rw [hj]
      exact Or.inl hfree
    · rw [hrest j hj]
      exact h.lock j
  · by_cases hj : j = ip
    · rw [hj, href]
    · rw [FsState.ref, hrest j hj]
      exact h.ref j
  · have hji : j ≠ ip := by
      rintro rfl
      rw [hfree] at hj
      cases hj
    rw [hrest j hji] at hj
    rw [FsState.ref, hrest j hji]
    exact h.locked j hj
  · obtain ⟨hji, hj'⟩ := hother hj
    obtain ⟨hdev, hlt, htype⟩ := h.used j hj'
    rw [hinum hji, hrest j hji, hothers.dinode _ hlt (h.inum_ne hji hpos hj')]
    exact ⟨hdev, hlt, htype⟩
  · obtain ⟨hji, hj'⟩ := hother hj
    rw [hrest j hji] at hl hvalid
    rw [hinum hji, hothers.dinode _ (h.used j hj').2.1 (h.inum_ne hji hpos hj'), FsState.mem, hrest j hji]
    exact h.clean j hl hj' hvalid
  · obtain ⟨hii, hi'⟩ := hother hi
    obtain ⟨hji, hj'⟩ := hother hj
    rw [hinum hii, hinum hji] at heq
    exact h.uniq i j hi' hj' heq

/-- The process has given back a reference to slot `ip`. An inode without links may be gone. -/
structure Released (sb : Superblock) (p : P) (own own' : Nat → Option Nat) (s : FsState P X) (ip : Fin NINODE)
    (u : FsState P X) : Prop where
  alone : Alone sb p own' u
  lock : (u.icache.slot ip).lock = none
  ref : u.ref ip = s.ref ip - 1
  rest : ∀ j, j ≠ ip → u.icache.slot j = s.icache.slot j
  others : Others sb own own' s.disk u.disk (s.inum ip)
  op : u.op = s.op
  ext : u.ext = s.ext

variable (more) in
theorem run_ifree (h : Alone sb p own s) (hlock : (s.icache.slot ip).lock = some p) (hop : s.op p = true)
    (htidy : Tidy sb own s ip) (hone : s.ref ip = 1) : ∃ own' u, (machine more).run p (ifree sb ip) s = .ok () u ∧
      Released sb p own own' s ip u := by
  have htype : (s.mem ip).type ≠ 0 := by
    rw [htidy.clean]
    exact h.type_ne hlock
  obtain ⟨own', t, hrun, ht, -⟩ := run_itrunc more h hlock hop htidy.intact.mapped htype
  have hop' : t.op p = true := by
    rw [ht.works.op]
    exact hop
  have hstep : ∀ v : Dinode, v.type = 0 →
      Released sb p own own' s ip ((t.assigned sb ip v).setCache ((t.assigned sb ip v).icache.retire p ip)) := by
    intro v hv
    have hslot := ICache.slot_retire (t.assigned sb ip v).icache p ip
    have hself := slot_setCache_self (s := t.assigned sb ip v) hslot
    have hrest : ∀ j, j ≠ ip → ((t.assigned sb ip v).setCache ((t.assigned sb ip v).icache.retire p ip)).icache.slot j =
        t.icache.slot j := by
      intro j hj
      rw [slot_setCache_of_ne hslot hj]
      exact slot_work_of_ne t ip t.disk v hj
    have href : ((t.assigned sb ip v).setCache ((t.assigned sb ip v).icache.retire p ip)).ref ip = s.ref ip - 1 := by
      have hwork : (t.assigned sb ip v).ref ip = s.ref ip := (ref_work t ip t.disk v ip).trans (ht.works.ref ip)
      rw [FsState.ref, hself, ← hwork]
      rfl
    have hlock' : (((t.assigned sb ip v).setCache ((t.assigned sb ip v).icache.retire p ip)).icache.slot ip).lock = none := by
      rw [hself]
      rfl
    obtain ⟨halone, hothers⟩ := ht.alone.destroy (ht.lock hlock) (fun b => by rw [ht.blocks]) hv
      (u := (t.assigned sb ip v).setCache ((t.assigned sb ip v).icache.retire p ip))
      (by rw [disk_setCache, disk_assigned]) rfl (by rw [href, hone]; rfl) hlock' hrest
    rw [ht.works.inum ip] at hothers
    refine ⟨halone, hlock', href, fun j hj => ?_, ht.works.others.trans hothers, ht.works.op, ht.works.ext⟩
    rw [hrest j hj, ht.works.slot hj]
  refine ⟨own', _, ?_, hstep { t.mem ip with type := 0 } rfl⟩
  unfold ifree
  rw [run_bind_ok hrun, run_iload, run_assign ht.alone.owner hop', run_setValid, run_releasesleep,
    ← bind_pure_unit (x := iputDrop ip), run_iputDrop]
  rfl

variable (more) in
theorem run_iput_last (h : Alone sb p own s) (hop : s.op p = true) (hlock : (s.icache.slot ip).lock = none)
    (hlast : (s.icache.slot ip).ref = 1 ∧ (s.icache.slot ip).inode.valid ∧ (s.icache.slot ip).inode.nlink = 0) :
    ∃ own' u, (machine more).run p (iput sb ip) s = .ok () u ∧ Released sb p own own' s ip u := by
  have hpos : 0 < s.ref ip := by
    have hone : s.ref ip = 1 := hlast.1
    omega
  obtain ⟨henter, hintact⟩ := h.enter hlock hpos
  rw [← h.lockedSlot_of_valid hlock hpos hlast.2.1] at henter
  obtain ⟨halone, -⟩ := henter.same_slots
    (c := (s.icache.set ip ((s.icache.slot ip).setLock (some p))).setFreeing ip (some p)) rfl
  have hmem : s.mem ip = sb.dinode s.disk (s.inum ip) := h.clean ip hlock hpos hlast.2.1
  rw [setCache_setCache] at halone
  have hslot : ((s.icache.set ip ((s.icache.slot ip).setLock (some p))).setFreeing ip (some p)).slot =
    update s.icache.slot ip ((s.icache.slot ip).setLock (some p)) := rfl
  have hself := slot_setCache_self (s := s) hslot
  have hinode := congrArg ISlot.inode hself
  have hinum : (s.setCache ((s.icache.set ip ((s.icache.slot ip).setLock (some p))).setFreeing ip (some p))).inum ip =
      s.inum ip := by
    rw [FsState.inum, hinode]
    rfl
  have hlock' : ((s.setCache ((s.icache.set ip ((s.icache.slot ip).setLock (some p))).setFreeing ip
      (some p))).icache.slot ip).lock = some p := by
    rw [hself]
    rfl
  obtain ⟨own', u, hrun, hu⟩ := run_ifree more halone hlock' hop
    (Tidy.congr ⟨hmem, by rw [hmem]; exact hintact⟩ hinode rfl) (by rw [FsState.ref, hself]; exact hlast.1)
  refine ⟨own', u, ?_, hu.alone, hu.lock, ?_, fun j hj => ?_, ?_, hu.op, hu.ext⟩
  · unfold iput
    rw [run_iputLast_true hlast hlock]
    exact hrun
  · rw [hu.ref, FsState.ref, hself]
    rfl
  · rw [hu.rest j hj, slot_setCache_of_ne hslot hj]
  · have hothers := hu.others
    rw [hinum] at hothers
    exact hothers

variable (more) in
/-- `iput` returns, and an inode with links stays. -/
theorem run_iput_any (h : Alone sb p own s) (hop : s.op p = true) (hlock : (s.icache.slot ip).lock = none)
    (hpos : 0 < s.ref ip) : ∃ own' u, (machine more).run p (iput sb ip) s = .ok () u ∧ Released sb p own own' s ip u ∧
      ((sb.dinode s.disk (s.inum ip)).nlink ≠ 0 → own' = own ∧ u.disk = s.disk) := by
  by_cases hlast : (s.icache.slot ip).ref = 1 ∧ (s.icache.slot ip).inode.valid ∧ (s.icache.slot ip).inode.nlink = 0
  · obtain ⟨own', u, hrun, hu⟩ := run_iput_last more h hop hlock hlast
    refine ⟨own', u, hrun, hu, fun hlink => absurd ?_ hlink⟩
    have hmem : s.mem ip = sb.dinode s.disk (s.inum ip) := h.clean ip hlock hpos hlast.2.1
    rw [← hmem]
    exact hlast.2.2
  · have hslot : (s.icache.drop p ip).slot = update s.icache.slot ip
      ((s.icache.slot ip).setRef ((s.icache.slot ip).ref - 1)) := rfl
    have hself := slot_setCache_self (s := s) hslot
    have hpos' : 0 < (s.icache.slot ip).ref := hpos
    refine ⟨own, s.setCache (s.icache.drop p ip), ?_, ⟨h.setRef hslot hpos (by omega) fun hl => ?_, ?_, ?_,
      fun j hj => slot_setCache_of_ne hslot hj, Others.refl .., rfl, rfl⟩, fun _ => ⟨rfl, rfl⟩⟩
    · unfold iput
      rw [run_iputLast_false hlast]
      rfl
    · rw [hlock] at hl
      cases hl
    · rw [hself]
      exact hlock
    · rw [FsState.ref, hself]
      rfl

variable (more) in
theorem run_iunlockput_any (h : Alone sb p own s) (hop : s.op p = true) (hlock : (s.icache.slot ip).lock = some p)
    (htidy : Tidy sb own s ip) : ∃ own' u, (machine more).run p (iunlockput sb ip) s = .ok () u ∧
      Released sb p own own' s ip u ∧ ((s.mem ip).nlink ≠ 0 → own' = own ∧ u.disk = s.disk) := by
  have hleft := h.iunlock (Kept.refl h) hlock htidy
  have hpos := (h.locked ip hlock).1
  have href : (s.setCache (s.icache.releasesleep ip)).ref ip = s.ref ip := by
    have hkept := hleft.kept.ref ip
    rwa [Nat.cast_zero, Int.add_zero] at hkept
  obtain ⟨own', u, hrun, hu, hstay⟩ := run_iput_any more hleft.alone hop hleft.lock (by rw [href]; exact hpos)
  refine ⟨own', u, ?_, ⟨hu.alone, hu.lock, by rw [hu.ref, href], fun j hj => ?_, ?_, hu.op, hu.ext⟩, fun hlink => hstay ?_⟩
  · unfold iunlockput
    rw [run_iunlock hlock hpos]
    exact hrun
  · rw [hu.rest j hj, hleft.rest j hj]
  · rw [← hleft.inum]
    exact hu.others
  · rw [hleft.inum, disk_setCache, ← htidy.clean]
    exact hlink

end FsState

end Xv6
