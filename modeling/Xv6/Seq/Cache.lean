import Xv6.Seq.State

/-! The inode cache, for a process that runs alone: references and sleep locks. Walking over inodes changes
nothing but the references that the process adds and drops, and the slots that had none. -/

namespace Xv6

open Lib Function

namespace ICache

variable {P : Type} (c : ICache P) (ip : Fin NINODE) (x y : ISlot P)

theorem slot_set_self : (c.set ip x).slot ip = x := update_self ..

theorem set_set : (c.set ip x).set ip y = c.set ip y := by
  unfold set
  rw [update_idem]

end ICache

namespace FsState

open Fs

variable {P X : Type} {p : P} {sb : Superblock} {s : FsState P X} {own : Nat → Option Nat} {ip : Fin NINODE}

/-! ### One slot changes -/

section Set

variable {c : ICache P} {x : ISlot P} (hslot : c.slot = update s.icache.slot ip x)
include hslot

theorem slot_setCache_self : (s.setCache c).icache.slot ip = x := by
  rw [icache_setCache, hslot, update_self]

theorem slot_setCache_of_ne {j : Fin NINODE} (hj : j ≠ ip) : (s.setCache c).icache.slot j = s.icache.slot j := by
  rw [icache_setCache, hslot, update_of_ne hj]

theorem held_setCache : (s.setCache c).held sb own = update (s.held sb own) ip
    (if x.lock.isSome then some ⟨x.inode.inum, sb.dinode s.disk x.inode.inum, content s.disk own x.inode.inum⟩
      else none) := by
  funext j
  by_cases hj : j = ip
  · rw [hj, update_self]
    unfold held blocks inum
    rw [slot_setCache_self hslot]
    rfl
  · rw [update_of_ne hj]
    unfold held blocks inum
    rw [slot_setCache_of_ne hslot hj]
    rfl

theorem Alone.set (h : Alone sb p own s) (hdisk : DiskInv sb own s.disk ((s.setCache c).held sb own))
    (hlock : x.lock = none ∨ x.lock = some p) (href : 0 ≤ x.ref)
    (hlocked : x.lock = some p → 0 < x.ref ∧ x.inode.valid = true)
    (hused : 0 < x.ref → x.inode.dev = ROOTDEV ∧ x.inode.inum < sb.ninodes ∧
      (sb.dinode s.disk x.inode.inum).type ≠ 0) (hclean : x.lock = none → 0 < x.ref → x.inode.valid = true →
      x.inode.toDinode = sb.dinode s.disk x.inode.inum)
    (huniq : 0 < x.ref → ∀ j, j ≠ ip → 0 < s.ref j → s.inum j ≠ x.inode.inum) :
    Alone sb p own (s.setCache c) := by
  have hself := slot_setCache_self (s := s) hslot
  have hrest : ∀ {j}, j ≠ ip → (s.setCache c).icache.slot j = s.icache.slot j := slot_setCache_of_ne hslot
  refine ⟨h.ok, hdisk, h.owner, fun j => ?_, fun j => ?_, fun j => ?_, fun j => ?_, fun j => ?_, fun i j => ?_⟩
  · by_cases hj : j = ip
    · rw [hj, hself]
      exact hlock
    · rw [hrest hj]
      exact h.lock j
  · unfold FsState.ref
    by_cases hj : j = ip
    · rw [hj, hself]
      exact href
    · rw [hrest hj]
      exact h.ref j
  · unfold FsState.ref
    by_cases hj : j = ip
    · rw [hj, hself]
      exact hlocked
    · rw [hrest hj]
      exact h.locked j
  · unfold FsState.ref FsState.inum
    by_cases hj : j = ip
    · rw [hj, hself]
      exact hused
    · rw [hrest hj]
      exact h.used j
  · unfold FsState.ref FsState.inum FsState.mem
    by_cases hj : j = ip
    · rw [hj, hself]
      exact hclean
    · rw [hrest hj]
      exact h.clean j
  · unfold FsState.ref FsState.inum
    by_cases hi : i = ip <;> by_cases hj : j = ip
    · intro _ _ _
      rw [hi, hj]
    · rw [hi, hself, hrest hj]
      intro hpos hpos' heq
      exact absurd heq.symm (huniq hpos j hj hpos')
    · rw [hj, hself, hrest hi]
      intro hpos hpos' heq
      exact absurd heq (huniq hpos' i hi hpos)
    · rw [hrest hi, hrest hj]
      exact h.uniq i j

end Set

/-! ### References -/

/-- The count of references to a slot that has some is changed. -/
theorem Alone.setRef (h : Alone sb p own s) {c : ICache P} {n : Int}
    (hslot : c.slot = update s.icache.slot ip ((s.icache.slot ip).setRef n)) (hpos : 0 < s.ref ip) (hn : 0 ≤ n)
    (hlock : (s.icache.slot ip).lock = some p → 0 < n) : Alone sb p own (s.setCache c) := by
  refine h.set hslot ?_ (h.lock ip) hn (fun hl => ⟨hlock hl, (h.locked ip hl).2⟩) (fun _ => h.used ip hpos)
    (fun hl _ => h.clean ip hl hpos) fun _ j hj hj' => h.inum_ne hj hpos hj'
  have hheld : (s.setCache c).held sb own = s.held sb own := by
    rw [held_setCache hslot]
    exact update_eq_self ip (s.held sb own)
  rw [hheld]
  exact h.disk

/-- The process has walked from `s` to `t`: beside the references of before it has those in `e`. -/
structure Kept (s : FsState P X) (e : Fin NINODE → Nat) (t : FsState P X) : Prop where
  base : ∀ j, 0 ≤ s.ref j
  frame : t = s.setCache t.icache
  inum : ∀ j, 0 < s.ref j → t.inum j = s.inum j
  ref : ∀ j, t.ref j = s.ref j + e j

namespace Kept

variable {e : Fin NINODE → Nat} {t : FsState P X}

theorem refl (h : Alone sb p own s) : Kept s (fun _ => 0) s := ⟨h.ref, rfl, fun _ _ => rfl, fun _ => by simp⟩

section Facts

variable (h : Kept s e t)
include h

theorem disk : t.disk = s.disk := by rw [h.frame, disk_setCache]

theorem op : t.op = s.op := by rw [h.frame, op_setCache]

theorem ext : t.ext = s.ext := by rw [h.frame, ext_setCache]

theorem ref_pos {j : Fin NINODE} (hj : 0 < s.ref j) : 0 < t.ref j := by
  have := h.ref j
  omega

/-- One slot changes once more. -/
theorem set {c : ICache P} {x : ISlot P} (hslot : c.slot = update t.icache.slot ip x) {e' : Fin NINODE → Nat}
    (hself : x.ref = s.ref ip + e' ip) (hrest : ∀ j, j ≠ ip → e' j = e j)
    (hinum : 0 < s.ref ip → x.inode.inum = t.inum ip) : Kept s e' (t.setCache c) where
  base := h.base
  frame := by
    rw [h.frame]
    rfl
  inum j hj := by
    unfold FsState.inum
    by_cases hji : j = ip
    · rw [hji] at hj ⊢
      rw [slot_setCache_self hslot, hinum hj]
      exact h.inum ip hj
    · rw [slot_setCache_of_ne hslot hji]
      exact h.inum j hj
  ref j := by
    show ((t.setCache c).icache.slot j).ref = _
    by_cases hji : j = ip
    · rw [hji, slot_setCache_self hslot, hself]
    · rw [slot_setCache_of_ne hslot hji, hrest j hji]
      exact h.ref j

end Facts

end Kept

variable (e : Fin NINODE → Nat)

def plus (ip : Fin NINODE) : Fin NINODE → Nat := update e ip (e ip + 1)

def minus (ip : Fin NINODE) : Fin NINODE → Nat := update e ip (e ip - 1)

theorem minus_plus (ip : Fin NINODE) : minus (plus e ip) ip = e := by
  unfold minus plus
  rw [update_self, update_idem, Nat.add_sub_cancel, update_eq_self]

theorem plus_self (ip : Fin NINODE) : plus e ip ip = e ip + 1 := update_self ..

theorem minus_plus_of_ne {i j : Fin NINODE} (h : i ≠ j) : minus (plus e i) j = plus (minus e j) i := by
  unfold minus plus
  rw [update_of_ne h, update_of_ne h.symm, update_comm h]

variable {e}

/-- The inode stays when the process drops its references: it has links, or a reference from before. -/
def Stays (sb : Superblock) (s : FsState P X) (n : Nat) : Prop :=
  (sb.dinode s.disk n).nlink ≠ 0 ∨ ∃ j, 0 < s.ref j ∧ s.inum j = n

/-- The process has dropped its reference to slot `ip` in state `t`. -/
structure Dropped (sb : Superblock) (p : P) (own : Nat → Option Nat) (s : FsState P X) (e : Fin NINODE → Nat)
    (t : FsState P X) (ip : Fin NINODE) (u : FsState P X) : Prop where
  alone : Alone sb p own u
  kept : Kept s (minus e ip) u
  lock : (u.icache.slot ip).lock = none
  inum : u.inum ip = t.inum ip
  rest : ∀ j, j ≠ ip → u.icache.slot j = t.icache.slot j
  frame : u = t.setCache u.icache

/-- The inode is as it is on disk, and nothing is wrong with it. -/
structure Tidy (sb : Superblock) (own : Nat → Option Nat) (t : FsState P X) (ip : Fin NINODE) : Prop where
  clean : t.mem ip = sb.dinode t.disk (t.inum ip)
  intact : (t.mem ip).Intact sb (t.blocks own ip)

/-- The process has locked slot `ip` in state `t`. -/
structure Entered (sb : Superblock) (p : P) (own : Nat → Option Nat) (s : FsState P X) (e : Fin NINODE → Nat)
    (t : FsState P X) (ip : Fin NINODE) (u : FsState P X) : Prop where
  alone : Alone sb p own u
  kept : Kept s e u
  lock : (u.icache.slot ip).lock = some p
  tidy : Tidy sb own u ip
  inum : u.inum ip = t.inum ip
  rest : ∀ j, j ≠ ip → u.icache.slot j = t.icache.slot j
  frame : u = t.setCache u.icache

/-- The process has unlocked slot `ip` in state `t`. -/
structure Unlocked (sb : Superblock) (p : P) (own : Nat → Option Nat) (s : FsState P X) (e : Fin NINODE → Nat)
    (t : FsState P X) (ip : Fin NINODE) (u : FsState P X) : Prop where
  alone : Alone sb p own u
  kept : Kept s e u
  lock : (u.icache.slot ip).lock = none
  inum : u.inum ip = t.inum ip
  rest : ∀ j, j ≠ ip → u.icache.slot j = t.icache.slot j
  frame : u = t.setCache u.icache

variable [DecidableEq P] {F : Sig} {more : P → (f : F.Op) → X → Outcome X (F.Ret f)} {t : FsState P X}
  {may : String → Prop}

section Walk

variable (h : Alone sb p own t) (hk : Kept s e t)
include h hk

theorem Alone.idup (hpos : 0 < t.ref ip) :
    Alone sb p own (t.setCache (t.icache.idup p ip)) ∧ Kept s (plus e ip) (t.setCache (t.icache.idup p ip)) := by
  have hslot : (t.icache.idup p ip).slot = update t.icache.slot ip
    ((t.icache.slot ip).setRef ((t.icache.slot ip).ref + 1)) := rfl
  have hpos' : 0 < (t.icache.slot ip).ref := hpos
  refine ⟨h.setRef hslot hpos (by omega) fun _ => by omega, hk.set hslot ?_ (fun j hj => ?_) fun _ => rfl⟩
  · have href := hk.ref ip
    show t.ref ip + 1 = _
    rw [plus_self]
    push_cast
    omega
  · exact update_of_ne hj ..

variable (more) in
/-- `iput` of a reference of its own, for an inode that stays. -/
theorem run_iput (hlock : (t.icache.slot ip).lock = none) (he : 0 < e ip) (hstay : Stays sb s (t.inum ip)) :
    ∃ u, (machine more).run p (iput sb ip) t = .ok () u ∧ Dropped sb p own s e t ip u := by
  have href := hk.ref ip
  have hpos : 0 < t.ref ip := by
    have := hk.base ip
    omega
  have hnot : ¬((t.icache.slot ip).ref = 1 ∧ (t.icache.slot ip).inode.valid ∧ (t.icache.slot ip).inode.nlink = 0) := by
    rintro ⟨hone, hvalid, hlink⟩
    rcases hstay with hne | ⟨j, hj, hinum⟩
    · have hmem := h.clean ip hlock hpos hvalid
      rw [← hk.disk, ← hmem] at hne
      exact hne hlink
    · -- the other reference is to the same slot
      have hij : j = ip := h.uniq j ip (hk.ref_pos hj) hpos (by rw [hk.inum j hj, hinum])
      rw [hij] at hj
      have hone' : t.ref ip = 1 := hone
      omega
  have hslot : (t.icache.drop p ip).slot = update t.icache.slot ip
    ((t.icache.slot ip).setRef ((t.icache.slot ip).ref - 1)) := rfl
  have hpos' : 0 < (t.icache.slot ip).ref := hpos
  refine ⟨t.setCache (t.icache.drop p ip), ?_, h.setRef hslot hpos (by omega) fun hl => ?_,
    hk.set hslot ?_ (fun j hj => ?_) fun _ => rfl, ?_, ?_, fun j hj => slot_setCache_of_ne hslot hj, rfl⟩
  · unfold iput
    rw [run_iputLast_false hnot]
    rfl
  · rw [hlock] at hl
    cases hl
  · show t.ref ip - 1 = _
    rw [minus, update_self]
    omega
  · exact update_of_ne hj ..
  · rw [slot_setCache_self hslot]
    exact hlock
  · unfold FsState.inum
    rw [slot_setCache_self hslot]
    rfl

/-- `iget` of an inode that is allocated. -/
theorem Alone.iget {n : Nat} (hn : n < sb.ninodes) (htype : (sb.dinode t.disk n).type ≠ 0) :
    (∀ j, t.ref j ≠ 0) ∧ t.icache.iget p ROOTDEV n = .panic "iget: no inodes" ∨
    ∃ ip c, t.icache.iget p ROOTDEV n = .ok ip c ∧ Alone sb p own (t.setCache c) ∧
      Kept s (plus e ip) (t.setCache c) ∧ (t.setCache c).inum ip = n ∧
      (∀ j, (c.slot j).lock = (t.icache.slot j).lock) ∧
      ∀ j, 0 < t.ref j → (c.slot j).inode = (t.icache.slot j).inode := by
  unfold ICache.iget
  cases hlookup : t.icache.lookup ROOTDEV n with
  | some ip =>
    have hfound := List.find?_some hlookup
    simp only [decide_eq_true_eq] at hfound
    obtain ⟨hpos, -, hinum⟩ := hfound
    obtain ⟨halone, hkept⟩ := h.idup hk hpos
    have hslot : ∀ j, ((t.icache.idup p ip).slot j).lock = (t.icache.slot j).lock ∧
        ((t.icache.idup p ip).slot j).inode = (t.icache.slot j).inode := by
      intro j
      show (update t.icache.slot ip _ j).lock = _ ∧ (update t.icache.slot ip _ j).inode = _
      by_cases hj : j = ip
      · rw [hj, update_self]
        exact ⟨rfl, rfl⟩
      · rw [update_of_ne hj]
        exact ⟨rfl, rfl⟩
    refine Or.inr ⟨ip, _, rfl, halone, hkept, ?_, fun j => (hslot j).1, fun j _ => (hslot j).2⟩
    show ((t.icache.idup p ip).slot ip).inode.inum = n
    rw [(hslot ip).2, hinum]
  | none =>
    have hnone : ∀ j, 0 < t.ref j → t.inum j ≠ n := by
      intro j hpos heq
      have hj := List.find?_eq_none.1 hlookup j (List.mem_finRange j)
      simp only [decide_eq_true_eq] at hj
      exact hj ⟨hpos, (h.used j hpos).1, heq⟩
    cases hempty : t.icache.empty with
    | none =>
      refine Or.inl ⟨fun j => ?_, rfl⟩
      have hj := List.find?_eq_none.1 hempty j (List.mem_finRange j)
      simp only [decide_eq_true_eq] at hj
      exact hj
    | some ip =>
      have hzero : t.ref ip = 0 := by
        have hfound := List.find?_some hempty
        simp only [decide_eq_true_eq] at hfound
        exact hfound
      have hbase : s.ref ip = 0 ∧ e ip = 0 := by
        have href := hk.ref ip
        have hnonneg := hk.base ip
        constructor <;> omega
      have hlock : (t.icache.slot ip).lock = none := by
        rcases h.lock ip with hnone' | hsome
        · exact hnone'
        · have := (h.locked ip hsome).1
          omega
      have hslot : ((t.icache.set ip ((t.icache.slot ip).recycle ROOTDEV n)).got p ip).slot =
        update t.icache.slot ip ((t.icache.slot ip).recycle ROOTDEV n) := rfl
      have hheld : (t.setCache ((t.icache.set ip ((t.icache.slot ip).recycle ROOTDEV n)).got p ip)).held sb own =
          t.held sb own := by
        rw [held_setCache hslot]
        have hself : t.held sb own ip = none := held_of_unlocked hlock
        have hnew : ((t.icache.slot ip).recycle ROOTDEV n).lock = none := hlock
        rw [hnew, Option.isSome_none, if_neg Bool.false_ne_true, ← hself, update_eq_self]
      refine Or.inr ⟨ip, _, rfl, h.set hslot (by rw [hheld]; exact h.disk) (Or.inl hlock) Int.one_nonneg (fun hl => ?_)
        (fun _ => ⟨rfl, hn, htype⟩) (fun _ _ hv => ?_) (fun _ j _ hpos => hnone j hpos),
        hk.set hslot ?_ (fun j hj => update_of_ne hj ..) (fun hpos => ?_), ?_, fun j => ?_, fun j hj => ?_⟩
      · have hl' : (t.icache.slot ip).lock = some p := hl
        rw [hlock] at hl'
        cases hl'
      · cases hv
      · rw [plus_self, hbase.1, hbase.2]
        rfl
      · omega
      · unfold FsState.inum
        rw [slot_setCache_self hslot]
        rfl
      · rw [hslot]
        by_cases hj : j = ip
        · rw [hj, update_self]
          rfl
        · rw [update_of_ne hj]
      · have hji : j ≠ ip := by
          rintro rfl
          omega
        rw [hslot, update_of_ne hji]

/-! ### Sleep locks -/

/-- The slot of an inode that the process has locked. -/
def lockedSlot (t : FsState P X) (sb : Superblock) (p : P) (ip : Fin NINODE) : ISlot P :=
  ⟨⟨sb.dinode t.disk (t.inum ip), (t.icache.slot ip).inode.dev, t.inum ip, true⟩, t.ref ip, some p⟩

section

omit [DecidableEq P] hk

theorem Alone.lockedSlot_of_valid (hlock : (t.icache.slot ip).lock = none) (hpos : 0 < t.ref ip)
    (hvalid : (t.icache.slot ip).inode.valid = true) :
    (t.icache.slot ip).setLock (some p) = t.lockedSlot sb p ip := by
  have hmem := h.clean ip hlock hpos hvalid
  unfold lockedSlot FsState.ref FsState.inum ISlot.setLock
  rw [FsState.mem, FsState.inum] at hmem
  generalize t.icache.slot ip = x at hmem hvalid
  obtain ⟨⟨v, dev, n, b⟩, r, l⟩ := x
  simp only at hmem hvalid ⊢
  rw [hmem, hvalid]

/-- The inode is locked, and its fields are those on disk. -/
theorem Alone.enter (hlock : (t.icache.slot ip).lock = none) (hpos : 0 < t.ref ip) :
    Alone sb p own (t.setCache (t.icache.set ip (t.lockedSlot sb p ip))) ∧
      (sb.dinode t.disk (t.inum ip)).Intact sb (t.blocks own ip) := by
  obtain ⟨hdev, hlt, htype⟩ := h.used ip hpos
  have hslot : (t.icache.set ip (t.lockedSlot sb p ip)).slot = update t.icache.slot ip (t.lockedSlot sb p ip) := rfl
  have hfree : ∀ j r, t.held sb own j = some r → r.inum ≠ t.inum ip := by
    intro j r hr heq
    obtain ⟨hl, rfl⟩ := lock_of_held (h.lock j) hr
    have hij : j = ip := h.uniq j ip (h.locked j hl).1 hpos heq
    rw [hij, hlock] at hl
    cases hl
  obtain ⟨hintact, hdisk⟩ := h.disk.take (held_of_unlocked hlock) hlt htype hfree
  refine ⟨h.set hslot ?_ (Or.inr rfl) (h.ref ip) (fun _ => ⟨hpos, rfl⟩) (fun _ => ⟨hdev, hlt, htype⟩) nofun
    (fun _ j hj hj' => h.inum_ne hj hpos hj'), hintact⟩
  rw [held_setCache hslot]
  exact hdisk

end

variable (more) in
theorem run_ilock (hlock : (t.icache.slot ip).lock = none) (hpos : 0 < t.ref ip) :
    ∃ u, (machine more).run p (ilock sb ip) t = .ok () u ∧ Entered sb p own s e t ip u := by
  obtain ⟨-, -, htype⟩ := h.used ip hpos
  obtain ⟨halone, hintact⟩ := h.enter hlock hpos
  have hslot : (t.icache.set ip (t.lockedSlot sb p ip)).slot = update t.icache.slot ip (t.lockedSlot sb p ip) := rfl
  have hself := slot_setCache_self (s := t) hslot
  have hinum : (t.setCache (t.icache.set ip (t.lockedSlot sb p ip))).inum ip = t.inum ip := by
    unfold FsState.inum
    rw [hself]
    rfl
  have hmem : (t.setCache (t.icache.set ip (t.lockedSlot sb p ip))).mem ip = sb.dinode t.disk (t.inum ip) := by
    unfold FsState.mem
    rw [hself]
    rfl
  refine ⟨t.setCache (t.icache.set ip (t.lockedSlot sb p ip)), ?_, halone,
    hk.set hslot (hk.ref ip) (fun _ _ => rfl) (fun _ => rfl), by rw [hself]; rfl, ⟨by rw [hmem, hinum]; rfl, ?_⟩, hinum,
    fun j hj => slot_setCache_of_ne hslot hj, rfl⟩
  · have hnot : ¬t.ref ip < 1 := by omega
    unfold ilock fetch
    rw [run_iref, if_neg hnot, run_acquiresleep hlock, run_iload]
    have hself : ((t.setCache (t.icache.set ip ((t.icache.slot ip).setLock (some p)))).icache.slot ip) =
        (t.icache.slot ip).setLock (some p) := update_self ..
    rw [hself]
    by_cases hvalid : (t.icache.slot ip).inode.valid = true
    · have hvalid' : ((t.icache.slot ip).setLock (some p)).inode.valid = true := hvalid
      rw [if_pos hvalid', h.lockedSlot_of_valid hlock hpos hvalid]
      rfl
    · have hvalid' : ¬((t.icache.slot ip).setLock (some p)).inode.valid = true := hvalid
      have howner : (t.setCache (t.icache.set ip ((t.icache.slot ip).setLock (some p)))).owner
          (sb.iblock (t.inum ip)) = none := h.owner _
      rw [if_neg hvalid', show ((t.icache.slot ip).setLock (some p)).inode.inum = t.inum ip from rfl, run_bread howner,
        run_bdata, run_istore, run_brelse (update_self ..), setOwner_setCache_setOwner _ _ howner, run_setValid, run_iload]
      simp only [setCache_setCache, icache_setCache, icache_setOwner, disk_setOwner, disk_setCache,
        ICache.slot_set_self, ICache.set_set]
      rw [if_neg]
      · rfl
      · exact htype
  · rw [hmem, FsState.blocks, hinum]
    exact hintact

omit [DecidableEq P] in
theorem Alone.iunlock (hlock : (t.icache.slot ip).lock = some p) (htidy : Tidy sb own t ip) :
    Unlocked sb p own s e t ip (t.setCache (t.icache.releasesleep ip)) := by
  have hslot : (t.icache.releasesleep ip).slot = update t.icache.slot ip ((t.icache.slot ip).setLock none) := rfl
  obtain ⟨hpos, hvalid⟩ := h.locked ip hlock
  have hself := slot_setCache_self (s := t) hslot
  refine ⟨h.set hslot ?_ (Or.inl rfl) (h.ref ip) nofun (fun _ => h.used ip hpos) (fun _ _ _ => htidy.clean)
    (fun _ j hj hj' => h.inum_ne hj hpos hj'), hk.set hslot (hk.ref ip) (fun _ _ => rfl) (fun _ => rfl), ?_, ?_,
    fun j hj => slot_setCache_of_ne hslot hj, rfl⟩
  · have hintact : (sb.dinode t.disk (t.inum ip)).Intact sb (t.blocks own ip) := by
      rw [← htidy.clean]
      exact htidy.intact
    rw [held_setCache hslot]
    exact h.disk.put (held_of_lock sb own hlock) hintact
  · rw [hself]
    rfl
  · unfold FsState.inum
    rw [hself]
    rfl

variable (more) in
theorem run_iunlockput (hlock : (t.icache.slot ip).lock = some p) (htidy : Tidy sb own t ip) (he : 0 < e ip)
    (hstay : Stays sb s (t.inum ip)) :
    ∃ u, (machine more).run p (iunlockput sb ip) t = .ok () u ∧ Dropped sb p own s e t ip u := by
  have hleft := h.iunlock hk hlock htidy
  obtain ⟨u, hrun, hdrop⟩ := run_iput more hleft.alone hleft.kept hleft.lock he (by rw [hleft.inum]; exact hstay)
  refine ⟨u, ?_, hdrop.alone, hdrop.kept, hdrop.lock, hdrop.inum.trans hleft.inum, fun j hj => ?_, ?_⟩
  · unfold iunlockput
    rw [run_iunlock hlock (h.locked ip hlock).1]
    exact hrun
  · rw [hdrop.rest j hj, hleft.rest j hj]
  · rw [hdrop.frame]
    rfl

end Walk

end FsState

end Xv6
