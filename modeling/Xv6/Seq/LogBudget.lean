import Xv6.Seq.Filewrite
import Xv6.Lib.Pool

/-! The blocks that one transaction of `filewrite` logs. Each piece of a chunk logs a block of data and, if that is new,
a block of the free map; a new indirect block is logged with a block of the free map as well, once for all
pieces; and the inode is logged at the end. An unaligned chunk begins in a block that the file has. -/

namespace Xv6

open Lib Machine Dinode Finset

namespace Fs

/-- The calls log blocks of the set only. -/
def Logs {F : Sig} (L : Finset Nat) : ClientOp Nat (FsSig F) → Prop
  | .logWrite b => b ∈ L
  | _ => True

/-- The blocks logged by a list of calls. -/
def logged {F : Sig} (l : List (ClientOp Nat (FsSig F))) : Finset Nat :=
  (l.filterMap fun o => match o with
    | .logWrite b => some b
    | _ => none).toFinset

theorem logged_subset {F : Sig} {l : List (ClientOp Nat (FsSig F))} {L : Finset Nat} (h : ∀ o ∈ l, Logs L o) :
    logged l ⊆ L := by
  intro b hb
  obtain ⟨o, ho, hb⟩ := List.mem_filterMap.1 (List.mem_toFinset.1 hb)
  have hlogs := h o ho
  cases o with
  | logWrite b' =>
    obtain rfl : b' = b := Option.some.inj hb
    exact hlogs
  | _ => cases hb

end Fs

namespace FsState

open Fs

section Rules

variable {P X : Type} [DecidableEq P] {F : Sig} (more : P → (f : F.Op) → X → Outcome X (F.Ret f)) (p : P)

/-- A run logs blocks of the set only. -/
def LogsIn {α : Type} (L : Finset Nat) (m : FsM Nat F α) (s : FsState P X) : Prop :=
  (machine more).Along p (Logs L) (fun _ => True) m s

variable {more p} {α β : Type} {L L' : Finset Nat} {s : FsState P X} {b : Nat} {ip : Fin NINODE}
  {m : FsM Nat F α} {f : Unit → FsM Nat F α}

theorem LogsIn.mono (h : LogsIn more p L m s) (hL : L ⊆ L') : LogsIn more p L' m s := by
  induction m generalizing s with
  | ret a => trivial
  | call o k ih =>
    refine ⟨trivial, ?_, fun r t hexec => ih r (h.2.2 r t hexec)⟩
    have ho := h.2.1
    cases o with
    | logWrite b => exact hL ho
    | _ => trivial

theorem LogsIn.bind {f : α → FsM Nat F β} (hm : LogsIn more p L m s)
    (hf : ∀ a t, (machine more).run p m s = .ok a t → LogsIn more p L (f a) t) : LogsIn more p L (m >>= f) s :=
  Machine.Along.bind hm fun a t hrun _ => hf a t hrun

theorem logsIn_of_all (hm : m.All (Logs ∅)) : LogsIn more p L m s :=
  LogsIn.mono (L := ∅) (along_of_all hm (fun _ ho => ⟨ho, fun _ _ _ _ _ => trivial⟩) trivial) (empty_subset _)

theorem logsIn_pure (a : α) : LogsIn more p L (pure a) s := trivial

theorem logsIn_panic (msg : String) : LogsIn more p L (Fs.panic msg : FsM Nat F α) s :=
  ⟨trivial, trivial, fun _ _ h => nomatch h⟩

theorem logsIn_bread {dev : Nat} {f : Nat → FsM Nat F α} (hf : LogsIn more p L (f b) (s.setOwner b (some p))) :
    LogsIn more p L (Client.bread dev b >>= f) s := by
  refine ⟨trivial, trivial, fun r t h => ?_⟩
  change exec more p (.bread dev b) s = .ok r t at h
  rw [exec_bread] at h
  cases hown : s.owner b with
  | none =>
    rw [hown] at h
    cases h
    exact hf
  | some q =>
    rw [hown] at h
    cases h

theorem logsIn_bdata {f : Block → FsM Nat F α} (hf : LogsIn more p L (f (s.disk b)) s) :
    LogsIn more p L (Client.bdata b >>= f) s := by
  refine ⟨trivial, trivial, fun r t h => ?_⟩
  cases h
  exact hf

theorem logsIn_bstore {d : Block} (hf : LogsIn more p L (f ()) (s.setDisk b d)) :
    LogsIn more p L (Client.bstore b d >>= f) s := by
  refine ⟨trivial, trivial, fun r t h => ?_⟩
  cases h
  exact hf

theorem logsIn_bcopyin {off n : Nat} {src : Src} {f : Bool → FsM Nat F α}
    (hf : LogsIn more p L (f (eitherCopyin src n).2) (s.setDisk b ((s.disk b).copy off (eitherCopyin src n).1))) :
    LogsIn more p L (Client.bcopyin b off src n >>= f) s := by
  refine ⟨trivial, trivial, fun r t h => ?_⟩
  cases h
  exact hf

theorem logsIn_logWrite (hb : b ∈ L) (hf : LogsIn more p L (f ()) s) : LogsIn more p L (Client.logWrite b >>= f) s := by
  refine ⟨trivial, hb, fun r t h => ?_⟩
  have h' : (if s.op p then .ok () s else .panic "log_write outside of trans" : Outcome (FsState P X) Unit) = .ok r t := h
  split at h'
  · cases h'
    exact hf
  · cases h'

theorem logsIn_brelse (hf : LogsIn more p L (f ()) (s.setOwner b none)) :
    LogsIn more p L (Client.brelse b >>= f) s := by
  refine ⟨trivial, trivial, fun r t h => ?_⟩
  have h' : (if s.owner b = some p then .ok () (s.setOwner b none) else .panic "brelse" :
    Outcome (FsState P X) Unit) = .ok r t := h
  split at h'
  · cases h'
    exact hf
  · cases h'

theorem logsIn_brelse_last : LogsIn more p L (Client.brelse b : FsM Nat F Unit) s :=
  ⟨trivial, trivial, fun _ _ _ => trivial⟩

theorem logsIn_iload {f : Inode → FsM Nat F α} (hf : LogsIn more p L (f (s.icache.slot ip).inode) s) :
    LogsIn more p L (Fs.iload ip >>= f) s := by
  refine ⟨trivial, trivial, fun r t h => ?_⟩
  cases h
  exact hf

theorem logsIn_istore {v : Dinode}
    (hf : LogsIn more p L (f ()) (s.setCache (s.icache.set ip ((s.icache.slot ip).setDinode v)))) :
    LogsIn more p L (Fs.istore ip v >>= f) s := by
  refine ⟨trivial, trivial, fun r t h => ?_⟩
  cases h
  exact hf

/-- The calls of a run, by the calls of the program. -/
theorem LogsIn.logged (h : LogsIn more p L m s) : logged ((machine more).trace p m s) ⊆ L := by
  refine logged_subset ?_
  induction m generalizing s with
  | ret a => exact fun o ho => nomatch ho
  | call o k ih =>
    intro o' ho'
    rw [Machine.trace] at ho'
    rcases List.mem_cons.1 ho' with rfl | ho'
    · exact h.2.1
    · cases hexec : (machine more).exec p o s with
      | ok r t =>
        rw [hexec] at ho'
        exact ih r (h.2.2 r t hexec) o' ho'
      | block | panic =>
        rw [hexec] at ho'
        cases ho'

end Rules

variable {P X : Type} [DecidableEq P] {F : Sig} {more : P → (f : F.Op) → X → Outcome X (F.Ret f)} {p : P}
  {sb : Superblock} {s : FsState P X} {own : Nat → Option Nat} {ip : Fin NINODE}

/-! ### New blocks -/

theorem logsIn_bzero {L : Finset Nat} {b : Nat} (hb : b ∈ L) : LogsIn more p L (bzero b) s :=
  logsIn_bread (logsIn_bstore (logsIn_logWrite hb logsIn_brelse_last))

section Balloc

variable (hok : sb.Ok) (hop : s.op p = true) (hmap : ∀ x, x < sb.size → s.owner (sb.bblock x) = none)
  (hfree : ∀ x, x < sb.size → sb.used s.disk x = false → s.owner x = none)
include hok hop hmap hfree

theorem logsIn_ballocFrom : ∀ (fuel b : Nat), b % BPB = 0 → ∃ x, LogsIn more p {sb.bblock x, x} (ballocFrom sb fuel b) s ∧
    ∀ a t, (machine more).run p (ballocFrom sb fuel b) s = .ok a t → a.val = x := by
  intro fuel
  induction fuel with
  | zero =>
    intro b _
    exact ⟨0, logsIn_panic _, fun _ _ h => by cases h⟩
  | succ fuel ih =>
    intro b hb
    rw [ballocFrom]
    by_cases hlt : b < sb.size
    · rw [if_pos hlt]
      cases hbit : freeBit sb b (s.disk (sb.bblock b)) with
      | none =>
        obtain ⟨x, hlogs, hrun⟩ := ih (b + BPB) (by rw [Nat.add_mod_right, hb])
        refine ⟨x, logsIn_bread (logsIn_bdata ?_), fun a t h => ?_⟩
        · rw [disk_setOwner, hbit]
          refine logsIn_brelse ?_
          rw [setOwner_setOwner _ (hmap b hlt)]
          exact hlogs
        · rw [run_bread (hmap b hlt), run_bdata, disk_setOwner, hbit, run_brelse (Function.update_self ..),
            setOwner_setOwner _ (hmap b hlt)] at h
          exact hrun a t h
      | some bi =>
        obtain ⟨hbi, hlt', hclear⟩ := freeBit_some hbit
        obtain ⟨hdiv, hmod⟩ := bblock_add sb hb hbi
        refine ⟨b + bi, logsIn_bread (logsIn_bdata ?_), fun a t h => ?_⟩
        · rw [disk_setOwner, hbit]
          refine logsIn_bstore (logsIn_logWrite ?_ (logsIn_brelse ((logsIn_bzero ?_).bind fun _ _ _ => logsIn_pure _)))
          · rw [hdiv]
            exact mem_insert_self ..
          · exact mem_insert_of_mem (mem_singleton_self _)
        · have hfree' : (s.setDisk (sb.bblock b) ((s.disk (sb.bblock b)).setBit bi)).owner (b + bi) = none := by
            refine hfree _ hlt' ?_
            rw [Superblock.used, hdiv, hmod]
            exact hclear
          rw [run_bread (hmap b hlt), run_bdata, disk_setOwner, hbit, run_modify (hmap b hlt) hop,
            run_bind_ok (run_bzero hfree' hop)] at h
          cases h
          exact Uint.val_of (Nat.lt_trans hlt' hok.uint)
    · rw [if_neg hlt]
      exact ⟨0, logsIn_panic _, fun _ _ h => by cases h⟩

variable (more) in
theorem logsIn_balloc : ∃ x, LogsIn more p {sb.bblock x, x} (balloc sb) s ∧
    ∀ a t, (machine more).run p (balloc sb) s = .ok a t → a.val = x :=
  logsIn_ballocFrom hok hop hmap hfree (sb.size + 1) 0 rfl

end Balloc

section Bmap

variable (h : Alone sb p own s) (hlock : (s.icache.slot ip).lock = some p) (hop : s.op p = true)
  (hmapped : (s.mem ip).Mapped (s.blocks own ip))
include h hlock hop hmapped

variable (more) in
omit hlock hmapped in
/-- One entry of `addrs` gets a new block. -/
theorem logsIn_newAddr (ip : Fin NINODE) (j : Nat) : ∃ x, LogsIn more p {sb.bblock x, x} (newAddr sb ip j) s ∧
    ∀ a t, (machine more).run p (newAddr sb ip j) s = .ok a t → a.val = x := by
  obtain ⟨x, hlogs, hrun⟩ := logsIn_balloc more h.ok hop (fun x _ => h.owner _) (fun x _ _ => h.owner x)
  refine ⟨x, hlogs.bind fun a t _ => logsIn_iload (logsIn_istore (logsIn_pure a)), fun a t hok => ?_⟩
  obtain ⟨a', u, hok', hrest⟩ := run_bind_eq_ok.1 hok
  rw [run_iload, run_istore] at hrest
  cases hrest
  exact hrun a u hok'

omit h hlock hop in
theorem logsIn_bmap_mapped {bn : Nat} (hbn : bn < MAXFILE)
    (hslot : (s.mem ip).slot (s.blocks own ip) (fileSlot bn) ≠ 0) : LogsIn more p ∅ (bmap sb ip bn) s := by
  refine logsIn_iload ?_
  by_cases hdir : bn < NDIRECT
  · rw [fileSlot_of_lt hdir, slot_of_le hdir.le] at hslot
    have hne : ¬(s.icache.slot ip).inode.addr bn = 0 := hslot
    rw [if_pos hdir, if_neg hne]
    exact logsIn_pure _
  · have hk := lt_of_not_direct hbn hdir
    rw [fileSlot_of_ge hdir] at hslot
    have hgt : NDIRECT < NDIRECT + 1 + (bn - NDIRECT) := by omega
    have hsub : NDIRECT + 1 + (bn - NDIRECT) - (NDIRECT + 1) = bn - NDIRECT := by omega
    have hne : ¬(s.icache.slot ip).inode.addr NDIRECT = 0 := by
      intro hzero
      have hzero' : (s.mem ip).addr NDIRECT = 0 := hzero
      exact hslot (slot_of_none hgt (by rw [hzero']; exact hmapped.zero))
    obtain ⟨c, hc⟩ := hmapped.indirect hne
    have hdisk : s.disk ((s.icache.slot ip).inode.addr NDIRECT) = c := by
      have hown := (isSome_content s.disk).1 (Option.isSome_iff_exists.2 ⟨c, hc⟩)
      rw [FsState.blocks, content_of_own hown] at hc
      exact Option.some.inj hc
    rw [slot_of_gt hgt hc, hsub] at hslot
    have hentry : ¬c.entry (bn - NDIRECT) = 0 := fun hzero => hslot (by rw [hzero]; rfl)
    rw [if_neg hdir, if_pos hk, bmapIndirect, if_neg hne, pure_bind, val_addr]
    refine logsIn_bread (logsIn_bdata ?_)
    rw [disk_setOwner, hdisk, if_neg hentry]
    exact logsIn_brelse (logsIn_pure _)

variable (more) in
theorem logsIn_bmapIndirect : ∃ J : Finset Nat, J.card ≤ 2 ∧
    ((s.mem ip).addr NDIRECT ≠ 0 → J ⊆ {(s.mem ip).addr NDIRECT}) ∧
    LogsIn more p J (bmapIndirect sb ip (s.icache.slot ip).inode) s ∧
    ∀ a t, (machine more).run p (bmapIndirect sb ip (s.icache.slot ip).inode) s = .ok a t →
      a.val ∈ J ∧ a.val ≠ 0 ∧ (t.mem ip).addr NDIRECT = a.val ∧ ∃ own', Grown sb p ip own own' s t := by
  unfold bmapIndirect
  by_cases hempty : (s.icache.slot ip).inode.addr NDIRECT = 0
  · rw [if_pos hempty]
    obtain ⟨x, hlogs, hval⟩ := logsIn_newAddr more h hop ip NDIRECT
    refine ⟨{sb.bblock x, x}, card_le_two, fun hne => absurd hempty hne, hlogs, fun a t hrun => ?_⟩
    have hholds : ((machine more).run p (newAddr sb ip NDIRECT) s).Holds (fun _ => True) _ :=
      holds_newAddr h hlock hop hmapped (le_refl _) hempty fun _ => trivial
    obtain ⟨own', hgrown, hne, hmem, -⟩ := hholds.of_ok hrun
    refine ⟨?_, hne, ?_, own', hgrown⟩
    · rw [hval a t hrun]
      exact mem_insert_of_mem (mem_singleton_self x)
    · rw [hmem, addr_setAddr (le_refl _), if_pos rfl]
  · rw [if_neg hempty]
    refine ⟨{(s.mem ip).addr NDIRECT}, by simp, fun _ => Finset.Subset.refl _, logsIn_pure _, fun a t hrun => ?_⟩
    cases hrun
    have hval : (Uint.of ((s.icache.slot ip).inode.addr NDIRECT)).val = (s.mem ip).addr NDIRECT := val_addr ..
    exact ⟨mem_singleton.2 hval, by rw [hval]; exact hempty, hval.symm, own, h, Works.refl ..,
      Dinode.Grows.refl hmapped⟩

variable (more) in
theorem logsIn_bmapEntry {k b : Nat} (hk : k < NINDIRECT) (hb : (s.mem ip).addr NDIRECT = b) (hne : b ≠ 0) :
    ∃ D : Finset Nat, D.card ≤ 2 ∧ LogsIn more p (D ∪ {b}) (bmapEntry sb b k) s ∧
      ∀ a t, (machine more).run p (bmapEntry sb b k) s = .ok a t → a.val ∈ D ∧ t.mem ip = s.mem ip := by
  obtain ⟨c, hc⟩ := hmapped.indirect (by rw [hb]; exact hne)
  rw [hb] at hc
  have hown : own b = some (s.inum ip) := (isSome_content s.disk).1 (Option.isSome_iff_exists.2 ⟨c, hc⟩)
  have hdisk : s.disk b = c := by
    rw [FsState.blocks, content_of_own hown] at hc
    exact Option.some.inj hc
  by_cases hentry : c.entry k = 0
  · obtain ⟨hmap, hfree⟩ := h.owner_setOwner (some p) (b := b) (by rw [hown]; rfl)
    obtain ⟨x, hlogs, hval⟩ := logsIn_balloc more (s := s.setOwner b (some p)) h.ok hop hmap hfree
    refine ⟨{sb.bblock x, x}, card_le_two, logsIn_bread (logsIn_bdata ?_), fun a t hrun => ?_⟩
    · rw [disk_setOwner, hdisk, if_pos hentry]
      exact (hlogs.mono subset_union_left).bind fun a t _ => logsIn_bstore (logsIn_logWrite
        (mem_union_right _ (mem_singleton_self b)) (logsIn_brelse (logsIn_pure a)))
    · rw [bmapEntry, run_bread (h.owner _), run_bdata, disk_setOwner, hdisk, if_pos hentry] at hrun
      have hholds : ((machine more).run p (newEntry sb b k c) (s.setOwner b (some p))).Holds (fun _ => True) _ :=
        holds_newEntry h hlock hop hmapped hk hb hc hentry fun _ => trivial
      obtain ⟨own', -, -, -, hmem, -⟩ := hholds.of_ok hrun
      obtain ⟨a', u, hok, hrest⟩ := run_bind_eq_ok.1 hrun
      obtain ⟨_, _, _, hrest₁⟩ := run_bind_eq_ok.1 hrest
      obtain ⟨_, _, _, hrest₂⟩ := run_bind_eq_ok.1 hrest₁
      obtain ⟨_, _, _, hrest₃⟩ := run_bind_eq_ok.1 hrest₂
      cases hrest₃
      refine ⟨?_, hmem⟩
      rw [hval a u hok]
      exact mem_insert_of_mem (mem_singleton_self x)
  · refine ⟨{(c.entry k).val}, by simp, logsIn_bread (logsIn_bdata ?_), fun a t hrun => ?_⟩
    · rw [disk_setOwner, hdisk, if_neg hentry]
      exact logsIn_brelse (logsIn_pure _)
    · rw [bmapEntry, run_bread (h.owner _), run_bdata, disk_setOwner, hdisk, if_neg hentry,
        run_brelse (Function.update_self ..), setOwner_setOwner _ (h.owner b)] at hrun
      cases hrun
      exact ⟨mem_singleton_self _, rfl⟩

/-- What a call of `bmap` logs: the block of data and its block of the free map in `D`, the indirect block and that of
the free map in `J`. -/
structure BmapLogs (more : P → (f : F.Op) → X → Outcome X (F.Ret f)) (p : P) (sb : Superblock) (own : Nat → Option Nat)
    (ip : Fin NINODE) (bn : Nat) (s : FsState P X) (D J : Finset Nat) : Prop where
  logs : LogsIn more p (D ∪ J) (bmap sb ip bn) s
  card : D.card ≤ 2
  card_mapped : (s.mem ip).slot (s.blocks own ip) (fileSlot bn) ≠ 0 → D.card ≤ 1
  indirect : J.card ≤ 2
  indirect_mapped : (s.mem ip).addr NDIRECT ≠ 0 → J ⊆ {(s.mem ip).addr NDIRECT}
  result : ∀ a t, (machine more).run p (bmap sb ip bn) s = .ok a t → a.val ∈ D ∧
    (J = ∅ ∧ (t.mem ip).addr NDIRECT = (s.mem ip).addr NDIRECT ∨
      (t.mem ip).addr NDIRECT ≠ 0 ∧ (t.mem ip).addr NDIRECT ∈ J)

variable (more) in
theorem exists_bmapLogs_direct {bn : Nat} (hdir : bn < NDIRECT) (hslot : (s.mem ip).addr bn = 0) :
    ∃ D J, BmapLogs more p sb own ip bn s D J := by
  have hempty : (s.icache.slot ip).inode.addr bn = 0 := hslot
  obtain ⟨x, hlogs, hval⟩ := logsIn_newAddr more h hop ip bn
  refine ⟨{sb.bblock x, x}, ∅, ?_, card_le_two, fun hne => ?_, by simp, fun _ => empty_subset _, fun a t hrun => ?_⟩
  · rw [union_empty]
    refine logsIn_iload ?_
    rw [if_pos hdir, if_pos hempty]
    exact hlogs
  · rw [fileSlot_of_lt hdir, slot_of_le hdir.le] at hne
    exact absurd hslot hne
  · rw [bmap, run_iload, if_pos hdir, if_pos hempty] at hrun
    have hholds : ((machine more).run p (newAddr sb ip bn) s).Holds (fun _ => True) _ :=
      holds_newAddr h hlock hop hmapped hdir.le hslot fun _ => trivial
    obtain ⟨own', -, -, hmem, -⟩ := hholds.of_ok hrun
    refine ⟨?_, Or.inl ⟨rfl, ?_⟩⟩
    · rw [hval a t hrun]
      exact mem_insert_of_mem (mem_singleton_self x)
    · rw [hmem, addr_setAddr hdir.le, if_neg (Nat.ne_of_gt hdir)]

variable (more) in
theorem exists_bmapLogs_indirect {bn : Nat} (hbn : bn < MAXFILE) (hdir : ¬bn < NDIRECT)
    (hslot : (s.mem ip).slot (s.blocks own ip) (fileSlot bn) = 0) : ∃ D J, BmapLogs more p sb own ip bn s D J := by
  have hk := lt_of_not_direct hbn hdir
  obtain ⟨J, hJ, hJ', hlogs, hind⟩ := logsIn_bmapIndirect more h hlock hop hmapped
  -- the second part runs only if the first one returns
  by_cases hfirst : ∃ a t, (machine more).run p (bmapIndirect sb ip (s.icache.slot ip).inode) s = .ok a t
  · obtain ⟨a, t, hok⟩ := hfirst
    obtain ⟨hmem, hne, haddr, own', hgrown⟩ := hind a t hok
    have hlock' : (t.icache.slot ip).lock = some p := by rw [hgrown.works.lock, hlock]
    have hop' : t.op p = true := by rw [hgrown.works.op, hop]
    obtain ⟨D, hD, hlogs', hentry⟩ := logsIn_bmapEntry more hgrown.alone hlock' hop' hgrown.grows.mapped hk haddr hne
    refine ⟨D, J, ?_, hD, fun hne => absurd hslot hne, hJ, hJ', fun a' u hrun => ?_⟩
    · rw [bmap]
      refine logsIn_iload ?_
      rw [if_neg hdir, if_pos hk]
      refine (hlogs.mono subset_union_right).bind fun a' t' hok' => ?_
      rw [hok] at hok'
      cases hok'
      exact hlogs'.mono (union_subset_union_right (singleton_subset_iff.2 hmem))
    · rw [bmap, run_iload, if_neg hdir, if_pos hk, run_bind_ok hok] at hrun
      obtain ⟨hD', hmem'⟩ := hentry a' u hrun
      refine ⟨hD', Or.inr ?_⟩
      rw [hmem', haddr]
      exact ⟨hne, hmem⟩
  · refine ⟨∅, J, ?_, by simp, fun _ => by simp, hJ, hJ', fun a t hrun => ?_⟩
    · rw [bmap]
      refine logsIn_iload ?_
      rw [if_neg hdir, if_pos hk]
      exact (hlogs.mono subset_union_right).bind fun a t hok => absurd ⟨a, t, hok⟩ hfirst
    · rw [bmap, run_iload, if_neg hdir, if_pos hk] at hrun
      obtain ⟨a', t', hok, -⟩ := run_bind_eq_ok.1 hrun
      exact absurd ⟨a', t', hok⟩ hfirst

variable (more) in
theorem exists_bmapLogs {bn : Nat} (hbn : bn < MAXFILE) : ∃ D J, BmapLogs more p sb own ip bn s D J := by
  by_cases hslot : (s.mem ip).slot (s.blocks own ip) (fileSlot bn) = 0
  · by_cases hdir : bn < NDIRECT
    · rw [fileSlot_of_lt hdir, slot_of_le hdir.le] at hslot
      exact exists_bmapLogs_direct more h hlock hop hmapped hdir hslot
    · exact exists_bmapLogs_indirect more h hlock hop hmapped hbn hdir hslot
  · refine ⟨{(s.mem ip).slot (s.blocks own ip) (fileSlot bn)}, ∅,
      (logsIn_bmap_mapped hmapped hbn hslot).mono (empty_subset _), by simp, fun _ => by simp, by simp,
      fun _ => empty_subset _, fun a t hrun => ?_⟩
    rw [run_bmap_mapped h.owner hmapped hbn hslot] at hrun
    cases hrun
    exact ⟨mem_singleton.2 (val_slot ..), Or.inl ⟨rfl, rfl⟩⟩

end Bmap

/-! ### Writes -/

/-- The number of blocks that the bytes from `off` on are in. -/
def pieces (off len : Nat) : Nat := if len = 0 then 0 else (off % BSIZE + len + (BSIZE - 1)) / BSIZE

theorem pieces_step (off : Nat) {len k : Nat} (hk : k = min len (BSIZE - off % BSIZE)) (hlen : 0 < len) :
    pieces off len = pieces (off + k) (len - k) + 1 := by
  unfold pieces
  show (if len = 0 then 0 else (off % 1024 + len + 1023) / 1024) =
    (if len - k = 0 then 0 else ((off + k) % 1024 + (len - k) + 1023) / 1024) + 1
  have hk' : k = min len (1024 - off % 1024) := hk
  split <;> split <;> omega

theorem pieces_le (off : Nat) {n : Nat} (h : n ≤ CHUNK) : pieces off n ≤ 4 ∧ (off % BSIZE = 0 → pieces off n ≤ 3) := by
  have h' : n ≤ 3072 := h
  unfold pieces
  show (if n = 0 then 0 else (off % 1024 + n + 1023) / 1024) ≤ 4 ∧
    (off % 1024 = 0 → (if n = 0 then 0 else (off % 1024 + n + 1023) / 1024) ≤ 3)
  split <;> omega

variable (more) in
theorem logsIn_writeiFrom (n : Nat) : ∀ (fuel : Nat) (src : Src) (tot off : Nat) {own : Nat → Option Nat}
    {s : FsState P X}, src.Ok → n - tot ≤ fuel → off + (n - tot) ≤ MAXFILE * BSIZE → Alone sb p own s →
    (s.icache.slot ip).lock = some p → s.op p = true → (s.mem ip).Mapped (s.blocks own ip) →
    ∃ D J : Finset Nat, LogsIn more p (D ∪ J) (writeiFrom sb ip n fuel src tot off) s ∧
      D.card ≤ 2 * pieces off (n - tot) ∧
      (tot < n → (s.mem ip).slot (s.blocks own ip) (fileSlot (off / BSIZE)) ≠ 0 →
        D.card + 1 ≤ 2 * pieces off (n - tot)) ∧
      J.card ≤ 2 ∧ ((s.mem ip).addr NDIRECT ≠ 0 → J ⊆ {(s.mem ip).addr NDIRECT}) := by
  intro fuel
  induction fuel with
  | zero =>
    intro src tot off own s _ hfuel _ _ _ _ _
    exact ⟨∅, ∅, logsIn_pure _, by simp, by omega, by simp, fun _ => empty_subset _⟩
  | succ fuel ih =>
    intro src tot off own s hsrc hfuel hmax h hlock hop hmapped
    rw [writeiFrom]
    by_cases hlt : tot < n
    · rw [if_pos hlt]
      have hmod : off % BSIZE < BSIZE := Nat.mod_lt _ (by decide)
      have hbn : off / BSIZE < MAXFILE := Nat.div_lt_of_lt_mul (by rw [Nat.mul_comm]; omega)
      have hstep := pieces_step off rfl (Nat.sub_pos_of_lt hlt)
      have hle : min (n - tot) (BSIZE - off % BSIZE) ≤ n - tot := Nat.min_le_left ..
      have hle' : min (n - tot) (BSIZE - off % BSIZE) ≤ BSIZE - off % BSIZE := Nat.min_le_right ..
      have hpos : 0 < min (n - tot) (BSIZE - off % BSIZE) := by omega
      dsimp only
      generalize min (n - tot) (BSIZE - off % BSIZE) = k at hle hle' hpos hstep
      obtain ⟨D, J, hlogs, hD, hD', hJ, hJ', hres⟩ := exists_bmapLogs more h hlock hop hmapped hbn
      by_cases hfirst : ∃ a t, (machine more).run p (bmap sb ip (off / BSIZE)) s = .ok a t
      · obtain ⟨a, t, hok⟩ := hfirst
        have hholds : ((machine more).run p (bmap sb ip (off / BSIZE)) s).Holds (fun _ => True) _ :=
          holds_bmap h hlock hop hmapped hbn fun _ => trivial
        obtain ⟨own', hg, ha, hne, hfree⟩ := hholds.of_ok hok
        obtain ⟨hmem, hJt⟩ := hres a t hok
        obtain ⟨hcopied, hcopy⟩ := eitherCopyin_spec hsrc k
        by_cases hlen : (eitherCopyin src k).1.length = k
        · have hlock' : (t.icache.slot ip).lock = some p := by rw [hg.works.lock, hlock]
          have hw : Wrote sb p ip (Finset.range NSLOT) src off k own own' s (t.setDisk a.val
              ((t.disk a.val).copy (off % BSIZE) (eitherCopyin src k).1)) (off + k) (eitherCopyin src k).1 := by
            rw [ha] at hne ⊢
            exact Wrote.piece hg hlock' hbn hne hfree (by omega) hpos (covers_range (by omega)) hcopied (Or.inr ⟨rfl, hlen⟩)
          obtain ⟨D₂, J₂, hlogs₂, hD₂, -, hJ₂, hJ₂'⟩ := ih (src.add k) (tot + k) (off + k) (src.ok_add k) (by omega)
            (by omega) hw.alone (by rw [hw.works.lock, hlock]) (by rw [hw.works.op, hop]) hw.mapped
          have hsub : n - (tot + k) = n - tot - k := by omega
          have hcard := card_union_le D D₂
          rw [hsub] at hD₂
          -- the indirect block is the same for all pieces
          obtain ⟨J₃, hJ₃, hJ₃', hsub₁, hsub₂⟩ : ∃ J₃ : Finset Nat, J₃.card ≤ 2 ∧
              ((s.mem ip).addr NDIRECT ≠ 0 → J₃ ⊆ {(s.mem ip).addr NDIRECT}) ∧ J ⊆ J₃ ∧ J₂ ⊆ J₃ := by
            rcases hJt with ⟨rfl, haddr⟩ | ⟨hne', hmem'⟩
            · refine ⟨J₂, hJ₂, fun hne' => ?_, empty_subset _, Finset.Subset.refl _⟩
              rw [← haddr] at hne' ⊢
              exact hJ₂' hne'
            · exact ⟨J, hJ, hJ', Finset.Subset.refl _, (hJ₂' hne').trans (singleton_subset_iff.2 hmem')⟩
          refine ⟨D ∪ D₂, J₃, ?_, by omega, fun _ hne' => ?_, hJ₃, hJ₃'⟩
          · refine (hlogs.mono (union_subset_union subset_union_left hsub₁)).bind fun a' t' hok' => ?_
            rw [hok] at hok'
            cases hok'
            refine logsIn_bread (logsIn_bcopyin ?_)
            rw [if_pos (hcopy.2 hlen), disk_setOwner]
            refine logsIn_logWrite (mem_union_left _ (mem_union_left _ hmem)) (logsIn_brelse ?_)
            rw [setOwner_setDisk_setOwner _ _ (hg.alone.owner _)]
            exact hlogs₂.mono (union_subset_union subset_union_right hsub₂)
          · have := hD' hne'
            omega
        · refine ⟨D, J, ?_, by omega, fun _ hne' => ?_, hJ, hJ'⟩
          · refine hlogs.bind fun a' t' _ => logsIn_bread (logsIn_bcopyin ?_)
            rw [if_neg fun hok' => hlen (hcopy.1 hok')]
            exact logsIn_brelse (logsIn_pure _)
          · have := hD' hne'
            omega
      · refine ⟨D, J, hlogs.bind fun a t hok => absurd ⟨a, t, hok⟩ hfirst, by omega, fun _ hne' => ?_, hJ, hJ'⟩
        have := hD' hne'
        omega
    · rw [if_neg hlt]
      exact ⟨∅, ∅, logsIn_pure _, by simp, fun hlt' => absurd hlt' hlt, by simp, fun _ => empty_subset _⟩

theorem logsIn_iupdate {L : Finset Nat} (hL : sb.iblock (s.inum ip) ∈ L) : LogsIn more p L (iupdate sb ip) s :=
  logsIn_iload (logsIn_bread (logsIn_bdata (logsIn_bstore (logsIn_logWrite hL logsIn_brelse_last))))

variable (more) in
/-- The blocks that `writei` logs. -/
theorem logsIn_writei {src : Src} (off : Nat) {n : Nat} (hsrc : src.Ok) (h : Alone sb p own s)
    (hlock : (s.icache.slot ip).lock = some p) (hop : s.op p = true) (htidy : Tidy sb own s ip) (hn : n ≤ CHUNK) :
    ∃ L : Finset Nat, L.card ≤ MAXOPBLOCKS ∧ LogsIn more p L (writei sb ip src off n) s := by
  unfold writei
  by_cases hrange : off > (s.icache.slot ip).inode.size.val ∨ (off + n) % 2 ^ 32 < off
  · refine ⟨∅, by simp, logsIn_iload ?_⟩
    rw [if_pos hrange]
    exact logsIn_pure _
  · by_cases hbig : off + n > MAXFILE * BSIZE
    · refine ⟨∅, by simp, logsIn_iload ?_⟩
      rw [if_neg hrange, if_pos hbig]
      exact logsIn_pure _
    · obtain ⟨D, J, hlogs, hD, hD', hJ, -⟩ := logsIn_writeiFrom more n n src 0 off hsrc (by omega) (by omega) h hlock hop
        htidy.intact.mapped
      have hpieces := pieces_le off hn
      rw [Nat.sub_zero] at hD hD'
      have hcard : D.card ≤ 7 := by
        by_cases hzero : off % BSIZE = 0
        · have := hpieces.2 hzero
          omega
        · by_cases hpos : 0 < n
          · -- the first block is not full, so that it is there
            have hmul : off / BSIZE * BSIZE < (s.mem ip).size.val := by
              have hle : off ≤ (s.mem ip).size.val := Nat.le_of_not_lt fun hlt => hrange (Or.inl hlt)
              have hdiv := Nat.div_add_mod' off BSIZE
              omega
            have := hD' hpos (htidy.intact.full _ hmul).2
            omega
          · obtain rfl : n = 0 := by omega
            have hnone : pieces off 0 = 0 := rfl
            omega
      refine ⟨(D ∪ J) ∪ {sb.iblock (s.inum ip)}, ?_, logsIn_iload ?_⟩
      · have h₁ := card_union_le (D ∪ J) {sb.iblock (s.inum ip)}
        have h₂ := card_union_le D J
        have h₃ : ({sb.iblock (s.inum ip)} : Finset Nat).card = 1 := card_singleton _
        show _ ≤ 10
        omega
      · rw [if_neg hrange, if_neg hbig]
        refine (hlogs.mono subset_union_left).bind fun stop t hok => ?_
        have hholds : ((machine more).run p (writeiFrom sb ip n n src 0 off) s).Holds (fun _ => True) _ :=
          holds_writeiFrom n n src 0 off hsrc (by omega) (by omega) (covers_range (by omega)) h hlock hop
            htidy.intact.mapped fun _ => trivial
        obtain ⟨own', bytes, hw⟩ := hholds.of_ok hok
        have hinum : sb.iblock (t.inum ip) ∈ (D ∪ J) ∪ {sb.iblock (s.inum ip)} := by
          rw [hw.works.inum]
          exact mem_union_right _ (mem_singleton_self _)
        by_cases hpos : 0 < n
        · rw [if_pos hpos]
          refine logsIn_iload ?_
          by_cases hgt : stop > (t.icache.slot ip).inode.size.val
          · rw [if_pos hgt]
            refine logsIn_istore ((logsIn_iupdate ?_).bind fun _ _ _ => logsIn_pure _)
            rw [setCache_set, inum_work]
            exact hinum
          · rw [if_neg hgt, pure_bind]
            exact (logsIn_iupdate hinum).bind fun _ _ _ => logsIn_pure _
        · rw [if_neg hpos]
          exact logsIn_pure _

theorem ilock_logs_nothing (sb : Superblock) (ip : Fin NINODE) : (ilock sb ip : FsM Nat F Unit).All (Logs ∅) := by
  refine .op_bind trivial fun ref => ?_
  split
  · exact ⟨trivial, nofun⟩
  · refine .op_bind trivial fun _ => .op_bind trivial fun n => ?_
    split
    · trivial
    · refine .op_bind trivial fun bp => .op_bind trivial fun d => .op_bind trivial fun _ => .op_bind trivial fun _ =>
        .op_bind trivial fun _ => .op_bind trivial fun n => ?_
      split
      · exact ⟨trivial, nofun⟩
      · trivial

/-- A transaction of `filewrite` logs no more blocks than it has reserved. -/
theorem filewrite_fits_log {P : Type} [DecidableEq P] {p : P} {s : FsState P (FileState P)} {f : Fin NFILE}
    {src : Src} {i n1 : Nat} (h : Wf sb own s) (hpos : 0 < s.ref ip) (hn : n1 ≤ CHUNK) :
    (logged (files.trace p (chunk sb f ip (src.add i) n1) s)).card ≤ MAXOPBLOCKS := by
  obtain ⟨u, hin, hrun⟩ := run_open (p := p) h hpos
  have hopen : files.run p (Client.beginOp >>= fun _ => ilock sb ip) s = .ok () u := by
    have hpure := hrun Unit pure
    simp only [bind_pure] at hpure
    exact hpure
  obtain ⟨L, hcard, hlogs⟩ := logsIn_writei fileExec (u.ext.file f).off.val (src.ok_add i) hin.alone hin.lock hin.op
    hin.tidy hn
  have hchunk : LogsIn fileExec p L (chunk sb f ip (src.add i) n1) s := by
    refine LogsIn.bind (m := Client.beginOp >>= fun _ => ilock sb ip)
      (logsIn_of_all (.op_bind trivial fun _ => ilock_logs_nothing sb ip)) fun _ t hok => ?_
    rw [hopen] at hok
    cases hok
    refine LogsIn.bind (m := advance sb f ip (src.add i) n1) ⟨trivial, trivial, fun ff t hexec => ?_⟩ fun r t _ =>
      logsIn_of_all (.op_bind trivial fun _ => .op_bind trivial fun _ => trivial)
    cases hexec
    refine hlogs.bind fun r t _ => logsIn_of_all (.bind ?_ fun _ => trivial)
    split
    · exact (Prog.all_op _).2 trivial
    · trivial
  exact Nat.le_trans (card_le_card hchunk.logged) hcard

/-- A chunk of three blocks for an empty file. -/
theorem filewrite_fits_log_full : (logged (files.trace () (chunk Superblock.tiny 0 0
    (Src.add (.user (fun _ => some fun _ => 7) 0) 0) CHUNK) (emptyFile Unit))).card ≤ MAXOPBLOCKS :=
  filewrite_fits_log (wf_emptyFile Unit) Int.one_pos (Nat.le_refl _)

end FsState

end Xv6
