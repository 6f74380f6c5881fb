import Xv6.Seq.Link

/-! The system calls on names that fail, for a process that runs alone: what they did on the way is undone. -/

namespace Xv6

open Lib Machine Dinode

namespace FsState

open Fs

section Common

variable {P X : Type} {p : P} {sb : Superblock} {own : Nat → Option Nat} {s t u : FsState P X} {ip dp : Fin NINODE}
  {n : Nat}

/-- The disk, the references to inodes and the state above are the same. -/
structure Unchanged (s t : FsState P X) : Prop where
  disk : t.disk = s.disk
  ref : ∀ j, t.ref j = s.ref j
  ext : t.ext = s.ext

theorem Rests.unchanged (h : Rests sb p own s (fun _ => 0) t) : Unchanged s t where
  disk := h.kept.disk
  ref j := by
    have href := h.kept.ref j
    rwa [Nat.cast_zero, Int.add_zero] at href
  ext := h.kept.ext

variable [DecidableEq P] {F : Sig} {more : P → (f : F.Op) → X → Outcome X (F.Ret f)}

/-- `ilock` of an inode that the process has locked already never ends. -/
theorem ensures_ilock_locked (h : (s.icache.slot ip).lock ≠ none) {Q : Unit → FsState P X → Prop} :
    ((machine more).run p (ilock sb ip) s).Ensures Q := by
  obtain ⟨q, hq⟩ := Option.ne_none_iff_exists'.1 h
  unfold ilock
  rw [run_iref]
  split
  · trivial
  · have hblock : (machine more).exec p (.ext (.acquiresleep ip)) s = .block := by
      show (FsOp.exec more p (.acquiresleep ip) (s.icache, s.ext)).mapState _ = _
      simp only [FsOp.exec, ICache.acquiresleep, hq]
      rfl
    have hrun : ∀ {α : Type} (f : Unit → FsM Nat F α), (machine more).run p (acquiresleep ip >>= f) s = .block :=
      fun _ => run_call_block hblock
    rw [hrun]
    trivial

/-! ### Empty directories -/

variable (more) in
theorem LockedDir.run_isdiremptyFrom (h : LockedDir sb p own s dp) : ∀ fuel k : Nat, (s.mem dp).size.val / DIRENT - k < fuel →
    (machine more).run p (isdiremptyFrom sb dp (s.icache.slot dp).inode fuel (DIRENT * k)) s =
      .ok ((((s.mem dp).entries (s.blocks own dp)).drop k).all Option.isNone) s := by
  apply h.run_scan more (isdiremptyFrom sb dp _) (fun _ l => .ok (l.all Option.isNone) s) (fun _ _ => rfl) (fun _ => rfl)
  intro fuel k de l hnext
  rw [List.all_cons, binding]
  by_cases hzero : direntInum de = 0
  · rw [if_neg (not_not.2 hzero), if_pos hzero]
    exact hnext
  · rw [if_pos hzero, if_neg hzero]
    rfl

variable (more) in
theorem LockedDir.run_isdirempty (h : LockedDir sb p own s dp) :
    (machine more).run p (isdirempty sb dp) s = .ok (((s.entries sb dp).drop 2).all Option.isNone) s := by
  unfold isdirempty
  rw [run_iload, h.entries_eq]
  refine h.run_isdiremptyFrom more _ 2 ?_
  exact Nat.lt_succ_of_le (Nat.le_trans (Nat.sub_le _ _) (Nat.div_le_self ..))

end Common

section Calls

variable {P : Type} [DecidableEq P] {p : P} {sb : Superblock} {own : Nat → Option Nat} {s t : FsState P (FileState P)}
  {ip dp : Fin NINODE} {n : Nat}

/-- A well-formed file system with a directory tree, before a system call of process `p`. -/
structure Ready (sb : Superblock) (own : Nat → Option Nat) (p : P) (s : FsState P (FileState P)) : Prop where
  wf : Wf sb own s
  tree : Tree sb s
  cwd : 0 < s.ref (s.ext.cwd p)

omit [DecidableEq P] in
theorem Live.congr {X : Type} {s t : FsState P X} (h : Live sb s n) (hdisk : t.disk = s.disk)
    (hcache : t.icache = s.icache) : Live sb t n := by
  obtain ⟨disk, owner, op, icache, ext⟩ := t
  obtain rfl : disk = s.disk := hdisk
  obtain rfl : icache = s.icache := hcache
  exact ⟨h.lt, h.type, h.stays⟩

theorem Ready.begun (h : Ready sb own p s) : Ready sb own p (s.setOp p true) where
  wf := ⟨h.wf.ok, h.wf.disk, h.wf.owner, h.wf.unlocked, h.wf.ref, h.wf.used, h.wf.clean, h.wf.uniq⟩
  tree := ⟨h.tree.root.congr rfl rfl, h.tree.whole, fun n hn htype k b hb => (h.tree.entry n hn htype k b hb).congr rfl rfl⟩
  cwd := h.cwd

theorem run_getCwd {α : Type} {f : Fin NINODE → FsM Nat FileSig α} :
    files.run p (getCwd >>= f) s = files.run p (f (s.ext.cwd p)) s := rfl

theorem Rests.ensures_fail (h : Rests sb p own (s.setOp p true) (fun _ => 0) t) :
    (files.run p (fail : FsM Nat FileSig Int) t).Ensures fun r u => r = -1 → Unchanged s u := by
  intro _
  exact ⟨h.unchanged.disk, h.unchanged.ref, h.unchanged.ext⟩

omit [DecidableEq P] in
theorem Ready.rests (h : Ready sb own p s) : Rests sb p own s (fun _ => 0) s :=
  ⟨h.wf.alone, Kept.refl (h.wf.alone (p := p)), h.wf.unlocked⟩

theorem Inside.ensures_fail (h : Inside sb p own (s.setOp p true) ip n t) (hlive : Live sb (s.setOp p true) n) :
    (files.run p (putFail sb ip) t).Ensures fun r u => r = -1 → Unchanged s u := by
  obtain ⟨u, hrun, hrests⟩ := h.run_iunlockput fileExec hlive
  unfold putFail
  rw [run_bind_ok hrun]
  exact hrests.ensures_fail

theorem ensures_chdir (h : Ready sb own p s) (path : Option (List UInt8)) :
    (files.run p (sysChdir sb path) s).Ensures fun r t => r = -1 → Unchanged s t := by
  unfold sysChdir
  rw [run_beginOp]
  cases path with
  | none => exact h.begun.rests.ensures_fail
  | some path =>
    simp only []
    rw [run_getCwd]
    refine ensures_seq (holds_namei h.begun.wf h.begun.tree h.begun.cwd path).ensures ?_
    intro r t hr
    cases r with
    | none => exact hr.2.ensures_fail
    | some ip =>
      obtain ⟨-, hrests, hlive⟩ := hr
      obtain ⟨u, hrun, hin⟩ := hrests.run_ilock fileExec
      simp only []
      rw [run_bind_ok hrun, run_iload]
      split
      · exact hin.ensures_fail hlive
      · refine ensures_any fun _ _ => ensures_any fun _ _ => ensures_any fun _ _ =>
          ensures_any fun _ _ hr => ?_
        cases hr

theorem ensures_make (h : Ready sb own p s) (path : Option (List UInt8)) {ty : Short} (hty : ty ≠ 0) (major minor : Short) :
    (files.run p (sysMake sb path ty major minor) s).Ensures fun r t => r = -1 → Unchanged s t := by
  unfold sysMake
  rw [run_beginOp]
  cases path with
  | none => exact h.begun.rests.ensures_fail
  | some path =>
    simp only []
    rw [run_getCwd]
    have hop : (s.setOp p true).op p = true := Function.update_self ..
    refine ensures_seq (holds_create h.begun.wf h.begun.tree h.begun.cwd hop path hty major minor).ensures ?_
    intro r t hr
    cases r with
    | none => exact hr.2.ensures_fail
    | some ip =>
      refine ensures_any fun _ _ => ensures_any fun _ _ hr => ?_
      cases hr

omit [DecidableEq P] in
theorem Inside.of_dropped {next : Fin NINODE} {u v : FsState P (FileState P)} (h : Inside sb p own s dp n t) (hne : next ≠ dp)
    (hslot : (u.icache.slot dp).inode = (t.icache.slot dp).inode ∧ ∀ j, j ≠ next → (u.icache.slot j).lock = (t.icache.slot j).lock)
    (hdrop : Dropped sb p own s (plus (one dp) next) u next v) : Inside sb p own s dp n v := by
  have hkept := hdrop.kept
  rw [minus_plus] at hkept
  have hdp := hdrop.rest dp hne.symm
  have hinode : (v.icache.slot dp).inode = (t.icache.slot dp).inode := by rw [hdp, hslot.1]
  refine ⟨hdrop.alone, hkept, by rw [hdp, hslot.2 dp hne.symm]; exact h.lock, fun j hj => ?_,
    h.tidy.congr hinode (by rw [hkept.disk, h.kept.disk]), by rw [FsState.inum, hinode]; exact h.inum⟩
  by_cases hj' : j = next
  · rw [hj']
    exact hdrop.lock
  · rw [hdrop.rest j hj', hslot.2 j hj']
    exact h.other j hj

theorem Inside.ensures_unlinkAt (h : Inside sb p own (s.setOp p true) dp n t) (htree : Tree sb (s.setOp p true))
    (hlive : Live sb (s.setOp p true) n) (hdir : (sb.dinode s.disk n).type = T_DIR) (name : List UInt8) :
    (files.run p (unlinkAt sb dp name) t).Ensures fun r u => r = -1 → Unchanged s u := by
  unfold unlinkAt
  have hlocked := h.lockedDir htree hlive.lt hdir
  simp only []
  split
  · exact h.ensures_fail hlive
  · cases hfind : Slots.find (cstr DIRSIZ name) (t.entries sb dp) with
    | none =>
      have hlookup := hlocked.run_dirlookup fileExec name
      rw [hfind, answer] at hlookup
      rw [run_bind_ok hlookup]
      exact h.ensures_fail hlive
    | some b =>
      obtain ⟨k, m⟩ := b
      have hfind' := hfind
      rw [h.entries_eq] at hfind'
      have hm := htree.entry n hlive.lt hdir k _ (Slots.getElem?_of_find hfind')
      rcases hlocked.run_dirlookup_found fileExec h.kept hfind hm.lt (by rw [h.kept.disk]; exact hm.type) with
        ⟨-, hpanic⟩ | ⟨next, u, hok, hfound⟩
      · rw [run_bind, hpanic]
        trivial
      rw [run_bind_ok hok]
      simp only []
      by_cases hne : next = dp
      · refine ensures_seq (A := fun _ _ => False) (ensures_ilock_locked ?_) fun _ _ hf => hf.elim
        rw [hne, hfound.lock, h.lock]
        exact Option.some_ne_none p
      have hpos : 0 < u.ref next := by
        have hbase := hfound.kept.base next
        have href := hfound.kept.ref next
        rw [plus_self] at href
        omega
      obtain ⟨v, hrun, hin⟩ := run_ilock fileExec hfound.alone hfound.kept (by rw [hfound.lock]; exact h.other next hne) hpos
      have hmem : v.mem next = sb.dinode s.disk m := by
        rw [hin.tidy.clean, hin.kept.disk, hin.inum, hfound.inum]
        rfl
      rw [run_bind_ok hrun, run_iload]
      split
      · trivial
      have hfull : (files.run p (dirFull sb next (v.icache.slot next).inode) v).Ensures fun _ w => w = v := by
        unfold dirFull
        split
        · rename_i htype
          have hdir' : LockedDir sb p own v next := by
            have htype' : (sb.dinode s.disk m).type = T_DIR := by
              rw [← hmem]
              exact htype
            refine ⟨hin.alone, hin.lock, hin.tidy.clean, hin.tidy.intact.mapped, hin.tidy.intact.full, htype, ?_⟩
            rw [hmem]
            exact htree.whole m hm.lt htype'
          rw [run_bind_ok (hdir'.run_isdirempty fileExec)]
          exact rfl
        · exact rfl
      refine ensures_seq hfull ?_
      rintro full w rfl
      cases full with
      | true =>
        obtain ⟨x, hput, hdrop⟩ := FsState.run_iunlockput fileExec hin.alone hin.kept hin.lock hin.tidy
          (by rw [plus_self]; exact Nat.succ_pos _) (hm.stays_inum (hin.inum.trans hfound.inum))
        simp only [if_true]
        rw [run_bind_ok hput]
        refine (h.of_dropped hne ⟨?_, fun j hj => ?_⟩ hdrop).ensures_fail hlive
        · rw [hin.rest dp (Ne.symm hne), hfound.inode dp h.ref_pos]
        · rw [hin.rest j hj, hfound.lock]
      | false =>
        simp only [Bool.false_eq_true, if_false]
        refine ensures_any fun r _ => ?_
        split
        · trivial
        · iterate 7 refine ensures_any fun _ _ => ?_
          intro hr
          cases hr

theorem ensures_unlink (h : Ready sb own p s) (path : List UInt8) :
    (files.run p (sysUnlink sb (s.ext.cwd p) path) s).Ensures fun r t => r = -1 → Unchanged s t := by
  unfold sysUnlink
  rw [run_beginOp]
  refine ensures_seq (holds_nameiparent h.begun.wf h.begun.tree h.begun.cwd path).ensures ?_
  intro r t hr
  cases r with
  | none => exact hr.2.ensures_fail
  | some r =>
    obtain ⟨hwalk, hrests, hlive⟩ := hr
    obtain ⟨u, hrun, hin⟩ := hrests.run_ilock fileExec
    simp only []
    rw [run_bind_ok hrun]
    exact hin.ensures_unlinkAt h.begun.tree hlive (type_of_walkParent hwalk) r.2

theorem ensures_link (h : Ready sb own p s) (old new : List UInt8) :
    (files.run p (sysLink sb (s.ext.cwd p) old new) s).Ensures fun r t => r = -1 → Unchanged s t := by
  have hop : (s.setOp p true).op p = true := Function.update_self ..
  unfold sysLink
  rw [run_beginOp]
  refine (holds_link h.begun.wf h.begun.tree h.begun.cwd hop old new).ensures.mono ?_
  rintro r t ⟨-, ⟨-, w, rfl, hrests⟩ | rfl⟩ hr
  · exact ⟨hrests.unchanged.disk, hrests.unchanged.ref, hrests.unchanged.ext⟩
  · cases hr

end Calls

end FsState

/-- The system calls that change names. -/
def Syscall.OnNames : Syscall → Prop
  | .link _ _ | .unlink _ | .mkdir _ | .mknod _ _ _ | .chdir _ => True
  | _ => False

namespace FsState

variable {P : Type} [DecidableEq P] {p : P} {sb : Superblock} {own : Nat → Option Nat} {s t : FsState P (FileState P)}

/-- A call on names that fails leaves the disk, the references to inodes and the current directory as they were. -/
theorem failing_call_unchanged (h : Ready sb own p s) {c : Syscall} (hc : c.OnNames)
    (hrun : files.run p (c.run sb) s = .ok (-1) t) : Unchanged s t := by
  have hensures : (files.run p (c.run sb) s).Ensures fun r t => r = -1 → Unchanged s t := by
    cases c with
    | dup | read | write | close | fstat | «open» => exact hc.elim
    | link old new =>
        cases old with
        | none => exact fun _ => ⟨rfl, fun _ => rfl, rfl⟩
        | some old =>
            cases new with
            | none => exact fun _ => ⟨rfl, fun _ => rfl, rfl⟩
            | some new => exact ensures_link h old new
    | unlink path =>
        cases path with
        | none => exact fun _ => ⟨rfl, fun _ => rfl, rfl⟩
        | some path => exact ensures_unlink h path
    | mkdir path => exact ensures_make h path (by decide) 0 0
    | mknod path major minor => exact ensures_make h path (by decide) major minor
    | chdir path => exact ensures_chdir h path
  exact hensures.of_ok hrun rfl

end FsState

end Xv6
