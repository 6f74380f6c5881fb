import Xv6.Seq.Namespace

/-! `sys_open`, for a process that runs alone. When it fails for lack of a file structure or a descriptor, the inode it
has made stays. -/

namespace Xv6

open Lib Function Machine

namespace FsState

open Fs

variable {P : Type} [DecidableEq P] {p : P} {sb : Superblock} {own : Nat → Option Nat} {s t : FsState P (FileState P)}
  {ip : Fin NINODE} {f : Fin NFILE} {n m : Nat}

/-! ### Descriptors -/

/-- All file structures are in use, or all descriptors of the process. -/
def TablesFull (p : P) (x : FileState P) : Prop := (∀ f, x.ref f ≠ 0) ∨ ∀ fd, fd < NOFILE → x.ofile p fd ≠ none

theorem run_fdallocFrom (f : Fin NFILE) : ∀ (fds : List Nat) (s : FsState P (FileState P)),
    files.run p (fdallocFrom f fds) s = .ok none s ∧ (∀ fd ∈ fds, s.ext.ofile p fd ≠ none) ∨
    (∃ fd ∈ fds, s.ext.ofile p fd = none) ∧ ∃ fd x, files.run p (fdallocFrom f fds) s = .ok (some fd) (s.setExt x) := by
  intro fds
  induction fds with
  | nil => exact fun s => Or.inl ⟨rfl, nofun⟩
  | cons fd fds ih =>
    intro s
    rw [fdallocFrom]
    have hload : ∀ k : Option (Fin NFILE) → FsM Nat FileSig (Option Nat), files.run p (ofile fd >>= k) s =
      files.run p (k (s.ext.ofile p fd)) s := fun _ => rfl
    rw [hload]
    cases hfd : s.ext.ofile p fd with
    | none => exact Or.inr ⟨⟨fd, List.mem_cons_self, hfd⟩, fd, _, rfl⟩
    | some g =>
      rcases ih s with ⟨hnone, hall⟩ | ⟨⟨fd', hmem, hfree⟩, hsome⟩
      · refine Or.inl ⟨hnone, fun fd' hmem => ?_⟩
        rcases List.mem_cons.1 hmem with rfl | hmem
        · rw [hfd]
          exact Option.some_ne_none g
        · exact hall fd' hmem
      · exact Or.inr ⟨⟨fd', List.mem_cons_of_mem fd hmem, hfree⟩, hsome⟩

theorem filealloc_cases (p : P) (x : FileState P) : FileState.exec p .filealloc x = .ok none x ∧ (∀ f, x.ref f ≠ 0) ∨
    ∃ f, x.ref f = 0 ∧ FileState.exec p .filealloc x = .ok (some f) (x.setRef f 1) := by
  cases hfind : (List.finRange NFILE).find? fun f => x.ref f = 0 with
  | none =>
    refine Or.inl ⟨by simp only [FileState.exec, hfind], fun f => ?_⟩
    have hf := List.find?_eq_none.1 hfind f (List.mem_finRange f)
    simpa using hf
  | some f =>
    refine Or.inr ⟨f, ?_, by simp only [FileState.exec, hfind]⟩
    have hf := List.find?_some hfind
    simpa using hf

theorem exec_fileput {x : FileState P} (hzero : x.ref f = 0) (hnone : (x.file f).type = .none) :
    ∃ r, FileState.exec p (.fileput f) (x.setRef f 1) = .ok r x := by
  have hself : (x.setRef f 1).ref f = 1 := update_self ..
  have hback : ((x.setRef f 1).setRef f 0).setFile f { (x.setRef f 1).file f with type := .none } = x := by
    obtain ⟨file, ref, ofile, cwd⟩ := x
    unfold FileState.setRef FileState.setFile
    simp only at hzero hnone ⊢
    have hfile : { file f with type := .none } = file f := by rw [← hnone]
    rw [update_idem, ← hzero, update_eq_self, hfile, update_eq_self]
  refine ⟨some ((x.setRef f 1).file f), ?_⟩
  unfold FileState.exec
  simp only [hself]
  rw [if_neg (by decide), if_neg (by decide), hback]

/-! ### The end of `sys_open` -/

/-- A device that there is not. -/
def NoDevice (v : Dinode) : Prop := v.type = T_DEVICE ∧ (v.major.toInt < 0 ∨ v.major.toInt ≥ NDEV)

section

variable (h : Alone sb p own t) (hlock : (t.icache.slot ip).lock = some p) (htidy : Tidy sb own t ip)
  (hop : t.op p = true)
include h hlock htidy hop

theorem run_opened (x : FileState P) (fd : Nat) (trunc : Bool) :
    ∃ w, files.run p (opened sb ip trunc fd) (t.setExt x) = .ok (fd : Int) w := by
  have halone : Alone sb p own (t.setExt x) := h.congr rfl rfl rfl
  have htype : (t.mem ip).type ≠ 0 := by
    rw [htidy.clean]
    exact h.type_ne hlock
  have hpos := (h.locked ip hlock).1
  unfold opened
  by_cases htrunc : trunc = true
  · obtain ⟨own', w, hrun, hw, -⟩ := run_itrunc fileExec halone hlock hop htidy.intact.mapped htype
    have hlock' : (w.icache.slot ip).lock = some p := by
      rw [hw.works.lock]
      exact hlock
    have hpos' : 0 < w.ref ip := by
      rw [hw.works.ref]
      exact hpos
    refine ⟨(w.setCache (w.icache.releasesleep ip)).setOp p false, ?_⟩
    rw [if_pos htrunc, run_bind_ok hrun, run_iunlock hlock' hpos']
    rfl
  · refine ⟨((t.setExt x).setCache (t.icache.releasesleep ip)).setOp p false, ?_⟩
    rw [if_neg htrunc, pure_bind, run_iunlock (s := t.setExt x) hlock hpos]
    rfl

theorem openAt_cases (hfree : ∀ f, t.ext.ref f = 0 → (t.ext.file f).type = .none) (omode : Nat) :
    files.run p (openAt sb ip omode) t = files.run p (putFail sb ip) t ∧ (NoDevice (t.mem ip) ∨ TablesFull p t.ext) ∨
    ¬TablesFull p t.ext ∧ ∃ r u, files.run p (openAt sb ip omode) t = .ok r u ∧ 0 ≤ r := by
  unfold openAt
  rw [run_iload]
  simp only []
  by_cases hdev : (t.icache.slot ip).inode.type = T_DEVICE ∧
      ((t.icache.slot ip).inode.major.toInt < 0 ∨ (t.icache.slot ip).inode.major.toInt ≥ NDEV)
  · rw [if_pos hdev]
    exact Or.inl ⟨rfl, Or.inl hdev⟩
  rw [if_neg hdev]
  rcases filealloc_cases p t.ext with ⟨hnone, hall⟩ | ⟨f, hzero, hsome⟩
  · have hrun : ∀ k : Option (Fin NFILE) → FsM Nat FileSig Int, files.run p (filealloc >>= k) t = files.run p (k none) t :=
      fun k => run_more hnone
    rw [hrun]
    exact Or.inl ⟨rfl, Or.inr (Or.inl hall)⟩
  · have hrun : ∀ k : Option (Fin NFILE) → FsM Nat FileSig Int, files.run p (filealloc >>= k) t =
      files.run p (k (some f)) (t.setExt (t.ext.setRef f 1)) := fun k => run_more hsome
    rw [hrun]
    simp only []
    rcases run_fdallocFrom (p := p) f (List.range NOFILE) (t.setExt (t.ext.setRef f 1)) with
      ⟨hfd, hall⟩ | ⟨⟨fd', hmem, hfree'⟩, fd, x, hfd⟩
    · obtain ⟨r, hput⟩ := exec_fileput (p := p) hzero (hfree f hzero)
      have hrun' : ∀ k : Option File → FsM Nat FileSig Int, files.run p (fileput f >>= k) (t.setExt (t.ext.setRef f 1)) =
        files.run p (k r) t := fun k => run_more hput
      rw [fdalloc, run_bind_ok hfd]
      simp only []
      rw [hrun']
      exact Or.inl ⟨rfl, Or.inr (Or.inr fun fd hlt => hall fd (List.mem_range.2 hlt))⟩
    · rw [fdalloc, run_bind_ok hfd]
      simp only []
      rw [run_fload, run_fstore]
      obtain ⟨w, hw⟩ := run_opened h hlock htidy hop _ fd
        (¬ omode &&& O_TRUNC = 0 ∧ (t.icache.slot ip).inode.type = T_FILE)
      refine Or.inr ⟨?_, fd, w, hw, Int.natCast_nonneg fd⟩
      rintro (hall | hall)
      · exact hall f hzero
      · exact hall fd' (List.mem_range.1 hmem) hfree'

end

/-! ### `sys_open` -/

/-- A call that makes a new inode and then has no file structure or descriptor for it. -/
def OpenLeaves (sb : Superblock) (p : P) (s : FsState P (FileState P)) (path : List UInt8) (omode : Nat) : Prop :=
  ¬ omode &&& O_CREATE = 0 ∧ (∃ n name, NewName sb s (s.ext.cwd p) path n name) ∧ TablesFull p s.ext

/-- What is known of a call to `sys_open` that returns. -/
structure Opens (sb : Superblock) (p : P) (s : FsState P (FileState P)) (path : List UInt8) (omode : Nat) (r : Int)
    (t : FsState P (FileState P)) : Prop where
  result : r = -1 ∨ 0 ≤ r ∧ ¬TablesFull p s.ext
  unchanged : r = -1 → (Unchanged s t ↔ ¬OpenLeaves sb p s path omode)

section Existing

variable {may : String → Prop} {path : List UInt8} {omode : Nat} (hold : ¬OpenLeaves sb p s path omode)
include hold

theorem Rests.opens (h : Rests sb p own (s.setOp p true) (fun _ => 0) t) :
    Opens sb p s path omode (-1) (t.setOp p false) :=
  ⟨Or.inl rfl, fun _ => ⟨fun _ => hold, fun _ => ⟨h.unchanged.disk, h.unchanged.ref, h.unchanged.ext⟩⟩⟩

theorem Inside.holds_putFail (h : Inside sb p own (s.setOp p true) ip n t) (hlive : Live sb (s.setOp p true) n) :
    (files.run p (putFail sb ip) t).Holds may (Opens sb p s path omode) := by
  obtain ⟨u, hrun, hrests⟩ := h.run_iunlockput fileExec hlive
  unfold putFail
  rw [run_bind_ok hrun]
  exact hrests.opens hold

theorem Inside.holds_openAt (h : Inside sb p own (s.setOp p true) ip n t) (hlive : Live sb (s.setOp p true) n)
    (hfree : ∀ f, s.ext.ref f = 0 → (s.ext.file f).type = .none) :
    (files.run p (openAt sb ip omode) t).Holds may (Opens sb p s path omode) := by
  have hop : t.op p = true := by
    rw [h.kept.op]
    exact update_self ..
  have hext : t.ext = s.ext := h.kept.ext
  rcases openAt_cases h.alone h.lock h.tidy hop (by rw [hext]; exact hfree) omode with ⟨hrun, -⟩ | ⟨hroom, r, u, hrun, hr⟩
  · rw [hrun]
    exact h.holds_putFail hold hlive
  · rw [hext] at hroom
    rw [hrun]
    exact ⟨Or.inr ⟨hr, hroom⟩, fun hneg => by omega⟩

end Existing

theorem Made.holds_openAt {may : String → Prop} {path name : List UInt8} {omode : Nat}
    (h : Made sb p own (s.setOp p true) T_FILE ip m t) (hcreate : ¬ omode &&& O_CREATE = 0)
    (hnew : NewName sb s (s.ext.cwd p) path n name) (hfree : ∀ f, s.ext.ref f = 0 → (s.ext.file f).type = .none) :
    (files.run p (openAt sb ip omode) t).Holds may (Opens sb p s path omode) := by
  have hop : t.op p = true := by
    rw [h.op]
    exact update_self ..
  have hext : t.ext = s.ext := h.ext
  rcases openAt_cases h.alone h.lock h.tidy hop (by rw [hext]; exact hfree) omode with
    ⟨hrun, hwhy⟩ | ⟨hroom, r, u, hrun, hr⟩
  · have hfull : TablesFull p s.ext := by
      rw [← hext]
      refine hwhy.resolve_left fun hdev => ?_
      rw [NoDevice, h.type] at hdev
      exact absurd hdev.1 (by decide)
    obtain ⟨own', u, hput, hu, hstay⟩ := run_iunlockput_any fileExec h.alone hop h.lock h.tidy
    have hdisk := (hstay (by rw [h.nlink]; decide)).2
    unfold putFail at hrun
    rw [hrun, run_bind_ok hput]
    refine ⟨Or.inl rfl, fun _ => ⟨fun hsame => absurd h.new ?_, fun hnot => absurd ⟨hcreate, ⟨n, name, hnew⟩, hfull⟩ hnot⟩⟩
    have hdinode : sb.dinode s.disk m = t.mem ip := by
      rw [h.tidy.clean, h.inum, ← hdisk, ← hsame.disk]
      rfl
    show (sb.dinode s.disk m).type ≠ 0
    rw [hdinode, h.type]
    decide
  · rw [hext] at hroom
    rw [hrun]
    exact ⟨Or.inr ⟨hr, hroom⟩, fun hneg => by omega⟩

theorem holds_open (h : Ready sb own p s) (hfree : ∀ f, s.ext.ref f = 0 → (s.ext.file f).type = .none) (path : List UInt8)
    (omode : Nat) : (files.run p (sysOpen sb path omode) s).Holds
      (Stuck sb s (¬ omode &&& O_CREATE = 0 ∧ Overfull sb s (s.ext.cwd p) path)) fun r t =>
      ¬(¬ omode &&& O_CREATE = 0 ∧ Overfull sb s (s.ext.cwd p) path) ∧ Opens sb p s path omode r t := by
  have hop : (s.setOp p true).op p = true := update_self ..
  unfold sysOpen
  rw [run_beginOp, run_getCwd]
  by_cases hcreate : ¬ omode &&& O_CREATE = 0
  · rw [if_pos hcreate]
    refine holds_seq ((holds_create h.begun.wf h.begun.tree h.begun.cwd hop path (by decide) 0 0).mono_may ?_) ?_
    · rintro msg (hmsg | hmsg | hmsg | ⟨hmsg, hfull⟩)
      · exact Or.inl hmsg
      · exact Or.inr (Or.inl hmsg)
      · exact Or.inr (Or.inr (Or.inl hmsg))
      · exact Or.inr (Or.inr (Or.inr ⟨hmsg, hcreate, hfull⟩))
    · intro r t hr
      cases r with
      | none =>
        refine ⟨fun hover => ?_, hr.2.opens fun hleaves => ?_⟩
        · obtain ⟨-, n, name, hnew, -⟩ := hover
          exact hr.1 n name hnew
        · obtain ⟨-, ⟨n, name, hnew⟩, -⟩ := hleaves
          exact hr.1 n name hnew
      | some ip =>
        rcases hr with ⟨hold, -, m, hin, hlive⟩ | ⟨n, name, own', m, hnew, hroom, hmade⟩
        · have hkeep : ¬OpenLeaves sb p s path omode := by
            rintro ⟨-, ⟨n, name, hnew⟩, -⟩
            exact hold n name hnew
          refine (hin.holds_openAt hkeep hlive hfree).mono fun r u hu => ⟨?_, hu⟩
          rintro ⟨-, n, name, hnew, -⟩
          exact hold n name hnew
        · refine (hmade.holds_openAt hcreate hnew hfree).mono fun r u hu => ⟨?_, hu⟩
          rintro ⟨-, n', name', hnew', hfull⟩
          cases hnew'.1.symm.trans hnew.1
          exact hroom hfull
  · rw [if_neg hcreate]
    have hkeep : ¬OpenLeaves sb p s path omode := fun hleaves => hcreate hleaves.1
    refine holds_seq ((holds_namei h.begun.wf h.begun.tree h.begun.cwd path).mono_may fun _ => Or.inl) ?_
    intro r t hr
    cases r with
    | none => exact ⟨fun hover => hcreate hover.1, hr.2.opens hkeep⟩
    | some ip =>
      obtain ⟨-, hrests, hlive⟩ := hr
      obtain ⟨u, hrun, hin⟩ := hrests.run_ilock fileExec
      simp only []
      rw [run_bind_ok hrun, run_iload]
      split
      · exact (hin.holds_putFail hkeep hlive).mono fun r v hv => ⟨fun hover => hcreate hover.1, hv⟩
      · exact (hin.holds_openAt hkeep hlive hfree).mono fun r v hv => ⟨fun hover => hcreate hover.1, hv⟩

/-- A call to `open` that fails leaves everything as it was, except that it does not take back the name and the inode
that it has made when then there is no file structure or no descriptor left. -/
theorem failing_open_unchanged_iff (h : Ready sb own p s) (hfree : ∀ f, s.ext.ref f = 0 → (s.ext.file f).type = .none)
    (path : Option (List UInt8)) (omode : Nat) (hrun : files.run p ((Syscall.open path omode).run sb) s = .ok (-1) t) :
    Unchanged s t ↔ ¬∃ q, path = some q ∧ OpenLeaves sb p s q omode := by
  cases path with
  | none =>
      cases hrun
      refine ⟨fun _ => ?_, fun _ => ⟨rfl, fun _ => rfl, rfl⟩⟩
      rintro ⟨q, hq, -⟩
      cases hq
  | some path =>
      have hopens := ((holds_open h hfree path omode).of_ok hrun).2
      rw [hopens.unchanged rfl]
      refine not_congr ⟨fun hleaves => ⟨path, rfl, hleaves⟩, ?_⟩
      rintro ⟨q, hq, hleaves⟩
      cases hq
      exact hleaves

/-- Every file structure is one end of a pipe. -/
def pipesOnly (P : Type) : FileState P where
  file _ := ⟨.pipe, true, true, 0, 0, 0⟩
  ref _ := 1
  ofile _ _ := none
  cwd _ := 0

/-- The root directory of the smallest disk, with one inode to spare. -/
def Image.bare : Image Superblock.tiny where
  inode n := if n = ROOTINO then Dinode.fresh T_DIR else Dinode.zero
  own _ := none
  block _ := Block.zero
  ok := Image.tiny.ok
  data := Image.tiny.data
  alive _ _ h := by cases h
  intact n _ h := by
    split at h
    · rename_i hn
      exact Dinode.intact_empty (by rw [if_pos hn]; rfl) (by rw [if_pos hn]; rfl)
    · exact absurd rfl h

/-- The disk with one inode to spare, and no file structure. -/
def noFiles (P : Type) : FsState P (FileState P) := boot Image.bare ROOTINO (pipesOnly P)

omit [DecidableEq P] in
theorem ready_noFiles (p : P) : Ready Superblock.tiny (fun _ => none) p (noFiles P) := by
  have hdinode : ∀ {n}, n < 4 → Superblock.tiny.dinode (noFiles P).disk n = Image.bare.inode n := fun hn =>
    Image.bare.dinode_disk hn
  have hsize : ∀ n, (Image.bare.inode n).size = 0 := by
    intro n
    simp only [Image.bare]
    split_ifs <;> rfl
  refine ⟨wf_boot Image.bare _ (by decide) (by decide), ⟨⟨by decide, ?_, Or.inl ?_⟩, fun n hn _ => ?_,
    fun n hn _ k b hb => ?_⟩, Int.one_pos⟩
  · rw [hdinode (by decide)]
    decide
  · rw [hdinode (by decide)]
    decide
  · rw [hdinode hn, hsize]
    exact dvd_zero _
  · rw [Superblock.entries, Dinode.entries, hdinode hn, hsize] at hb
    cases hb

theorem newName_noFiles : NewName Superblock.tiny (noFiles Unit) 0 [slash, 97] ROOTINO [97] :=
  ⟨by decide +kernel, by decide +kernel⟩

/-- `open("/a", O_CREATE)` with no file structure left: it fails, and the name is there. -/
theorem run_open_noFiles : ∃ t, files.run () ((Syscall.open (some [slash, 97]) O_CREATE).run Superblock.tiny)
    (noFiles Unit) = .ok (-1) t ∧ (Superblock.tiny.lookup t.disk ROOTINO [97]).isSome := by
  have hpass : (files.run () ((Syscall.open (some [slash, 97]) O_CREATE).run Superblock.tiny) (noFiles Unit)).passes
      (fun r t => r == -1 && (Superblock.tiny.lookup t.disk ROOTINO [97]).isSome) = true := by decide +kernel
  obtain ⟨r, t, hok, hr⟩ := Outcome.exists_of_passes hpass
  obtain ⟨hneg, hname⟩ := Bool.and_eq_true_iff.1 hr
  cases eq_of_beq hneg
  exact ⟨t, hok, hname⟩

theorem failing_open_unchanged_iff_pipes : ∃ t, files.run () ((Syscall.open (some [slash, 97]) O_CREATE).run Superblock.tiny)
    (noFiles Unit) = .ok (-1) t ∧ ¬Unchanged (noFiles Unit) t := by
  obtain ⟨t, hrun, -⟩ := run_open_noFiles
  refine ⟨t, hrun, fun hsame => ?_⟩
  have hiff := failing_open_unchanged_iff (ready_noFiles ()) (fun f hf => absurd hf Int.one_ne_zero) _ O_CREATE hrun
  exact hiff.1 hsame ⟨_, rfl, by decide, ⟨ROOTINO, [97], newName_noFiles⟩, Or.inl fun _ => Int.one_ne_zero⟩

/-- The call fails, and the name it has made is there. -/
theorem failing_open_leaves_name : ∃ t, files.run () ((Syscall.open (some [slash, 97]) O_CREATE).run Superblock.tiny)
    (noFiles Unit) = .ok (-1) t ∧ Superblock.tiny.lookup (noFiles Unit).disk ROOTINO [97] = none ∧
    (Superblock.tiny.lookup t.disk ROOTINO [97]).isSome := by
  obtain ⟨t, hrun, hname⟩ := run_open_noFiles
  exact ⟨t, hrun, newName_noFiles.2, hname⟩

end FsState

end Xv6
