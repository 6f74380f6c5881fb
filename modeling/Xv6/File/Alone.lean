import Xv6.File.Calls

/-! A `pipe` or `dup` that runs alone and fails leaves the file table and the free list as they were. -/

namespace Xv6.Files

open Lib Function Machine

variable {P : Type} [DecidableEq P] {α : Type} {s s' : Files P} {p : P}

/-- The same references, files, descriptors and free pages. -/
structure Kept (s s' : Files P) : Prop where
  ref : ∀ f, (s'.file f).ref = (s.file f).ref
  type : ∀ f, (s'.file f).type = (s.file f).type
  ofile : s'.ofile = s.ofile
  freelist : s'.freelist = s.freelist

omit [DecidableEq P] in
theorem Kept.refl (s : Files P) : Kept s s := ⟨fun _ => rfl, fun _ => rfl, rfl, rfl⟩

theorem run_op {o : FileOp P} {r : (FileSig P).Ret o} {k : (FileSig P).Ret o → Prog (FileSig P) α}
    (h : exec p o s = .ok r s') : machine.run p (op o >>= k) s = machine.run p (k r) s' :=
  run_call_ok h

theorem run_op_eq_ok {o : FileOp P} {k : (FileSig P).Ret o → Prog (FileSig P) α} {a : α}
    (h : machine.run p (op o >>= k) s = .ok a s') :
    ∃ r t, exec p o s = .ok r t ∧ machine.run p (k r) t = .ok a s' := by
  obtain ⟨r, t, hop, hk⟩ := run_bind_eq_ok.1 h
  have hrun : machine.run p (op o) s = exec p o s := Machine.run_op (S := FileSig P) (M := machine) p o s
  exact ⟨r, t, hrun.symm.trans hop, hk⟩

/-- `fileclose` of a last reference, up to the end of a pipe. -/
def closed (p : P) (f : FileId) (s : Files P) : Files P :=
  note p (fun l => { l.lose f with fresh := l.fresh.erase f, closing := (s.file f).endOf })
    (setFile f { s.file f with ref := 0, type := .none } s)

theorem fileclose_last {f : FileId} (href : (s.file f).ref = 1) :
    fileclose p f s = .ok (some (s.file f)) (closed p f s) := by
  unfold fileclose
  rw [if_neg (by omega), if_neg (by omega)]
  rfl

theorem run_closeFile_none {f : FileId} (href : (s.file f).ref = 1) (htype : (s.file f).type = .none) :
    machine.run p (closeFile f) s = .ok () (closed p f s) := by
  have hexec : exec p (.fileclose f) s = .ok (some (s.file f)) (closed p f s) := fileclose_last href
  refine (run_op hexec).trans ?_
  simp only [htype, reduceCtorEq, if_false]
  rfl

/-- `fileclose` of the last reference to an end of a pipe. -/
theorem run_closeFile_pipe {f : FileId} (href : (s.file f).ref = 1) (htype : (s.file f).type = .pipe) :
    ∃ s', machine.run p (closeFile f) s = .ok () s' ∧ s'.file = (closed p f s).file ∧ s'.ofile = s.ofile ∧
      (s.isopen (s.file f).pipe (!(s.file f).writable) = true → s'.freelist = s.freelist ∧
        s'.isopen (s.file f).pipe (s.file f).writable = false) ∧
      (s.isopen (s.file f).pipe (!(s.file f).writable) = false → s'.freelist = (s.file f).pipe :: s.freelist) := by
  have hexec : exec p (.fileclose f) s = .ok (some (s.file f)) (closed p f s) := fileclose_last href
  generalize hpi : (s.file f).pipe = pi
  generalize hw : (s.file f).writable = w
  have hrun : machine.run p (closeFile f) s = machine.run p (pipecloseFree pi w) (closed p f s) := by
    refine (run_op hexec).trans ?_
    simp only [htype, if_true, hpi, hw]
  have hthis : (setClosed pi w (closed p f s)).isopen pi w = false := by simp [setClosed]
  have hother : (setClosed pi w (closed p f s)).isopen pi (!w) = s.isopen pi (!w) := by
    simp [setClosed, closed, note, setFile]
  rw [hrun]
  cases hopen : s.isopen pi (!w) with
  | true =>
    have hboth : ¬((setClosed pi w (closed p f s)).isopen pi false = false ∧
        (setClosed pi w (closed p f s)).isopen pi true = false) := by
      rw [hopen] at hother
      cases w
      · exact fun hno => by
          rw [show (!false) = true from rfl, hno.2] at hother
          cases hother
      · exact fun hno => by
          rw [show (!true) = false from rfl, hno.1] at hother
          cases hother
    have hclose : exec p (.pipeclose pi w) (closed p f s) =
        .ok false (note p (fun l => { l with closing := none }) (setClosed pi w (closed p f s))) := by
      change pipeclose p pi w (closed p f s) = _
      unfold pipeclose
      exact if_neg hboth
    exact ⟨_, run_op hclose, rfl, rfl, fun _ => ⟨rfl, hthis⟩, fun hno => by cases hno⟩
  | false =>
    have hboth : (setClosed pi w (closed p f s)).isopen pi false = false ∧
        (setClosed pi w (closed p f s)).isopen pi true = false := by
      rw [hopen] at hother
      cases w
      · exact ⟨hthis, hother⟩
      · exact ⟨hother, hthis⟩
    have hclose : exec p (.pipeclose pi w) (closed p f s) =
        .ok true (note p (fun l => { l with closing := none, carried := pi :: l.carried })
          { setClosed pi w (closed p f s) with
            live := update (setClosed pi w (closed p f s)).live pi false }) := by
      change pipeclose p pi w (closed p f s) = _
      unfold pipeclose
      exact if_pos hboth
    exact ⟨_, (run_op hclose).trans rfl, rfl, rfl, (fun hno => by cases hno), fun _ => rfl⟩

variable {f0 f1 : FileId}

omit [DecidableEq P] in
theorem kept_closed (h0 : (s.file f0).ref = 0) (h1 : (s.file f1).ref = 0)
    (ht0 : (s.file f0).type = .none) (ht1 : (s.file f1).type = .none) {x y : File}
    (hx0 : x.ref = 0 ∧ x.type = .none) (hx1 : y.ref = 0 ∧ y.type = .none)
    (hfile : ∀ f, f ≠ f0 → f ≠ f1 → s'.file f = s.file f) (hf0 : s'.file f0 = x) (hf1 : s'.file f1 = y)
    (hofile : s'.ofile = s.ofile) (hfree : s'.freelist = s.freelist) : Kept s s' := by
  have hboth : ∀ f, (s'.file f).ref = (s.file f).ref ∧ (s'.file f).type = (s.file f).type := by
    intro f
    by_cases hf : f = f0
    · rw [hf, hf0, h0, ht0]
      exact hx0
    · by_cases hf' : f = f1
      · rw [hf', hf1, h1, ht1]
        exact hx1
      · rw [hfile f hf hf']
        exact ⟨rfl, rfl⟩
  exact ⟨fun f => (hboth f).1, fun f => (hboth f).2, hofile, hfree⟩

/-- What `pipealloc` leaves when it succeeds. -/
structure Allocated (s s' : Files P) (f0 f1 : FileId) (pi : Nat) : Prop where
  ne : f0 ≠ f1
  free0 : (s.file f0).ref = 0
  free1 : (s.file f1).ref = 0
  file0 : (s'.file f0).ref = 1 ∧ (s'.file f0).type = .pipe ∧ (s'.file f0).pipe = pi ∧ (s'.file f0).writable = false
  file1 : (s'.file f1).ref = 1 ∧ (s'.file f1).type = .pipe ∧ (s'.file f1).pipe = pi ∧ (s'.file f1).writable = true
  file : ∀ f, f ≠ f0 → f ≠ f1 → s'.file f = s.file f
  freelist : s.freelist = pi :: s'.freelist
  isopen : ∀ w, s'.isopen pi w = true

/-- A `pipe` that fails after `pipealloc`, with the descriptors as they were. -/
theorem run_pipe_fail {t : Files P} {pi : Nat} (h : Allocated s t f0 f1 pi)
    (hfree : ∀ f, (s.file f).ref = 0 → (s.file f).type = .none) (hofile : t.ofile = s.ofile) :
    ∃ s', machine.run p (do closeFile f0; closeFile f1; pure (-1 : Int)) t = .ok (-1) s' ∧ Kept s s' := by
  obtain ⟨href0, htype0, hpi0, hw0⟩ := h.file0
  obtain ⟨href1, htype1, hpi1, hw1⟩ := h.file1
  obtain ⟨t₁, hrun₁, hfile₁, hofile₁, hfirst, -⟩ := run_closeFile_pipe (p := p) href0 htype0
  rw [hpi0, hw0] at hfirst
  obtain ⟨hfree₁, hclosed⟩ := hfirst (h.isopen _)
  have hfile₁' : ∀ f, f ≠ f0 → t₁.file f = t.file f := by
    intro f hf
    rw [hfile₁]
    exact update_of_ne hf _ _
  have hf1 := hfile₁' f1 (Ne.symm h.ne)
  obtain ⟨t₂, hrun₂, hfile₂, hofile₂, -, hsecond⟩ :=
    run_closeFile_pipe (p := p) (s := t₁) (f := f1) (by rw [hf1, href1]) (by rw [hf1, htype1])
  rw [hf1, hpi1, hw1] at hsecond
  refine ⟨t₂, ?_, ?_⟩
  · rw [run_bind_ok hrun₁, run_bind_ok hrun₂]
    rfl
  · refine kept_closed h.free0 h.free1 (hfree f0 h.free0) (hfree f1 h.free1)
      (x := { t.file f0 with ref := 0, type := .none }) (y := { t₁.file f1 with ref := 0, type := .none })
      ⟨rfl, rfl⟩ ⟨rfl, rfl⟩ ?_ ?_ ?_ ?_ ?_
    · intro f hf hf'
      rw [hfile₂]
      refine (update_of_ne hf' _ _).trans ?_
      rw [hfile₁' f hf]
      exact h.file f hf hf'
    · rw [hfile₂]
      refine (update_of_ne h.ne _ _).trans ?_
      rw [hfile₁]
      exact update_self ..
    · rw [hfile₂]
      exact update_self ..
    · rw [hofile₂, hofile₁, hofile]
    · rw [hsecond hclosed, hfree₁, h.freelist]

def taken (p : P) (f : FileId) (s : Files P) : Files P :=
  note p (fun l => { l.gain f with fresh := f :: l.fresh }) (setFile f { s.file f with ref := 1 } s)

theorem exec_filealloc_none (h : s.unusedFile = none) : exec p .filealloc s = .ok none s := by
  change filealloc p s = _
  unfold filealloc
  rw [h]
  rfl

theorem exec_filealloc_some {f : FileId} (h : s.unusedFile = some f) :
    exec p .filealloc s = .ok (some f) (taken p f s) := by
  change filealloc p s = _
  unfold filealloc
  rw [h]
  rfl

theorem taken_file (p : P) (f : FileId) (s : Files P) : (taken p f s).file f = { s.file f with ref := 1 } :=
  update_self ..

theorem taken_file_of_ne {f g : FileId} (hg : g ≠ f) : (taken p f s).file g = s.file g := update_of_ne hg _ _

theorem closed_file (p : P) (f : FileId) (s : Files P) :
    (closed p f s).file f = { s.file f with ref := 0, type := .none } :=
  update_self ..

theorem closed_file_of_ne {f g : FileId} (hg : g ≠ f) : (closed p f s).file g = s.file g :=
  update_of_ne hg _ _

/-- It has no page and closes the files, or has a page. -/
theorem run_pipeallocPage (p : P) (hfree : ∀ f, (s.file f).ref = 0 → (s.file f).type = .none)
    (hne : f0 ≠ f1) (h0 : (s.file f0).ref = 0) (h1 : (s.file f1).ref = 0) :
    ∃ r s', machine.run p (pipeallocPage f0 f1) (taken p f1 (taken p f0 s)) = .ok r s' ∧ s'.ofile = s.ofile ∧
      match r with
      | none => Kept s s'
      | some (g0, g1) => ∃ pi, Allocated s s' g0 g1 pi := by
  have hfile0 : (taken p f1 (taken p f0 s)).file f0 = { s.file f0 with ref := 1 } := by
    rw [taken_file_of_ne hne, taken_file]
  have hfile1 : (taken p f1 (taken p f0 s)).file f1 = { s.file f1 with ref := 1 } := by
    rw [taken_file, taken_file_of_ne (Ne.symm hne)]
  have hfile : ∀ f, f ≠ f0 → f ≠ f1 → (taken p f1 (taken p f0 s)).file f = s.file f := by
    intro f hf hf'
    rw [taken_file_of_ne hf', taken_file_of_ne hf]
  cases hlist : s.freelist with
  | nil =>
    have hexec : exec p .kalloc (taken p f1 (taken p f0 s)) = .ok none (taken p f1 (taken p f0 s)) := by
      change kalloc p (taken p f1 (taken p f0 s)) = _
      unfold kalloc
      rw [show (taken p f1 (taken p f0 s)).freelist = [] from hlist]
      rfl
    have hclose0 := run_closeFile_none (p := p) (s := taken p f1 (taken p f0 s)) (f := f0) (by rw [hfile0])
      (by rw [hfile0]; exact hfree f0 h0)
    have hclosed1 : (closed p f0 (taken p f1 (taken p f0 s))).file f1 = { s.file f1 with ref := 1 } := by
      rw [closed_file_of_ne (Ne.symm hne), hfile1]
    have hclose1 := run_closeFile_none (p := p) (s := closed p f0 (taken p f1 (taken p f0 s))) (f := f1)
      (by rw [hclosed1]) (by rw [hclosed1]; exact hfree f1 h1)
    refine ⟨none, closed p f1 (closed p f0 (taken p f1 (taken p f0 s))), ?_, rfl, ?_⟩
    · refine (run_op hexec).trans ?_
      exact (run_bind_ok hclose0).trans ((run_bind_ok hclose1).trans rfl)
    · refine kept_closed h0 h1 (hfree f0 h0) (hfree f1 h1) ⟨rfl, rfl⟩ ⟨rfl, rfl⟩ ?_
        ((closed_file_of_ne hne).trans (closed_file ..)) (closed_file ..) rfl rfl
      intro f hf hf'
      rw [closed_file_of_ne hf', closed_file_of_ne hf, hfile f hf hf']
  | cons pi rest =>
    have hexec : exec p .kalloc (taken p f1 (taken p f0 s)) = .ok (some pi)
        (note p (fun l => { l with carried := pi :: l.carried })
          (junk pi { taken p f1 (taken p f0 s) with freelist := rest })) := by
      change kalloc p (taken p f1 (taken p f0 s)) = _
      unfold kalloc
      rw [show (taken p f1 (taken p f0 s)).freelist = pi :: rest from hlist]
      rfl
    refine ⟨some (f0, f1), _, (run_op hexec).trans rfl, rfl, pi, hne, h0, h1, ?_, ?_, ?_, hlist, ?_⟩
    · have hself : ∀ x : File, update (update (taken p f1 (taken p f0 s)).file f0
          { (taken p f1 (taken p f0 s)).file f0 with type := .pipe, readable := true, writable := false, pipe := pi })
          f1 x f0 = { (taken p f1 (taken p f0 s)).file f0 with
            type := .pipe, readable := true, writable := false, pipe := pi } := by
        intro x
        rw [update_of_ne hne, update_self]
      refine (congrArg (fun x : File => x.ref = 1 ∧ x.type = .pipe ∧ x.pipe = pi ∧ x.writable = false)
        (hself _)).mpr ⟨?_, rfl, rfl, rfl⟩
      rw [hfile0]
    · refine (congrArg (fun x : File => x.ref = 1 ∧ x.type = .pipe ∧ x.pipe = pi ∧ x.writable = true)
        (update_self ..)).mpr ⟨?_, rfl, rfl, rfl⟩
      exact congrArg File.ref hfile1
    · intro f hf hf'
      exact (update_of_ne hf' _ _).trans ((update_of_ne hf _ _).trans (hfile f hf hf'))
    · intro w
      exact congrFun (update_self (β := fun _ => Bool → Bool) ..) w

/-- `pipealloc` fails and leaves all as it was, or has two files and a page. -/
theorem run_pipealloc (p : P) (hfree : ∀ f, (s.file f).ref = 0 → (s.file f).type = .none) :
    ∃ r s', machine.run p pipealloc s = .ok r s' ∧ s'.ofile = s.ofile ∧ match r with
      | none => Kept s s'
      | some (f0, f1) => ∃ pi, Allocated s s' f0 f1 pi := by
  cases h0 : s.unusedFile with
  | none => exact ⟨none, s, run_op (exec_filealloc_none h0), rfl, Kept.refl s⟩
  | some f0 =>
    have href0 := unusedFile_ref h0
    cases h1 : (taken p f0 s).unusedFile with
    | none =>
      have hclose := run_closeFile_none (p := p) (s := taken p f0 s) (f := f0) (by rw [taken_file])
        (by rw [taken_file]; exact hfree f0 href0)
      refine ⟨none, closed p f0 (taken p f0 s), ?_, rfl, ?_⟩
      · refine (run_op (exec_filealloc_some h0)).trans ((run_op (exec_filealloc_none h1)).trans ?_)
        exact (run_bind_ok hclose).trans rfl
      · refine kept_closed href0 href0 (hfree f0 href0) (hfree f0 href0) ⟨rfl, rfl⟩ ⟨rfl, rfl⟩ ?_
          (closed_file ..) (closed_file ..) rfl rfl
        intro f hf _
        rw [closed_file_of_ne hf, taken_file_of_ne hf]
    | some f1 =>
      have href1 := unusedFile_ref h1
      have hne : f0 ≠ f1 := by
        intro heq
        rw [← heq, taken_file] at href1
        cases href1
      rw [taken_file_of_ne (Ne.symm hne)] at href1
      obtain ⟨r, s', hrun, hrest⟩ := run_pipeallocPage p hfree hne href0 href1
      refine ⟨r, s', ?_, hrest⟩
      exact (run_op (exec_filealloc_some h0)).trans ((run_op (exec_filealloc_some h1)).trans hrun)

def setDesc (p : P) (fd : Fin NOFILE) (o : Option FileId) (s : Files P) : Files P :=
  { s with ofile := update s.ofile p (update (s.ofile p) fd o) }

theorem run_fdallocFrom (p : P) (f : FileId) (fds : List (Fin NOFILE)) (s : Files P) :
    ∃ r s', machine.run p (fdallocFrom f fds) s = .ok r s' ∧ match r with
      | none => s' = s
      | some fd => s.ofile p fd = none ∧ s' = setDesc p fd (some f) s := by
  induction fds with
  | nil => exact ⟨none, s, rfl, rfl⟩
  | cons fd fds ih =>
    have hslot : exec p (.slot fd) s = .ok (s.ofile p fd) s := rfl
    cases hfd : s.ofile p fd with
    | none =>
      rw [hfd] at hslot
      exact ⟨some fd, setDesc p fd (some f) s, (run_op hslot).trans rfl, hfd, rfl⟩
    | some g =>
      rw [hfd] at hslot
      obtain ⟨r, s', hrun, hr⟩ := ih
      exact ⟨r, s', (run_op hslot).trans hrun, hr⟩

theorem run_fdalloc (p : P) (f : FileId) (s : Files P) : ∃ r s', machine.run p (fdalloc f) s = .ok r s' ∧ match r with
      | none => s' = s
      | some fd => s.ofile p fd = none ∧ s' = setDesc p fd (some f) s :=
  run_fdallocFrom p f _ s

theorem Allocated.setDesc {t : Files P} {pi : Nat} (h : Allocated s t f0 f1 pi) (fd : Fin NOFILE)
    (o : Option FileId) : Allocated s (setDesc p fd o t) f0 f1 pi :=
  ⟨h.ne, h.free0, h.free1, h.file0, h.file1, h.file, h.freelist, h.isopen⟩

theorem setDesc_clear {fd : Fin NOFILE} (hfd : s.ofile p fd = none) (o : Option FileId) :
    (setDesc p fd none (setDesc p fd o s)).ofile = s.ofile := by
  simp only [setDesc, update_idem, update_self, update_clear hfd, update_eq_self]

theorem setDesc_swap {fd fd' : Fin NOFILE} (hne : fd' ≠ fd) (o o' : Option FileId) :
    setDesc p fd none (setDesc p fd' o' (setDesc p fd o s)) = setDesc p fd' o' (setDesc p fd none (setDesc p fd o s)) := by
  simp only [setDesc, update_idem, update_self, update_comm hne]

/-- `sys_pipe` returns, and when it fails leaves all as it was. -/
theorem run_sysPipe (p : P) (copied : Bool) (hfree : ∀ f, (s.file f).ref = 0 → (s.file f).type = .none) :
    ∃ r s', machine.run p (sysPipe copied) s = .ok r s' ∧ (r = -1 → Kept s s') := by
  obtain ⟨r, t, hrun, hofile, hr⟩ := run_pipealloc (s := s) p hfree
  unfold sysPipe
  rw [run_bind_ok hrun]
  cases r with
  | none => exact ⟨-1, t, rfl, fun _ => hr⟩
  | some files =>
    obtain ⟨f0, f1⟩ := files
    obtain ⟨pi, halloc⟩ := hr
    obtain ⟨r0, t0, hrun0, hr0⟩ := run_fdalloc p f0 t
    simp only
    rw [run_bind_ok hrun0]
    cases r0 with
    | none =>
      rw [show t0 = t from hr0]
      obtain ⟨s', hfail, hkept⟩ := run_pipe_fail (p := p) halloc hfree hofile
      exact ⟨-1, s', hfail, fun _ => hkept⟩
    | some fd0 =>
      obtain ⟨hfd0, rfl⟩ := hr0
      obtain ⟨r1, t1, hrun1, hr1⟩ := run_fdalloc p f1 (setDesc p fd0 (some f0) t)
      simp only
      rw [run_bind_ok hrun1]
      cases r1 with
      | none =>
        rw [show t1 = setDesc p fd0 (some f0) t from hr1]
        obtain ⟨s', hfail, hkept⟩ := run_pipe_fail (p := p) ((halloc.setDesc (p := p) fd0 (some f0)).setDesc fd0 none)
          hfree ((setDesc_clear hfd0 (some f0)).trans hofile)
        exact ⟨-1, s', (run_op rfl).trans hfail, fun _ => hkept⟩
      | some fd1 =>
        obtain ⟨hfd1, rfl⟩ := hr1
        cases copied with
        | true => exact ⟨0, _, rfl, fun hno => by cases hno⟩
        | false =>
          have hne : fd1 ≠ fd0 := by
            intro heq
            rw [heq] at hfd1
            simp [setDesc] at hfd1
          have hfd1' : (setDesc p fd0 none (setDesc p fd0 (some f0) t)).ofile p fd1 = none := by
            rw [setDesc_clear hfd0]
            simpa [setDesc, update_of_ne hne] using hfd1
          have hback : (setDesc p fd1 none (setDesc p fd0 none
              (setDesc p fd1 (some f1) (setDesc p fd0 (some f0) t)))).ofile = s.ofile := by
            rw [setDesc_swap hne, setDesc_clear hfd1', setDesc_clear hfd0, hofile]
          obtain ⟨s', hfail, hkept⟩ := run_pipe_fail (p := p)
            ((((halloc.setDesc (p := p) fd0 (some f0)).setDesc fd1 (some f1)).setDesc fd0 none).setDesc fd1 none)
            hfree hback
          exact ⟨-1, s', (run_op rfl).trans ((run_op rfl).trans hfail), fun _ => hkept⟩

theorem run_getSlot (p : P) (fd : Fin NOFILE) (s : Files P) : machine.run p (getSlot fd) s = .ok (s.ofile p fd) s := rfl

/-- `sys_dup` that fails leaves all as it was. -/
theorem run_sysDup {fd : Fin NOFILE} {r : Int} (hrun : machine.run p (sysDup fd) s = .ok r s') (hr : r = -1) :
    Kept s s' := by
  unfold sysDup at hrun
  rw [run_bind_ok (run_getSlot p fd s)] at hrun
  cases hfd : s.ofile p fd with
  | none =>
    rw [hfd] at hrun
    cases hrun
    exact Kept.refl s
  | some f =>
    obtain ⟨r', t, halloc, ht⟩ := run_fdalloc p f s
    rw [hfd] at hrun
    simp only at hrun
    rw [run_bind_ok halloc] at hrun
    cases r' with
    | none =>
      rw [show t = s from ht] at hrun
      cases hrun
      exact Kept.refl s
    | some fd' =>
      -- a descriptor is not -1
      obtain ⟨_, _, -, hret⟩ := run_op_eq_ok (o := .filedup f) hrun
      cases hret
      have : (0 : Int) ≤ (fd' : Nat) := Int.natCast_nonneg _
      omega

def Failed (c : Call P) (s s' : Files P) : Prop :=
  ∃ before after, s'.returns = ⟨c.kind, -1, before, after⟩ :: s.returns

omit [DecidableEq P] in
theorem Kept.congr {t t' : Files P} (h : Kept t t') (hfile : t.file = s.file) (hofile : t.ofile = s.ofile)
    (hfree : t.freelist = s.freelist) (hfile' : s'.file = t'.file) (hofile' : s'.ofile = t'.ofile)
    (hfree' : s'.freelist = t'.freelist) : Kept s s' := by
  refine ⟨fun f => ?_, fun f => ?_, ?_, ?_⟩
  · rw [hfile', h.ref, hfile]
  · rw [hfile', h.type, hfile]
  · rw [hofile', h.ofile, hofile]
  · rw [hfree', h.freelist, hfree]

/-- A `pipe` or `dup` that runs alone and fails. -/
theorem run_call {c : Call P} (hfree : ∀ f, (s.file f).ref = 0 → (s.file f).type = .none)
    (hcall : c.kind = .pipe ∨ c.kind = .dup) (hrun : machine.run p c.run s = .ok () s') (hfailed : Failed c s s') :
    Kept s s' := by
  obtain ⟨_, t, henter, hrun⟩ := run_op_eq_ok (o := .enterCall c.kind) hrun
  cases henter
  obtain ⟨r, t, hbody, hrun⟩ := run_bind_eq_ok.1 hrun
  have hleave : exec p (.leaveCall r) t = .ok () s' := by
    obtain ⟨_, t', hleave, hret⟩ := run_op_eq_ok (o := .leaveCall r) (k := fun _ => .ret ()) hrun
    cases hret
    exact hleave
  cases hleave
  obtain ⟨before, after, hreturns⟩ := hfailed
  have hr : r = -1 := congrArg Return.result (List.cons.inj hreturns).1
  have hkept : Kept (note p (fun l => { l with call := c.kind, entry := s.ofile p }) s) t := by
    cases c with
    | pipe copied =>
      obtain ⟨r', t', hrun', hkept⟩ := run_sysPipe (s := note p (fun l => { l with
        call := (Call.pipe copied : Call P).kind, entry := s.ofile p }) s) p copied hfree
      have heq := hbody.symm.trans hrun'
      cases heq
      exact hkept hr
    | dup fd => exact run_sysDup hbody hr
    | «open» | close | transfer | fork | reap | take | give => rcases hcall with hcall | hcall <;> cases hcall
  exact hkept.congr rfl rfl rfl rfl rfl rfl

end Xv6.Files
