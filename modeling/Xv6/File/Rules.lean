import Xv6.File.Steps

/-! What an operation needs of the process that runs it and what it leaves, and that operations keep the invariant. -/

namespace Xv6.Files

open Lib Function Option

variable {P : Type}

/-- The process runs, and is not in `piperead` or `pipewrite`. -/
def View.Quiet (v : View P) : Prop := v.own.active = true ∧ v.own.inside = none

def View.Needs (v : View P) : FileOp P → Prop
  | .begin => v.own.active = false
  | .leaveCall r => v.Quiet ∧ v.Settled ∧
      (v.own.call = .pipe ∨ v.own.call = .dup → r = -1 → v.slots = v.own.entry)
  | .setSlot fd _ => v.Quiet ∧ v.slots fd = none
  | .filedup f => v.Quiet ∧ 0 < v.own.given f ∧ f ∉ v.own.fresh
  | .fileclose f => v.Quiet ∧ 0 < v.own.given f ∧ v.own.closing = none
  | .pipeclose pi w => v.Quiet ∧ v.own.closing = some (pi, w)
  | .kfree pi => v.Quiet ∧ pi ∈ v.own.carried
  | .install f0 f1 pi => v.Quiet ∧ f0 ∈ v.own.fresh ∧ f1 ∈ v.own.fresh ∧ f0 ≠ f1 ∧ pi ∈ v.own.carried
  | .fill f _ _ _ => v.Quiet ∧ f ∈ v.own.fresh
  | .look f => v.Quiet ∧ 0 < v.own.given f ∧ ∃ fd, v.slots fd = some f
  | .access pi => v.own.active = true ∧ v.own.inside = some pi
  | .leave => v.own.active = true
  | .allocproc _ => v.Quiet ∧ v.own.kid = none
  | .freeproc => v.Quiet ∧ v.child = fun _ => none
  | .setChild fd f => v.Quiet ∧ v.child fd = none ∧ 0 < v.own.given f ∧ f ∉ v.own.fresh
  | .zombie => v.Quiet ∧ v.Settled ∧ v.slots = fun _ => none
  | _ => v.Quiet

/-- An end of a pipe is closed; the page is to be freed if it was the last one. -/
def View.endClosed (v : View P) (pi : Nat) (last : Bool) : View P := { v with own := { v.own with
  closing := none
  carried := if last then pi :: v.own.carried else v.own.carried } }

/-- The slot of `proc` for a child was free or not. -/
def View.procFound (v : View P) (np : P) (found : Bool) : View P := { v with
  own := { v.own with kid := if found then some np else v.own.kid }
  child := fun _ => none }

def View.Idle (v : View P) : Prop := v.own.active = true ∧ v.own.call = .idle ∧ v.Settled ∧ v.child = fun _ => none

def View.Leaves (v : View P) : (o : FileOp P) → (FileSig P).Ret o → View P → Prop
  | .begin, _, v' => v'.Idle
  | .enterCall k, _, v' => v' = { v with own := { v.own with call := k, entry := v.slots } }
  | .leaveCall _, _, v' => v' = { v with own := { v.own with call := .idle } }
  | .slot fd, r, v' => r = v.slots fd ∧ v' = v
  | .setSlot fd f, _, v' => v' = { v with slots := update v.slots fd (some f) }
  | .clearSlot fd, _, v' => v' = { v with slots := update v.slots fd none }
  | .filealloc, r, v' => match r with
    | none => v' = v
    | some f => v.own.given f = 0 ∧ v' = { v with own := { v.own.gain f with fresh := f :: v.own.fresh } }
  | .filedup f, _, v' => v' = { v with own := v.own.gain f }
  | .fileclose f, r, v' => v' = { v with own := { v.own.lose f with
      fresh := v.own.fresh.erase f
      closing := r.bind File.endOf } }
  | .pipeclose pi _, r, v' => v' = v.endClosed pi r
  | .kalloc, r, v' => v' = { v with own := { v.own with carried := r.toList ++ v.own.carried } }
  | .kfree pi, _, v' => v' = { v with own := { v.own with carried := v.own.carried.erase pi } }
  | .install f0 f1 pi, _, v' => v' = { v with own := { v.own with
      fresh := (v.own.fresh.erase f0).erase f1
      carried := v.own.carried.erase pi } }
  | .fill f _ _ _, _, v' => v' = { v with own := { v.own with fresh := v.own.fresh.erase f } }
  | .look _, r, v' => v' = { v with own := { v.own with inside := r.endOf.map Prod.fst } }
  | .leave, _, v' => v' = { v with own := { v.own with inside := none } }
  | .allocproc np, r, v' => v' = v.procFound np r
  | .freeproc, _, v' => v' = { v with own := { v.own with kid := none }, child := fun _ => none }
  | .setChild fd f, _, v' => v' = { v with own := v.own.lose f, child := update v.child fd (some f) }
  | .start, _, v' => v' = { v with own := { v.own with kid := none }, child := fun _ => none }
  | .zombie, _, v' => v'.own.active = false
  | _, _, v' => v' = v

/-- An operation needs, besides, that what it leaves is lawful. -/
def fileLogic : Logic (FileSig P) (View P) where
  pre v o := v.Needs o ∧ ∀ r v', v.Leaves o r v' → v'.own.active = true → v'.Lawful
  post v o r v' := v.Leaves o r v'

section Sound

variable [DecidableEq P]

/-- A step of a process that changes no slot of `proc` but its own. -/
structure Own (s s' : Files P) (p : P) : Prop where
  status : s'.status = s.status
  ofile : ∀ q, q ≠ p → s'.ofile q = s.ofile q
  loc : ∀ q, q ≠ p → s'.loc q = s.loc q
  active : (s'.loc p).active = true
  kid : (s'.loc p).kid = (s.loc p).kid

section

omit [DecidableEq P]

/-- The child of a `fork` is not a process that runs. -/
theorem Procs.kid_ne {s : Files P} (h : Procs s) {p q np : P} (hkid : (s.loc q).kid = some np)
    (hp : (s.loc p).active = true) : np ≠ p := by
  intro heq
  have hembryo := h.kid q np hkid
  have hrunning := h.running p hp
  rw [heq, hrunning] at hembryo
  cases hembryo

theorem Own.view_ne [Fintype P] {s s' : Files P} {p q : P} (h : Own s s' p) (hprocs : Procs s)
    (hp : (s.loc p).active = true) (hne : q ≠ p) : s'.view q = s.view q := by
  unfold view
  rw [h.loc q hne, h.ofile q hne]
  cases hkid : (s.loc q).kid with
  | none => rfl
  | some np => simp only [h.ofile np (hprocs.kid_ne hkid hp)]

theorem Own.view_eq [Fintype P] {s s' : Files P} {p : P} (h : Own s s' p) (hprocs : Procs s)
    (hp : (s.loc p).active = true) :
    s'.view p = { slots := s'.ofile p, own := s'.loc p, child := (s.view p).child } := by
  unfold view
  rw [h.kid]
  cases hkid : (s.loc p).kid with
  | none => rfl
  | some np => simp only [h.ofile np (hprocs.kid_ne hkid hp)]

theorem Own.procs [Fintype P] {s s' : Files P} {p : P} (h : Own s s' p) (hprocs : Procs s)
    (hp : (s.loc p).active = true) (hlawful : (s'.view p).Lawful) : Procs s' where
  running q hq := by
    rw [h.status]
    by_cases hne : q = p
    · rw [hne]
      exact hprocs.running p hp
    · rw [h.loc q hne] at hq
      exact hprocs.running q hq
  rest q hq := by
    have hne : q ≠ p := by
      intro heq
      rw [heq, h.active] at hq
      cases hq
    rw [h.loc q hne] at hq ⊢
    rw [h.view_ne hprocs hp hne]
    exact hprocs.rest q hq
  empty q hq := by
    rw [h.status] at hq
    have hne : q ≠ p := by
      intro heq
      rw [heq, hprocs.running p hp] at hq
      rcases hq with hq | hq <;> cases hq
    rw [h.ofile q hne]
    exact hprocs.empty q hq
  kid q np hkid := by
    rw [h.status]
    by_cases hne : q = p
    · rw [hne, h.kid] at hkid
      exact hprocs.kid p np hkid
    · rw [h.loc q hne] at hkid
      exact hprocs.kid q np hkid
  kid_inj := by
    have hsame : ∀ q, (s'.loc q).kid = (s.loc q).kid := by
      intro q
      by_cases hne : q = p
      · rw [hne, h.kid]
      · rw [h.loc q hne]
    intro q q' np hq hq'
    rw [hsame] at hq hq'
    exact hprocs.kid_inj q q' np hq hq'
  lawful q hq := by
    by_cases hne : q = p
    · rw [hne]
      exact hlawful
    · rw [h.view_ne hprocs hp hne]
      rw [h.loc q hne] at hq
      exact hprocs.lawful q hq

end

/-- What a step of process `p` does: to what it sees, to what the others see, and to the invariants. -/
structure Did [Fintype P] (npages : Nat) (s : Files P) (p : P) (o : FileOp P) (r : (FileSig P).Ret o) (s' : Files P) :
    Prop where
  leaves : (s.view p).Leaves o r (s'.view p)
  others : ∀ q, q ≠ p → (s'.loc q).active = (s.loc q).active ∧
    ((s.loc q).active = true → s'.view q = s.view q)
  counts : Counts s'.file s'.loc
  ends : Ends s'.file s'.loc s'.live s'.isopen
  paged : Paged npages s'.freelist s'.others s'.live s'.loc
  inside : Inside s'.file s'.ofile s'.loc
  procs : ((s'.loc p).active = true → (s'.view p).Lawful) → Procs s'
  returns : Returns s'.returns

variable [Fintype P] {npages : Nat} {s s' : Files P} {p : P}
  {g : Local P → Local P} {o : FileOp P} {r : (FileSig P).Ret o} {f : FileId}

omit [Fintype P] in
theorem Own.of_note {s₁ : Files P} (hstatus : s₁.status = s.status)
    (hofile : ∀ q, q ≠ p → s₁.ofile q = s.ofile q) (hloc : s₁.loc = s.loc) (hactive : (g (s.loc p)).active = true)
    (hkid : (g (s.loc p)).kid = (s.loc p).kid) : Own s (note p g s₁) p where
  status := hstatus
  ofile := hofile
  loc q hne := by
    simp only [note, hloc, update_of_ne hne]
  active := by
    simp only [note, hloc, update_self, hactive]
  kid := by
    simp only [note, hloc, update_self, hkid]

omit [DecidableEq P] in
/-- What a step leaves of the other processes. -/
theorem Own.others (h : Own s s' p) (hgood : Good npages s) (hp : (s.loc p).active = true) (q : P) (hne : q ≠ p) :
    (s'.loc q).active = (s.loc q).active ∧ ((s.loc q).active = true → s'.view q = s.view q) :=
  ⟨by rw [h.loc q hne], fun _ => h.view_ne hgood.procs hp hne⟩

theorem Good.did_note (h : Good npages s) (hp : (s.loc p).active = true) {returns : List Return}
    (hactive : (g (s.loc p)).active = true)
    (hkid : (g (s.loc p)).kid = (s.loc p).kid) (hgiven : (g (s.loc p)).given = (s.loc p).given)
    (hfresh : (g (s.loc p)).fresh = (s.loc p).fresh) (hcarried : (g (s.loc p)).carried = (s.loc p).carried)
    (hclosing : (g (s.loc p)).closing = (s.loc p).closing)
    (hinside : Inside s.file s.ofile (update s.loc p (g (s.loc p)))) (hreturns : Returns returns)
    (hleaves : (s.view p).Leaves o r { s.view p with own := g (s.loc p) }) :
    Did npages s p o r (note p g { s with returns := returns }) := by
  have hown : Own s (note p g { s with returns := returns }) p :=
    Own.of_note rfl (fun _ _ => rfl) rfl hactive hkid
  have hview : (note p g { s with returns := returns }).view p = { s.view p with own := g (s.loc p) } := by
    rw [hown.view_eq h.procs hp]
    simp only [note, update_self, view]
  exact {
    leaves := by
      rw [hview]
      exact hleaves
    others := hown.others h hp
    counts := h.counts.congr (apply_update_eq hgiven) (apply_update_eq hfresh)
    ends := h.ends.congr (apply_update_eq hclosing)
    paged := h.paged.congr (apply_update_eq hcarried)
    inside := hinside
    procs := fun hlawful => hown.procs h.procs hp (hlawful hown.active)
    returns := hreturns }

omit [Fintype P] in
theorem Inside.update_none {file file' : FileId → File} {ofile ofile' : P → Slots} {loc : P → Local P} {l : Local P}
    (h : Inside file ofile loc) (hnone : l.inside = none) (hofile : ∀ q, q ≠ p → ofile' q = ofile q)
    (hfile : ∀ q f, q ≠ p → 0 < (loc q).given f → (file' f).endOf = (file f).endOf) :
    Inside file' ofile' (update loc p l) := by
  apply h.congr
  intro q pi hin
  have hne : q ≠ p := by
    intro heq
    rw [heq, update_self, hnone] at hin
    cases hin
  rw [update_of_ne hne] at hin ⊢
  exact ⟨hin, hofile q hne, fun f hpos => ⟨hpos, hfile q f hne hpos⟩⟩

omit [DecidableEq P] in
/-- A step that changes files, pages or ends and leaves the slots of `proc`. -/
theorem Good.did_own (h : Good npages s) (hp : (s.loc p).active = true) (hown : Own s s' p)
    (hleaves : (s.view p).Leaves o r { slots := s'.ofile p, own := s'.loc p, child := (s.view p).child })
    (hcounts : Counts s'.file s'.loc) (hends : Ends s'.file s'.loc s'.live s'.isopen)
    (hpaged : Paged npages s'.freelist s'.others s'.live s'.loc) (hinside : Inside s'.file s'.ofile s'.loc)
    (hreturns : s'.returns = s.returns) : Did npages s p o r s' where
  leaves := by
    rw [hown.view_eq h.procs hp]
    exact hleaves
  others := hown.others h hp
  counts := hcounts
  ends := hends
  paged := hpaged
  inside := hinside
  procs hlawful := hown.procs h.procs hp (hlawful hown.active)
  returns := by
    rw [hreturns]
    exact h.returns

/-- A step of a process outside of a pipe that changes what it owns, and files, pages or ends with it. -/
theorem Good.did_change (h : Good npages s) (hq : (s.view p).Quiet) {s₁ : Files P}
    (hleaves : (s.view p).Leaves o r { s.view p with own := g (s.loc p) })
    (hcounts : Counts s₁.file (update s.loc p (g (s.loc p))))
    (hends : Ends s₁.file (update s.loc p (g (s.loc p))) s₁.live s₁.isopen)
    (hpaged : Paged npages s₁.freelist s₁.others s₁.live (update s.loc p (g (s.loc p))))
    (hfile : ∀ q f, q ≠ p → 0 < (s.loc q).given f → (s₁.file f).endOf = (s.file f).endOf)
    (hactive : (g (s.loc p)).active = (s.loc p).active) (hkid : (g (s.loc p)).kid = (s.loc p).kid)
    (hinside : (g (s.loc p)).inside = (s.loc p).inside) (hstatus : s₁.status = s.status)
    (hofile : s₁.ofile = s.ofile) (hloc : s₁.loc = s.loc)
    (hreturns : s₁.returns = s.returns) : Did npages s p o r (note p g s₁) := by
  have hnote : (note p g s₁).loc = update s.loc p (g (s.loc p)) := by rw [note, hloc]
  refine h.did_own hq.1 (Own.of_note hstatus (fun q _ => by rw [hofile]) hloc (hactive.trans hq.1) hkid) ?_ ?_ ?_ ?_ ?_
    hreturns
  · rw [hnote, update_self, show (note p g s₁).ofile = s.ofile from hofile]
    exact hleaves
  · exact hnote ▸ hcounts
  · exact hnote ▸ hends
  · exact hnote ▸ hpaged
  · rw [hnote]
    exact h.inside.update_none (hinside.trans hq.2) (fun q _ => congrFun hofile q) hfile

omit [DecidableEq P] [Fintype P] in
theorem unusedFile_ref (h : s.unusedFile = some f) : (s.file f).ref = 0 := by
  have := List.find?_some h
  simpa using this

theorem Good.did_filealloc (h : Good npages s) (hq : (s.view p).Quiet) {r : Option FileId}
    (hexec : filealloc p s = .ok r s') : Did npages s p .filealloc r s' := by
  unfold filealloc at hexec
  split at hexec
  · cases hexec
    exact h.did_own hq.1 ⟨rfl, fun _ _ => rfl, fun _ _ => rfl, hq.1, rfl⟩ rfl h.counts h.ends h.paged h.inside rfl
  · rename_i f hfind
    cases hexec
    have href := unusedFile_ref hfind
    have hzero : ∀ q, (s.loc q).given f = 0 := by
      intro q
      have := h.counts.given_le q f
      omega
    refine h.did_change hq ?_ ?_ ?_ ?_ ?_ rfl rfl rfl rfl rfl rfl rfl
    · exact ⟨hzero p, rfl⟩
    · exact h.counts.filealloc href
    · exact h.ends.file_update rfl (apply_update_eq rfl)
    · exact h.paged.congr (apply_update_eq rfl)
    · intro q g _ hpos
      have hgf : g ≠ f := by
        rintro rfl
        exact Nat.ne_of_gt hpos (hzero q)
      exact congrArg File.endOf (update_of_ne hgf ..)

omit [DecidableEq P] [Fintype P] in
theorem endOf_update_ref (file : FileId → File) (f g : FileId) (n : Nat) :
    (update file f { file f with ref := n } g).endOf = (file g).endOf := by
  apply apply_update_eq (f := File.endOf)
  rfl

section

variable (hq : (s.view p).Quiet) (h : Good npages s)
include hq h

theorem Good.did_filedup (hpos : 0 < (s.loc p).given f)
    (hfresh : f ∉ (s.loc p).fresh) (hexec : filedup p f s = .ok () s') : Did npages s p (.filedup f) () s' := by
  unfold filedup at hexec
  split at hexec
  · cases hexec
  · cases hexec
    refine h.did_change hq ?_ ?_ ?_ ?_ ?_ rfl rfl rfl rfl rfl rfl rfl
    · rfl
    · exact h.counts.filedup hpos hfresh
    · exact h.ends.file_update rfl (apply_update_eq rfl)
    · exact h.paged.congr (apply_update_eq rfl)
    · exact fun _ g _ _ => endOf_update_ref s.file f g _

theorem Good.did_fileclose {r : Option File}
    (hpos : 0 < (s.loc p).given f) (hclosing : (s.loc p).closing = none) (hexec : fileclose p f s = .ok r s') :
    Did npages s p (.fileclose f) r s' := by
  unfold fileclose at hexec
  split at hexec
  · cases hexec
  · rename_i href
    split at hexec
    · cases hexec
      refine h.did_change hq ?_ ?_ ?_ ?_ ?_ rfl rfl rfl rfl rfl rfl rfl
      · simp only [View.Leaves, view, bind_none, Local.lose, hclosing]
      · exact h.counts.fileclose hpos (by simp only; omega) (fun hzero => by simp only at hzero; omega) rfl rfl
      · exact h.ends.file_update rfl (apply_update_eq rfl)
      · exact h.paged.congr (apply_update_eq rfl)
      · exact fun _ g _ _ => endOf_update_ref s.file f g _
    · rename_i hlast
      cases hexec
      have hle := h.counts.given_le p f
      refine h.did_change hq ?_ ?_ ?_ ?_ ?_ rfl rfl rfl rfl rfl rfl rfl
      · rfl
      · exact h.counts.fileclose hpos (by simp only; omega) (fun _ => rfl) rfl rfl
      · exact h.ends.fileclose rfl hclosing rfl
      · exact h.paged.congr (apply_update_eq rfl)
      · intro q g hne hposq
        -- the reference of `p` was the last one
        have hgf : g ≠ f := by
          rintro rfl
          exact Nat.ne_of_gt hposq (h.counts.given_eq_zero (p := p) (by omega) hne)
        exact congrArg File.endOf (update_of_ne hgf ..)

theorem Good.did_pipeclose {pi : Nat} {w r : Bool}
    (hclosing : (s.loc p).closing = some (pi, w)) (hexec : pipeclose p pi w s = .ok r s') :
    Did npages s p (.pipeclose pi w) r s' := by
  have hlive : s.live pi = true := (h.ends.live_of_closes hclosing).1
  have hother : (s.setClosed pi w).isopen pi (!w) = s.isopen pi (!w) := by
    simp [setClosed]
  have hthis : (s.setClosed pi w).isopen pi w = false := by
    simp [setClosed]
  unfold pipeclose at hexec
  simp only at hexec
  split at hexec
  · rename_i hboth
    cases hexec
    have hclosed : s.isopen pi (!w) = false := by
      rw [← hother]
      cases w
      · exact hboth.2
      · exact hboth.1
    refine h.did_change hq ?_ ?_ ?_ ?_ (fun _ _ _ _ => rfl) rfl rfl rfl rfl rfl rfl rfl
    · rfl
    · exact h.counts.congr (apply_update_eq rfl) (apply_update_eq rfl)
    · apply h.ends.pipeclose hclosing rfl
      · intro pi' hne
        exact update_of_ne hne _ _
      · simp only [update_self, hclosed]
    · apply h.paged.move
      intro pi'
      have hcons := count_cons_add (s.loc p).carried pi pi'
      have hsub := live_update_sub hlive pi'
      simp only [setClosed]
      omega
  · rename_i hboth
    cases hexec
    have hopen : s.isopen pi (!w) = true := by
      rw [← hother]
      by_contra hno
      rw [Bool.not_eq_true] at hno
      cases w
      · exact hboth ⟨hthis, hno⟩
      · exact hboth ⟨hno, hthis⟩
    refine h.did_change hq ?_ ?_ ?_ ?_ (fun _ _ _ _ => rfl) rfl rfl rfl rfl rfl rfl rfl
    · rfl
    · exact h.counts.congr (apply_update_eq rfl) (apply_update_eq rfl)
    · exact h.ends.pipeclose hclosing rfl (fun _ _ => rfl) (by rw [hopen]; exact hlive)
    · exact h.paged.congr (apply_update_eq rfl)

theorem Good.did_kalloc {r : Option Nat} (hexec : kalloc p s = .ok r s') : Did npages s p .kalloc r s' := by
  unfold kalloc at hexec
  split at hexec
  · cases hexec
    exact h.did_own hq.1 ⟨rfl, fun _ _ => rfl, fun _ _ => rfl, hq.1, rfl⟩ rfl h.counts h.ends h.paged h.inside rfl
  · rename_i pi rest hfree
    cases hexec
    have hlive : s.live pi = false := by
      apply h.paged.not_live_of_mem
      rw [hfree]
      exact Or.inl List.mem_cons_self
    refine h.did_change hq ?_ ?_ ?_ ?_ (fun _ _ _ _ => rfl) rfl rfl rfl rfl rfl rfl rfl
    · rfl
    · exact h.counts.congr (apply_update_eq rfl) (apply_update_eq rfl)
    · exact h.ends.junk hlive (apply_update_eq rfl)
    · apply h.paged.move
      intro pi'
      have hcons := count_cons_add (s.loc p).carried pi pi'
      have hcons' := count_cons_add rest pi pi'
      rw [hfree]
      simp only [junk]
      omega

theorem Good.did_kfree {pi : Nat} (hmem : pi ∈ (s.loc p).carried) : Did npages s p (.kfree pi) () (kfree p pi s) := by
  refine h.did_change hq ?_ ?_ ?_ ?_ (fun _ _ _ _ => rfl) rfl rfl rfl rfl rfl rfl rfl
  · rfl
  · exact h.counts.congr (apply_update_eq rfl) (apply_update_eq rfl)
  · exact h.ends.junk (h.paged.not_live_of_carried hmem) (apply_update_eq rfl)
  · apply h.paged.move
    intro pi'
    have herase := count_erase_add hmem pi'
    have hcons := count_cons_add s.freelist pi pi'
    simp only [junk]
    omega

end

omit [DecidableEq P] in
theorem Good.endOf_fresh (h : Good npages s) (hf : f ∈ (s.loc p).fresh) : (s.file f).endOf = none := by
  have htype := (h.counts.fresh p f hf).2.1
  simp [File.endOf, htype]

theorem Good.fresh_ne (h : Good npages s) (hf : f ∈ (s.loc p).fresh) {q : P} {g : FileId} (hne : q ≠ p)
    (hpos : 0 < (s.loc q).given g) : g ≠ f := by
  rintro rfl
  exact Nat.ne_of_gt hpos (h.counts.given_of_fresh hf hne)

theorem Good.did_install (h : Good npages s) (hq : (s.view p).Quiet) {f0 f1 : FileId} {pi : Nat}
    (h0 : f0 ∈ (s.loc p).fresh) (h1 : f1 ∈ (s.loc p).fresh) (hne : f0 ≠ f1) (hmem : pi ∈ (s.loc p).carried) :
    Did npages s p (.install f0 f1 pi) () (install p f0 f1 pi s) := by
  have hlive := h.paged.not_live_of_carried hmem
  refine h.did_change hq ?_ ?_ ?_ ?_ ?_ rfl rfl rfl rfl rfl rfl rfl
  · rfl
  · have hfirst := h.counts.fill (l := { s.loc p with fresh := (s.loc p).fresh.erase f0 }) h0
      (x := { s.file f0 with type := .pipe, readable := true, writable := false, pipe := pi }) rfl rfl rfl
    have hf1 : f1 ∈ (s.loc p).fresh.erase f0 := (List.mem_erase_of_ne (Ne.symm hne)).2 h1
    have hsecond := hfirst.fill (p := p) (f := f1)
      (l := { s.loc p with fresh := ((s.loc p).fresh.erase f0).erase f1, carried := (s.loc p).carried.erase pi })
      (x := { s.file f1 with type := .pipe, readable := false, writable := true, pipe := pi })
      (by rw [update_self]; exact hf1) (by rw [update_of_ne (Ne.symm hne)])
      (by rw [update_self]) (by rw [update_self])
    rw [update_idem] at hsecond
    exact hsecond
  · have hends := (h.ends.install (x := { s.file f0 with type := .pipe, readable := true, writable := false, pipe := pi })
      (y := { s.file f1 with type := .pipe, readable := false, writable := true, pipe := pi })
      hne hlive (h.endOf_fresh h0) (h.endOf_fresh h1) rfl rfl)
    exact hends.congr (apply_update_eq rfl)
  · apply h.paged.move
    intro pi'
    have herase := count_erase_add hmem pi'
    have hadd := live_update_add hlive pi'
    simp only [setFile]
    omega
  · intro q g hqp hpos
    simp only [setFile, update_of_ne (h.fresh_ne h1 hqp hpos), update_of_ne (h.fresh_ne h0 hqp hpos)]

theorem Good.did_fill (h : Good npages s) (hq : (s.view p).Quiet) {device readable writable : Bool}
    (hf : f ∈ (s.loc p).fresh) :
    Did npages s p (.fill f device readable writable) () (note p (fun l => { l with fresh := l.fresh.erase f })
      (setFile f { s.file f with type := if device then .device else .inode, readable, writable } s)) := by
  refine h.did_change hq ?_ ?_ ?_ ?_ ?_ rfl rfl rfl rfl rfl rfl rfl
  · rfl
  · exact h.counts.fill hf rfl rfl rfl
  · apply h.ends.file_update
    · rw [h.endOf_fresh hf]
      cases device <;> rfl
    · exact apply_update_eq rfl
  · exact h.paged.congr (apply_update_eq rfl)
  · intro q g hqp hpos
    simp only [setFile, update_of_ne (h.fresh_ne hf hqp hpos)]

end Sound

end Xv6.Files
