import Xv6.File.Sound

/-! Every call takes and drops references so that none is on its way when it returns, and a `pipe` or `dup` that
fails leaves the descriptors as they were. -/

namespace Xv6.Files

open Lib Logic Function List

variable {P : Type} {α β : Type} {v : View P}

/-! ### References taken and dropped -/

theorem refers_le_one (f : FileId) (o : Option FileId) : refers f o ≤ 1 := by
  unfold refers
  split <;> omega

theorem refers_add_le {f g : FileId} (hne : f ≠ g) (e : FileId) : refers e (some f) + refers e (some g) ≤ 1 := by
  by_cases hf : f = e
  · subst hf
    rw [refers_self, refers_of_ne (Ne.symm hne)]
  · rw [refers_of_ne hf]
    have := refers_le_one e (some g)
    omega

theorem gain_lose (l : Local P) (f : FileId) : (l.gain f).lose f = l := by
  simp [Local.gain, Local.lose]

theorem gain_gain_lose (l : Local P) {f g : FileId} (hne : f ≠ g) : ((l.gain f).gain g).lose f = l.gain g := by
  have hgiven : update (update (update l.given f (l.given f + 1)) g (update l.given f (l.given f + 1) g + 1)) f
        (update (update l.given f (l.given f + 1)) g
          (update l.given f (l.given f + 1) g + 1) f - 1) = update l.given g (l.given g + 1) := by
    rw [update_of_ne (Ne.symm hne), update_of_ne hne, update_self, Nat.add_sub_cancel]
    rw [update_comm hne, update_idem, update_comm (Ne.symm hne), update_eq_self]
  simp only [Local.gain, Local.lose, hgiven]

/-! ### Rules -/

theorem wp_op {o : FileOp P} {Q : (FileSig P).Ret o → View P → Prop} (hneeds : v.Needs o)
    (hlawful : ∀ r v', v.Leaves o r v' → v'.own.active = true → v'.Lawful) (hQ : ∀ r v', v.Leaves o r v' → Q r v') :
    fileLogic.wp (op o) Q v :=
  ⟨⟨hneeds, hlawful⟩, hQ⟩

theorem wp_op_eq {o : FileOp P} {Q : (FileSig P).Ret o → View P → Prop} {w : View P}
    (hleaves : ∀ r v', v.Leaves o r v' → v' = w) (hneeds : v.Needs o) (hlawful : w.Lawful) (hQ : ∀ r, Q r w) :
    fileLogic.wp (op o) Q v := by
  apply wp_op hneeds
  · intro r v' hv' _
    rw [hleaves r v' hv']
    exact hlawful
  · intro r v' hv'
    rw [hleaves r v' hv']
    exact hQ r

/-- In a call, being lawful is a matter of references and descriptors. -/
theorem View.Lawful.congr {v' : View P} (h : v.Lawful) (hbusy : v.own.call ≠ .idle) (hcall : v'.own.call = v.own.call)
    (hentry : v'.own.entry = v.own.entry) (hgiven : v'.own.given = v.own.given) (hslots : v'.slots = v.slots) :
    v'.Lawful where
  allows f := by
    rw [hcall, hgiven, hslots]
    exact h.allows f
  kept hkind := by
    rw [hcall] at hkind
    rw [hentry, hslots]
    exact h.kept hkind
  idle hidle := absurd (hcall ▸ hidle) hbusy

variable {fd : Fin NOFILE} {f : FileId} {fds : List (Fin NOFILE)} {Q : Unit → View P → Prop} {k : Kind} {f0 f1 : FileId}

theorem wp_getSlot {Q : Option FileId → View P → Prop} (hq : v.Quiet) (hlawful : v.Lawful)
    (hQ : Q (v.slots fd) v) : fileLogic.wp (getSlot fd) Q v := by
  apply wp_op (o := .slot fd) hq
  · intro r v' hv' _
    rw [hv'.2]
    exact hlawful
  · intro r v' hv'
    rw [hv'.1, hv'.2]
    exact hQ

/-- `fdalloc` fills a free descriptor, or there is none. -/
theorem wp_fdallocFrom {Q : Option (Fin NOFILE) → View P → Prop} (hq : v.Quiet)
    (hlawful : v.Lawful) (hset : ∀ fd, v.slots fd = none → View.Lawful { v with slots := update v.slots fd (some f) })
    (hnone : Q none v)
    (hsome : ∀ fd, v.slots fd = none → Q (some fd) { v with slots := update v.slots fd (some f) }) :
    fileLogic.wp (fdallocFrom f fds) Q v := by
  induction fds with
  | nil => exact hnone
  | cons fd fds ih =>
    apply wp_bind.2
    apply wp_getSlot hq hlawful
    cases hfd : v.slots fd with
    | none =>
      apply wp_bind.2
      exact wp_op_eq (fun _ _ hv' => hv') ⟨hq, hfd⟩ (hset fd hfd) fun _ => hsome fd hfd
    | some _ => exact ih

theorem wp_fdalloc {Q : Option (Fin NOFILE) → View P → Prop} (hq : v.Quiet) (hlawful : v.Lawful)
    (hset : ∀ fd, v.slots fd = none → View.Lawful { v with slots := update v.slots fd (some f) })
    (hnone : Q none v)
    (hsome : ∀ fd, v.slots fd = none → Q (some fd) { v with slots := update v.slots fd (some f) }) :
    fileLogic.wp (fdalloc f) Q v :=
  wp_fdallocFrom hq hlawful hset hnone hsome

/-- `pipeclose` frees the page if the other end is closed. -/
theorem wp_pipecloseFree {pi : Nat} {w : Bool} (hq : v.Quiet) (hbusy : v.own.call ≠ .idle)
    (hclosing : v.own.closing = some (pi, w)) (hlawful : v.Lawful)
    (hQ : Q () { v with own := { v.own with closing := none } }) : fileLogic.wp (pipecloseFree pi w) Q v := by
  apply wp_bind.2
  apply wp_op (o := .pipeclose pi w) ⟨hq, hclosing⟩
  · intro last v' hv' _
    rw [hv']
    exact hlawful.congr hbusy rfl rfl rfl rfl
  · intro last v' hv'
    rw [hv']
    cases last with
    | false => exact hQ
    | true =>
      have hback : (pi :: v.own.carried).erase pi = v.own.carried := erase_cons_head ..
      have hmem : pi ∈ pi :: v.own.carried := mem_cons_self
      refine wp_op_eq (w := { v with own := { v.own with closing := none } }) ?_ ⟨hq, hmem⟩ ?_ fun _ => hQ
      · intro _ v' hv'
        simp only [View.Leaves, View.endClosed, if_true, hback] at hv'
        exact hv'
      · exact hlawful.congr hbusy rfl rfl rfl rfl

def View.drop (v : View P) (f : FileId) : View P :=
  { v with own := { v.own.lose f with fresh := v.own.fresh.erase f } }

/-- `fileclose` drops the reference; the end of a pipe that it closes and the page that it frees are gone. -/
theorem wp_closeFile (hq : v.Quiet) (hbusy : v.own.call ≠ .idle)
    (hpos : 0 < v.own.given f) (hclosing : v.own.closing = none) (hlawful : (v.drop f).Lawful) (hQ : Q () (v.drop f)) :
    fileLogic.wp (closeFile f) Q v := by
  have hbusy' : (v.drop f).own.call ≠ .idle := hbusy
  have hsame : { v.drop f with own := { (v.drop f).own with closing := none } } = v.drop f := by
    simp only [View.drop, Local.lose, hclosing]
  have hdone : Q () { v.drop f with own := { (v.drop f).own with closing := none } } := by
    rw [hsame]
    exact hQ
  apply wp_bind.2
  apply wp_op (o := .fileclose f) ⟨hq, hpos, hclosing⟩
  · intro r v' hv' _
    rw [hv']
    exact hlawful.congr hbusy' rfl rfl rfl rfl
  · intro r v' hv'
    rw [hv']
    cases r with
    | none => exact hdone
    | some ff =>
      by_cases htype : ff.type = .pipe
      · have hend : ff.endOf = some (ff.pipe, ff.writable) := by simp [File.endOf, htype]
        simp only [htype, if_true, Option.bind_some, hend]
        exact wp_pipecloseFree hq hbusy' rfl (hlawful.congr hbusy' rfl rfl rfl rfl) hdone
      · have hend : ff.endOf = none := by simp [File.endOf, htype]
        simp only [htype, if_false, Option.bind_some, hend]
        exact hdone

/-! ### Calls -/

/-- A process at the start of a call. -/
structure View.Start (v : View P) (k : Kind) : Prop where
  quiet : v.Quiet
  call : v.own.call = k
  child : v.child = fun _ => none
  entry : v.own.entry = v.slots
  settled : v.Settled

/-- A process at the end of a call that returns `r`. -/
structure View.Finish (v : View P) (k : Kind) (r : Int) : Prop where
  quiet : v.Quiet
  call : v.own.call = k
  child : v.child = fun _ => none
  settled : v.Settled
  failed : k = .pipe ∨ k = .dup → r = -1 → v.slots = v.own.entry

theorem View.Start.busy (h : v.Start k) (hk : k ≠ .idle) : v.own.call ≠ .idle := h.call ▸ hk

theorem View.Start.finish (h : v.Start k) (r : Int) : v.Finish k r :=
  ⟨h.quiet, h.call, h.child, h.settled, fun _ _ => h.entry.symm⟩

theorem Kind.allows_self (k : Kind) (n : Nat) : k.Allows n n := by
  cases k <;> simp [Kind.Allows]

theorem View.Start.lawful (h : v.Start k) : v.Lawful where
  allows f := by
    rw [h.settled.given f]
    exact Kind.allows_self _ _
  kept _ fd f hfd := by
    rw [← h.entry]
    exact hfd
  idle _ := h.settled

theorem View.Settled.lawful_busy (h : v.Settled) (hbusy : v.own.call ≠ .idle)
    (hkept : v.own.call = .pipe ∨ v.own.call = .dup → ∀ fd f, v.own.entry fd = some f → v.slots fd = some f) :
    v.Lawful where
  allows f := by
    rw [h.given f]
    exact Kind.allows_self _ _
  kept := hkept
  idle hidle := absurd hidle hbusy

theorem lawful_other (hcall : v.own.call = k) (hk : k ≠ .idle ∧ k ≠ .pipe ∧ k ≠ .dup)
    (hallows : ∀ f, k.Allows (v.own.given f) (v.slots.count f)) : v.Lawful where
  allows f := hcall ▸ hallows f
  kept hno := (hno.elim (fun h => hk.2.1 (hcall.symm.trans h)) fun h => hk.2.2 (hcall.symm.trans h)).elim
  idle hidle := absurd (hcall.symm.trans hidle) hk.1

theorem View.Settled.lawful_other (h : v.Settled) (hcall : v.own.call = k)
    (hk : k ≠ .idle ∧ k ≠ .pipe ∧ k ≠ .dup) : v.Lawful :=
  Files.lawful_other hcall hk fun f => h.given f ▸ Kind.allows_self k _

theorem View.Settled.given_pos (h : v.Settled) (hfd : v.slots fd = some f) : 0 < v.own.given f := by
  rw [h.given f]
  exact count_pos hfd

/-- Nothing else is on its way when a reference is taken. -/
theorem Local.Clear.gain {l : Local P} (h : l.Clear) (f : FileId) : (l.gain f).Clear := ⟨h.1, h.2, h.3, h.4, h.5⟩

theorem kept_set {t slots : Slots} (hfd : slots fd = none)
    (hkept : ∀ fd f, t fd = some f → slots fd = some f) (fd' : Fin NOFILE) (g : FileId) (hg : t fd' = some g) :
    update slots fd (some f) fd' = some g := by
  have hold := hkept fd' g hg
  have hne : fd' ≠ fd := by
    intro heq
    rw [heq, hfd] at hold
    cases hold
  rw [update_of_ne hne]
  exact hold

theorem wp_sysDup (h : v.Start .dup) (fd : Fin NOFILE) : fileLogic.wp (sysDup fd) (fun r v' => v'.Finish .dup r) v := by
  have hbusy := h.busy nofun
  apply wp_bind.2
  apply wp_getSlot h.quiet h.lawful
  cases hfd : v.slots fd with
  | none => exact h.finish (-1)
  | some f =>
    have hpos := h.settled.given_pos hfd
    apply wp_bind.2
    apply wp_fdalloc h.quiet h.lawful
    · intro fd' hfd'
      exact {
        allows := by
          intro g
          have hle := refers_le_one g (some f)
          have hgiven := h.settled.given g
          simp only [h.call, Kind.Allows, count_set hfd']
          omega
        kept := fun _ => kept_set hfd' (h.lawful.kept (Or.inr h.call))
        idle := fun hidle => absurd hidle hbusy }
    · exact h.finish (-1)
    · intro fd' hfd'
      -- the descriptor has been filled and the reference is taken now
      have hfresh : f ∉ v.own.fresh := by
        rw [h.settled.clear.fresh]
        exact not_mem_nil
      have hsettled : View.Settled { v with slots := update v.slots fd' (some f), own := v.own.gain f } := by
        refine ⟨fun g => ?_, h.settled.clear.gain f⟩
        rw [gain_given, count_set hfd', h.settled.given g]
      apply wp_bind.2
      refine wp_op_eq (o := .filedup f) (fun _ _ hv' => hv') ⟨h.quiet, hpos, hfresh⟩ ?_ fun _ => ?_
      · exact hsettled.lawful_busy hbusy fun _ => kept_set hfd' (h.lawful.kept (Or.inr h.call))
      · refine ⟨h.quiet, h.call, h.child, hsettled, fun _ hr => ?_⟩
        have : (0 : Int) ≤ (fd' : Nat) := Int.natCast_nonneg _
        omega

theorem wp_sysClose (h : v.Start .close) (fd : Fin NOFILE) :
    fileLogic.wp (sysClose fd) (fun r v' => v'.Finish .close r) v := by
  have hbusy := h.busy nofun
  apply wp_bind.2
  apply wp_getSlot h.quiet h.lawful
  cases hfd : v.slots fd with
  | none => exact h.finish (-1)
  | some f =>
    have hpos := h.settled.given_pos hfd
    have hcount : ∀ g, Slots.count (update v.slots fd none) g + refers g (some f) = v.own.given g := by
      intro g
      rw [h.settled.given g]
      exact count_clear hfd g
    apply wp_bind.2
    refine wp_op_eq (o := .clearSlot fd) (fun _ _ hv' => hv') h.quiet ?_ fun _ => ?_
    · refine lawful_other h.call (by decide) fun g => ?_
      have hle := refers_le_one g (some f)
      have hg := hcount g
      simp only [Kind.Allows]
      omega
    · have hsettled : (View.drop { v with slots := update v.slots fd none } f).Settled := by
        refine ⟨fun g => ?_, ?_, h.settled.clear.2, h.settled.clear.3, h.settled.clear.4, h.settled.clear.5⟩
        · have hlose := lose_given hpos g
          have hg := hcount g
          simp only [View.drop]
          omega
        · simp only [View.drop, h.settled.clear.fresh, erase_nil]
      apply wp_bind.2
      refine wp_closeFile h.quiet hbusy hpos h.settled.clear.closing ?_ ?_
      · exact hsettled.lawful_other h.call (by decide)
      · exact ⟨h.quiet, h.call, h.child, hsettled, by simp⟩

/-! ### `pipe` -/

theorem lawful_pipe (hcall : v.own.call = .pipe)
    (hallows : ∀ f, v.slots.count f ≤ v.own.given f ∧ v.own.given f ≤ v.slots.count f + 1)
    (hkept : ∀ fd f, v.own.entry fd = some f → v.slots fd = some f) : v.Lawful where
  allows f := by
    rw [hcall]
    exact hallows f
  kept _ := hkept
  idle hidle := by
    rw [hcall] at hidle
    cases hidle

/-- In `pipe`, a process has the references that it had and those of `fs`. -/
theorem View.Start.lawful_gain (h : v.Start .pipe) {v' : View P} {extra : FileId → Nat} (hcall : v'.own.call = v.own.call)
    (hentry : v'.own.entry = v.own.entry) (hslots : v'.slots = v.slots) (hextra : ∀ f, extra f ≤ 1)
    (hgiven : ∀ f, v'.own.given f = v.own.given f + extra f) : v'.Lawful := by
  apply lawful_pipe (hcall.trans h.call)
  · intro f
    have hle := hextra f
    have hold := h.settled.given f
    rw [hgiven f, hslots]
    omega
  · rw [hentry, h.entry, hslots]
    exact fun _ _ hfd => hfd

def View.withNew (v : View P) (f : FileId) : View P := { v with own := { v.own.gain f with fresh := f :: v.own.fresh } }

theorem wp_allocFile {Q : Option FileId → View P → Prop} (hq : v.Quiet) (hlawful : v.Lawful)
    (hnew : ∀ f, v.own.given f = 0 → (v.withNew f).Lawful) (hnone : Q none v)
    (hsome : ∀ f, v.own.given f = 0 → Q (some f) (v.withNew f)) : fileLogic.wp allocFile Q v := by
  apply wp_op (o := .filealloc) hq
  · intro r v' hv' _
    cases r with
    | none =>
      rw [show v' = v from hv']
      exact hlawful
    | some f =>
      rw [hv'.2]
      exact hnew f hv'.1
  · intro r v' hv'
    cases r with
    | none =>
      rw [show v' = v from hv']
      exact hnone
    | some f =>
      rw [hv'.2]
      exact hsome f hv'.1

theorem withNew_drop (v : View P) (f : FileId) : (v.withNew f).drop f = v := by
  change { v with own := { (v.own.gain f).lose f with fresh := (f :: v.own.fresh).erase f } } = v
  rw [gain_lose, erase_cons_head]

theorem withNew_withNew_drop (v : View P) (hne : f0 ≠ f1) : ((v.withNew f0).withNew f1).drop f0 = v.withNew f1 := by
  change { v with own := { ((v.own.gain f0).gain f1).lose f0 with
    fresh := (f1 :: f0 :: v.own.fresh).erase f0 } } = v.withNew f1
  rw [gain_gain_lose v.own hne, erase_cons_tail (by simpa using Ne.symm hne), erase_cons_head]
  rfl

theorem wp_closeBoth {m : Prog (FileSig P) α} {Q : α → View P → Prop} (hq : v.Quiet)
    (hbusy : v.own.call ≠ .idle) (hclosing : v.own.closing = none) (hpos0 : 0 < v.own.given f0)
    (hpos1 : 0 < (v.drop f0).own.given f1) (hlawful0 : (v.drop f0).Lawful) (hlawful1 : ((v.drop f0).drop f1).Lawful)
    (hm : fileLogic.wp m Q ((v.drop f0).drop f1)) :
    fileLogic.wp (do closeFile f0; closeFile f1; m) Q v := by
  apply wp_bind.2
  apply wp_closeFile hq hbusy hpos0 hclosing hlawful0
  apply wp_bind.2
  exact wp_closeFile (v := v.drop f0) hq hbusy hpos1 hclosing hlawful1 hm

theorem withNew_given (v : View P) (f g : FileId) : (v.withNew f).own.given g = v.own.given g + refers g (some f) :=
  gain_given v.own f g

theorem wp_closeNew (hq : v.Quiet) (hbusy : v.own.call ≠ .idle)
    (hclosing : v.own.closing = none) (hlawful : v.Lawful) (hQ : Q () v) :
    fileLogic.wp (closeFile f) Q (v.withNew f) := by
  apply wp_closeFile (v := v.withNew f) hq hbusy _ hclosing
  · rwa [withNew_drop]
  · rwa [withNew_drop]
  · rw [withNew_given, refers_self]
    omega

section

variable (h : v.Start .pipe)
include h

theorem View.Start.lawful_new (f : FileId) : (v.withNew f).Lawful :=
  h.lawful_gain rfl rfl rfl (fun g => refers_le_one g (some f)) (withNew_given v f)

theorem View.Start.lawful_new_new (hne : f0 ≠ f1) : ((v.withNew f0).withNew f1).Lawful := by
  refine h.lawful_gain rfl rfl rfl (fun g => refers_add_le hne g) fun g => ?_
  rw [withNew_given, withNew_given, Nat.add_assoc]

theorem wp_pipeallocPage (hne : f0 ≠ f1) {Q : Option (FileId × FileId) → View P → Prop} (hnone : Q none v)
    (hsome : Q (some (f0, f1)) { v with own := (v.own.gain f0).gain f1 }) :
    fileLogic.wp (pipeallocPage f0 f1) Q ((v.withNew f0).withNew f1) := by
  have hbusy := h.busy nofun
  have hlawful := h.lawful_new_new hne
  apply wp_bind.2
  apply wp_op (o := .kalloc) (v := (v.withNew f0).withNew f1) h.quiet
  · intro r v' hv' _
    rw [hv']
    exact hlawful.congr hbusy rfl rfl rfl rfl
  · intro r v' hv'
    rw [hv']
    cases r with
    | none =>
      refine wp_closeBoth (v := (v.withNew f0).withNew f1) h.quiet hbusy h.settled.clear.closing ?_ ?_ ?_ ?_ ?_
      · rw [withNew_given, withNew_given, refers_self]
        omega
      · rw [withNew_withNew_drop v hne, withNew_given, refers_self]
        omega
      · rw [withNew_withNew_drop v hne]
        exact h.lawful_new f1
      · rw [withNew_withNew_drop v hne, withNew_drop]
        exact h.lawful
      · rw [withNew_withNew_drop v hne, withNew_drop]
        exact hnone
    | some pi =>
      have hfiles : ((f1 :: f0 :: v.own.fresh).erase f0).erase f1 = v.own.fresh := by
        rw [erase_cons_tail (by simpa using Ne.symm hne), erase_cons_head, erase_cons_head]
      have hpages : (pi :: v.own.carried).erase pi = v.own.carried := erase_cons_head ..
      apply wp_bind.2
      refine wp_op_eq (o := .install f0 f1 pi) (w := { v with own := (v.own.gain f0).gain f1 }) ?_ ?_ ?_ fun _ => ?_
      · intro _ v' hv'
        rw [hv']
        change { v with own := { (v.own.gain f0).gain f1 with
          fresh := ((f1 :: f0 :: v.own.fresh).erase f0).erase f1
          carried := (pi :: v.own.carried).erase pi } } = _
        rw [hfiles, hpages]
        rfl
      · exact ⟨h.quiet, mem_cons_of_mem _ mem_cons_self, mem_cons_self, hne, mem_cons_self⟩
      · exact hlawful.congr hbusy rfl rfl rfl rfl
      · exact hsome

theorem wp_pipealloc {Q : Option (FileId × FileId) → View P → Prop} (hnone : Q none v)
    (hsome : ∀ f0 f1, f0 ≠ f1 → Q (some (f0, f1)) { v with own := (v.own.gain f0).gain f1 }) :
    fileLogic.wp pipealloc Q v := by
  have hbusy := h.busy nofun
  have hne : ∀ f0 f1, (v.withNew f0).own.given f1 = 0 → f0 ≠ f1 := by
    intro f0 f1 hzero heq
    rw [withNew_given, heq, refers_self] at hzero
    omega
  apply wp_bind.2
  apply wp_allocFile h.quiet h.lawful
  · intro f0 _
    exact h.lawful_new f0
  · exact hnone
  · intro f0 _
    apply wp_bind.2
    apply wp_allocFile (v := v.withNew f0) h.quiet (h.lawful_new f0)
    · intro f1 hzero
      exact h.lawful_new_new (hne f0 f1 hzero)
    · apply wp_bind.2
      exact wp_closeNew h.quiet hbusy h.settled.clear.closing h.lawful hnone
    · intro f1 hzero
      exact wp_pipeallocPage h (hne f0 f1 hzero) hnone (hsome f0 f1 (hne f0 f1 hzero))

/-- In `pipe` with both files, some of whose descriptors are filled. -/
theorem View.Start.lawful_files (hne : f0 ≠ f1) {t : Slots}
    (hkept : ∀ fd f, v.slots fd = some f → t fd = some f) (hcount : ∀ g, v.slots.count g ≤ t.count g ∧
      t.count g ≤ v.slots.count g + refers g (some f0) + refers g (some f1)) :
    View.Lawful { v with slots := t, own := (v.own.gain f0).gain f1 } := by
  refine lawful_pipe h.call ?_ ?_
  · intro g
    have hle := refers_add_le hne g
    have hg := hcount g
    have hsettled := h.settled.given g
    simp only [gain_given]
    omega
  · intro fd f hfd
    exact hkept fd f (h.entry ▸ hfd)

/-- A `pipe` that fails drops both files, when no descriptor refers to them. -/
theorem wp_pipe_fail (hne : f0 ≠ f1) :
    fileLogic.wp (do closeFile f0; closeFile f1; pure (-1)) (fun r v' => v'.Finish .pipe r)
      { v with own := (v.own.gain f0).gain f1 } := by
  have hbusy := h.busy nofun
  have hfresh := h.settled.clear.fresh
  have hdrop0 : View.drop { v with own := (v.own.gain f0).gain f1 } f0 = { v with own := v.own.gain f1 } := by
    change { v with own := { ((v.own.gain f0).gain f1).lose f0 with fresh := v.own.fresh.erase f0 } } = _
    rw [gain_gain_lose v.own hne, hfresh, erase_nil, ← hfresh]
    rfl
  have hdrop1 : View.drop { v with own := v.own.gain f1 } f1 = v := by
    change { v with own := { (v.own.gain f1).lose f1 with fresh := v.own.fresh.erase f1 } } = v
    rw [gain_lose, hfresh, erase_nil, ← hfresh]
  refine wp_closeBoth (v := { v with own := (v.own.gain f0).gain f1 }) h.quiet hbusy h.settled.clear.closing
    ?_ ?_ ?_ ?_ ?_
  · simp only [gain_given, refers_self]
    omega
  · rw [hdrop0]
    simp only [gain_given, refers_self]
    omega
  · rw [hdrop0]
    exact h.lawful_gain rfl rfl rfl (fun g => refers_le_one g (some f1)) fun g => gain_given v.own f1 g
  · rw [hdrop0, hdrop1]
    exact h.lawful
  · rw [hdrop0, hdrop1]
    exact h.finish (-1)

end

theorem update_clear {t : Slots} (h : t fd = none) (o : Option FileId) : update (update t fd o) fd none = t := by
  rw [update_idem, ← h, update_eq_self]

/-- The end of `sys_pipe`: both descriptors are filled. -/
theorem wp_sysPipe_filled (h : v.Start .pipe) (hne : f0 ≠ f1) {fd0 fd1 : Fin NOFILE}
    (h0 : v.slots fd0 = none) (h1 : update v.slots fd0 (some f0) fd1 = none) (copied : Bool) :
    fileLogic.wp (if copied then pure 0 else do
        op (.clearSlot fd0)
        op (.clearSlot fd1)
        closeFile f0
        closeFile f1
        pure (-1)) (fun r v' => v'.Finish .pipe r)
      { v with
        slots := update (update v.slots fd0 (some f0)) fd1 (some f1)
        own := (v.own.gain f0).gain f1 } := by
  have hfd : fd1 ≠ fd0 := by
    intro heq
    rw [heq, update_self] at h1
    cases h1
  have h1' : v.slots fd1 = none := by
    rwa [update_of_ne hfd] at h1
  cases copied with
  | true =>
    refine ⟨h.quiet, h.call, h.child, ⟨?_, (h.settled.clear.gain f0).gain f1⟩, fun _ hr => by cases hr⟩
    intro g
    have hsettled := h.settled.given g
    simp only [gain_given, count_set h1, count_set h0]
    omega
  | false =>
    have hswap : update (update (update v.slots fd0 (some f0)) fd1 (some f1)) fd0 none =
        update v.slots fd1 (some f1) := by
      rw [update_comm hfd, update_clear h0]
    apply wp_bind.2
    refine wp_op_eq (o := .clearSlot fd0)
      (w := { v with slots := update v.slots fd1 (some f1), own := (v.own.gain f0).gain f1 })
      ?_ h.quiet ?_ fun _ => ?_
    · intro _ v' hv'
      rw [hv']
      simp only [hswap]
    · apply h.lawful_files hne (kept_set h1' fun _ _ hfd => hfd)
      intro g
      rw [count_set h1']
      omega
    · apply wp_bind.2
      refine wp_op_eq (o := .clearSlot fd1) (w := { v with own := (v.own.gain f0).gain f1 }) ?_ h.quiet ?_
        fun _ => wp_pipe_fail h hne
      · intro _ v' hv'
        rw [hv']
        simp only [update_clear h1']
      · apply h.lawful_files hne fun _ _ hfd => hfd
        intro g
        omega

theorem wp_sysPipe (h : v.Start .pipe) (copied : Bool) :
    fileLogic.wp (sysPipe copied) (fun r v' => v'.Finish .pipe r) v := by
  apply wp_bind.2
  apply wp_pipealloc h
  · exact h.finish (-1)
  · intro f0 f1 hne
    apply wp_bind.2
    apply wp_fdalloc (v := { v with own := (v.own.gain f0).gain f1 }) h.quiet
    · apply h.lawful_files hne fun _ _ hfd => hfd
      intro g
      omega
    · intro fd0 (h0 : v.slots fd0 = none)
      apply h.lawful_files hne (kept_set h0 fun _ _ hfd => hfd)
      intro g
      rw [count_set h0]
      omega
    · exact wp_pipe_fail h hne
    · intro fd0 (h0 : v.slots fd0 = none)
      have hlawful : View.Lawful { v with
          slots := update v.slots fd0 (some f0)
          own := (v.own.gain f0).gain f1 } := by
        apply h.lawful_files hne (kept_set h0 fun _ _ hfd => hfd)
        intro g
        rw [count_set h0]
        omega
      apply wp_bind.2
      apply wp_fdalloc (v := { v with
        slots := update v.slots fd0 (some f0)
        own := (v.own.gain f0).gain f1 }) h.quiet hlawful
      · intro fd1 (h1 : update v.slots fd0 (some f0) fd1 = none)
        apply h.lawful_files hne (kept_set h1 (kept_set h0 fun _ _ hfd => hfd))
        intro g
        rw [count_set h1, count_set h0]
        omega
      · apply wp_bind.2
        refine wp_op_eq (o := .clearSlot fd0) (w := { v with own := (v.own.gain f0).gain f1 }) ?_ h.quiet ?_
          fun _ => wp_pipe_fail h hne
        · intro _ v' hv'
          rw [hv']
          simp only [update_clear h0]
        · apply h.lawful_files hne fun _ _ hfd => hfd
          intro g
          omega
      · intro fd1 (h1 : update v.slots fd0 (some f0) fd1 = none)
        exact wp_sysPipe_filled h hne h0 h1 copied

/-! ### `open`, `read` and `write` -/

theorem wp_sysOpen (h : v.Start .open) (found : Option Bool) (readable writable : Bool) :
    fileLogic.wp (sysOpen found readable writable) (fun r v' => v'.Finish .open r) v := by
  have hbusy := h.busy nofun
  have hlawful : ∀ (f : FileId) (t : Slots), (∀ g, v.slots.count g ≤ t.count g ∧
      t.count g ≤ v.slots.count g + refers g (some f)) → View.Lawful { v.withNew f with slots := t } := by
    intro f t ht
    refine lawful_other h.call (by decide) fun g => ?_
    have hle := refers_le_one g (some f)
    have hg := ht g
    have hsettled := h.settled.given g
    have hgiven := withNew_given v f g
    simp only [Kind.Allows]
    omega
  cases found with
  | none => exact h.finish (-1)
  | some device =>
    apply wp_bind.2
    apply wp_allocFile h.quiet h.lawful
    · intro f _
      exact hlawful f v.slots fun g => by omega
    · exact h.finish (-1)
    · intro f _
      apply wp_bind.2
      apply wp_fdalloc (v := v.withNew f) h.quiet (hlawful f v.slots fun g => by omega)
      · intro fd (hfd : v.slots fd = none)
        refine hlawful f (update v.slots fd (some f)) fun g => ?_
        rw [count_set hfd]
        omega
      · apply wp_bind.2
        exact wp_closeNew h.quiet hbusy h.settled.clear.closing h.lawful (h.finish (-1))
      · intro fd (hfd : v.slots fd = none)
        have hfiles : (f :: v.own.fresh).erase f = v.own.fresh := erase_cons_head ..
        have hsettled : View.Settled { v with slots := update v.slots fd (some f), own := v.own.gain f } := by
          refine ⟨fun g => ?_, h.settled.clear.gain f⟩
          rw [gain_given, count_set hfd, h.settled.given g]
        apply wp_bind.2
        refine wp_op_eq (o := .fill f device readable writable)
          (w := { v with slots := update v.slots fd (some f), own := v.own.gain f }) ?_ ?_ ?_ fun _ => ?_
        · intro _ v' hv'
          rw [hv']
          change { v with
            slots := update v.slots fd (some f)
            own := { v.own.gain f with fresh := (f :: v.own.fresh).erase f } } = _
          rw [hfiles]
          rfl
        · exact ⟨h.quiet, mem_cons_self⟩
        · exact hsettled.lawful_other h.call (by decide)
        · exact ⟨h.quiet, h.call, h.child, hsettled, by simp⟩

theorem wp_accesses {pi n : Nat} (hactive : v.own.active = true)
    (hin : v.own.inside = some pi) (hlawful : v.Lawful) (hQ : Q () v) :
    fileLogic.wp (sysTransfer.accesses pi n) Q v := by
  induction n with
  | zero => exact hQ
  | succ n ih =>
    apply wp_bind.2
    exact wp_op_eq (o := .access pi) (fun _ _ hv' => hv') ⟨hactive, hin⟩ hlawful fun _ => ih

theorem wp_sysTransfer (h : v.Start .other) (fd : Fin NOFILE) (write : Bool) (n : Nat) :
    fileLogic.wp (sysTransfer fd write n) (fun r v' => v'.Finish .other r) v := by
  have hbusy := h.busy nofun
  apply wp_bind.2
  apply wp_getSlot h.quiet h.lawful
  cases hfd : v.slots fd with
  | none => exact h.finish (-1)
  | some f =>
    have hpos := h.settled.given_pos hfd
    apply wp_bind.2
    apply wp_op (o := .look f) ⟨h.quiet, hpos, fd, hfd⟩
    · intro x v' hv' _
      rw [hv']
      exact h.lawful.congr hbusy rfl rfl rfl rfl
    · intro x v' hv'
      rw [hv']
      have hout : { v with own := { v.own with inside := none } } = v := by
        have hinside := h.quiet.2
        obtain ⟨slots, own, child⟩ := v
        obtain ⟨⟩ := own
        simp only at hinside
        rw [hinside]
      have hleave : ∀ pi : Option Nat, fileLogic.wp (do op .leave; pure (0 : Int))
          (fun r v' => v'.Finish .other r) { v with own := { v.own with inside := pi } } := by
        intro pi
        apply wp_bind.2
        refine wp_op_eq (o := .leave) (w := v) ?_ h.quiet.1 h.lawful fun _ => h.finish 0
        intro _ v' hv'
        rw [hv']
        exact hout
      by_cases hmay : x.type = .pipe ∧ (if write then x.writable else x.readable) = true
      · rw [if_pos hmay]
        have hend : x.endOf.map Prod.fst = some x.pipe := by simp [File.endOf, hmay.1]
        apply wp_bind.2
        exact wp_accesses h.quiet.1 hend (h.lawful.congr hbusy rfl rfl rfl rfl) (hleave _)
      · rw [if_neg hmay]
        exact hleave _

/-! ### `fork` and `exit` -/

theorem wp_forkFiles (hq : v.Quiet) (hcall : v.own.call = .fork)
    (hgiven : ∀ f, v.own.given f = v.slots.count f) (hfresh : v.own.fresh = []) (hnodup : fds.Nodup)
    (hfree : ∀ fd ∈ fds, v.child fd = none) (hQ : ∀ t, Q () { v with child := t }) :
    fileLogic.wp (forkFiles fds) Q v := by
  have hbusy : v.own.call ≠ .idle := hcall ▸ nofun
  have hlawful : v.Lawful := lawful_other hcall (by decide) fun f => hgiven f ▸ Kind.allows_self _ _
  induction fds generalizing v with
  | nil => exact hQ v.child
  | cons fd fds ih =>
    obtain ⟨hfd, hrest⟩ := nodup_cons.1 hnodup
    apply wp_bind.2
    apply wp_getSlot hq hlawful
    cases hslot : v.slots fd with
    | none =>
      exact ih hq hcall hgiven hfresh hrest (fun fd' hfd' => hfree fd' (mem_cons_of_mem _ hfd')) hQ hbusy hlawful
    | some f =>
      have hpos : 0 < v.own.given f := by
        rw [hgiven f]
        exact count_pos hslot
      have hnew : f ∉ v.own.fresh := by
        rw [hfresh]
        exact not_mem_nil
      apply wp_bind.2
      refine wp_op_eq (o := .filedup f) (fun _ _ hv' => hv') ⟨hq, hpos, hnew⟩ ?_ fun _ => ?_
      · refine lawful_other hcall (by decide) fun g => ?_
        have hle := refers_le_one g (some f)
        have hg := hgiven g
        simp only [Kind.Allows, gain_given]
        omega
      · apply wp_bind.2
        have hpos' : 0 < (v.own.gain f).given f := by
          rw [gain_given, refers_self]
          omega
        refine wp_op_eq (o := .setChild fd f) (w := { v with child := update v.child fd (some f) })
          ?_ ⟨hq, hfree fd mem_cons_self, hpos', hnew⟩ ?_ fun _ => ?_
        · intro _ v' hv'
          rw [hv']
          simp only [gain_lose]
        · exact hlawful.congr hbusy rfl rfl rfl rfl
        · apply ih (v := { v with child := update v.child fd (some f) }) hq hcall hgiven hfresh hrest
          · intro fd' hfd'
            have hne : fd' ≠ fd := fun heq => hfd (heq ▸ hfd')
            simp only [update_of_ne hne]
            exact hfree fd' (mem_cons_of_mem _ hfd')
          · exact hQ
          · exact hbusy
          · exact hlawful.congr hbusy rfl rfl rfl rfl

theorem wp_fork (h : v.Start .fork) (np : P) (copied : Bool) :
    fileLogic.wp (Files.fork np copied) (fun r v' => v'.Finish .fork r) v := by
  have hbusy := h.busy nofun
  have hkid := h.settled.clear.kid
  have hchild := h.child
  have hback : { v with own := { v.own with kid := none }, child := fun _ => none } = v := by
    obtain ⟨slots, own, child⟩ := v
    obtain ⟨⟩ := own
    simp only at hkid hchild
    rw [hkid, hchild]
  apply wp_bind.2
  apply wp_op (o := .allocproc np) ⟨h.quiet, hkid⟩
  · intro found v' hv' _
    rw [hv']
    exact h.lawful.congr hbusy rfl rfl rfl rfl
  · intro found v' hv'
    rw [hv']
    cases found with
    | false =>
      have hsame : v.procFound np false = v := by
        obtain ⟨slots, own, child⟩ := v
        obtain ⟨⟩ := own
        simp only at hchild
        simp only [View.procFound, Bool.false_eq_true, if_false, hchild]
      change (v.procFound np false).Finish .fork (-1)
      rw [hsame]
      exact h.finish (-1)
    | true =>
      cases copied with
      | false =>
        apply wp_bind.2
        refine wp_op_eq (o := .freeproc) (w := v) ?_ ⟨h.quiet, rfl⟩ h.lawful fun _ => h.finish (-1)
        intro _ v' hv'
        rw [hv']
        exact hback
      | true =>
        apply wp_bind.2
        refine wp_forkFiles (v := v.procFound np true) h.quiet h.call h.settled.given h.settled.clear.fresh
          (nodup_finRange NOFILE) (fun _ _ => rfl) fun t => ?_
        apply wp_bind.2
        refine wp_op_eq (o := .start) (w := v) ?_ h.quiet h.lawful fun _ => h.finish 0
        intro _ v' hv'
        rw [hv']
        exact hback

/-- `exit` drops a reference and then clears the descriptor, for one descriptor after another. -/
theorem wp_exitFiles (hq : v.Quiet) (hcall : v.own.call = .exit)
    (hsettled : v.Settled) (hdone : ∀ fd, fd ∉ fds → v.slots fd = none)
    (hQ : ∀ v' : View P, v'.Quiet → v'.own.call = .exit → v'.Settled → v'.slots = (fun _ => none) → Q () v') :
    fileLogic.wp (exitFiles fds) Q v := by
  induction fds generalizing v with
  | nil => exact hQ v hq hcall hsettled (funext fun fd => hdone fd not_mem_nil)
  | cons fd fds ih =>
    have hbusy : v.own.call ≠ .idle := hcall ▸ nofun
    apply wp_bind.2
    apply wp_getSlot hq (hsettled.lawful_other hcall (by decide))
    cases hfd : v.slots fd with
    | none =>
      apply ih hq hcall hsettled
      intro fd' hfd'
      by_cases heq : fd' = fd
      · rw [heq]
        exact hfd
      · exact hdone fd' fun hmem => (mem_cons.1 hmem).elim heq hfd'
    | some f =>
      have hpos := hsettled.given_pos hfd
      have hfresh : v.own.fresh.erase f = v.own.fresh := by
        rw [hsettled.clear.fresh, erase_nil]
      apply wp_bind.2
      apply wp_closeFile hq hbusy hpos hsettled.clear.closing
      · refine lawful_other hcall (by decide) fun g => ?_
        have hlose := lose_given hpos g
        have hle := refers_le_one g (some f)
        have hg := hsettled.given g
        change Kind.Allows .exit ((v.own.lose f).given g) (v.slots.count g)
        simp only [Kind.Allows]
        omega
      · have hnext : View.Settled { v.drop f with slots := update v.slots fd none } := by
          refine ⟨fun g => ?_, ?_, hsettled.clear.2, hsettled.clear.3, hsettled.clear.4, hsettled.clear.5⟩
          · have hlose := lose_given hpos g
            have hclear := count_clear hfd g
            have hg := hsettled.given g
            change (v.own.lose f).given g = Slots.count (update v.slots fd none) g
            omega
          · change v.own.fresh.erase f = []
            rw [hfresh]
            exact hsettled.clear.fresh
        apply wp_bind.2
        refine wp_op_eq (o := .clearSlot fd) (fun _ _ hv' => hv') hq (hnext.lawful_other hcall (by decide)) fun _ => ?_
        refine ih (v := { v.drop f with slots := update v.slots fd none }) hq hcall hnext ?_
        intro fd' hfd'
        by_cases heq : fd' = fd
        · rw [heq]
          exact update_self ..
        · simp only [update_of_ne heq]
          exact hdone fd' fun hmem => (mem_cons.1 hmem).elim heq hfd'

/-! ### Lives -/

theorem wp_other {o : FileOp P} (h : v.Start .other) (hneeds : v.Needs o) (hleaves : ∀ r v', v.Leaves o r v' → v' = v) :
    fileLogic.wp (do let _ ← op o; pure 0) (fun r v' => v'.Finish .other r) v := by
  apply wp_bind.2
  exact wp_op_eq hleaves hneeds h.lawful fun _ => h.finish 0

theorem wp_body (c : Call P) (h : v.Start c.kind) : fileLogic.wp c.body (fun r v' => v'.Finish c.kind r) v := by
  cases c with
  | «open» found readable writable => exact wp_sysOpen h found readable writable
  | pipe copied => exact wp_sysPipe h copied
  | dup fd => exact wp_sysDup h fd
  | close fd => exact wp_sysClose h fd
  | transfer fd write n => exact wp_sysTransfer h fd write n
  | fork np copied => exact wp_fork h np copied
  | reap q => exact wp_other (o := .reap q) h h.quiet fun _ _ hv' => hv'
  | take => exact wp_other (o := .take) h h.quiet fun _ _ hv' => hv'
  | give i => exact wp_other (o := .give i) h h.quiet fun _ _ hv' => hv'

theorem View.Idle.lawful (h : v.Idle) : v.Lawful := h.2.2.1.lawful h.2.1

theorem View.Idle.quiet (h : v.Idle) : v.Quiet := ⟨h.1, h.2.2.1.clear.inside⟩

/-- At the start of a call. -/
theorem View.Idle.start (h : v.Idle) (k : Kind) :
    View.Start { v with own := { v.own with call := k, entry := v.slots } } k :=
  ⟨h.quiet, rfl, h.2.2.2, rfl, h.2.2.1.given, h.2.2.1.clear.1, h.2.2.1.clear.2, h.2.2.1.clear.3, h.2.2.1.clear.4,
    h.2.2.1.clear.5⟩

theorem View.Finish.idle {r : Int} (h : v.Finish k r) : View.Idle { v with own := { v.own with call := .idle } } :=
  ⟨h.quiet.1, rfl, ⟨h.settled.given, h.settled.clear.1, h.settled.clear.2, h.settled.clear.3, h.settled.clear.4,
    h.settled.clear.5⟩, h.child⟩

theorem wp_run (c : Call P) (h : v.Idle) : fileLogic.wp c.run (fun _ v' => v'.Idle) v := by
  apply wp_bind.2
  refine wp_op_eq (o := .enterCall c.kind) (fun _ _ hv' => hv') h.quiet (h.start c.kind).lawful fun _ => ?_
  apply wp_seq (wp_body c (h.start c.kind))
  intro r v' hfinish
  have hfailed : v'.own.call = .pipe ∨ v'.own.call = .dup → r = -1 → v'.slots = v'.own.entry := by
    rw [hfinish.call]
    exact hfinish.failed
  exact wp_op_eq (o := .leaveCall r) (fun _ _ hv' => hv') ⟨hfinish.quiet, hfinish.settled, hfailed⟩
    hfinish.idle.lawful fun _ => hfinish.idle

theorem wp_runAll (cs : List (Call P)) (h : v.Idle) : fileLogic.wp (runAll cs) (fun _ v' => v'.Idle) v := by
  induction cs generalizing v with
  | nil => exact h
  | cons c cs ih => exact wp_seq (wp_run c h) fun _ _ hidle => ih hidle

theorem wp_exit (h : v.Idle) : fileLogic.wp exit (fun _ v' => v'.own.active = false) v := by
  have hstart := h.start .exit
  apply wp_bind.2
  refine wp_op_eq (o := .enterCall .exit) (fun _ _ hv' => hv') h.quiet hstart.lawful fun _ => ?_
  apply wp_bind.2
  refine wp_exitFiles hstart.quiet rfl hstart.settled (fun fd hno => absurd (mem_finRange fd) hno) ?_
  intro v' hq _ hsettled hslots
  apply wp_op (o := .zombie) ⟨hq, hsettled, hslots⟩
  · intro r v₁ hv₁ hactive
    rw [show v₁.own.active = false from hv₁] at hactive
    cases hactive
  · intro r v₁ hv₁
    exact hv₁

theorem wp_lives (css : List (List (Call P))) (h : v.own.active = false) :
    fileLogic.wp (lives css) (fun _ _ => True) v := by
  induction css generalizing v with
  | nil => trivial
  | cons cs css ih =>
    apply wp_bind.2
    apply wp_op (o := .begin) h
    · intro r v' hv' _
      exact View.Idle.lawful hv'
    · intro r v' hv'
      apply wp_seq (wp_runAll cs hv')
      intro _ v₁ hidle
      exact wp_seq (wp_exit hidle) fun _ _ hactive => ih hactive

end Xv6.Files
