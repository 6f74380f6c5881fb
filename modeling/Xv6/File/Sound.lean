import Xv6.File.Rules

/-! Descriptors and processes, and that every operation keeps the invariant. -/

namespace Xv6.Files

open Lib Function

variable {P : Type}

section Sound

variable [DecidableEq P] [Fintype P] {npages : Nat} {s s' : Files P} {p : P}
  {o : FileOp P} {r : (FileSig P).Ret o} {np : P}

theorem Good.did_setSlots (h : Good npages s) (hq : (s.view p).Quiet) {t : Slots}
    (hleaves : (s.view p).Leaves o r { s.view p with slots := t }) :
    Did npages s p o r { s with ofile := update s.ofile p t } := by
  apply h.did_own hq.1
  · exact ⟨rfl, fun q hne => update_of_ne hne _ _, fun _ _ => rfl, hq.1, rfl⟩
  · simp only [update_self]
    exact hleaves
  · exact h.counts
  · exact h.ends
  · exact h.paged
  · apply h.inside.congr
    intro q pi hin
    have hne : q ≠ p := by
      intro heq
      rw [heq] at hin
      rw [show (s.loc p).inside = none from hq.2] at hin
      cases hin
    exact ⟨hin, update_of_ne hne _ _, fun f hpos => ⟨hpos, rfl⟩⟩
  · rfl

omit [DecidableEq P] in
theorem Good.did_nothing (h : Good npages s) (hleaves : (s.view p).Leaves o r (s.view p)) : Did npages s p o r s where
  leaves := hleaves
  others _ _ := ⟨rfl, fun _ => rfl⟩
  counts := h.counts
  ends := h.ends
  paged := h.paged
  inside := h.inside
  procs _ := h.procs
  returns := h.returns

theorem Good.did_look (h : Good npages s) (hq : (s.view p).Quiet) {f : FileId} (hpos : 0 < (s.loc p).given f)
    {fd : Fin NOFILE} (hfd : s.ofile p fd = some f) :
    Did npages s p (.look f) (s.file f) (note p (fun l => { l with inside := (s.file f).endOf.map Prod.fst }) s) := by
  have hinside : Inside s.file s.ofile (update s.loc p { s.loc p with inside := (s.file f).endOf.map Prod.fst }) := by
    intro q pi hin
    by_cases hne : q = p
    · subst hne
      rw [update_self] at hin ⊢
      exact ⟨fd, f, hfd, hpos, hin⟩
    · rw [update_of_ne hne] at hin ⊢
      exact h.inside q pi hin
  exact h.did_note (g := fun l => { l with inside := (s.file f).endOf.map Prod.fst }) hq.1 hq.1 rfl rfl rfl rfl rfl
    hinside h.returns rfl

omit [DecidableEq P] in
theorem Good.did_page (h : Good npages s) (hq : (s.view p).Quiet) {pi : Nat}
    {freelist others : List Nat} (hleaves : (s.view p).Leaves o r (s.view p)) (hmem : pi ∈ s.freelist ∨ pi ∈ s.others)
    (hcount : ∀ pi, freelist.count pi + others.count pi = s.freelist.count pi + s.others.count pi) :
    Did npages s p o r (junk pi { s with freelist := freelist, others := others }) := by
  apply h.did_own hq.1
  · exact ⟨rfl, fun _ _ => rfl, fun _ _ => rfl, hq.1, rfl⟩
  · exact hleaves
  · exact h.counts
  · exact h.ends.junk (h.paged.not_live_of_mem hmem) fun _ => rfl
  · intro pi'
    rw [← h.paged pi']
    have := hcount pi'
    simp only [junk]
    omega
  · exact h.inside
  · rfl

/-! ### Processes -/

section

omit [DecidableEq P] [Fintype P]

theorem view_congr {q : P} (hofile : s'.ofile = s.ofile) (hloc : s'.loc q = s.loc q) : s'.view q = s.view q := by
  simp only [view, hofile, hloc]

theorem view_of_kid_none (hkid : (s.loc p).kid = none) :
    s.view p = { slots := s.ofile p, own := s.loc p, child := fun _ => none } := by
  simp only [view, hkid]

theorem view_of_kid (hkid : (s.loc p).kid = some np) :
    s.view p = { slots := s.ofile p, own := s.loc p, child := s.ofile np } := by
  simp only [view, hkid]

end

omit [Fintype P] in
theorem view_note_of_kid_none {g : Local P → Local P} (hkid : (g (s.loc p)).kid = none) :
    (note p g s).view p = { slots := s.ofile p, own := g (s.loc p), child := fun _ => none } := by
  have hnoted : ((note p g s).loc p).kid = none := by
    simp only [note, update_self, hkid]
  rw [view_of_kid_none hnoted]
  simp only [note, update_self]

omit [Fintype P] in
theorem view_note_of_kid {g : Local P → Local P} (hkid : (g (s.loc p)).kid = some np) :
    (note p g s).view p = { slots := s.ofile p, own := g (s.loc p), child := s.ofile np } := by
  have hnoted : ((note p g s).loc p).kid = some np := by
    simp only [note, update_self, hkid]
  rw [view_of_kid hnoted]
  simp only [note, update_self]

omit [Fintype P] [DecidableEq P] in
theorem View.Settled.rest {v : View P} (h : v.Settled) (a : Bool) :
    View.Settled { slots := v.slots, own := v.own.rest a, child := fun _ => none } :=
  ⟨h.given, rfl, rfl, rfl, rfl, rfl⟩

omit [Fintype P] in
/-- The slots of `proc` when a process begins or ends. -/
theorem Procs.rest_update (h : Procs s) {a : Bool} (hofile : s'.ofile = s.ofile)
    (hloc : s'.loc = update s.loc p ((s.loc p).rest a)) (hsettled : (s.view p).Settled)
    (hstatus : ∀ q, q ≠ p → s'.status q = s.status q) (hrunning : a = true → s'.status p = .running)
    (hembryo : s.status p ≠ .embryo)
    (hempty : s'.status p = .unused ∨ s'.status p = .zombie → s.ofile p = fun _ => none) : Procs s' := by
  have hother : ∀ q, q ≠ p → s'.loc q = s.loc q := by
    intro q hne
    rw [hloc, update_of_ne hne]
  have hself : s'.loc p = (s.loc p).rest a := by rw [hloc, update_self]
  have hview : s'.view p = { slots := s.ofile p, own := (s.loc p).rest a, child := fun _ => none } := by
    rw [view_of_kid_none (by rw [hself]; rfl), hofile, hself]
  have hkid : ∀ q np, (s'.loc q).kid = some np → (s.loc q).kid = some np := by
    intro q np hq
    by_cases hne : q = p
    · rw [hne, hself] at hq
      cases hq
    · rwa [hother q hne] at hq
  exact {
    running := by
      intro q hq
      by_cases hne : q = p
      · subst hne
        rw [hself] at hq
        exact hrunning hq
      · rw [hother q hne] at hq
        exact (hstatus q hne).trans (h.running q hq)
    rest := by
      intro q hq
      by_cases hne : q = p
      · subst hne
        rw [hview, hself]
        exact ⟨rfl, hsettled.rest a⟩
      · rw [view_congr hofile (hother q hne), hother q hne]
        rw [hother q hne] at hq
        exact h.rest q hq
    empty := by
      intro q hq
      rw [hofile]
      by_cases hne : q = p
      · subst hne
        exact hempty hq
      · rw [hstatus q hne] at hq
        exact h.empty q hq
    kid := by
      intro q np hq
      have hold := h.kid q np (hkid q np hq)
      have hne : np ≠ p := fun heq => hembryo (heq ▸ hold)
      exact (hstatus np hne).trans hold
    kid_inj := by
      intro q q' np hq hq'
      exact h.kid_inj q q' np (hkid q np hq) (hkid q' np hq')
    lawful := by
      intro q hq
      by_cases hne : q = p
      · subst hne
        rw [hview]
        exact (hsettled.rest a).lawful rfl
      · rw [view_congr hofile (hother q hne)]
        rw [hother q hne] at hq
        exact h.lawful q hq }

omit [Fintype P] in
/-- The slots of `proc` when the state of `np` changes in a `fork` of `p`. -/
theorem Procs.setKid (h : Procs s) (np : P) {l : Local P} (hofile : s'.ofile = s.ofile)
    (hloc : s'.loc = update s.loc p l) (hp : (s.loc p).active = true) (hl : l.active = true)
    (hnp : (s.loc np).active = false) (hstatus : ∀ q, q ≠ np → s'.status q = s.status q)
    (hold : ∀ q, (s.loc q).kid = some np → q = p) (hkid : ∀ k, l.kid = some k → k = np ∧ s'.status np = .embryo)
    (hempty : s'.status np = .unused ∨ s'.status np = .zombie → s.ofile np = fun _ => none)
    (hlawful : (s'.view p).Lawful) : Procs s' := by
  have hother : ∀ q, q ≠ p → s'.loc q = s.loc q := by
    intro q hne
    rw [hloc, update_of_ne hne]
  have hself : s'.loc p = l := by rw [hloc, update_self]
  have hactive : ∀ q, (s'.loc q).active = true → (s.loc q).active = true := by
    intro q hq
    by_cases hne : q = p
    · rw [hne]
      exact hp
    · rwa [hother q hne] at hq
  have hkids : ∀ q k, (s'.loc q).kid = some k → (q = p ∧ k = np) ∨ (k ≠ np ∧ (s.loc q).kid = some k) := by
    intro q k hq
    by_cases hne : q = p
    · rw [hne, hself] at hq
      exact Or.inl ⟨hne, (hkid k hq).1⟩
    · rw [hother q hne] at hq
      exact Or.inr ⟨fun heq => hne (hold q (heq ▸ hq)), hq⟩
  exact {
    running := by
      intro q hq
      have hwas := hactive q hq
      have hne : q ≠ np := by
        intro heq
        rw [heq, hnp] at hwas
        cases hwas
      exact (hstatus q hne).trans (h.running q hwas)
    rest := by
      intro q hq
      have hne : q ≠ p := by
        intro heq
        rw [heq, hself, hl] at hq
        cases hq
      rw [view_congr hofile (hother q hne), hother q hne]
      rw [hother q hne] at hq
      exact h.rest q hq
    empty := by
      intro q hq
      rw [hofile]
      by_cases hne : q = np
      · subst hne
        exact hempty hq
      · rw [hstatus q hne] at hq
        exact h.empty q hq
    kid := by
      intro q k hq
      rcases hkids q k hq with ⟨hqp, hk⟩ | ⟨hk, hwas⟩
      · rw [hqp, hself] at hq
        rw [hk]
        exact (hkid k hq).2
      · exact (hstatus k hk).trans (h.kid q k hwas)
    kid_inj := by
      intro q q' k hq hq'
      rcases hkids q k hq with ⟨hqp, hk⟩ | ⟨hk, hwas⟩
      · rcases hkids q' k hq' with ⟨hqp', -⟩ | ⟨hk', -⟩
        · rw [hqp, hqp']
        · exact absurd hk hk'
      · rcases hkids q' k hq' with ⟨-, hk'⟩ | ⟨-, hwas'⟩
        · exact absurd hk' hk
        · exact h.kid_inj q q' k hwas hwas'
    lawful := by
      intro q hq
      by_cases hne : q = p
      · rw [hne]
        exact hlawful
      · rw [view_congr hofile (hother q hne)]
        exact h.lawful q (hactive q hq) }

/-- The files, pages and ends are as they were. -/
structure Same (s s' : Files P) : Prop where
  file : s'.file = s.file
  isopen : s'.isopen = s.isopen
  freelist : s'.freelist = s.freelist
  others : s'.others = s.others
  live : s'.live = s.live
  returns : s'.returns = s.returns

/-- A step on the slots of `proc`. -/
theorem Good.did_proc (h : Good npages s) {l : Local P} (hsame : Same s s')
    (hofile : s'.ofile = s.ofile) (hloc : s'.loc = update s.loc p l) (hgiven : l.given = (s.loc p).given)
    (hfresh : l.fresh = (s.loc p).fresh) (hcarried : l.carried = (s.loc p).carried)
    (hclosing : l.closing = (s.loc p).closing) (hinside : l.inside = none)
    (hleaves : (s.view p).Leaves o r (s'.view p))
    (hprocs : ((s'.loc p).active = true → (s'.view p).Lawful) → Procs s') : Did npages s p o r s' where
  leaves := hleaves
  others q hne := by
    have hother : s'.loc q = s.loc q := by rw [hloc, update_of_ne hne]
    exact ⟨by rw [hother], fun _ => view_congr hofile hother⟩
  counts := by
    rw [hsame.file, hloc]
    exact h.counts.congr (apply_update_eq hgiven) (apply_update_eq hfresh)
  ends := by
    rw [hsame.file, hsame.live, hsame.isopen, hloc]
    exact h.ends.congr (apply_update_eq hclosing)
  paged := by
    rw [hsame.freelist, hsame.others, hsame.live, hloc]
    exact h.paged.congr (apply_update_eq hcarried)
  inside := by
    rw [hsame.file, hofile, hloc]
    exact h.inside.update_none hinside (fun _ _ => rfl) fun _ _ _ _ => rfl
  procs := hprocs
  returns := by
    rw [hsame.returns]
    exact h.returns

theorem Good.did_begin (h : Good npages s) (hstatus : s.status p = .running) (hactive : (s.loc p).active = false) :
    Did npages s p .begin () (note p (·.rest true) s) := by
  have hsettled := (h.procs.rest p hactive).2
  have hclear := hsettled.clear
  refine h.did_proc ⟨rfl, rfl, rfl, rfl, rfl, rfl⟩ rfl rfl rfl hclear.fresh.symm hclear.carried.symm
    hclear.closing.symm rfl ?_ ?_
  · rw [view_note_of_kid_none rfl]
    exact ⟨rfl, rfl, hsettled.rest true, rfl⟩
  · intro _
    refine h.procs.rest_update (a := true) rfl rfl hsettled ?_ ?_ ?_ ?_
    · intro _ _
      rfl
    · intro _
      exact hstatus
    · rw [hstatus]
      exact fun heq => by cases heq
    · intro hno
      change s.status p = .unused ∨ s.status p = .zombie at hno
      rw [hstatus] at hno
      rcases hno with hno | hno <;> cases hno

theorem Good.did_zombie (h : Good npages s) (hq : (s.view p).Quiet) (hsettled : (s.view p).Settled)
    (hslots : s.ofile p = fun _ => none) :
    Did npages s p .zombie () (note p (·.rest false) { s with status := update s.status p .zombie }) := by
  have hclear := hsettled.clear
  refine h.did_proc ⟨rfl, rfl, rfl, rfl, rfl, rfl⟩ rfl rfl rfl hclear.fresh.symm hclear.carried.symm
    hclear.closing.symm rfl ?_ ?_
  · rw [view_note_of_kid_none rfl]
    rfl
  · intro _
    refine h.procs.rest_update (a := false) rfl rfl hsettled ?_ ?_ ?_ ?_
    · intro q hne
      exact update_of_ne hne _ _
    · intro hno
      cases hno
    · rw [h.procs.running p hq.1]
      exact fun heq => by cases heq
    · intro _
      exact hslots

omit [DecidableEq P] [Fintype P] in
theorem Procs.not_active (h : Procs s) {q : P} (hstatus : s.status q ≠ .running) : (s.loc q).active = false := by
  by_contra hno
  rw [Bool.not_eq_false] at hno
  exact hstatus (h.running q hno)

theorem Good.did_allocproc (h : Good npages s) (hq : (s.view p).Quiet) (hkid : (s.loc p).kid = none)
    (hstatus : s.status np = .unused) :
    Did npages s p (.allocproc np) true (note p (fun l => { l with kid := some np })
      { s with status := update s.status np .embryo }) := by
  have hempty := h.procs.empty np (Or.inl hstatus)
  refine h.did_proc ⟨rfl, rfl, rfl, rfl, rfl, rfl⟩ rfl rfl rfl rfl rfl rfl hq.2 ?_ ?_
  · rw [view_note_of_kid rfl]
    simp only [View.Leaves, View.procFound, view_of_kid_none hkid, if_true, hempty]
  · intro hlawful
    have hself : (note p (fun l => { l with kid := some np })
        { s with status := update s.status np .embryo }).status np = .embryo := update_self ..
    refine h.procs.setKid np rfl rfl hq.1 hq.1 ?_ ?_ ?_ ?_ ?_ ?_
    · exact h.procs.not_active (by rw [hstatus]; exact fun heq => by cases heq)
    · intro q hne
      exact update_of_ne hne _ _
    · intro q hold
      have := h.procs.kid q np hold
      rw [hstatus] at this
      cases this
    · intro k hk
      cases hk
      exact ⟨rfl, hself⟩
    · intro _
      exact hempty
    · apply hlawful
      simp only [note, update_self]
      exact hq.1

/-- The child of a `fork` is given up or started. -/
theorem Good.did_leaveKid (h : Good npages s) (hq : (s.view p).Quiet) (hkid : (s.loc p).kid = some np) {st : Status}
    (hleaves : (s.view p).Leaves o r { s.view p with own := { s.loc p with kid := none }, child := fun _ => none })
    (hempty : st = .unused ∨ st = .zombie → s.ofile np = fun _ => none) :
    Did npages s p o r (note p (fun l => { l with kid := none }) { s with status := update s.status np st }) := by
  refine h.did_proc ⟨rfl, rfl, rfl, rfl, rfl, rfl⟩ rfl rfl rfl rfl rfl rfl hq.2 ?_ ?_
  · rw [view_note_of_kid_none rfl]
    exact hleaves
  · intro hlawful
    have hself : (note p (fun l => { l with kid := none })
        { s with status := update s.status np st }).status np = st := update_self ..
    refine h.procs.setKid np rfl rfl hq.1 hq.1 ?_ ?_ ?_ ?_ ?_ ?_
    · exact h.procs.not_active (by rw [h.procs.kid p np hkid]; exact fun heq => by cases heq)
    · intro q hne
      exact update_of_ne hne _ _
    · intro q hold
      exact h.procs.kid_inj q p np hold hkid
    · intro k hk
      cases hk
    · rw [hself]
      exact hempty
    · apply hlawful
      simp only [note, update_self]
      exact hq.1

theorem Good.did_reap (h : Good npages s) {q : P} (hstatus : s.status q = .zombie) :
    Did npages s p (.reap q) () { s with status := update s.status q .unused } where
  leaves := rfl
  others _ _ := ⟨rfl, fun _ => rfl⟩
  counts := h.counts
  ends := h.ends
  paged := h.paged
  inside := h.inside
  returns := h.returns
  procs _ := by
    have hactive := h.procs.not_active (q := q) (by rw [hstatus]; exact fun heq => by cases heq)
    exact {
      running := by
        intro r hr
        have hne : r ≠ q := by
          intro heq
          rw [heq] at hr
          rw [hactive] at hr
          cases hr
        exact (update_of_ne hne _ _).trans (h.procs.running r hr)
      rest := h.procs.rest
      empty := by
        intro r hr
        by_cases hne : r = q
        · rw [hne]
          exact h.procs.empty q (Or.inr hstatus)
        · simp only [update_of_ne hne] at hr
          exact h.procs.empty r hr
      kid := by
        intro r np hr
        have hold := h.procs.kid r np hr
        have hne : np ≠ q := by
          intro heq
          rw [heq, hstatus] at hold
          cases hold
        exact (update_of_ne hne _ _).trans hold
      kid_inj := h.procs.kid_inj
      lawful := h.procs.lawful }

omit [Fintype P] in
theorem setChild_loc (hnp : np ≠ p) (fd : Fin NOFILE) (f : FileId) (s : Files P) : (setChild p np fd f s).loc =
      update (update s.loc p ((s.loc p).lose f)) np ((s.loc np).gain f) := by
  simp only [setChild, note, update_of_ne hnp]

omit [Fintype P] in
theorem setChild_part {α : Type} (g : Local P → α) (hnp : np ≠ p) {fd : Fin NOFILE} {f : FileId}
    (hlose : g ((s.loc p).lose f) = g (s.loc p)) (hgain : g ((s.loc np).gain f) = g (s.loc np)) (q : P) :
    g ((setChild p np fd f s).loc q) = g (s.loc q) := by
  rw [setChild_loc hnp]
  rw [apply_update_eq (f := g) (by rw [update_of_ne hnp, hgain]) q]
  exact apply_update_eq hlose q

section

variable (h : Good npages s)
include h

theorem Good.did_setChild (hq : (s.view p).Quiet) (hkid : (s.loc p).kid = some np)
    {fd : Fin NOFILE} {f : FileId} (hfd : s.ofile np fd = none) (hpos : 0 < (s.loc p).given f)
    (hfresh : f ∉ (s.loc p).fresh) : Did npages s p (.setChild fd f) () (setChild p np fd f s) := by
  have hnp : np ≠ p := h.procs.kid_ne hkid hq.1
  have hstatus := h.procs.kid p np hkid
  have hactive := h.procs.not_active (q := np) (by rw [hstatus]; exact fun heq => by cases heq)
  have hrest := h.procs.rest np hactive
  have hlocp : (setChild p np fd f s).loc p = (s.loc p).lose f := by
    simp only [setChild, note, update_of_ne hnp.symm, update_self]
  have hlocnp : (setChild p np fd f s).loc np = (s.loc np).gain f := by
    simp only [setChild, note, update_self, update_of_ne hnp]
  have hloc : ∀ q, q ≠ p → q ≠ np → (setChild p np fd f s).loc q = s.loc q := by
    intro q hqp hqnp
    simp only [setChild, note, update_of_ne hqnp, update_of_ne hqp]
  have hofile : ∀ q, q ≠ np → (setChild p np fd f s).ofile q = s.ofile q := by
    intro q hqnp
    simp only [setChild, note, update_of_ne hqnp]
  have hofilenp : (setChild p np fd f s).ofile np = update (s.ofile np) fd (some f) := by
    simp only [setChild, note, update_self]
  have hview : ∀ q, q ≠ p → q ≠ np → (setChild p np fd f s).view q = s.view q := by
    intro q hqp hqnp
    unfold view
    rw [hloc q hqp hqnp, hofile q hqnp]
    cases hk : (s.loc q).kid with
    | none => rfl
    | some k =>
      have hne : k ≠ np := fun heq => hqp (h.procs.kid_inj q p np (heq ▸ hk) hkid)
      simp only [hofile k hne]
  have hkids : ∀ q, ((setChild p np fd f s).loc q).kid = (s.loc q).kid := setChild_part Local.kid hnp rfl rfl
  have hactives : ∀ q, ((setChild p np fd f s).loc q).active = (s.loc q).active :=
    setChild_part Local.active hnp rfl rfl
  have hviewp : (setChild p np fd f s).view p =
      { slots := s.ofile p, own := (s.loc p).lose f, child := update (s.ofile np) fd (some f) } := by
    rw [view_of_kid ((hkids p).trans hkid), hlocp, hofile p hnp.symm, hofilenp]
  exact {
    leaves := by
      rw [hviewp, view_of_kid hkid]
      rfl
    others := by
      intro q hqp
      refine ⟨hactives q, fun hactiveq => ?_⟩
      have hqnp : q ≠ np := by
        intro heq
        rw [heq, hactive] at hactiveq
        cases hactiveq
      exact hview q hqp hqnp
    counts := by
      rw [setChild_loc hnp]
      exact h.counts.setChild hnp hpos hfresh hrest.2.clear.fresh
    ends := h.ends.congr (setChild_part Local.closing hnp rfl rfl)
    paged := h.paged.congr (setChild_part Local.carried hnp rfl rfl)
    inside := by
      apply h.inside.congr
      intro q pi hin
      have hqp : q ≠ p := by
        intro heq
        rw [heq, hlocp] at hin
        rw [show ((s.loc p).lose f).inside = none from hq.2] at hin
        cases hin
      have hqnp : q ≠ np := by
        intro heq
        rw [heq, hlocnp] at hin
        rw [show ((s.loc np).gain f).inside = none from hrest.2.clear.inside] at hin
        cases hin
      rw [hloc q hqp hqnp] at hin ⊢
      exact ⟨hin, hofile q hqnp, fun g hposg => ⟨hposg, rfl⟩⟩
    procs := by
      intro hlawful
      exact {
        running := by
          intro q hrun
          rw [hactives] at hrun
          exact h.procs.running q hrun
        rest := by
          intro q hno
          rw [hactives] at hno
          have hqp : q ≠ p := by
            intro heq
            rw [heq] at hno
            rw [show (s.loc p).active = true from hq.1] at hno
            cases hno
          by_cases hqnp : q = np
          · subst hqnp
            rw [view_of_kid_none ((hkids q).trans hrest.2.clear.kid), hlocnp, hofilenp]
            refine ⟨hrest.1, ?_, hrest.2.clear.fresh, hrest.2.clear.carried, hrest.2.clear.closing,
              hrest.2.clear.inside, hrest.2.clear.kid⟩
            intro g
            have hsettled : (s.loc q).given g = (s.ofile q).count g := hrest.2.given g
            rw [gain_given, count_set hfd, hsettled]
          · rw [hview q hqp hqnp, hloc q hqp hqnp]
            exact h.procs.rest q hno
        empty := by
          intro q hempty
          have hqnp : q ≠ np := by
            intro heq
            change s.status q = .unused ∨ s.status q = .zombie at hempty
            rw [heq, hstatus] at hempty
            rcases hempty with hempty | hempty <;> cases hempty
          rw [hofile q hqnp]
          exact h.procs.empty q hempty
        kid := by
          intro q k hk
          rw [hkids] at hk
          exact h.procs.kid q k hk
        kid_inj := by
          intro q q' k hk hk'
          rw [hkids] at hk hk'
          exact h.procs.kid_inj q q' k hk hk'
        lawful := by
          intro q hrun
          rw [hactives] at hrun
          by_cases hqp : q = p
          · rw [hqp]
            apply hlawful
            rw [hactives]
            exact hq.1
          · have hqnp : q ≠ np := by
              intro heq
              rw [heq, hactive] at hrun
              cases hrun
            rw [hview q hqp hqnp]
            exact h.procs.lawful q hrun }
    returns := h.returns }

/-! ### Every operation -/

theorem Good.did_enterCall (hq : (s.view p).Quiet) (k : Kind) :
    Did npages s p (.enterCall k) () (note p (fun l => { l with call := k, entry := s.ofile p }) s) := by
  refine h.did_note (g := fun l => { l with call := k, entry := s.ofile p }) hq.1 hq.1 rfl rfl rfl rfl rfl ?_
    h.returns rfl
  exact h.inside.update_none hq.2 (fun _ _ => rfl) fun _ _ _ _ => rfl

theorem Good.did_leaveCall (hq : (s.view p).Quiet) {r : Int}
    (hfailed : (s.loc p).call = .pipe ∨ (s.loc p).call = .dup → r = -1 → s.ofile p = (s.loc p).entry) :
    Did npages s p (.leaveCall r) () (note p (fun l => { l with call := .idle })
      { s with returns := ⟨(s.loc p).call, r, (s.loc p).entry, s.ofile p⟩ :: s.returns }) := by
  refine h.did_note (g := fun l => { l with call := .idle }) hq.1 hq.1 rfl rfl rfl rfl rfl ?_ ?_ rfl
  · exact h.inside.update_none hq.2 (fun _ _ => rfl) fun _ _ _ _ => rfl
  · intro x hx
    rcases List.mem_cons.1 hx with hx | hx
    · subst hx
      exact hfailed
    · exact h.returns x hx

theorem Good.did_leave (hp : (s.loc p).active = true) :
    Did npages s p .leave () (note p (fun l => { l with inside := none }) s) := by
  refine h.did_note (g := fun l => { l with inside := none }) hp hp rfl rfl rfl rfl rfl ?_ h.returns rfl
  exact h.inside.update_none rfl (fun _ _ => rfl) fun _ _ _ _ => rfl

/-- What any operation does that meets its precondition. -/
theorem Good.did (hneeds : (s.view p).Needs o) (hexec : exec p o s = .ok r s') : Did npages s p o r s' := by
  cases o with
  | begin =>
    simp only [exec] at hexec
    split at hexec
    · rename_i hbegin
      cases hexec
      exact h.did_begin hbegin.1 hbegin.2
    · cases hexec
  | enterCall k =>
    cases hexec
    exact h.did_enterCall hneeds k
  | leaveCall n =>
    cases hexec
    exact h.did_leaveCall hneeds.1 hneeds.2.2
  | slot fd =>
    cases hexec
    exact h.did_nothing ⟨rfl, rfl⟩
  | setSlot fd f =>
    cases hexec
    exact h.did_setSlots hneeds.1 rfl
  | clearSlot fd =>
    cases hexec
    exact h.did_setSlots hneeds rfl
  | filealloc => exact h.did_filealloc hneeds hexec
  | filedup f => exact h.did_filedup hneeds.1 hneeds.2.1 hneeds.2.2 hexec
  | fileclose f => exact h.did_fileclose hneeds.1 hneeds.2.1 hneeds.2.2 hexec
  | pipeclose pi w => exact h.did_pipeclose hneeds.1 hneeds.2 hexec
  | kalloc => exact h.did_kalloc hneeds hexec
  | kfree pi =>
    cases hexec
    exact h.did_kfree hneeds.1 hneeds.2
  | install f0 f1 pi =>
    cases hexec
    obtain ⟨hq, h0, h1, hne, hmem⟩ := hneeds
    exact h.did_install hq h0 h1 hne hmem
  | fill f device readable writable =>
    cases hexec
    exact h.did_fill hneeds.1 hneeds.2
  | look f =>
    cases hexec
    obtain ⟨hq, hpos, fd, hfd⟩ := hneeds
    exact h.did_look hq hpos hfd
  | access pi =>
    cases hexec
    exact h.did_nothing rfl
  | leave =>
    cases hexec
    exact h.did_leave hneeds
  | allocproc np =>
    simp only [exec] at hexec
    split at hexec
    · rename_i hstatus
      cases hexec
      exact h.did_allocproc hneeds.1 hneeds.2 hstatus
    · cases hexec
      apply h.did_nothing
      have hkid : (s.loc p).kid = none := hneeds.2
      simp [View.Leaves, View.procFound, view_of_kid_none hkid]
  | freeproc =>
    simp only [exec] at hexec
    split at hexec
    · cases hexec
    · rename_i np hkid
      cases hexec
      have hchild : s.ofile np = fun _ => none := by
        have := hneeds.2
        rwa [view_of_kid hkid] at this
      exact h.did_leaveKid hneeds.1 hkid rfl fun _ => hchild
  | setChild fd f =>
    simp only [exec] at hexec
    split at hexec
    · cases hexec
    · rename_i np hkid
      cases hexec
      obtain ⟨hq, hfd, hpos, hfresh⟩ := hneeds
      rw [view_of_kid hkid] at hfd
      exact h.did_setChild hq hkid hfd hpos hfresh
  | start =>
    simp only [exec] at hexec
    split at hexec
    · cases hexec
    · rename_i np hkid
      cases hexec
      refine h.did_leaveKid hneeds hkid rfl ?_
      intro hno
      rcases hno with hno | hno <;> cases hno
  | zombie =>
    cases hexec
    exact h.did_zombie hneeds.1 hneeds.2.1 hneeds.2.2
  | reap q =>
    simp only [exec] at hexec
    split at hexec
    · rename_i hstatus
      cases hexec
      exact h.did_reap hstatus
    · cases hexec
  | take =>
    simp only [exec] at hexec
    split at hexec
    · cases hexec
      exact h.did_nothing rfl
    · rename_i pi rest hfree
      cases hexec
      refine h.did_page hneeds rfl ?_ ?_
      · rw [hfree]
        exact Or.inl List.mem_cons_self
      · intro pi'
        have hcons := count_cons_add rest pi pi'
        have hcons' := count_cons_add s.others pi pi'
        rw [hfree]
        omega
  | give i =>
    simp only [exec] at hexec
    split at hexec
    · cases hexec
    · rename_i pi hget
      cases hexec
      have hmem : pi ∈ s.others := List.mem_of_getElem? hget
      refine h.did_page hneeds rfl (Or.inr hmem) ?_
      intro pi'
      have hcons := count_cons_add s.freelist pi pi'
      have herase := count_erase_add hmem pi'
      omega

end

/-- The invariant, with what every process knows. -/
def Inv (npages : Nat) (s : Files P) (ρ : P → View P) : Prop :=
  Good npages s ∧ ∀ p, (ρ p).own.active = (s.loc p).active ∧ ((s.loc p).active = true → ρ p = s.view p)

omit [DecidableEq P] in
theorem Did.good (h : Did npages s p o r s')
    (hlawful : (s'.loc p).active = true → (s'.view p).Lawful) : Good npages s' :=
  ⟨h.counts, h.ends, h.paged, h.inside, h.procs hlawful, h.returns⟩

omit [DecidableEq P] [Fintype P] in
/-- Every operation but the first of a life is one of a process that runs. -/
theorem View.Needs.active {v : View P} (h : v.Needs o) (ho : o ≠ .begin) : v.own.active = true := by
  cases o with
  | begin => exact absurd rfl ho
  | leaveCall | setSlot | filedup | fileclose | pipeclose | kfree | install | fill | look | allocproc | freeproc | setChild | zombie => exact h.1.1
  | access => exact h.1
  | leave => exact h
  | _ => exact h.1

/-- **Every operation keeps the invariant.** -/
theorem sound (cond : Files P → P → FileOp P → Prop) : (machine (P := P)).Sound fileLogic cond (Inv npages) := by
  intro s ρ p o r s' hinv hpre _ hexec
  obtain ⟨hgood, hknow⟩ := hinv
  obtain ⟨hneeds, hlawful⟩ := hpre
  -- what `p` knows is what it sees, unless it does not run yet
  have hdid : Did npages s p o r s' ∧ (ρ p).Leaves o r (s'.view p) := by
    by_cases ho : o = .begin
    · subst ho
      have hinactive : (s.loc p).active = false := (hknow p).1 ▸ hneeds
      have hdid := hgood.did (o := .begin) hinactive hexec
      exact ⟨hdid, hdid.leaves⟩
    · have hactive : (s.loc p).active = true := (hknow p).1 ▸ View.Needs.active hneeds ho
      have hsees := (hknow p).2 hactive
      rw [hsees] at hneeds ⊢
      have hdid := hgood.did hneeds hexec
      exact ⟨hdid, hdid.leaves⟩
  obtain ⟨hdid, hleaves⟩ := hdid
  refine ⟨s'.view p, hleaves, hdid.good (hlawful r _ hleaves), ?_⟩
  apply forall_update (A := fun q (v : View P) => v.own.active = (s'.loc q).active ∧
    ((s'.loc q).active = true → v = s'.view q))
  · exact ⟨rfl, fun _ => rfl⟩
  · intro q hne
    obtain ⟨hactive, hview⟩ := hdid.others q hne
    rw [hactive]
    refine ⟨(hknow q).1, fun hq => ?_⟩
    rw [hview hq]
    exact (hknow q).2 hq

end Sound

end Xv6.Files
