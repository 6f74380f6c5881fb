import Xv6.File.Alone
import Mathlib.Algebra.BigOperators.Ring.Finset

/-! References to open files, and the lives of pipes, in every state of every run. -/

namespace Xv6.Files

open Lib Finset

variable {P : Type} [DecidableEq P] [Fintype P]

/-- Processes that live one after another in the slots of `proc`, from the start of the kernel. -/
def boot (first : P) (npages : Nat) (css : P → List (List (Call P))) : Conf (FileSig P) P (Files P) :=
  ⟨init first npages, fun p => lives (css p)⟩

/-- The references that a process has without a descriptor; -1 is a descriptor without a reference. -/
def transit (s : Files P) (p : P) (f : FileId) : Int := (s.loc p).given f - (s.ofile p).count f

/-- The references in transit that a call allows. -/
def Kind.transits : Kind → List Int
  | .idle | .other => [0]
  | .open | .pipe | .close | .fork => [0, 1]
  | .dup | .exit => [-1, 0]

theorem counts_init (first : P) (npages : Nat) : Counts (init first npages).file (init first npages).loc where
  refs f := by simp [init]
  free _ _ := rfl
  fresh _ _ hf := by cases hf
  nodup _ := List.nodup_nil

omit [Fintype P] in
theorem procs_init (first : P) (npages : Nat) : Procs (init first npages) where
  running _ hp := by cases hp
  rest _ _ := ⟨rfl, fun f => (count_empty f).symm, rfl, rfl, rfl, rfl, rfl⟩
  empty _ _ := rfl
  kid _ _ hk := by cases hk
  kid_inj _ _ _ hk := by cases hk
  lawful _ hp := by cases hp

theorem good_init (first : P) (npages : Nat) : Good npages (init first npages) where
  counts := counts_init first npages
  ends := by
    constructor
    · intro pi w
      simp [init, File.holds, File.endOf, Local.closes]
    · intro pi hpi
      cases hpi
  paged := by
    intro pi
    have hcount : (List.range npages).reverse.count pi = if pi < npages then 1 else 0 := by
      rw [List.count_reverse, List.Nodup.count List.nodup_range]
      simp only [List.mem_range]
    simp [init, hcount]
  inside p pi hin := by cases hin
  procs := procs_init first npages
  returns x hx := by cases hx

variable {npages : Nat} {s : Files P}

theorem reach_good {first : P} {css : P → List (List (Call P))} {c : Conf (FileSig P) P (Files P)}
    (hreach : machine.Reach (fun _ _ _ => True) (boot first npages css) c) :
    ∃ ρ, Inv npages c.st ρ ∧ ∀ p, fileLogic.wp (c.prog p) (fun _ _ => True) (ρ p) := by
  have hsound : (machine (P := P)).Sound fileLogic (fun _ _ _ => True) (Inv npages) := sound _
  have hinit : Inv npages (boot first npages css).st fun p => (init first npages).view p :=
    ⟨good_init first npages, fun p => ⟨rfl, fun _ => rfl⟩⟩
  exact hreach.inv (Q := fun _ => True) hsound hinit fun p => wp_lives (css p) rfl

theorem Kind.Allows.transits {k : Kind} {given count : Nat} (h : k.Allows given count) :
    (given : Int) - count ∈ k.transits := by
  cases k <;> simp only [Kind.Allows] at h <;> simp only [Kind.transits, List.mem_cons, List.not_mem_nil, or_false] <;>
    omega

section

omit [DecidableEq P]

theorem transit_mem (h : Good npages s) (p : P) (f : FileId) : transit s p f ∈ (s.loc p).call.transits := by
  cases hactive : (s.loc p).active with
  | true => exact ((h.procs.lawful p hactive).allows f).transits
  | false =>
    obtain ⟨hcall, hsettled⟩ := h.procs.rest p hactive
    have hgiven : (s.loc p).given f = (s.ofile p).count f := hsettled.given f
    rw [hcall, transit, hgiven]
    simp [Kind.transits]

theorem ref_eq (h : Good npages s) (f : FileId) :
    ((s.file f).ref : Int) = ∑ p, ((s.ofile p).count f : Int) + ∑ p, transit s p f := by
  rw [h.counts.refs f, ← sum_add_distrib, Nat.cast_sum]
  apply sum_congr rfl
  intro p _
  unfold transit
  omega

theorem live_iff (h : Good npages s) (pi : Nat) :
    s.live pi = true ↔ ∃ w, (∃ f, 0 < (s.file f).ref ∧ (s.file f).endOf = some (pi, w)) ∨
      ∃ p, (s.loc p).closing = some (pi, w) := by
  constructor
  · intro hlive
    obtain ⟨w, hopen⟩ := h.ends.some_open pi hlive
    have hone := h.ends.one pi w
    rw [if_pos ⟨hlive, hopen⟩] at hone
    refine ⟨w, ?_⟩
    by_contra hno
    rw [not_or, not_exists, not_exists] at hno
    have hfiles : ∑ f, (s.file f).holds (pi, w) = 0 := by
      apply sum_eq_zero
      intro f _
      apply if_neg
      intro hend
      refine hno.1 f ⟨Nat.pos_of_ne_zero fun hzero => ?_, hend⟩
      simp [File.endOf, h.counts.free f hzero] at hend
    have hprocs : ∑ p, (s.loc p).closes (pi, w) = 0 := by
      apply sum_eq_zero
      intro p _
      exact if_neg (hno.2 p)
    omega
  · rintro ⟨w, ⟨f, -, hend⟩ | ⟨p, hend⟩⟩
    · exact (h.ends.live_of_holds hend).1
    · exact (h.ends.live_of_closes hend).1

theorem live_of_inside (h : Good npages s) {p : P} {pi : Nat}
    (hin : (s.loc p).inside = some pi) : s.live pi = true := by
  obtain ⟨fd, f, -, -, hend⟩ := h.inside p pi hin
  obtain ⟨e, he, heq⟩ := Option.map_eq_some_iff.1 hend
  rw [← heq]
  exact (h.ends.live_of_holds he).1

end

/-- A page that a process is about to free. -/
structure Freeing (s : Files P) (pi : Nat) : Prop where
  no_pipe : s.live pi = false
  not_free : pi ∉ s.freelist
  not_used : pi ∉ s.others
  nobody : ∀ p, (s.loc p).inside ≠ some pi

omit [DecidableEq P] in
theorem freeing_of_carried (h : Good npages s) {p : P} {pi : Nat} (hmem : pi ∈ (s.loc p).carried) : Freeing s pi := by
  have hlive := h.paged.not_live_of_carried hmem
  have hle := le_sum (fun l : Local P => l.carried.count pi) s.loc p
  have hpos : 0 < (s.loc p).carried.count pi := List.count_pos_iff.2 hmem
  have hsum := h.paged pi
  have hone : (if pi < npages then 1 else 0) ≤ 1 := by split <;> omega
  refine ⟨hlive, fun hfree => ?_, fun hused => ?_, fun q hin => ?_⟩
  · have := List.count_pos_iff.2 hfree
    omega
  · have := List.count_pos_iff.2 hused
    omega
  · rw [live_of_inside h hin] at hlive
    cases hlive

omit [DecidableEq P] in
theorem kfree_next {ρ : P → View P} {m : Prog (FileSig P) Unit} {p : P} {pi : Nat}
    (h : Inv npages s ρ) (hwp : fileLogic.wp m (fun _ _ => True) (ρ p)) (hnext : m.next = some (.kfree pi)) :
    pi ∈ (s.loc p).carried := by
  obtain ⟨hneeds, -⟩ := Logic.pre_of_next _ hwp hnext
  have hactive : (s.loc p).active = true := (h.2 p).1 ▸ hneeds.1.1
  have hmem := hneeds.2
  rw [(h.2 p).2 hactive] at hmem
  exact hmem

/-- What holds in every state: `ref` counts the descriptors and the references in transit, which a `dup` that has filled
its descriptor and an `exit` that has not cleared it make negative; files without references are `FD_NONE`; each page is
in one place, is a pipe as long as one of its ends is, and is freed only when it is no pipe any more and nobody reads or
writes it; and a `pipe` or `dup` that fails leaves the descriptors as they were, and run alone the files and the free
list. -/
structure OpenFiles (npages : Nat) (c : Conf (FileSig P) P (Files P)) : Prop where
  ref_count : ∀ f, ((c.st.file f).ref : Int) = ∑ p, ((c.st.ofile p).count f : Int) + ∑ p, transit c.st p f
  in_transit : ∀ p f, transit c.st p f ∈ (c.st.loc p).call.transits
  unused : ∀ f, (c.st.file f).ref = 0 → (c.st.file f).type = .none
  one_place : ∀ pi, c.st.freelist.count pi + c.st.others.count pi + (c.st.live pi).toNat +
    ∑ p, (c.st.loc p).carried.count pi = if pi < npages then 1 else 0
  pipe_lives : ∀ pi, c.st.live pi = true ↔ ∃ w, (∃ f, 0 < (c.st.file f).ref ∧ (c.st.file f).endOf = some (pi, w)) ∨
    ∃ p, (c.st.loc p).closing = some (pi, w)
  none_on_way : ∀ p, (c.st.loc p).call = .idle → (c.st.loc p).carried = [] ∧ (c.st.loc p).closing = none
  freed : ∀ p pi, (c.prog p).next = some (.kfree pi) → Freeing c.st pi
  not_inside : ∀ p pi, (c.st.loc p).inside = some pi → c.st.live pi = true
  failed : ∀ x ∈ c.st.returns, x.call = .pipe ∨ x.call = .dup → x.result = -1 → x.after = x.before
  alone : ∀ p (k : Call P) s', k.kind = .pipe ∨ k.kind = .dup → machine.run p k.run c.st = .ok () s' →
    Failed k c.st s' → Kept c.st s'

/-- **Open files and pipes.** -/
theorem open_files (first : P) (npages : Nat) (css : P → List (List (Call P))) (c : Conf (FileSig P) P (Files P))
    (hreach : machine.Reach (fun _ _ _ => True) (boot first npages css) c) : OpenFiles npages c := by
  obtain ⟨ρ, hinv, hwp⟩ := reach_good hreach
  have hgood := hinv.1
  exact {
    ref_count := ref_eq hgood
    in_transit := transit_mem hgood
    unused := hgood.counts.free
    one_place := hgood.paged
    pipe_lives := live_iff hgood
    none_on_way := by
      intro p hcall
      have hsettled : (c.st.view p).Settled := by
        cases hactive : (c.st.loc p).active with
        | true => exact (hgood.procs.lawful p hactive).idle hcall
        | false => exact (hgood.procs.rest p hactive).2
      exact ⟨hsettled.clear.carried, hsettled.clear.closing⟩
    freed := fun p pi hnext => freeing_of_carried hgood (kfree_next hinv (hwp p) hnext)
    not_inside := fun p pi hin => live_of_inside hgood hin
    failed := hgood.returns
    alone := fun p k s' hcall hrun hfailed => run_call hgood.counts.free hcall hrun hfailed }

def file0 : FileId := ⟨0, by decide⟩

def fd0 : Fin NOFILE := ⟨0, by decide⟩

/-- A process that opens a file and duplicates its descriptor. -/
def dupRun : Fin 1 → List (List (Call (Fin 1))) := fun _ => [[.open (some false) true false, .dup fd0]]

/-- In `sys_dup` between `fdalloc` and `filedup`, two descriptors refer to a file with one reference. -/
theorem ref_lt_slots : ∃ c, machine.Reach (fun _ _ _ => True) (boot 0 1 dupRun) c ∧
    (c.st.file file0).ref < ∑ p, (c.st.ofile p).count file0 :=
  Machine.exists_reach (fun _ _ _ => true) (fun _ _ _ _ => trivial) (List.replicate 12 0) _ _ (by decide)

/-- A process that makes a pipe and closes both ends. -/
def pipeRun : Fin 1 → List (List (Call (Fin 1))) := fun _ => [[.pipe true, .close fd0, .close ⟨1, by decide⟩]]

/-- The page of the pipe is about to be freed. -/
theorem open_files_pipe : ∃ c, machine.Reach (fun _ _ _ => True) (boot 0 1 pipeRun) c ∧
    (c.st.loc 0).carried = [0] ∧ OpenFiles 1 c := by
  obtain ⟨c, hreach, htest⟩ :=
    Machine.exists_reach (M := machine) (fun _ _ _ => true) (fun _ _ _ _ => trivial) (List.replicate 23 0) (boot 0 1 pipeRun)
      (fun c => (c.st.loc 0).carried = [0]) (by decide)
  exact ⟨c, hreach, htest, open_files 0 1 pipeRun c hreach⟩

end Xv6.Files
