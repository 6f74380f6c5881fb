import Xv6.File.Table
import Xv6.Lib.Threads

/-! What holds of the file table between any two steps. A reference is given to one process, whether one of its
descriptors refers to the file or the reference is on its way. An end of a pipe is a file or is being closed by one
process. A page is free, in use elsewhere, a pipe, or on its way in one process. -/

namespace Xv6.Files

open Lib Bool

variable {P : Type}

/-! ### Descriptors -/

def refers (f : FileId) (o : Option FileId) : Nat := if o = some f then 1 else 0

theorem refers_none (f : FileId) : refers f none = 0 := by simp [refers]

theorem refers_self (f : FileId) : refers f (some f) = 1 := by simp [refers]

theorem refers_of_ne {f g : FileId} (h : g ≠ f) : refers f (some g) = 0 := by simp [refers, h]

/-- The descriptors that refer to a file. -/
def Slots.count (t : Slots) (f : FileId) : Nat := ∑ fd, refers f (t fd)

theorem count_empty (f : FileId) : Slots.count (fun _ => none) f = 0 := by
  simp [Slots.count, refers]

theorem count_update (t : Slots) (fd : Fin NOFILE) (o : Option FileId) (f : FileId) :
    Slots.count (Function.update t fd o) f + refers f (t fd) = t.count f + refers f o :=
  sum_update (refers f) t fd o

theorem count_pos {t : Slots} {fd : Fin NOFILE} {f : FileId} (h : t fd = some f) : 0 < t.count f := by
  have hle := le_sum (refers f) t fd
  have hone : refers f (t fd) = 1 := by simp [refers, h]
  unfold Slots.count
  omega

theorem count_set {t : Slots} {fd : Fin NOFILE} (h : t fd = none) (g f : FileId) :
    Slots.count (Function.update t fd (some g)) f = t.count f + refers f (some g) := by
  have hupd := count_update t fd (some g) f
  rw [h, refers_none] at hupd
  omega

theorem count_clear {t : Slots} {fd : Fin NOFILE} {g : FileId} (h : t fd = some g) (f : FileId) :
    Slots.count (Function.update t fd none) f + refers f (some g) = t.count f := by
  have hupd := count_update t fd none f
  rw [h, refers_none] at hupd
  omega

/-! ### What a process sees -/

/-- The descriptors of a process, what is recorded of it, and the descriptors of the child of its `fork`. -/
structure View (P : Type) where
  slots : Slots
  own : Local P
  child : Slots

def view (s : Files P) (p : P) : View P where
  slots := s.ofile p
  own := s.loc p
  child := match (s.loc p).kid with
    | none => fun _ => none
    | some np => s.ofile np

/-- Nothing is on its way. -/
structure Local.Clear (l : Local P) : Prop where
  fresh : l.fresh = []
  carried : l.carried = []
  closing : l.closing = none
  inside : l.inside = none
  kid : l.kid = none

/-- A process between two calls. -/
structure View.Settled (v : View P) : Prop where
  given : ∀ f, v.own.given f = v.slots.count f
  clear : v.own.Clear

/-- How the references `given` to a process and its descriptors for a file may differ in a call: `dup` fills the
descriptor before it takes the reference, and `exit` drops the reference before it clears the descriptor. -/
def Kind.Allows (k : Kind) (given count : Nat) : Prop :=
  match k with
  | .idle | .other => given = count
  | .open | .pipe | .close | .fork => count ≤ given ∧ given ≤ count + 1
  | .dup | .exit => given ≤ count ∧ count ≤ given + 1

/-- What holds of a process at every moment of a call. -/
structure View.Lawful (v : View P) : Prop where
  allows : ∀ f, v.own.call.Allows (v.own.given f) (v.slots.count f)
  kept : v.own.call = .pipe ∨ v.own.call = .dup → ∀ fd f, v.own.entry fd = some f → v.slots fd = some f
  idle : v.own.call = .idle → v.Settled

theorem View.Settled.lawful {v : View P} (h : v.Settled) (hcall : v.own.call = .idle) : v.Lawful where
  allows f := by
    rw [hcall]
    exact h.given f
  kept hkind := by
    rw [hcall] at hkind
    cases hkind with
    | inl h => cases h
    | inr h => cases h
  idle _ := h

/-! ### The invariants -/

section Invariants

variable [Fintype P]

/-- Every reference is given to a process, and a new file is known to one process only. -/
structure Counts (file : FileId → File) (loc : P → Local P) : Prop where
  refs : ∀ f, (file f).ref = ∑ p, (loc p).given f
  free : ∀ f, (file f).ref = 0 → (file f).type = .none
  fresh : ∀ p f, f ∈ (loc p).fresh → (file f).ref = 1 ∧ (file f).type = .none ∧ (loc p).given f = 1
  nodup : ∀ p, (loc p).fresh.Nodup

def File.holds (e : Nat × Bool) (x : File) : Nat := if x.endOf = some e then 1 else 0

def Local.closes (e : Nat × Bool) (l : Local P) : Nat := if l.closing = some e then 1 else 0

/-- Each open end of a pipe is one file, or is being closed by one process. -/
structure Ends (file : FileId → File) (loc : P → Local P) (live : Nat → Bool) (isopen : Nat → Bool → Bool) :
    Prop where
  one : ∀ pi w, ∑ f, (file f).holds (pi, w) + ∑ p, (loc p).closes (pi, w) =
    if live pi = true ∧ isopen pi w = true then 1 else 0
  some_open : ∀ pi, live pi = true → ∃ w, isopen pi w = true

/-- Each of the pages is in one place. -/
def Paged (npages : Nat) (freelist others : List Nat) (live : Nat → Bool) (loc : P → Local P) : Prop :=
  ∀ pi, freelist.count pi + others.count pi + (live pi).toNat + ∑ p, (loc p).carried.count pi =
    if pi < npages then 1 else 0

/-- A process that reads or writes a pipe has a descriptor for one of its ends. -/
def Inside (file : FileId → File) (ofile : P → Slots) (loc : P → Local P) : Prop :=
  ∀ p pi, (loc p).inside = some pi → ∃ fd f, ofile p fd = some f ∧ 0 < (loc p).given f ∧
    (file f).endOf.map Prod.fst = some pi

/-- The slots of `proc`. -/
structure Procs (s : Files P) : Prop where
  running : ∀ p, (s.loc p).active = true → s.status p = .running
  rest : ∀ p, (s.loc p).active = false → (s.loc p).call = .idle ∧ (s.view p).Settled
  empty : ∀ p, s.status p = .unused ∨ s.status p = .zombie → s.ofile p = fun _ => none
  kid : ∀ p np, (s.loc p).kid = some np → s.status np = .embryo
  kid_inj : ∀ p q np, (s.loc p).kid = some np → (s.loc q).kid = some np → p = q
  lawful : ∀ p, (s.loc p).active = true → (s.view p).Lawful

/-- A `pipe` or `dup` that failed left the descriptors as they were. -/
def Returns (returns : List Return) : Prop :=
  ∀ x ∈ returns, x.call = .pipe ∨ x.call = .dup → x.result = -1 → x.after = x.before

structure Good (npages : Nat) (s : Files P) : Prop where
  counts : Counts s.file s.loc
  ends : Ends s.file s.loc s.live s.isopen
  paged : Paged npages s.freelist s.others s.live s.loc
  inside : Inside s.file s.ofile s.loc
  procs : Procs s
  returns : Returns s.returns

/-! ### Consequences -/

variable {file : FileId → File} {loc : P → Local P} {live : Nat → Bool} {isopen : Nat → Bool → Bool}
  {freelist others : List Nat}

theorem Counts.given_le (h : Counts file loc) (p : P) (f : FileId) : (loc p).given f ≤ (file f).ref := by
  rw [h.refs f]
  exact le_sum (fun l : Local P => l.given f) loc p

theorem Counts.given_eq_zero [DecidableEq P] (h : Counts file loc)
    {p q : P} {f : FileId} (hp : (file f).ref ≤ (loc p).given f) (hne : q ≠ p) : (loc q).given f = 0 := by
  have hle := h.given_le p f
  apply eq_zero_of_sum_eq (f := fun q => (loc q).given f) (p := p) _ hne
  rw [← h.refs f]
  omega

theorem Ends.live_of_holds
    (h : Ends file loc live isopen) {f : FileId} {e : Nat × Bool} (hend : (file f).endOf = some e) :
    live e.1 = true ∧ isopen e.1 e.2 = true := by
  obtain ⟨pi, w⟩ := e
  have hle := le_sum (fun x : File => x.holds (pi, w)) file f
  have hone : (file f).holds (pi, w) = 1 := by simp [File.holds, hend]
  have hsum := h.one pi w
  by_contra hno
  rw [if_neg hno] at hsum
  omega

theorem Ends.live_of_closes (h : Ends file loc live isopen) {p : P} {e : Nat × Bool}
    (hend : (loc p).closing = some e) : live e.1 = true ∧ isopen e.1 e.2 = true := by
  obtain ⟨pi, w⟩ := e
  have hle := le_sum (fun l : Local P => l.closes (pi, w)) loc p
  have hone : (loc p).closes (pi, w) = 1 := by simp [Local.closes, hend]
  have hsum := h.one pi w
  by_contra hno
  rw [if_neg hno] at hsum
  omega

theorem Paged.not_live_of_carried {npages : Nat} (h : Paged npages freelist others live loc) {p : P} {pi : Nat}
    (hmem : pi ∈ (loc p).carried) : live pi = false := by
  have hle := le_sum (fun l : Local P => l.carried.count pi) loc p
  have hpos : 0 < (loc p).carried.count pi := List.count_pos_iff.2 hmem
  have hsum := h pi
  by_contra hlive
  rw [not_eq_false] at hlive
  rw [hlive, toNat_true] at hsum
  split at hsum <;> omega

theorem Paged.not_live_of_mem {npages : Nat} (h : Paged npages freelist others live loc) {pi : Nat}
    (hmem : pi ∈ freelist ∨ pi ∈ others) : live pi = false := by
  have hpos : 0 < freelist.count pi + others.count pi := by
    rcases hmem with hmem | hmem
    · have := List.count_pos_iff.2 hmem
      omega
    · have := List.count_pos_iff.2 hmem
      omega
  have hsum := h pi
  by_contra hlive
  rw [not_eq_false] at hlive
  rw [hlive, toNat_true] at hsum
  split at hsum <;> omega

/-! ### What is recorded of a process changes -/

theorem Counts.congr {loc loc' : P → Local P} (h : Counts file loc)
    (hgiven : ∀ p, (loc' p).given = (loc p).given) (hfresh : ∀ p, (loc' p).fresh = (loc p).fresh) :
    Counts file loc' where
  refs f := by simp only [hgiven, h.refs f]
  free := h.free
  fresh p f hf := by
    rw [hfresh] at hf
    rw [hgiven]
    exact h.fresh p f hf
  nodup p := by
    rw [hfresh]
    exact h.nodup p

theorem Ends.congr {loc loc' : P → Local P}
    (h : Ends file loc live isopen) (hclosing : ∀ p, (loc' p).closing = (loc p).closing) :
    Ends file loc' live isopen where
  one pi w := by
    simp only [Local.closes, hclosing]
    exact h.one pi w
  some_open := h.some_open

theorem Paged.congr {npages : Nat} {loc loc' : P → Local P}
    (h : Paged npages freelist others live loc) (hcarried : ∀ p, (loc' p).carried = (loc p).carried) :
    Paged npages freelist others live loc' := by
  intro pi
  simp only [hcarried]
  exact h pi

omit [Fintype P] in
theorem Inside.congr {file file' : FileId → File} {ofile ofile' : P → Slots} {loc loc' : P → Local P}
    (h : Inside file ofile loc)
    (hkeep : ∀ p pi, (loc' p).inside = some pi → (loc p).inside = some pi ∧ ofile' p = ofile p ∧
      ∀ f, 0 < (loc p).given f → 0 < (loc' p).given f ∧ (file' f).endOf = (file f).endOf) :
    Inside file' ofile' loc' := by
  intro p pi hin
  obtain ⟨hin, hofile, hgiven⟩ := hkeep p pi hin
  obtain ⟨fd, f, hfd, hpos, hend⟩ := h p pi hin
  obtain ⟨hpos, hend'⟩ := hgiven f hpos
  exact ⟨fd, f, by rw [hofile, hfd], hpos, by rw [hend', hend]⟩

end Invariants

end Xv6.Files
