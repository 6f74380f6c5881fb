import Xv6.File.References

/-! What the sections of `file.c`, `pipe.c` and `kalloc.c` do to references, ends of pipes and pages. -/

namespace Xv6.Files

open Lib Function

variable {P : Type} [Fintype P] [DecidableEq P] {f : FileId} {x : File} {pi : Nat}

section

omit [Fintype P] [DecidableEq P]

theorem gain_given (l : Local P) (f g : FileId) : (l.gain f).given g = l.given g + refers g (some f) := by
  by_cases h : f = g
  · subst h
    simp [Local.gain, refers_self]
  · rw [refers_of_ne h]
    exact update_of_ne (Ne.symm h) _ _

theorem lose_given {l : Local P} (hpos : 0 < l.given f) (g : FileId) :
    (l.lose f).given g + refers g (some f) = l.given g := by
  by_cases h : f = g
  · subst h
    simp only [Local.lose, update_self, refers_self]
    omega
  · rw [refers_of_ne h]
    exact update_of_ne (Ne.symm h) _ _

end

/-! ### References -/

section Counts

variable {file file' : FileId → File} {loc : P → Local P} {p : P} {l : Local P}

theorem Counts.refs_update (h : Counts file loc)
    (hchange : ∀ f, (file' f).ref + (loc p).given f = (file f).ref + l.given f) (f : FileId) :
    (file' f).ref = ∑ q, (update loc p l q).given f := by
  have hsum := sum_update (fun l : Local P => l.given f) loc p l
  have href := h.refs f
  have hf := hchange f
  omega

theorem Counts.given_of_fresh (h : Counts file loc) (hf : f ∈ (loc p).fresh) {q : P} (hne : q ≠ p) :
    (loc q).given f = 0 := by
  obtain ⟨href, -, hgiven⟩ := h.fresh p f hf
  apply h.given_eq_zero (p := p) _ hne
  omega

omit [DecidableEq P] in
theorem Counts.not_fresh (h : Counts file loc) (hf : (file f).ref ≠ 1) (q : P) : f ∉ (loc q).fresh :=
  fun hmem => hf (h.fresh q f hmem).1

section

omit [Fintype P] [DecidableEq P]

theorem ref_inc (hx : x.ref = (file f).ref + 1) (g : FileId) :
    (update file f x g).ref = (file g).ref + refers g (some f) := by
  by_cases hg : f = g
  · subst hg
    rw [update_self, refers_self, hx]
  · rw [update_of_ne (Ne.symm hg), refers_of_ne hg, Nat.add_zero]

theorem ref_dec (hx : x.ref + 1 = (file f).ref) (g : FileId) :
    (update file f x g).ref + refers g (some f) = (file g).ref := by
  by_cases hg : f = g
  · subst hg
    rw [update_self, refers_self, hx]
  · rw [update_of_ne (Ne.symm hg), refers_of_ne hg, Nat.add_zero]

end

theorem Counts.filealloc (h : Counts file loc) (hf : (file f).ref = 0) : Counts (update file f { file f with ref := 1 })
      (update loc p { (loc p).gain f with fresh := f :: (loc p).fresh }) where
  refs := by
    apply h.refs_update
    intro g
    have hgain := gain_given (loc p) f g
    rw [ref_inc (by rw [hf]) g]
    change _ = _ + ((loc p).gain f).given g
    omega
  free g hg := by
    by_cases hgf : g = f
    · rw [hgf, update_self] at hg
      cases hg
    · rw [update_of_ne hgf] at hg ⊢
      exact h.free g hg
  fresh q g hg := by
    by_cases hgf : g = f
    · subst hgf
      have hq : q = p := by
        by_contra hq
        rw [update_of_ne hq] at hg
        exact h.not_fresh (by omega) q hg
      subst hq
      have hzero : (loc q).given g = 0 := by
        have := h.given_le q g
        omega
      simp [Local.gain, h.free g hf, hzero]
    · have hmem : g ∈ (loc q).fresh ∧ (update loc p { (loc p).gain f with fresh := f :: (loc p).fresh } q).given g =
          (loc q).given g := by
        by_cases hq : q = p
        · subst hq
          rw [update_self] at hg ⊢
          exact ⟨(List.mem_cons.1 hg).resolve_left hgf, update_of_ne hgf _ _⟩
        · rw [update_of_ne hq] at hg ⊢
          exact ⟨hg, rfl⟩
      rw [update_of_ne hgf, hmem.2]
      exact h.fresh q g hmem.1
  nodup := forall_update (A := fun _ (l : Local P) => l.fresh.Nodup)
    (List.nodup_cons.2 ⟨h.not_fresh (by omega) p, h.nodup p⟩) fun q _ => h.nodup q

theorem Counts.fresh_update (h : Counts file loc) (hsub : ∀ g ∈ l.fresh, g ∈ (loc p).fresh)
    (hgiven : ∀ g, g ≠ f → l.given g = (loc p).given g) (hp : f ∉ l.fresh)
    (hothers : ∀ q, q ≠ p → f ∉ (loc q).fresh) (q : P) (g : FileId) (hg : g ∈ (update loc p l q).fresh) :
    (update file f x g).ref = 1 ∧ (update file f x g).type = .none ∧ (update loc p l q).given g = 1 := by
  by_cases hq : q = p
  · subst hq
    rw [update_self] at hg ⊢
    have hgf : g ≠ f := fun heq => hp (heq ▸ hg)
    rw [update_of_ne hgf, hgiven g hgf]
    exact h.fresh q g (hsub g hg)
  · rw [update_of_ne hq] at hg ⊢
    have hgf : g ≠ f := fun heq => hothers q hq (heq ▸ hg)
    rw [update_of_ne hgf]
    exact h.fresh q g hg

omit [DecidableEq P] in
theorem Counts.free_update (h : Counts file loc) (hx : x.ref = 0 → x.type = .none)
    (g : FileId) (hg : (update file f x g).ref = 0) : (update file f x g).type = .none := by
  by_cases hgf : g = f
  · rw [hgf, update_self] at hg ⊢
    exact hx hg
  · rw [update_of_ne hgf] at hg ⊢
    exact h.free g hg

theorem Counts.filedup (h : Counts file loc) (hpos : 0 < (loc p).given f) (hfresh : f ∉ (loc p).fresh) :
    Counts (update file f { file f with ref := (file f).ref + 1 }) (update loc p ((loc p).gain f)) where
  refs := by
    apply h.refs_update
    intro g
    rw [ref_inc rfl g, gain_given]
    omega
  free := h.free_update fun hzero => by cases hzero
  fresh := by
    apply h.fresh_update (l := (loc p).gain f) (fun g hg => hg) _ hfresh
    · intro q hq hmem
      have hzero := h.given_of_fresh hmem (Ne.symm hq)
      omega
    · intro g hg
      exact update_of_ne hg _ _
  nodup := forall_update (A := fun _ (l : Local P) => l.fresh.Nodup) (h.nodup p) fun q _ => h.nodup q

/-- A reference is dropped; `x` is what becomes of the file. -/
theorem Counts.fileclose (h : Counts file loc) {l : Local P} (hpos : 0 < (loc p).given f)
    (hx : x.ref + 1 = (file f).ref) (htype : x.ref = 0 → x.type = .none)
    (hgiven : l.given = ((loc p).lose f).given) (hfresh : l.fresh = (loc p).fresh.erase f) :
    Counts (update file f x) (update loc p l) where
  refs := by
    apply h.refs_update
    intro g
    have hdec := ref_dec hx g
    have hlose := lose_given hpos g
    rw [hgiven]
    omega
  free := h.free_update htype
  fresh := by
    apply h.fresh_update
    · intro g hg
      rw [hfresh] at hg
      exact List.mem_of_mem_erase hg
    · intro g hg
      rw [hgiven]
      exact update_of_ne hg _ _
    · rw [hfresh]
      exact (h.nodup p).not_mem_erase
    · intro q hq hmem
      have hzero := h.given_of_fresh hmem (Ne.symm hq)
      omega
  nodup := forall_update (A := fun _ (l : Local P) => l.fresh.Nodup)
    (by rw [hfresh]; exact (h.nodup p).erase f) fun q _ => h.nodup q

/-- The fields of a new file are set. -/
theorem Counts.fill (h : Counts file loc) {l : Local P} (hf : f ∈ (loc p).fresh)
    (hx : x.ref = (file f).ref) (hgiven : l.given = (loc p).given) (hfresh : l.fresh = (loc p).fresh.erase f) :
    Counts (update file f x) (update loc p l) where
  refs := by
    apply h.refs_update
    intro g
    rw [hgiven]
    by_cases hg : g = f
    · rw [hg, update_self, hx]
    · rw [update_of_ne hg]
  free := h.free_update fun hzero => by
    have := (h.fresh p f hf).1
    omega
  fresh := by
    apply h.fresh_update
    · intro g hg
      rw [hfresh] at hg
      exact List.mem_of_mem_erase hg
    · intro g _
      rw [hgiven]
    · rw [hfresh]
      exact (h.nodup p).not_mem_erase
    · intro q hq hmem
      have hzero := h.given_of_fresh hmem (Ne.symm hq)
      have hone := (h.fresh p f hf).2.2
      omega
  nodup := forall_update (A := fun _ (l : Local P) => l.fresh.Nodup)
    (by rw [hfresh]; exact (h.nodup p).erase f) fun q _ => h.nodup q

/-- A reference goes from one process to another. -/
theorem Counts.setChild (h : Counts file loc) {np : P} (hne : np ≠ p) (hpos : 0 < (loc p).given f)
    (hfresh : f ∉ (loc p).fresh) (hrest : (loc np).fresh = []) :
    Counts file (update (update loc p ((loc p).lose f)) np ((loc np).gain f)) where
  refs g := by
    have hfirst := sum_update (fun l : Local P => l.given g) loc p ((loc p).lose f)
    have hsecond := sum_update (fun l : Local P => l.given g) (update loc p ((loc p).lose f)) np ((loc np).gain f)
    rw [update_of_ne hne] at hsecond
    have hlose := lose_given hpos g
    have hgain := gain_given (loc np) f g
    have href := h.refs g
    omega
  free := h.free
  fresh q g hg := by
    by_cases hq : q = np
    · subst hq
      rw [update_self] at hg
      change g ∈ (loc q).fresh at hg
      rw [hrest] at hg
      cases hg
    · rw [update_of_ne hq] at hg ⊢
      by_cases hqp : q = p
      · subst hqp
        rw [update_self] at hg ⊢
        have hgf : g ≠ f := fun heq => hfresh (heq ▸ hg)
        have hgiven : ((loc q).lose f).given g = (loc q).given g := update_of_ne hgf _ _
        rw [hgiven]
        exact h.fresh q g hg
      · rw [update_of_ne hqp] at hg ⊢
        exact h.fresh q g hg
  nodup := by
    apply forall_update (A := fun _ (l : Local P) => l.fresh.Nodup)
    · exact h.nodup np
    · intro q _
      exact forall_update (A := fun _ (l : Local P) => l.fresh.Nodup) (r := (loc p).lose f) (h.nodup p)
        (fun q _ => h.nodup q) q

end Counts

/-! ### Ends of pipes -/

section Ends

variable {file : FileId → File} {loc : P → Local P} {p : P} {live : Nat → Bool} {isopen : Nat → Bool → Bool}

omit [DecidableEq P] in
theorem Ends.file_update (h : Ends file loc live isopen) {loc' : P → Local P}
    (hx : x.endOf = (file f).endOf) (hclosing : ∀ q, (loc' q).closing = (loc q).closing) :
    Ends (update file f x) loc' live isopen where
  one pi w := by
    rw [sum_update_eq (f := fun x : File => x.holds (pi, w)) (by simp only [File.holds, hx])]
    exact (h.congr hclosing).one pi w
  some_open := h.some_open

/-- The last reference to a file is dropped: its end is being closed. -/
theorem Ends.fileclose (h : Ends file loc live isopen) {l : Local P}
    (hx : x.endOf = none) (hclosing : (loc p).closing = none) (hl : l.closing = (file f).endOf) :
    Ends (update file f x) (update loc p l) live isopen where
  one pi w := by
    have hfile := sum_update (fun x : File => x.holds (pi, w)) file f x
    have hloc := sum_update (fun l : Local P => l.closes (pi, w)) loc p l
    have hone := h.one pi w
    have hnew : x.holds (pi, w) = 0 := by simp [File.holds, hx]
    have hold : (loc p).closes (pi, w) = 0 := by simp [Local.closes, hclosing]
    have hmove : l.closes (pi, w) = (file f).holds (pi, w) := by simp only [Local.closes, File.holds, hl]
    omega
  some_open := h.some_open

/-- An end is closed; the page stops to be a pipe if the other end is closed. -/
theorem Ends.pipeclose (h : Ends file loc live isopen) {w : Bool} {l : Local P} {live' : Nat → Bool}
    (hclosing : (loc p).closing = some (pi, w)) (hl : l.closing = none) (hother : ∀ pi', pi' ≠ pi → live' pi' = live pi')
    (hlive : live' pi = isopen pi (!w)) :
    Ends file (update loc p l) live' (update isopen pi (update (isopen pi) w false)) where
  one pi' w' := by
    have hloc := sum_update (fun l : Local P => l.closes (pi', w')) loc p l
    have hone := h.one pi' w'
    have hnew : l.closes (pi', w') = 0 := by simp [Local.closes, hl]
    by_cases hpi : pi' = pi
    · subst hpi
      have hwas := (h.live_of_closes hclosing).1
      simp only at hwas
      rw [update_self, hlive]
      by_cases hw : w' = w
      · subst hw
        have hold : (loc p).closes (pi', w') = 1 := by simp [Local.closes, hclosing]
        have hopen := (h.live_of_closes hclosing).2
        simp only at hopen
        rw [if_pos ⟨hwas, hopen⟩] at hone
        simp only [update_self, Bool.false_eq_true, and_false, if_false]
        omega
      · have hold : (loc p).closes (pi', w') = 0 := by
          simp only [Local.closes, hclosing, Option.some.injEq, Prod.mk.injEq, true_and]
          exact if_neg fun heq => hw heq.symm
        have hneg : (!w) = w' := by
          cases w <;> cases w' <;> simp_all
        simp only [update_of_ne hw, hneg, and_self]
        simp only [hwas, true_and] at hone
        omega
    · have hold : (loc p).closes (pi', w') = 0 := by
        simp only [Local.closes, hclosing, Option.some.injEq, Prod.mk.injEq]
        exact if_neg fun heq => hpi heq.1.symm
      rw [update_of_ne hpi, hother pi' hpi]
      omega
  some_open pi' hpi' := by
    by_cases hpi : pi' = pi
    · subst hpi
      refine ⟨!w, ?_⟩
      rw [update_self, update_of_ne (by simp)]
      rw [hlive] at hpi'
      exact hpi'
    · rw [update_of_ne hpi]
      rw [hother pi' hpi] at hpi'
      exact h.some_open pi' hpi'

omit [DecidableEq P]

/-- A page that is not a pipe is written. -/
theorem Ends.junk (h : Ends file loc live isopen) {c : Bool → Bool} {loc' : P → Local P}
    (hlive : live pi = false) (hclosing : ∀ q, (loc' q).closing = (loc q).closing) :
    Ends file loc' live (update isopen pi c) where
  one pi' w := by
    rw [(h.congr hclosing).one pi' w]
    by_cases hpi : pi' = pi
    · subst hpi
      simp [hlive]
    · rw [update_of_ne hpi]
  some_open pi' hpi' := by
    by_cases hpi : pi' = pi
    · subst hpi
      rw [hlive] at hpi'
      cases hpi'
    · rw [update_of_ne hpi]
      exact h.some_open pi' hpi'

/-- A page becomes a pipe whose ends are two files that were none. -/
theorem Ends.install (h : Ends file loc live isopen) {f0 f1 : FileId} {x y : File} (hne : f0 ≠ f1)
    (hlive : live pi = false) (h0 : (file f0).endOf = none) (h1 : (file f1).endOf = none)
    (hx0 : x.endOf = some (pi, false)) (hx1 : y.endOf = some (pi, true)) :
    Ends (update (update file f0 x) f1 y) loc (update live pi true) (update isopen pi fun _ => true) where
  one pi' w := by
    have hfirst := sum_update (fun z : File => z.holds (pi', w)) file f0 x
    have hsecond := sum_update (fun z : File => z.holds (pi', w)) (update file f0 x) f1 y
    rw [update_of_ne (Ne.symm hne)] at hsecond
    have hone := h.one pi' w
    have hold0 : (file f0).holds (pi', w) = 0 := by simp [File.holds, h0]
    have hold1 : (file f1).holds (pi', w) = 0 := by simp [File.holds, h1]
    by_cases hpi : pi' = pi
    · subst hpi
      have hnew : x.holds (pi', w) + y.holds (pi', w) = 1 := by
        cases w <;> simp [File.holds, hx0, hx1]
      simp only [hlive, Bool.false_eq_true, false_and, if_false] at hone
      simp only [update_self, and_self, if_true]
      omega
    · have hnew0 : x.holds (pi', w) = 0 := by simp [File.holds, hx0, Ne.symm hpi]
      have hnew1 : y.holds (pi', w) = 0 := by simp [File.holds, hx1, Ne.symm hpi]
      rw [update_of_ne hpi, update_of_ne hpi]
      omega
  some_open pi' hpi' := by
    by_cases hpi : pi' = pi
    · subst hpi
      exact ⟨true, by rw [update_self]⟩
    · rw [update_of_ne hpi] at hpi' ⊢
      exact h.some_open pi' hpi'

end Ends

/-! ### Pages -/

section Paged

variable {npages : Nat} {freelist others : List Nat} {live : Nat → Bool} {loc : P → Local P} {p : P} {l : Local P}

/-- One page moves, from one of the four places to another. -/
theorem Paged.move (h : Paged npages freelist others live loc) {freelist' others' : List Nat} {live' : Nat → Bool}
    (hmove : ∀ pi, freelist'.count pi + others'.count pi + (live' pi).toNat + l.carried.count pi =
      freelist.count pi + others.count pi + (live pi).toNat + (loc p).carried.count pi) :
    Paged npages freelist' others' live' (update loc p l) := by
  intro pi
  have hloc := sum_update (fun l : Local P => l.carried.count pi) loc p l
  have hpi := h pi
  have hm := hmove pi
  omega

omit [Fintype P] [DecidableEq P]

theorem count_cons_add (t : List Nat) (pi pi' : Nat) : (pi :: t).count pi' = t.count pi' + [pi].count pi' := by
  rw [← List.singleton_append, List.count_append, Nat.add_comm]

theorem count_erase_add {t : List Nat} (hmem : pi ∈ t) (pi' : Nat) :
    (t.erase pi).count pi' + [pi].count pi' = t.count pi' := by
  have hperm := (List.perm_cons_erase hmem).count_eq pi'
  rw [hperm]
  exact (count_cons_add _ _ _).symm

theorem live_update_add (hlive : live pi = false) (pi' : Nat) :
    (update live pi true pi').toNat = (live pi').toNat + [pi].count pi' := by
  by_cases hpi : pi' = pi
  · subst hpi
    simp [hlive]
  · simp [update_of_ne hpi, Ne.symm hpi]

theorem live_update_sub (hlive : live pi = true) (pi' : Nat) :
    (update live pi false pi').toNat + [pi].count pi' = (live pi').toNat := by
  by_cases hpi : pi' = pi
  · subst hpi
    simp [hlive]
  · simp [update_of_ne hpi, Ne.symm hpi]

end Paged

end Xv6.Files
