import Xv6.Vm.Space

/-! `uvmcopy` gives a child a copy of its parent's memory. The parent's table and pages are out of reach of what is
done to the child's table. -/

namespace Xv6

open Lib Pte Radix

/-- The first `n` pages of the page table at `old` are mapped and in use, and the page table at `new` has no part in
them. -/
structure Parent (s : Phys) (old new n : Nat) : Prop where
  tables : s.Tables old
  apart : ∀ a, s.Table old a → ¬ s.Table new a
  leaf : ∀ w, w < n → Leaf (s.map old w)
  used : ∀ w, w < n → addr (s.map old w) ∉ s.free ∧ ¬ s.Table new (addr (s.map old w))

/-- The entries of the page table at `old` are as they were, and so are the first `n` pages. -/
structure Unchanged (s s' : Phys) (old n : Nat) : Prop where
  map : ∀ w, s'.map old w = s.map old w
  page : ∀ w, w < n → s'.page (addr (s.map old w)) = s.page (addr (s.map old w))

section Copy

variable {s s' s'' : Phys} {old new n sz : Nat} {A B : Nat → Prop}

theorem Unchanged.trans (h : Unchanged s s' old n) (h' : Unchanged s' s'' old n) : Unchanged s s'' old n := by
  refine ⟨fun w => (h'.map w).trans (h.map w), fun w hw => ?_⟩
  have := h'.page w hw
  rw [h.map w] at this
  rw [this, h.page w hw]

/-- What is done to the child's table leaves the parent alone. -/
theorem Parent.frame (hp : Parent s old new n) (hm : Phys.Moved s s' A B) (hA : ∀ a, A a → s.Table new a)
    (hB : ∀ a, s'.Table new a → B a) : Parent s' old new n ∧ Unchanged s s' old n := by
  have hout : ∀ a, s.Table old a → ¬ A a := fun a ha hA' => hp.apart a ha (hA a hA')
  obtain ⟨ht, hmap, htable⟩ := hp.tables.frame hm hout
  refine ⟨⟨ht, ?_, ?_, ?_⟩, hmap, ?_⟩
  · intro a ha hnew
    have ha := (htable a).1 ha
    exact (hm.outside (hp.tables.apart a ha) (hout a ha)).2 (hB a hnew)
  · intro w hw
    rw [hmap]
    exact hp.leaf w hw
  · intro w hw
    rw [hmap]
    obtain ⟨hfree, hnew⟩ := hp.used w hw
    obtain ⟨hfree', hB'⟩ := hm.outside hfree fun hA' => hnew (hA _ hA')
    exact ⟨hfree', fun h => hB' (hB _ h)⟩
  · intro w hw
    obtain ⟨hfree, hnew⟩ := hp.used w hw
    exact hm.frame _ hfree fun hA' => hnew (hA _ hA')

theorem pteFlags_lt (e : BitVec 64) : (pteFlags e).toNat < 2 ^ 10 := by
  unfold pteFlags
  rw [BitVec.toNat_and]
  exact Nat.and_lt_two_pow _ (by decide)

theorem pteFlags_or_valid {e : BitVec 64} (h : Has e PTE_V) : pteFlags e ||| PTE_V = pteFlags e := by
  have hbit : e.getLsbD 0 = true := by
    by_contra hbit
    apply h
    apply BitVec.eq_of_getLsbD_eq
    intro i hi
    by_cases h0 : i = 0
    · rw [h0, BitVec.getLsbD_and, Bool.eq_false_iff.2 hbit]
      rfl
    · simp [getLsbD_of_lt (k := 1) (f := PTE_V) (by decide) (Nat.pos_of_ne_zero h0)]
  unfold pteFlags
  apply BitVec.eq_of_getLsbD_eq
  intro i hi
  by_cases h0 : i = 0
  · rw [h0]
    simp [hbit]
  · simp [getLsbD_of_lt (k := 1) (f := PTE_V) (by decide) (Nat.pos_of_ne_zero h0)]

theorem uvmcopy_spec (hok : s.Ok) (hnew : s.Tables new) (hp : Parent s old new (pagesOf sz)) (hsz : pagesOf sz ≤ VPAGES)
    (hempty : ∀ w, w < pagesOf sz → ¬ Has (s.map new w) PTE_V) :
    ∃ s', uvmcopy old new sz s = .ok (-1) s' ∧ Rolled s new 0 0 s' ∨ uvmcopy old new sz s = .ok 0 s' ∧
        Extended s new 0 (pagesOf sz) (fun w => pteFlags (s.map old w)) (fun w => s.page (addr (s.map old w))) s' := by
  have hloop := addPages new 0 (fun m k => uvmcopyFrom old new m (k * PGSIZE))
    (fun k => uvmunmap new 0 (k * PGSIZE / PGSIZE) true >>= fun _ => pure (-1)) 0 (-1)
    (fun k m s₁ => k + m = pagesOf sz ∧ (∀ w, k ≤ w → w < pagesOf sz → ¬ Has (s₁.map new w) PTE_V) ∧
      Parent s₁ old new (pagesOf sz) ∧ Unchanged s s₁ old (pagesOf sz))
    (fun w => pteFlags (s.map old w)) (fun w => s.page (addr (s.map old w))) (fun _ _ => rfl) ?_ ?_ ?_
    (pagesOf sz) 0 s hok hnew .zero ⟨Nat.zero_add _, fun w _ hw => hempty w hw, hp, fun _ => rfl, fun _ _ => rfl⟩
  · rw [Nat.zero_mul] at hloop
    exact hloop
  · rintro m k s₁ hok₁ hpages ⟨hsum, hempty₁, hp₁, hsame⟩
    have hk : k < pagesOf sz := by omega
    have hleaf := hp₁.leaf k hk
    obtain ⟨t, -, hwalk, hpte⟩ := walk_mapped (page_lt (show k < VPAGES by omega)) (by rw [page_div]; exact hleaf.1)
    rw [page_div] at hwalk hpte
    rw [hsame.map] at hleaf hpte
    rw [Nat.zero_add]
    refine ⟨by omega, hempty₁ k (Nat.le_refl k) hk, pteFlags_lt _, ?_, fun c => copyPage c (addr (s.map old k)), ?_, ?_⟩
    · rw [pteFlags_or_valid hleaf.1]
      exact hleaf.2
    · intro s₂ c hc hpage
      have hne : addr (s.map old k) ≠ c := by
        rintro rfl
        rw [← hsame.map] at hc
        exact (hp₁.used k hk).1 hc
      show Outcome.ok () (s₂.setPage c (s₂.page (addr (s.map old k)))) = _
      rw [hpage _ hne, hsame.page k hk]
    · show uvmcopyFrom old new (m + 1) (k * PGSIZE) s₁ = _
      rw [uvmcopyFrom, Run.bind_ok hwalk]
      dsimp only
      rw [Run.bind_ok (show load (t, k % 512) s₁ = .ok (s.map old k) s₁ by rw [← hpte]; rfl), if_neg (not_not.2 hleaf.1),
        Nat.add_mul k 1, Nat.one_mul]
      rfl
  · rintro m k s₁ s₂ c ⟨hsum, hempty₁, hp₁, hsame⟩ hadded
    rw [Nat.zero_add] at hadded
    obtain ⟨hp₂, hsame₂⟩ := hp₁.frame hadded.moved (fun _ ha => ha) fun _ ha => Or.inl ha
    refine ⟨by omega, fun w hw hw' => ?_, hp₂, hsame.trans hsame₂⟩
    rw [hadded.map w (by omega), Function.update_of_ne (by omega)]
    exact hempty₁ w (by omega) hw'
  · intro k s₁ hok₁ ht₁ hk hpages
    obtain ⟨s', hrun, hrolled⟩ := hpages.rolled hok₁ ht₁ hk
    refine ⟨s', ?_, hrolled⟩
    rw [page_div]
    have heq := uvmunmap_eq (r := new) (v := 0) (n := k) true hk
    rw [Nat.zero_mul] at heq hrun
    rw [heq, Run.bind_ok hrun]
    rfl

/-- **`fork` copies memory.** -/
theorem uvmcopy_copies (hok : s.Ok) (hnew : s.Tables new) (hp : Parent s old new (pagesOf sz))
    (hsz : pagesOf sz ≤ VPAGES) (hempty : ∀ w, w < pagesOf sz → ¬ Has (s.map new w) PTE_V) :
    ∃ ret s', uvmcopy old new sz s = .ok ret s' ∧ Unchanged s s' old (pagesOf sz) ∧
      (ret = 0 ∧ (∀ w, w < pagesOf sz → pteFlags (s'.map new w) = pteFlags (s.map old w) ∧
          s'.page (addr (s'.map new w)) = s.page (addr (s.map old w)) ∧ addr (s'.map new w) ∈ s.free) ∧
        (∀ w w', w < pagesOf sz → w' < pagesOf sz → addr (s'.map new w) ≠ addr (s'.map old w') ∧
          (addr (s'.map new w) = addr (s'.map new w') → w = w')) ∨
      ret = -1 ∧ (∀ w, w < VPAGES → Same (s.map new w) (s'.map new w)) ∧
        ∀ a, a ∈ s.free → a ∈ s'.free ∨ s'.Table new a) := by
  rcases uvmcopy_spec hok hnew hp hsz hempty with ⟨s', ⟨hrun, hrolled⟩ | ⟨hrun, hext⟩⟩
  · have hsame := (hp.frame hrolled.moved (fun a ha => ha.resolve_right (data_zero a)) fun _ ha => ha).2
    refine ⟨-1, s', hrun, hsame, Or.inr ⟨rfl, ?_, fun a ha => (hrolled.moved.conserve a).2 (Or.inl ha)⟩⟩
    intro w hw
    have := hrolled.map w hw
    rwa [unmapped_of_not (by omega)] at this
  · have hsame := (hp.frame hext.moved (fun _ ha => ha) fun _ ha => Or.inl ha).2
    have hfresh : ∀ w, w < pagesOf sz → addr (s'.map new w) ∈ s.free := fun w hw =>
      hext.fresh _ ⟨w, Nat.zero_le w, by omega, rfl⟩
    refine ⟨0, s', hrun, hsame, Or.inl ⟨rfl, ?_, ?_⟩⟩
    · intro w hw
      obtain ⟨hpage, hflags⟩ := hext.new w (Nat.zero_le w) (by omega)
      rw [pteFlags_or_valid (hp.leaf w hw).1] at hflags
      exact ⟨hflags, hpage, hfresh w hw⟩
    · intro w w' hw hw'
      constructor
      · intro heq
        rw [hsame.map] at heq
        exact (hp.used w' hw').1 (heq ▸ hfresh w hw)
      · exact hext.pages.inj w w' (Nat.zero_le w) (by omega) (Nat.zero_le w') (by omega)

theorem exists_parent : ∃ s : Phys, s.Ok ∧ s.Tables 0x80003000 ∧ Parent s 0x80001000 0x80003000 1 ∧
    ¬ Has (s.map 0x80003000 0) PTE_V := by
  obtain ⟨s, hext⟩ := exists_onePage
  have hspace := hext.space blank_space (by decide)
  -- the other table is still empty
  have hroot : ∀ a, blank.Table 0x80001000 a → a = 0x80001000 := (map_empty rfl).2.1
  have hother : (0x80003000 : Nat) ∉ blank.free ∧ ¬ blank.Table 0x80001000 0x80003000 :=
    ⟨by decide, fun h => absurd (hroot _ h) (by decide)⟩
  have hzero : s.page 0x80003000 = fun _ => 0 := hext.moved.frame _ hother.1 hother.2
  obtain ⟨-, hnew, hmap⟩ := map_empty hzero
  have hout := hext.moved.outside hother.1 hother.2
  rw [not_or] at hout
  have hram : s.Ram 0x80003000 := hext.moved.ram.2 (by unfold Phys.Ram; decide)
  refine ⟨s, hext.moved.ok, tables_empty hzero hout.1 hram, ⟨hspace.tables, ?_, ?_, ?_⟩, ?_⟩
  · intro a ha ha'
    rw [hnew a ha'] at ha
    exact hout.2.1 ha
  · intro w hw
    exact hspace.pages.leaf w (Nat.zero_le w) (by omega)
  · intro w hw
    have hdata : s.Data 0x80001000 0 1 (addr (s.map 0x80001000 w)) :=
      ⟨w, Nat.zero_le w, by omega, rfl⟩
    refine ⟨(hspace.pages.own _ hdata).2.1, fun h => ?_⟩
    rw [hnew _ h] at hdata
    exact hout.2.2 hdata
  · rw [hmap]
    exact not_has_zero _

theorem uvmcopy_copies_one : ∃ s, Leaf (s.map 0x80001000 0) ∧
    ∃ ret s', uvmcopy 0x80001000 0x80003000 1 s = .ok ret s' ∧ Unchanged s s' 0x80001000 1 := by
  obtain ⟨s, hok, hnew, hp, hempty⟩ := exists_parent
  obtain ⟨ret, s', hrun, hsame, -⟩ := @uvmcopy_copies s 0x80001000 0x80003000 1 hok hnew hp (by decide) fun w hw => by
    rwa [show w = 0 from Nat.lt_one_iff.1 hw]
  exact ⟨s, hp.leaf 0 (by decide), ret, s', hrun, hsame⟩

end Copy

end Xv6
