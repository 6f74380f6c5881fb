import Xv6.Vm.Map

/-! A page table refines a map from virtual pages to entries. It is built from an empty table by calls of `mappages`,
`uvmunmap` and `walk`, between which other code may run. No page of the tree is ever on the free list, so that
`kalloc` gives pages that are not in the tree. What the calls stored is recorded beside them, and `walk`
without `alloc` finds it. -/

namespace Xv6

open Lib Pte Radix Option

/-! ### `uvmunmap` that returns -/

section Unmap

variable {s s' : Phys} {r v n : Nat} {doFree : Bool}

/-- Where `uvmunmap` goes on, the page was mapped, and it is free if it was to be freed. -/
theorem uvmunmapFrom_ok (hv : v < VPAGES) (h : uvmunmapFrom r doFree (n + 1) (v * PGSIZE) s = .ok () s') :
    Leaf (s.map r v) ∧ (doFree = true → s.Ram (addr (s.map r v))) ∧
      ∃ s₁, uvmunmapFrom r doFree n ((v + 1) * PGSIZE) s₁ = .ok () s' ∧ (∀ a ∈ s.free, a ∈ s₁.free) ∧
        (doFree = true → addr (s.map r v) ∈ s₁.free) := by
  rw [uvmunmapFrom, Run.bind_ok (walk_false (page_lt hv)), page_div] at h
  cases ht : s.leaf r v with
  | none =>
    rw [ht] at h
    cases h
  | some t =>
    rw [ht, map_some] at h
    dsimp only at h
    rw [Run.bind_ok (show load (t, v % 512) s = .ok (s.map r v) s by rw [map_of_leaf ht]; rfl)] at h
    by_cases hvalid : Has (s.map r v) PTE_V
    · rw [if_neg (not_not.2 hvalid)] at h
      by_cases hflags : pteFlags (s.map r v) = PTE_V
      · rw [if_pos hflags] at h
        cases h
      · rw [if_neg hflags] at h
        refine ⟨⟨hvalid, hflags⟩, ?_⟩
        rw [show (v + 1) * PGSIZE = v * PGSIZE + PGSIZE by rw [Nat.add_mul, Nat.one_mul]]
        cases doFree with
        | false => exact ⟨(fun h => by cases h), _, h, fun a ha => ha, fun h => by cases h⟩
        | true =>
          rw [if_pos rfl] at h
          obtain ⟨_, s₁, hkfree, hrest⟩ := Run.bind_eq_ok.1 h
          change kfree (addr (s.map r v)) s = _ at hkfree
          unfold kfree at hkfree
          split at hkfree
          · cases hkfree
          · next hram =>
              cases hkfree
              refine ⟨fun _ => ?_, _, hrest, fun a ha => List.mem_cons_of_mem _ ha, fun _ => List.mem_cons_self ..⟩
              unfold Phys.Ram
              omega
    · rw [if_pos hvalid] at h
      cases h

theorem free_uvmunmapFrom : ∀ n (s : Phys) v, v + n ≤ VPAGES → uvmunmapFrom r doFree n (v * PGSIZE) s = .ok () s' →
    ∀ a ∈ s.free, a ∈ s'.free := by
  intro n
  induction n with
  | zero =>
    intro s v _ h a ha
    cases h
    exact ha
  | succ n ih =>
    intro s v hv h a ha
    obtain ⟨-, -, s₁, hrest, hfree, -⟩ := uvmunmapFrom_ok (by omega) h
    exact ih s₁ (v + 1) (by omega) hrest a (hfree a ha)

/-- `uvmunmap` that frees no table clears the entries. -/
theorem map_uvmunmapFrom : ∀ n (s : Phys) v, s.Tables r → v + n ≤ VPAGES →
    uvmunmapFrom r doFree n (v * PGSIZE) s = .ok () s' → (∀ a, s.Table r a → a ∉ s'.free) →
    s'.Tables r ∧ ∀ w, w < VPAGES → s'.map r w = unmapped (s.map r) v n w := by
  intro n
  induction n with
  | zero =>
    intro s v ht _ h _
    cases h
    refine ⟨ht, fun w _ => ?_⟩
    rw [unmapped, if_neg (by omega)]
  | succ n ih =>
    intro s v ht hv h htables
    obtain ⟨hleaf, hram, s₁, hrest, -, hfreed⟩ := uvmunmapFrom_ok (by omega) h
    have hnot : doFree = true → ¬ s.Table r (addr (s.map r v)) := fun hdo htable =>
      htables _ htable (free_uvmunmapFrom n s₁ (v + 1) (by omega) hrest _ (hfreed hdo))
    obtain ⟨s₂, hrun, ht₂, htable, -, -, -, hmap⟩ :=
      uvmunmapFrom_succ doFree (n := n) ht (by omega) hleaf fun hdo => ⟨hram hdo, hnot hdo⟩
    rw [hrun] at h
    obtain ⟨ht', hmap'⟩ := ih s₂ (v + 1) ht₂ (by omega) h fun a ha => htables a ((htable a).1 ha)
    refine ⟨ht', fun w hw => ?_⟩
    rw [hmap' w hw, unmapped_cons (hmap w hw)]

end Unmap

/-! ### Calls -/

/-- A call on a page table, with what it returned. -/
inductive VmCall
  | mappages (va size pa : Nat) (perm : BitVec 64) (ret : Int)
  | uvmunmap (va npages : Nat) (doFree : Bool)
  | walk (va : Nat) (ret : Option PtePtr)

namespace VmCall

/-- The call is made with addresses below `MAXVA`, and it returns. -/
def Returns (r : Nat) (s s' : Phys) : VmCall → Prop
  | mappages va size pa perm ret => va < MAXVA ∧ pa < 2 ^ 64 ∧ Xv6.mappages r va size pa perm s = .ok ret s'
  | uvmunmap va npages doFree => va + npages * PGSIZE ≤ MAXVA ∧ Xv6.uvmunmap r va npages doFree s = .ok () s'
  | walk va ret => va < MAXVA ∧ Xv6.walk r va true s = .ok ret s'

/-- What the call stores for virtual pages, where 0 stands for no entry: `mappages` an entry for the pages from that
of `va` on, to that of `va + size - 1` if it returns 0; `uvmunmap` no entry for its pages; `walk` nothing. -/
def Stores (m m' : Nat → BitVec 64) : VmCall → Prop
  | mappages va size pa perm ret => ∃ n, m' = mapped m (va / PGSIZE) n pa perm ∧
      (ret = 0 ∧ (0 < size → 0 < n ∧ (va / PGSIZE + n - 1) * PGSIZE = pgRoundDown ((va + size - 1) % 2 ^ 64)) ∨ ret = -1)
  | uvmunmap va npages _ => va % PGSIZE = 0 ∧ m' = unmapped m (va / PGSIZE) npages
  | walk _ _ => m' = m

/-- What was last stored for each page, after the calls of the list from its end on. -/
def Stored : List VmCall → (Nat → BitVec 64) → Prop
  | [], m => m = fun _ => 0#64
  | c :: calls, m' => ∃ m, Stored calls m ∧ c.Stores m m'

end VmCall

/-- The table at `r` was empty, and these calls were made on it, the last one first. No page of the tree was free when
a call was made or when it had returned. -/
inductive Built (r : Nat) : List VmCall → Phys → Prop
  | empty {s : Phys} : s.Ram r → (s.page r = fun _ => 0) → Built r [] s
  | elsewhere {calls : List VmCall} {s s' : Phys} : Built r calls s → s'.kend = s.kend →
      (∀ a, s.Table r a → s'.page a = s.page a) → Built r calls s'
  | call {calls : List VmCall} {s s' : Phys} (c : VmCall) : Built r calls s → s.Ok → (∀ a, s.Table r a → a ∉ s.free) →
      c.Returns r s s' → (∀ a, s.Table r a → a ∉ s'.free) → Built r (c :: calls) s'

section Refine

variable {s s' : Phys} {r : Nat} {c : VmCall} {calls : List VmCall}

/-- A call does to the map of the table what it stores. -/
theorem VmCall.Returns.stores (hok : s.Ok) (ht : s.Tables r) (h : c.Returns r s s')
    (hfree : ∀ a, s.Table r a → a ∉ s'.free) {m : Nat → BitVec 64} (hm : ∀ w, w < VPAGES → s.map r w = m w) :
    Tree s'.next 2 r ∧ (∀ a, s'.Table r a → s'.Ram a) ∧ ∃ m', c.Stores m m' ∧ ∀ w, w < VPAGES → s'.map r w = m' w := by
  cases c with
  | mappages va size pa perm ret =>
    obtain ⟨hva, hpa, hrun⟩ := h
    obtain ⟨htables, -, -, n, -, hmap, hret⟩ := (mappages_spec hok ht hpa va size perm).of_ok hrun
    refine ⟨htables.tree, htables.ram, _, ⟨n, rfl, ?_⟩, ?_⟩
    · refine hret.imp ?_ fun h => h.1
      rintro ⟨h0, hn, hlast⟩
      refine ⟨h0, fun hsize => ⟨hn, ?_⟩⟩
      rw [← hlast, show va + size + (2 ^ 64 - 1) = va + size - 1 + 2 ^ 64 by omega, Nat.add_mod_right]
    · intro w hw
      rw [hmap w hw]
      unfold mapped
      rw [hm w hw]
  | uvmunmap va npages doFree =>
    obtain ⟨hva, hrun⟩ := h
    have halign : va % PGSIZE = 0 := by
      by_contra hne
      unfold Xv6.uvmunmap at hrun
      rw [if_pos hne] at hrun
      cases hrun
    have haddr : va / PGSIZE * PGSIZE = va := by
      unfold PGSIZE at *
      omega
    have hle : va / PGSIZE + npages ≤ VPAGES := by
      unfold MAXVA PGSIZE at *
      unfold VPAGES
      omega
    rw [← haddr, uvmunmap_eq doFree hle] at hrun
    obtain ⟨ht', hmap⟩ := map_uvmunmapFrom npages s (va / PGSIZE) ht hle hrun hfree
    refine ⟨ht'.tree, ht'.ram, _, ⟨halign, rfl⟩, ?_⟩
    intro w hw
    rw [hmap w hw]
    unfold unmapped
    rw [hm w hw]
  | walk va ret =>
    obtain ⟨hva, hrun⟩ := h
    obtain ⟨o, s₁, hrun', hgrew, -⟩ := walk_true hok ht hva
    obtain ⟨rfl, rfl⟩ := Outcome.ok.inj (hrun.symm.trans hrun')
    refine ⟨hgrew.tables.tree, hgrew.tables.ram, m, rfl, fun w hw => ?_⟩
    rw [hgrew.map, hm w hw]

/-- After any calls, the map of the table is what they stored. -/
theorem Built.stored (h : Built r calls s) : Tree s.next 2 r ∧ (∀ a, s.Table r a → s.Ram a) ∧
    ∃ m, VmCall.Stored calls m ∧ ∀ w, w < VPAGES → s.map r w = m w := by
  induction h with
  | empty hram hzero =>
    obtain ⟨htree, hroot, hmap⟩ := map_empty hzero
    refine ⟨htree, ?_, _, rfl, fun w _ => hmap w⟩
    intro a ha
    rw [hroot a ha]
    exact hram
  | elsewhere _ hkend hpage ih =>
    obtain ⟨htree, hram, m, hstored, hmap⟩ := ih
    refine ⟨htree.congr (Phys.next_of_tables hpage), ?_, m, hstored, ?_⟩
    · intro a ha
      unfold Phys.Ram
      rw [hkend]
      exact hram a ((Phys.table_congr hpage a).1 ha)
    · intro w hw
      rw [Phys.map_congr hpage, hmap w hw]
  | call c _ hok hfree hreturns hfree' ih =>
    obtain ⟨htree, hram, m, hstored, hmap⟩ := ih
    obtain ⟨htree', hram', m', hstores, hmap'⟩ := hreturns.stores hok ⟨htree, hfree, hram⟩ hfree' hmap
    exact ⟨htree', hram', m', ⟨m, hstored, hstores⟩, hmap'⟩

/-- **Page tables refine a map.** `walk` without `alloc` finds the entry that was last stored for the page, or there is
none; two pages have no entry in common. -/
theorem page_table_refines_map (h : Built r calls s) :
    (∃ m, VmCall.Stored calls m ∧ ∀ va, va < MAXVA → ∃ o, walk r va false s = .ok o s ∧
      match o with
      | some slot => s.pte slot = m (va / PGSIZE)
      | none => m (va / PGSIZE) = 0#64) ∧
    ∀ va va' slot, va < MAXVA → va' < MAXVA → walk r va false s = .ok (some slot) s →
      walk r va' false s = .ok (some slot) s → va / PGSIZE = va' / PGSIZE := by
  obtain ⟨htree, -, m, hstored, hmap⟩ := h.stored
  constructor
  · refine ⟨m, hstored, fun va hva => ⟨_, walk_false hva, ?_⟩⟩
    have hm := hmap (va / PGSIZE) (vpage_lt hva)
    cases ht : s.leaf r (va / PGSIZE) with
    | none =>
        unfold Phys.map at hm
        rw [ht] at hm
        exact hm.symm
    | some t =>
        rw [map_of_leaf ht] at hm
        exact hm
  · intro va va' slot hva hva' hwalk hwalk'
    rw [walk_false hva] at hwalk
    rw [walk_false hva'] at hwalk'
    obtain ⟨t, ht, rfl⟩ := map_eq_some_iff.1 (Outcome.ok.inj hwalk).1
    obtain ⟨t', ht', hslot⟩ := map_eq_some_iff.1 (Outcome.ok.inj hwalk').1
    obtain ⟨rfl, hlow⟩ := Prod.mk.inj hslot
    exact eq_of_path (vpage_lt hva) (vpage_lt hva') (htree _ _ _ (Nat.le_refl 2) (Nat.le_refl 2) ht ht') hlow.symm

/-- A page is mapped in an empty table, and found. -/
theorem page_table_refines_map_first : ∃ s, Built 0x80001000 [.mappages 0 PGSIZE 0x80003000 PTE_R 0] s ∧
    ∃ m, VmCall.Stored [.mappages 0 PGSIZE 0x80003000 PTE_R 0] m ∧ ∃ slot,
      walk 0x80001000 0 false s = .ok (some slot) s ∧ s.pte slot = m 0 ∧ m 0 = entry 0x80003000 PTE_R := by
  have hpass : (mappages 0x80001000 0 PGSIZE 0x80003000 PTE_R blank).passes (fun ret s => ret == 0 &&
      (walk 0x80001000 0 false s).passes fun o _ => o.any fun slot => s.pte slot == entry 0x80003000 PTE_R) = true := by
    decide +kernel
  obtain ⟨ret, s, hrun, hfound⟩ := Outcome.exists_of_passes hpass
  obtain ⟨hzero, hfound⟩ := Bool.and_eq_true_iff.1 hfound
  cases eq_of_beq hzero
  obtain ⟨-, hroot, hmap⟩ := map_empty (s := blank) (r := 0x80001000) rfl
  obtain ⟨_, _, hrun', -, hmoved, -⟩ := mappages_one blank_ok blank_tables (show 0x80003000 < 2 ^ 64 by decide)
    PTE_R (show 0 < VPAGES by decide) (by rw [hmap]; exact not_has_zero _)
  rw [Nat.zero_mul, hrun] at hrun'
  cases hrun'
  have hbuilt : Built 0x80001000 [.mappages 0 PGSIZE 0x80003000 PTE_R 0] s := by
    refine .call _ (.empty (blank_tables.ram _ node_root) rfl) blank_ok blank_tables.apart
      ⟨by decide, by decide, hrun⟩ ?_
    intro a ha
    rw [hroot a ha]
    exact hmoved.apart _ node_root
  obtain ⟨⟨m, hstored, hwalk⟩, -⟩ := page_table_refines_map hbuilt
  obtain ⟨o, ho, hslot⟩ := hwalk 0 (by decide)
  rw [ho] at hfound
  cases o with
  | none => cases hfound
  | some slot => exact ⟨s, hbuilt, m, hstored, slot, ho, hslot, hslot.symm.trans (eq_of_beq hfound)⟩

end Refine

end Xv6
