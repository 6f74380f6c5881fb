import Xv6.Vm.Code

/-! A page table as a map. The tables are a tree of pages that are not free; the entry of a virtual page is in a table
of the last level. `walk` finds it, and with `alloc` it adds the tables on the way, which changes no entry. What a
call does to memory is said once: it takes pages from the free list and gives pages back, and it
changes no page that was neither free nor its own. -/

namespace Xv6

open Lib Pte Radix

/-- The number of virtual pages below `MAXVA`. -/
def VPAGES : Nat := 2 ^ 26

theorem vpage_lt {va : Nat} (h : va < MAXVA) : va / PGSIZE < VPAGES := by
  unfold MAXVA at h
  unfold PGSIZE VPAGES
  omega

/-- The indices on the way to the entry of virtual page `v`. -/
def path (v : Nat) : List Nat := [v / 512 ^ 2 % 512, v / 512 % 512]

theorem eq_of_path {v v' : Nat} (hv : v < VPAGES) (hv' : v' < VPAGES) (hpath : path v = path v')
    (hlow : v % 512 = v' % 512) : v = v' := by
  unfold VPAGES at hv hv'
  unfold path at hpath
  simp only [List.cons.injEq, and_true] at hpath
  omega

namespace Phys

/-- The table with the entry of virtual page `v`. -/
def leaf (s : Phys) (r v : Nat) : Option Nat := follow s.next r (path v)

/-- The entry of virtual page `v` in the page table at `r`, and 0 where there is no table for it. -/
def map (s : Phys) (r v : Nat) : BitVec 64 :=
  match s.leaf r v with
  | none => 0#64
  | some t => s.pte (t, v % 512)

abbrev Table (s : Phys) (r a : Nat) : Prop := Node s.next 2 r a

/-- The tables are a tree of pages that are in use. -/
structure Tables (s : Phys) (r : Nat) : Prop where
  tree : Tree s.next 2 r
  apart : ∀ a, s.Table r a → a ∉ s.free
  ram : ∀ a, s.Table r a → s.Ram a

/-- From `s` to `s'` the owner of the pages `A` took and gave pages, so that it has `A'`. No other page that is in use
is changed. -/
structure Moved (s s' : Phys) (A A' : Nat → Prop) : Prop where
  ok : s'.Ok
  kend : s'.kend = s.kend
  conserve : ∀ a, a ∈ s'.free ∨ A' a ↔ a ∈ s.free ∨ A a
  apart : ∀ a, A' a → a ∉ s'.free
  frame : ∀ a, a ∉ s.free → ¬ A a → s'.page a = s.page a

namespace Moved

variable {s s' s'' : Phys} {A A' A'' B : Nat → Prop} {a : Nat}

theorem refl (hok : s.Ok) (h : ∀ a, A a → a ∉ s.free) : Moved s s A A := ⟨hok, rfl, fun _ => Iff.rfl, h, fun _ _ _ => rfl⟩

variable (h : Moved s s' A A')
include h

theorem outside (hfree : a ∉ s.free) (hA : ¬ A a) : a ∉ s'.free ∧ ¬ A' a := by
  have := mt (h.conserve a).1 (not_or.2 ⟨hfree, hA⟩)
  exact not_or.1 this

theorem trans (h' : Moved s' s'' A' A'') : Moved s s'' A A'' where
  ok := h'.ok
  kend := h'.kend.trans h.kend
  conserve a := (h'.conserve a).trans (h.conserve a)
  apart := h'.apart
  frame a hfree hA := by
    obtain ⟨hfree', hA'⟩ := h.outside hfree hA
    rw [h'.frame a hfree' hA', h.frame a hfree hA]

/-- The owner has further pages, which are left alone. -/
theorem add (hB : ∀ a, B a → a ∉ s.free ∧ ¬ A a) : Moved s s' (fun a => A a ∨ B a) (fun a => A' a ∨ B a) where
  ok := h.ok
  kend := h.kend
  conserve a := by
    rw [← or_assoc, ← or_assoc, h.conserve a]
  apart a ha := by
    rcases ha with ha | ha
    · exact h.apart a ha
    · exact (h.outside (hB a ha).1 (hB a ha).2).1
  frame a hfree hA := h.frame a hfree fun hA' => hA (Or.inl hA')

theorem congr {C C' : Nat → Prop} (hA : ∀ a, C a ↔ A a) (hA' : ∀ a, C' a ↔ A' a) : Moved s s' C C' := by
  obtain rfl : C = A := funext fun a => propext (hA a)
  obtain rfl : C' = A' := funext fun a => propext (hA' a)
  exact h

theorem ram : s'.Ram a ↔ s.Ram a := by
  unfold Ram
  rw [h.kend]

end Moved

section Maps

variable {s s' : Phys} {r v : Nat}

theorem leaf_table {t : Nat} (h : s.leaf r v = some t) : s.Table r t := ⟨path v, Nat.le_refl 2, h⟩

section

variable (h : ∀ a, s.Table r a → s'.page a = s.page a)
include h

theorem next_of_tables (q : List Nat) (m : Nat) (hq : q.length < 2)
    (hm : follow s.next r q = some m) : s'.next m = s.next m :=
  next_congr (h m ⟨q, Nat.le_of_lt hq, hm⟩)

theorem table_congr (a : Nat) : s'.Table r a ↔ s.Table r a :=
  node_congr (next_of_tables h)

theorem map_congr (v : Nat) : s'.map r v = s.map r v := by
  have hleaf : s'.leaf r v = s.leaf r v := follow_congr (next_of_tables h) (Nat.le_refl 2)
  unfold map
  rw [hleaf]
  cases ht : s.leaf r v with
  | none => rfl
  | some t =>
    exact pte_congr (h t (leaf_table ht))

end

/-- None of the tables is changed or freed. -/
theorem Tables.keep (ht : s.Tables r) (hpage : ∀ a, s.Table r a → s'.page a = s.page a)
    (hfree : ∀ a, s.Table r a → a ∉ s'.free) (hkend : s'.kend = s.kend) :
    s'.Tables r ∧ (∀ v, s'.map r v = s.map r v) ∧ ∀ a, s'.Table r a ↔ s.Table r a := by
  refine ⟨⟨ht.tree.congr (next_of_tables hpage), ?_, ?_⟩, map_congr hpage, table_congr hpage⟩
  · intro a ha
    exact hfree a ((table_congr hpage a).1 ha)
  · intro a ha
    unfold Ram
    rw [hkend]
    exact ht.ram a ((table_congr hpage a).1 ha)

/-- A page table that is out of reach of what happens. -/
theorem Tables.frame {A A' : Nat → Prop} (ht : s.Tables r) (h : Moved s s' A A') (hA : ∀ a, s.Table r a → ¬ A a) :
    s'.Tables r ∧ (∀ v, s'.map r v = s.map r v) ∧ ∀ a, s'.Table r a ↔ s.Table r a :=
  ht.keep (fun a ha => h.frame a (ht.apart a ha) (hA a ha)) (fun a ha => (h.outside (ht.apart a ha) (hA a ha)).1) h.kend

/-- An entry of the last level is stored. -/
theorem Tables.setPte {t : Nat} {e : BitVec 64} (ht : s.Tables r) (hv : v < VPAGES) (hleaf : s.leaf r v = some t) :
    (s.setPte (t, v % 512) e).Tables r ∧ (∀ a, (s.setPte (t, v % 512) e).Table r a ↔ s.Table r a) ∧
      ∀ w, w < VPAGES → (s.setPte (t, v % 512) e).map r w = Function.update (s.map r) v e w := by
  have hsame : ∀ q m, q.length < 2 → follow s.next r q = some m → (s.setPte (t, v % 512) e).next m = s.next m := by
    intro q m hq hm
    apply next_congr
    apply page_setPte_of_ne
    rintro rfl
    have := ht.tree q (path v) m (Nat.le_of_lt hq) (Nat.le_refl 2) hm hleaf
    rw [this] at hq
    exact absurd hq (Nat.lt_irrefl 2)
  refine ⟨⟨ht.tree.congr hsame, ?_, ?_⟩, fun a => node_congr hsame, ?_⟩
  · intro a ha
    exact ht.apart a ((node_congr hsame).1 ha)
  · intro a ha
    exact ht.ram a ((node_congr hsame).1 ha)
  · intro w hw
    have hw' : (s.setPte (t, v % 512) e).leaf r w = s.leaf r w := follow_congr hsame (Nat.le_refl 2)
    by_cases hwv : w = v
    · subst hwv
      rw [Function.update_self]
      unfold map
      rw [hw', hleaf]
      exact pte_setPte_self (Nat.mod_lt _ (by decide))
    · rw [Function.update_of_ne hwv]
      unfold map
      rw [hw']
      cases ht' : s.leaf r w with
      | none => rfl
      | some t' =>
        apply pte_setPte_of_ne
        intro hslot
        obtain ⟨rfl, hlow⟩ := Prod.mk.inj hslot
        exact hwv (eq_of_path hw hv (ht.tree _ _ _ (Nat.le_refl 2) (Nat.le_refl 2) ht' hleaf) hlow)

end Maps

end Phys

/-! ### `walk` without `alloc` -/

section Walk

variable {s s' : Phys} {r va v : Nat}

theorem walkFrom_false (va : Nat) : ∀ level t, walkFrom va false level t s =
    .ok ((follow s.next t ((List.range level).reverse.map fun l => px (l + 1) va)).map fun t => (t, px 0 va)) s := by
  intro level
  induction level with
  | zero => intro t; rfl
  | succ level ih =>
    intro t
    rw [List.range_succ, List.reverse_append, List.reverse_singleton, List.singleton_append, List.map_cons, follow]
    show (if Has (s.pte (t, px (level + 1) va)) PTE_V then walkFrom va false level (addr (s.pte (t, px (level + 1) va)))
      else pure none) s = _
    unfold Phys.next
    split
    · exact ih _
    · rfl

theorem path_eq (va : Nat) : [px 2 va, px 1 va] = path (va / PGSIZE) := by
  rw [px_eq, px_eq, path, Nat.pow_one]

/-- `walk` without `alloc` reads the page table. -/
theorem walk_false (h : va < MAXVA) :
    walk r va false s = .ok ((s.leaf r (va / PGSIZE)).map fun t => (t, va / PGSIZE % 512)) s := by
  unfold walk
  rw [if_neg (Nat.not_le_of_lt h), walkFrom_false]
  have hpx : px 0 va = va / PGSIZE % 512 := by rw [px_eq, Nat.pow_zero, Nat.div_one]
  show Outcome.ok (((follow s.next r [px 2 va, px 1 va])).map _) s = _
  rw [path_eq, hpx]
  rfl

theorem map_of_leaf {t : Nat} (h : s.leaf r v = some t) : s.map r v = s.pte (t, v % 512) := by
  unfold Phys.map
  rw [h]

/-- `walk` finds a mapped page. -/
theorem walk_mapped (h : va < MAXVA) (hmap : Has (s.map r (va / PGSIZE)) PTE_V) :
    ∃ t, s.leaf r (va / PGSIZE) = some t ∧ walk r va false s = .ok (some (t, va / PGSIZE % 512)) s ∧
      s.pte (t, va / PGSIZE % 512) = s.map r (va / PGSIZE) := by
  cases ht : s.leaf r (va / PGSIZE) with
  | none =>
    unfold Phys.map at hmap
    rw [ht] at hmap
    exact absurd hmap (not_has_zero PTE_V)
  | some t =>
    refine ⟨t, rfl, ?_, (map_of_leaf ht).symm⟩
    rw [walk_false h, ht, Option.map_some]

end Walk

/-! ### `walk` with `alloc` -/

/-- The page table got further tables, and nothing else happened. -/
structure Phys.Grew (s s' : Phys) (r : Nat) : Prop where
  tables : s'.Tables r
  moved : Phys.Moved s s' (s.Table r) (s'.Table r)
  grow : ∀ a, s.Table r a → s'.Table r a
  map : ∀ v, s'.map r v = s.map r v

section Alloc

variable {s s' s'' : Phys} {r va v : Nat}

theorem Phys.Grew.refl (hok : s.Ok) (ht : s.Tables r) : s.Grew s r :=
  ⟨ht, .refl hok ht.apart, fun _ ha => ha, fun _ => rfl⟩

theorem Phys.Grew.trans (h : s.Grew s' r) (h' : s'.Grew s'' r) : s.Grew s'' r :=
  ⟨h'.tables, h.moved.trans h'.moved, fun a ha => h'.grow a (h.grow a ha), fun v => (h'.map v).trans (h.map v)⟩

theorem link_eq (c : Nat) : pa2pte (BitVec.ofNat 64 c) ||| PTE_V = entry c 0#64 := by
  unfold entry
  rw [BitVec.or_zero]

/-- The state in which a page was taken and filled. -/
def Phys.taken (s : Phys) (a : Nat) (l : List Nat) (b : Bytes PGSIZE) : Phys :=
  ({ s with free := l }.setPage a fun _ => 5).setPage a b

theorem Phys.page_taken_of_ne {a x : Nat} {l : List Nat} {b : Bytes PGSIZE} (h : x ≠ a) :
    (s.taken a l b).page x = s.page x :=
  (page_setPage_of_ne h).trans (page_setPage_of_ne h)

theorem Phys.Moved.taken {a : Nat} {l : List Nat} (hok : s.Ok) (hfree : s.free = a :: l) (b : Bytes PGSIZE) :
    Moved s (s.taken a l b) (fun _ => False) (· = a) := by
  have hnodup := hok.nodup
  rw [hfree, List.nodup_cons] at hnodup
  refine ⟨⟨hnodup.2, fun x hx => hok.ram x ?_, hok.kend⟩, rfl, fun x => ?_, ?_, fun x hx _ => page_taken_of_ne ?_⟩
  · rw [hfree]
    exact List.mem_cons_of_mem a hx
  · rw [hfree, List.mem_cons, or_false, or_comm]
    rfl
  · rintro x rfl
    exact hnodup.1
  · rintro rfl
    exact hx (by rw [hfree]; exact List.mem_cons_self ..)

theorem grew_link {p : List Nat} {m i c : Nat} {l : List Nat} (hok : s.Ok) (ht : s.Tables r) (hp : p.length < 2)
    (hm : follow s.next r p = some m) (hi : i < 512) (hinvalid : ¬ Has (s.pte (m, i)) PTE_V) (hfree : s.free = c :: l)
    (hs' : s' = (s.taken c l fun _ => 0).setPte (m, i) (entry c 0#64)) :
    s.Grew s' r ∧ follow s'.next r (p ++ [i]) = some c ∧ ∀ j, s'.next c j = none := by
  have htake := Phys.Moved.taken hok hfree fun _ => 0
  have hmem : c ∈ s.free := by
    rw [hfree]
    exact List.mem_cons_self ..
  have hc := hok.ram c hmem
  have hnew : ¬ s.Table r c := fun h => ht.apart c h hmem
  have hmc : m ≠ c := by
    rintro rfl
    exact hnew ⟨p, Nat.le_of_lt hp, hm⟩
  have hzero : s'.page c = fun _ => 0 := by
    rw [hs', Phys.page_setPte_of_ne (Ne.symm hmc), Phys.taken, Phys.page_setPage_self]
  have hpte : ∀ a j, a ≠ c → (a, j) ≠ (m, i) → s'.pte (a, j) = s.pte (a, j) := by
    intro a j hac hne
    rw [hs', Phys.pte_setPte_of_ne hne]
    exact Phys.pte_congr (Phys.page_taken_of_ne hac)
  have hself : s'.pte (m, i) = entry c 0#64 := by
    rw [hs']
    exact Phys.pte_setPte_self hi
  have hlink : Linked s.next s'.next 2 r p m i c := by
    refine ⟨ht.tree, hp, hm, if_neg hinvalid, hnew, ?_, fun j => Phys.next_zero hzero, ?_⟩
    · unfold Phys.next
      rw [hself, if_pos entry_valid, addr_entry hc.1 hc.lt (by decide)]
    · intro a j ha hne
      have hac : a ≠ c := by
        rintro rfl
        exact hnew ha
      unfold Phys.next
      rw [hpte a j hac hne]
  have htable : ∀ a, s'.Table r a ↔ s.Table r a ∨ a = c := fun a => hlink.node_iff
  have hfree' : s'.free = (s.taken c l fun _ => 0).free := by rw [hs']; rfl
  have hkend : s'.kend = s.kend := by rw [hs']; rfl
  have hapart : ∀ a, s'.Table r a → a ∉ s'.free := by
    intro a ha
    rw [hfree']
    rcases (htable a).1 ha with ha | rfl
    · exact (htake.outside (ht.apart a ha) not_false).1
    · exact htake.apart a rfl
  have hok' : s'.Ok := by
    rw [hs']
    exact ⟨htake.ok.nodup, htake.ok.ram, htake.ok.kend⟩
  refine ⟨⟨⟨hlink.tree', hapart, ?_⟩, ⟨hok', hkend, ?_, hapart, ?_⟩, fun a ha => (htable a).2 (Or.inl ha), ?_⟩, ?_,
    fun j => Phys.next_zero hzero⟩
  · intro a ha
    unfold Phys.Ram
    rw [hkend]
    rcases (htable a).1 ha with ha | rfl
    · exact ht.ram a ha
    · exact hc
  · intro a
    have := htake.conserve a
    rw [hfree', htable]
    tauto
  · intro a hnot hA
    have hne : a ≠ m := by
      rintro rfl
      exact hA ⟨p, Nat.le_of_lt hp, hm⟩
    rw [hs', Phys.page_setPte_of_ne hne, htake.frame a hnot not_false]
  · intro v
    unfold Phys.map Phys.leaf
    rw [hlink.follow_eq (show (path v).length ≤ 2 from Nat.le_refl 2)]
    by_cases hpath : path v = p ++ [i]
    · -- the table of the page is the new one, and it is empty
      have hnone : follow s.next r (path v) = none := by
        rw [hpath, follow_concat, hm]
        exact if_neg hinvalid
      rw [if_pos hpath, hnone]
      exact Phys.pte_zero hzero
    · rw [if_neg hpath]
      cases hleaf : follow s.next r (path v) with
      | none => rfl
      | some t =>
        refine hpte t _ ?_ ?_
        · rintro rfl
          exact hnew ⟨path v, Nat.le_refl 2, hleaf⟩
        · intro hslot
          obtain ⟨rfl, -⟩ := Prod.mk.inj hslot
          have hlen := ht.tree p (path v) _ (Nat.le_of_lt hp) (Nat.le_refl 2) hm hleaf
          rw [hlen] at hp
          exact absurd hp (Nat.lt_irrefl 2)
  · rw [hlink.follow_eq (by simpa [Nat.lt_succ_iff] using hp), if_pos rfl]

/-- Below an empty entry all the tables are new, so that it does not matter what `PTE2PA` is. -/
theorem walkFrom_true (va : Nat) : ∀ level (s : Phys) p t, s.Ok → s.Tables r → p.length + level = 2 →
    follow s.next r p = some t →
    ∃ o s', walkFrom va true level t s = .ok o s' ∧ s.Grew s' r ∧ (o = none → s'.free = []) ∧
      (∀ slot, o = some slot → slot.2 = px 0 va ∧
        follow s'.next r (p ++ (List.range level).reverse.map fun l => px (l + 1) va) = some slot.1) ∧
      (s.next t (px level va) = none → (o = none ↔ s.free.length < level) ∧
        ∀ m : Mmu, (∀ a, s.Ram a → m.mem a) → @walkFrom m va true level t s = .ok o s') := by
  intro level
  induction level with
  | zero =>
    intro s p t hok ht _ hp
    refine ⟨_, s, rfl, .refl hok ht, nofun, ?_, fun _ => ⟨by simp, fun _ _ => rfl⟩⟩
    intro slot hslot
    cases hslot
    exact ⟨rfl, by simpa using hp⟩
  | succ level ih =>
    intro s p t hok ht hlen hp
    have hindices : ∀ l : List Nat, p ++ (List.range (level + 1)).reverse.map (fun l => px (l + 1) va) =
        (p ++ [px (level + 1) va]) ++ (List.range level).reverse.map fun l => px (l + 1) va := by
      intro l
      rw [List.range_succ, List.reverse_append, List.reverse_singleton, List.singleton_append, List.map_cons,
        List.append_assoc, List.singleton_append]
    have hlen' : (p ++ [px (level + 1) va]).length + level = 2 := by
      rw [List.length_append, List.length_singleton]
      omega
    rw [hindices []]
    by_cases hvalid : Has (s.pte (t, px (level + 1) va)) PTE_V
    · have hp' : follow s.next r (p ++ [px (level + 1) va]) = some (addr (s.pte (t, px (level + 1) va))) := by
        rw [follow_concat, hp]
        exact if_pos hvalid
      obtain ⟨o, s', hrun, hgrew, hnone, hslot, -⟩ := ih s _ _ hok ht hlen' hp'
      refine ⟨o, s', ?_, hgrew, hnone, hslot, fun h => by simp [Phys.next, hvalid] at h⟩
      rw [← hrun]
      show (if _ then _ else _ : VmM (Option PtePtr)) s = _
      rw [if_pos hvalid]
      rfl
    · have hram : s.Ram t := ht.ram t ⟨p, by omega, hp⟩
      cases hfree : s.free with
      | nil =>
        have hnil : ∀ m : Mmu, (∀ a, s.Ram a → m.mem a) → @walkFrom m va true (level + 1) t s = .ok none s := by
          intro m hm
          rw [walkFrom, Run.bind_ok (load_ok (hm t hram)), if_neg hvalid, if_pos rfl,
            Run.bind_ok (show kalloc s = .ok 0 s by rw [kalloc, hfree])]
          rfl
        exact ⟨none, s, hnil _ fun _ _ => rfl, .refl hok ht, fun _ => hfree, nofun, fun _ => ⟨by simp, hnil⟩⟩
      | cons c l =>
        have hc : c ≠ 0 := (hok.ram c (by rw [hfree]; exact List.mem_cons_self ..)).pos hok
        obtain ⟨hgrew, hp', hempty⟩ := grew_link hok ht (by omega) hp (px_lt _ _) hvalid hfree rfl
        obtain ⟨o, s', hrun, hgrew', hnone, hslot, hnew⟩ := ih _ _ _ hgrew.moved.ok hgrew.tables hlen' hp'
        have hcons : ∀ m : Mmu, (∀ a, s.Ram a → m.mem a) → @walkFrom m va true (level + 1) t s =
            @walkFrom m va true level c ((s.taken c l fun _ => 0).setPte (t, px (level + 1) va) (entry c 0#64)) := by
          intro m hm
          rw [walkFrom, Run.bind_ok (load_ok (hm t hram)), if_neg hvalid, if_pos rfl,
            Run.bind_ok (show kalloc s = .ok c _ by rw [kalloc, hfree]), if_neg hc, link_eq]
          exact Run.bind_ok (store_ok (hm t hram) _)
        refine ⟨o, s', (hcons _ fun _ _ => rfl).trans hrun, hgrew.trans hgrew', hnone, hslot, fun _ => ⟨?_, ?_⟩⟩
        · rw [(hnew (hempty _)).1, List.length_cons, Nat.add_lt_add_iff_right]
          rfl
        · intro m hm
          exact (hcons m hm).trans ((hnew (hempty _)).2 m hm)

/-- `walk` with `alloc` gives the entry, or the free list is empty. -/
theorem walk_true (hok : s.Ok) (ht : s.Tables r) (h : va < MAXVA) :
    ∃ o s', walk r va true s = .ok o s' ∧ s.Grew s' r ∧ (o = none → s'.free = []) ∧
      (∀ slot, o = some slot → slot.2 = va / PGSIZE % 512 ∧ s'.leaf r (va / PGSIZE) = some slot.1) ∧
      (s.next r (px 2 va) = none → (o = none ↔ s.free.length < 2) ∧
        ∀ m : Mmu, (∀ a, s.Ram a → m.mem a) → @walk m r va true s = .ok o s') := by
  obtain ⟨o, s', hrun, hgrew, hnone, hslot, hnew⟩ := walkFrom_true va 2 s [] r hok ht rfl rfl
  unfold walk
  simp only [if_neg (Nat.not_le_of_lt h)]
  refine ⟨o, s', hrun, hgrew, hnone, fun slot ho => ?_, hnew⟩
  obtain ⟨hlow, hpath⟩ := hslot slot ho
  rw [px_eq, Nat.pow_zero, Nat.div_one] at hlow
  refine ⟨hlow, ?_⟩
  rw [← hpath, Phys.leaf, ← path_eq]
  rfl

end Alloc

end Xv6
