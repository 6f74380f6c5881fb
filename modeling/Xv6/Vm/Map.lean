import Xv6.Vm.Walk

/-! `mappages` and `uvmunmap` on the map of a page table. -/

namespace Xv6

open Lib Pte Radix Function Nat

/-! ### `mappages` -/

/-- The map with `n` pages from `v` on sent to the pages from `pa` on. -/
def mapped (m : Nat → BitVec 64) (v n pa : Nat) (perm : BitVec 64) (w : Nat) : BitVec 64 :=
  if v ≤ w ∧ w < v + n then entry ((pa + (w - v) * PGSIZE) % 2 ^ 64) perm else m w

/-- The map without `n` pages from `v` on. -/
def unmapped (m : Nat → BitVec 64) (v n : Nat) (w : Nat) : BitVec 64 := if v ≤ w ∧ w < v + n then 0#64 else m w

/-- What `mappages` leaves, from virtual page `v` on. -/
structure Maps (s : Phys) (r v pa last : Nat) (perm : BitVec 64) (ret : Int) (s' : Phys) : Prop where
  tables : s'.Tables r
  moved : Phys.Moved s s' (s.Table r) (s'.Table r)
  grow : ∀ a, s.Table r a → s'.Table r a
  result : ∃ n, v + n ≤ VPAGES ∧ (∀ w, w < VPAGES → s'.map r w = mapped (s.map r) v n pa perm w) ∧
    (ret = 0 ∧ 0 < n ∧ last = (v + n - 1) * PGSIZE ∨ ret = -1 ∧ s'.free = [] ∧ ∀ i < n, (v + i) * PGSIZE ≠ last)

section Mappages

variable {s s' : Phys} {r v n pa last : Nat} {perm : BitVec 64}

/-- The pages are there to be mapped: the last one is met in so many steps, and none is mapped already. -/
def Fits (s : Phys) (r v last k : Nat) : Prop :=
  ∃ n, n < k ∧ last = (v + n) * PGSIZE ∧ v + n < VPAGES ∧ ∀ w, v ≤ w → w ≤ v + n → ¬ Has (s.map r w) PTE_V

theorem page_div (v : Nat) : v * PGSIZE / PGSIZE = v := Nat.mul_div_cancel v (by decide)

theorem page_lt (hv : v < VPAGES) : v * PGSIZE < MAXVA := by
  unfold VPAGES at hv
  unfold PGSIZE MAXVA
  omega

theorem mapped_cons (m : Nat → BitVec 64) (v n pa : Nat) (perm : BitVec 64) (w : Nat) (hpa : pa < 2 ^ 64) :
    mapped (update m v (entry pa perm)) (v + 1) n ((pa + PGSIZE) % 2 ^ 64) perm w = mapped m v (n + 1) pa perm w := by
  unfold mapped
  by_cases hw : w = v
  · subst hw
    rw [if_neg (by omega), if_pos (by omega), update_self, Nat.sub_self, zero_mul, Nat.add_zero, mod_eq_of_lt hpa]
  · by_cases hin : v + 1 ≤ w ∧ w < v + 1 + n
    · have hsub : (w - v) * PGSIZE = PGSIZE + (w - (v + 1)) * PGSIZE := by
        rw [show w - v = 1 + (w - (v + 1)) by omega, Nat.add_mul, Nat.one_mul]
      rw [if_pos hin, if_pos (by omega), mod_add_mod, hsub, Nat.add_assoc]
    · rw [if_neg hin, if_neg (by omega), update_of_ne hw]

/-- The entry that `walk` found is stored. -/
theorem Phys.Grew.store {s₁ : Phys} {t : Nat} {e : BitVec 64} (h : s.Grew s₁ r) (hv : v < VPAGES)
    (hleaf : s₁.leaf r v = some t) :
    (s₁.setPte (t, v % 512) e).Tables r ∧
      Phys.Moved s (s₁.setPte (t, v % 512) e) (s.Table r) ((s₁.setPte (t, v % 512) e).Table r) ∧
      (∀ a, s.Table r a → (s₁.setPte (t, v % 512) e).Table r a) ∧
      ∀ w, w < VPAGES → (s₁.setPte (t, v % 512) e).map r w = update (s.map r) v e w := by
  obtain ⟨htables, htable, hmaps⟩ := h.tables.setPte (e := e) hv hleaf
  have hok := h.moved.ok
  refine ⟨htables, h.moved.trans ⟨⟨hok.nodup, hok.ram, hok.kend⟩, rfl, ?_, htables.apart, ?_⟩,
    fun a ha => (htable a).2 (h.grow a ha), ?_⟩
  · intro a
    rw [htable, Phys.free_setPte]
  · intro a _ ha
    apply Phys.page_setPte_of_ne
    intro heq
    rw [heq] at ha
    exact ha (Phys.leaf_table hleaf)
  · intro w hw
    rw [hmaps w hw, show s₁.map r = s.map r from funext h.map]

/-- What is left to do when the first page is mapped. -/
theorem Fits.next {s₁ : Phys} {e : BitVec 64} {k : Nat} (h : Fits s r v last (k + 1)) (hlast : v * PGSIZE ≠ last)
    (hmap : ∀ w, w < VPAGES → s₁.map r w = update (s.map r) v e w) : Fits s₁ r (v + 1) last k := by
  obtain ⟨n, hn, heq, hlt, hunmapped⟩ := h
  have hpos : n ≠ 0 := by
    rintro rfl
    exact hlast heq.symm
  refine ⟨n - 1, by omega, ?_, by omega, ?_⟩
  · rw [heq]
    congr 1
    omega
  · intro w hw hw'
    rw [hmap w (by omega), update_of_ne (by omega)]
    exact hunmapped w (by omega) (by omega)

theorem Maps.cons {s₁ : Phys} {ret : Int} (hpa : pa < 2 ^ 64) (hlast : v * PGSIZE ≠ last)
    (hmoved : Phys.Moved s s₁ (s.Table r) (s₁.Table r)) (hgrow : ∀ a, s.Table r a → s₁.Table r a)
    (hmap : ∀ w, w < VPAGES → s₁.map r w = update (s.map r) v (entry pa perm) w)
    (h : Maps s₁ r (v + 1) ((pa + PGSIZE) % 2 ^ 64) last perm ret s') : Maps s r v pa last perm ret s' := by
  obtain ⟨n, hn, hall, hret⟩ := h.result
  refine ⟨h.tables, hmoved.trans h.moved, fun a ha => h.grow a (hgrow a ha), n + 1, by omega, ?_, ?_⟩
  · intro w hw
    rw [hall w hw, ← mapped_cons _ _ _ _ _ _ hpa]
    unfold mapped
    rw [hmap w hw]
  · refine hret.imp ?_ ?_
    · rintro ⟨h0, -, heq⟩
      refine ⟨h0, succ_pos n, ?_⟩
      rw [heq]
      congr 1
      omega
    · rintro ⟨h1, hfree, hne⟩
      refine ⟨h1, hfree, ?_⟩
      intro i hi
      cases i with
      | zero => exact hlast
      | succ i =>
        rw [show v + (i + 1) = v + 1 + i by omega]
        exact hne i (by omega)

theorem mappagesFrom_spec (perm : BitVec 64) (last : Nat) : ∀ k (s : Phys) v pa, s.Ok → s.Tables r → pa < 2 ^ 64 →
    (mappagesFrom r last perm k (v * PGSIZE) pa s).Holds (fun _ => ¬ Fits s r v last k) (Maps s r v pa last perm) := by
  intro k
  induction k with
  | zero =>
    rintro s v pa - - - ⟨n, hn, -⟩
    exact Nat.not_lt_zero n hn
  | succ k ih =>
    intro s v pa hok ht hpa
    by_cases hv : v < VPAGES
    · obtain ⟨o, s₁, hwalk, hgrew, hnone, hslot, -⟩ := walk_true hok ht (page_lt hv)
      rw [page_div] at hslot
      rw [mappagesFrom, Run.bind_ok hwalk]
      cases o with
      | none =>
        refine ⟨hgrew.tables, hgrew.moved, hgrew.grow, 0, Nat.le_of_lt hv, ?_, Or.inr ⟨rfl, hnone rfl, nofun⟩⟩
        intro w _
        rw [hgrew.map, mapped, if_neg (by omega)]
      | some slot =>
        obtain ⟨t, i⟩ := slot
        obtain ⟨hi, hleaf⟩ := hslot _ rfl
        dsimp only at hi hleaf
        subst hi
        dsimp only
        rw [Run.bind_ok (show load (t, v % 512) s₁ = .ok _ s₁ from rfl)]
        by_cases hvalid : Has (s₁.pte (t, v % 512)) PTE_V
        · -- the page is mapped already
          rw [if_pos hvalid]
          rintro ⟨n, -, -, -, hunmapped⟩
          rw [← map_of_leaf hleaf, hgrew.map] at hvalid
          exact hunmapped v (Nat.le_refl v) (Nat.le_add_right v n) hvalid
        · rw [if_neg hvalid, Run.bind_ok (show store (t, v % 512) (entry pa perm) s₁ = .ok () _ from rfl)]
          obtain ⟨htables, hmoved, hgrow, hmaps⟩ := hgrew.store (e := entry pa perm) hv hleaf
          by_cases hlast : v * PGSIZE = last
          · rw [if_pos hlast]
            refine ⟨htables, hmoved, hgrow, 1, hv, ?_, Or.inl ⟨rfl, by decide, ?_⟩⟩
            · intro w hw
              rw [hmaps w hw, ← mapped_cons _ _ _ _ _ _ hpa, mapped, if_neg (by omega)]
            · rw [Nat.add_sub_cancel, hlast]
          · have hrest := ih _ (v + 1) ((pa + PGSIZE) % 2 ^ 64) hmoved.ok htables (mod_lt _ (by decide))
            rw [Nat.add_mul, Nat.one_mul] at hrest
            rw [if_neg hlast]
            exact (hrest.mono_may fun _ hnot hfits => hnot (hfits.next hlast hmaps)).mono
              fun ret s' h => h.cons hpa hlast hmoved hgrow hmaps
    · -- `walk` panics
      have hwalk : walk r (v * PGSIZE) true s = .panic "walk" := by
        unfold walk
        rw [if_pos]
        · rfl
        · unfold VPAGES at hv
          unfold MAXVA PGSIZE
          omega
      have hrun : mappagesFrom r last perm (k + 1) (v * PGSIZE) pa s = .panic "walk" := by
        rw [mappagesFrom]
        exact Run.bind_panic hwalk
      rw [hrun]
      rintro ⟨n, -, -, hlt, -⟩
      omega

/-- What `mappages` does to any pages. -/
theorem mappages_spec (hok : s.Ok) (ht : s.Tables r) (hpa : pa < 2 ^ 64) (va size : Nat) (perm : BitVec 64) :
    (mappages r va size pa perm s).Holds
      (fun _ => ¬ Fits s r (va / PGSIZE) (pgRoundDown ((va + size + (2 ^ 64 - 1)) % 2 ^ 64)) (MAXVA / PGSIZE))
      (Maps s r (va / PGSIZE) pa (pgRoundDown ((va + size + (2 ^ 64 - 1)) % 2 ^ 64)) perm) :=
  mappagesFrom_spec perm _ _ s _ pa hok ht hpa

theorem last_page {va size : Nat} (hpos : 0 < size) (h : va + size ≤ MAXVA) :
    pgRoundDown ((va + size + (2 ^ 64 - 1)) % 2 ^ 64) = (va + size - 1) / PGSIZE * PGSIZE := by
  unfold pgRoundDown
  unfold MAXVA at h
  rw [show (va + size + (2 ^ 64 - 1)) % 2 ^ 64 = va + size - 1 by omega]

/-- `mappages` of one page that is not mapped. -/
theorem mappages_one (hok : s.Ok) (ht : s.Tables r) (hpa : pa < 2 ^ 64) (perm : BitVec 64) (hv : v < VPAGES)
    (hnone : ¬ Has (s.map r v) PTE_V) :
    ∃ ret s', mappages r (v * PGSIZE) PGSIZE pa perm s = .ok ret s' ∧ s'.Tables r ∧
      Phys.Moved s s' (s.Table r) (s'.Table r) ∧ (∀ a, s.Table r a → s'.Table r a) ∧
      (ret = 0 ∧ (∀ w, w < VPAGES → s'.map r w = update (s.map r) v (entry pa perm) w) ∨
        ret = -1 ∧ s'.free = [] ∧ ∀ w, w < VPAGES → s'.map r w = s.map r w) := by
  have hlt := page_lt hv
  have hend : (v * PGSIZE + PGSIZE - 1) / PGSIZE = v := by
    unfold PGSIZE
    omega
  have hle : v * PGSIZE + PGSIZE ≤ MAXVA := by
    unfold VPAGES at hv
    unfold PGSIZE MAXVA
    omega
  have hspec := mappages_spec hok ht hpa (v * PGSIZE) PGSIZE perm
  rw [last_page (by decide) hle, page_div, hend] at hspec
  have hfits : Fits s r v (v * PGSIZE) (MAXVA / PGSIZE) := by
    refine ⟨0, by decide, rfl, hv, ?_⟩
    intro w hw hw'
    obtain rfl : w = v := by omega
    exact hnone
  obtain ⟨ret, s', hrun, htables, hmoved, hgrow, n, hn, hmap, hret⟩ := (hspec.mono_may fun _ hnot => hnot hfits).exists_ok
  refine ⟨ret, s', hrun, htables, hmoved, hgrow, hret.imp ?_ ?_⟩
  · rintro ⟨h0, hpos, heq⟩
    obtain rfl : n = 1 := by
      have := eq_of_mul_eq_mul_right (by decide) heq
      omega
    refine ⟨h0, fun w hw => ?_⟩
    rw [hmap w hw, ← mapped_cons _ _ _ _ _ _ hpa, mapped, if_neg (by omega)]
  · rintro ⟨h1, hfree, hne⟩
    obtain rfl : n = 0 := by
      by_contra hpos
      exact hne 0 (by omega) (by rw [Nat.add_zero])
    refine ⟨h1, hfree, fun w hw => ?_⟩
    rw [hmap w hw, mapped, if_neg (by omega)]

end Mappages

/-! ### `uvmunmap` -/

/-- The pages that the virtual pages from `v` to `v + n` are mapped to. -/
def Phys.Data (s : Phys) (r v n a : Nat) : Prop := ∃ w, v ≤ w ∧ w < v + n ∧ addr (s.map r w) = a

/-- Each of these virtual pages has a page of its own, which is no table. -/
structure Phys.Pages (s : Phys) (r v n : Nat) : Prop where
  leaf : ∀ w, v ≤ w → w < v + n → Leaf (s.map r w)
  own : ∀ a, s.Data r v n a → s.Ram a ∧ a ∉ s.free ∧ ¬ s.Table r a
  inj : ∀ w w', v ≤ w → w < v + n → v ≤ w' → w' < v + n → addr (s.map r w) = addr (s.map r w') → w = w'

def Phys.freed (s : Phys) (a : Nat) : Phys := ({ s with free := a :: s.free } : Phys).setPage a fun _ => 1

section Unmap

variable {s s' : Phys} {r v n : Nat}

/-- A page is given to the free list. -/
theorem Phys.Ok.cons {a : Nat} (hok : s.Ok) (hkend : s'.kend = s.kend) (hfree : s'.free = a :: s.free) (hram : s.Ram a)
    (hnot : a ∉ s.free) : s'.Ok := by
  refine ⟨?_, ?_, ?_⟩
  · rw [hfree, List.nodup_cons]
    exact ⟨hnot, hok.nodup⟩
  · intro b hb
    unfold Phys.Ram
    rw [hkend]
    rw [hfree] at hb
    rcases List.mem_cons.1 hb with rfl | hb
    · exact hram
    · exact hok.ram b hb
  · rw [hkend]
    exact hok.kend

theorem kfree_ram {a : Nat} (h : s.Ram a) : kfree a s = .ok () (s.freed a) := by
  unfold kfree
  obtain ⟨hpage, hlow, hhigh⟩ := h
  rw [if_neg]
  · rfl
  · omega

/-- A page that is no table is freed. -/
theorem Phys.Tables.freed {a : Nat} (ht : s.Tables r) (ha : ¬ s.Table r a) :
    (s.freed a).Tables r ∧ (∀ w, (s.freed a).map r w = s.map r w) ∧ ∀ x, (s.freed a).Table r x ↔ s.Table r x := by
  refine ht.keep ?_ ?_ ?_
  · intro x hx
    apply Phys.page_setPage_of_ne
    rintro rfl
    exact ha hx
  · intro x hx hmem
    rcases List.mem_cons.1 hmem with rfl | hmem
    · exact ha hx
    · exact ht.apart x hx hmem
  · rfl

theorem uvmunmapFrom_succ (doFree : Bool) (ht : s.Tables r) (hv : v < VPAGES) (hleaf : Leaf (s.map r v))
    (hfree : doFree = true → s.Ram (addr (s.map r v)) ∧ ¬ s.Table r (addr (s.map r v))) :
    ∃ s₁, uvmunmapFrom r doFree (n + 1) (v * PGSIZE) s = uvmunmapFrom r doFree n ((v + 1) * PGSIZE) s₁ ∧
      s₁.Tables r ∧ (∀ a, s₁.Table r a ↔ s.Table r a) ∧ s₁.kend = s.kend ∧
      s₁.free = (if doFree then addr (s.map r v) :: s.free else s.free) ∧
      (∀ a, ¬ s.Table r a → (doFree = true → a ≠ addr (s.map r v)) → s₁.page a = s.page a) ∧
      ∀ w, w < VPAGES → s₁.map r w = update (s.map r) v 0#64 w := by
  obtain ⟨t, ht', hwalk, hpte⟩ := walk_mapped (page_lt hv) (by rw [page_div]; exact hleaf.1)
  rw [page_div] at ht' hwalk hpte
  -- the state before the entry is cleared
  obtain ⟨s₀, hs₀, htables, hsame, htable, hkend, hfrees, hpages⟩ : ∃ s₀,
      (if doFree then kfree (addr (s.map r v)) else pure ()) s = .ok () s₀ ∧ s₀.Tables r ∧
        (∀ w, s₀.map r w = s.map r w) ∧ (∀ a, s₀.Table r a ↔ s.Table r a) ∧ s₀.kend = s.kend ∧
        s₀.free = (if doFree then addr (s.map r v) :: s.free else s.free) ∧
        ∀ a, (doFree = true → a ≠ addr (s.map r v)) → s₀.page a = s.page a := by
    cases doFree with
    | false => exact ⟨s, rfl, ht, fun _ => rfl, fun _ => Iff.rfl, rfl, rfl, fun _ _ => rfl⟩
    | true =>
      obtain ⟨hram, hnot⟩ := hfree rfl
      obtain ⟨h₁, h₂, h₃⟩ := ht.freed hnot
      exact ⟨_, kfree_ram hram, h₁, h₂, h₃, rfl, rfl, fun a ha => Phys.page_setPage_of_ne (ha rfl)⟩
  have hleaf₀ : s₀.leaf r v = some t := by
    have hpage : ∀ a, s.Table r a → s₀.page a = s.page a := by
      intro a ha
      apply hpages
      rintro hdo rfl
      exact (hfree hdo).2 ha
    exact (follow_congr (Phys.next_of_tables hpage) (show (path v).length ≤ 2 from Nat.le_refl 2)).trans ht'
  obtain ⟨htables', htable', hmaps⟩ := htables.setPte (e := 0#64) hv hleaf₀
  refine ⟨s₀.setPte (t, v % 512) 0#64, ?_, htables', ?_, hkend, hfrees, ?_, ?_⟩
  · rw [uvmunmapFrom, Run.bind_ok hwalk]
    dsimp only
    rw [Run.bind_ok (show load (t, v % 512) s = .ok (s.map r v) s by rw [← hpte]; rfl), if_neg (not_not.2 hleaf.1),
      if_neg hleaf.2, Nat.add_mul, Nat.one_mul]
    cases doFree with
    | false =>
      cases hs₀
      rfl
    | true =>
      rw [if_pos rfl] at hs₀
      show (kfree (addr (s.map r v)) >>= _) s = _
      rw [Run.bind_ok hs₀]
      rfl
  · intro a
    rw [htable', htable]
  · intro a ha hne
    rw [Phys.page_setPte_of_ne, hpages a hne]
    rintro rfl
    exact ha (Phys.leaf_table ht')
  · intro w hw
    rw [hmaps w hw, show s₀.map r = s.map r from funext hsame]

theorem uvmunmap_eq [Mmu] (doFree : Bool) (hv : v + n ≤ VPAGES) :
    uvmunmap r (v * PGSIZE) n doFree = uvmunmapFrom r doFree n (v * PGSIZE) := by
  have hlt : v * PGSIZE + n * PGSIZE < 2 ^ 64 := by
    unfold VPAGES at hv
    unfold PGSIZE
    omega
  unfold uvmunmap
  rw [if_neg (not_not.2 (mul_mod_left v PGSIZE)), mod_eq_of_lt hlt, Nat.add_sub_cancel_left,
    Nat.mul_div_cancel n (by decide)]

theorem unmapped_cons {m m' : Nat → BitVec 64} {w : Nat} (h : m' w = update m v 0#64 w) :
    unmapped m' (v + 1) n w = unmapped m v (n + 1) w := by
  unfold unmapped
  rw [h]
  by_cases hw : w = v
  · rw [if_neg (by omega), if_pos (by omega), hw, update_self]
  · rw [update_of_ne hw]
    exact if_congr (by omega) rfl rfl

/-- `uvmunmap` that frees the pages. -/
theorem uvmunmapFrom_free : ∀ n (s : Phys) v, s.Ok → s.Tables r → v + n ≤ VPAGES → s.Pages r v n →
    ∃ s', uvmunmapFrom r true n (v * PGSIZE) s = .ok () s' ∧ s'.Tables r ∧
      Phys.Moved s s' (fun a => s.Table r a ∨ s.Data r v n a) (s'.Table r) ∧ (∀ a, s'.Table r a ↔ s.Table r a) ∧
      ∀ w, w < VPAGES → s'.map r w = unmapped (s.map r) v n w := by
  intro n
  induction n with
  | zero =>
    intro s v hok ht _ _
    refine ⟨s, rfl, ht, ?_, fun _ => Iff.rfl, ?_⟩
    · refine (Phys.Moved.refl hok ht.apart).congr (fun a => or_iff_left ?_) fun _ => Iff.rfl
      rintro ⟨w, hw, hw', -⟩
      omega
    · intro w _
      rw [unmapped, if_neg (by omega)]
  | succ n ih =>
    intro s v hok ht hv hp
    have hfirst : s.Data r v (n + 1) (addr (s.map r v)) := ⟨v, Nat.le_refl v, by omega, rfl⟩
    obtain ⟨hram, hfree, hnot⟩ := hp.own _ hfirst
    obtain ⟨s₁, hrun, ht₁, htable, hkend, hfrees, hpages, hmaps⟩ :=
      uvmunmapFrom_succ true (n := n) ht (by omega) (hp.leaf v (Nat.le_refl v) (by omega)) fun _ => ⟨hram, hnot⟩
    rw [if_pos rfl] at hfrees
    have hother : ∀ w, v + 1 ≤ w → w < v + 1 + n → s₁.map r w = s.map r w := by
      intro w hw hw'
      rw [hmaps w (by omega), update_of_ne (by omega)]
    have hdata : ∀ a, s₁.Data r (v + 1) n a ↔ s.Data r v (n + 1) a ∧ a ≠ addr (s.map r v) := by
      intro a
      constructor
      · rintro ⟨w, hw, hw', rfl⟩
        rw [hother w hw hw']
        refine ⟨⟨w, by omega, by omega, rfl⟩, ?_⟩
        intro heq
        have := hp.inj w v (by omega) (by omega) (Nat.le_refl v) (by omega) heq
        omega
      · rintro ⟨⟨w, hw, hw', rfl⟩, hne⟩
        have hwv : w ≠ v := by
          rintro rfl
          exact hne rfl
        exact ⟨w, by omega, by omega, by rw [hother w (by omega) (by omega)]⟩
    have hpages₁ : s₁.Pages r (v + 1) n := by
      refine ⟨?_, ?_, ?_⟩
      · intro w hw hw'
        rw [hother w hw hw']
        exact hp.leaf w (by omega) (by omega)
      · intro a ha
        obtain ⟨hd, hne⟩ := (hdata a).1 ha
        obtain ⟨hram', hfree', hnot'⟩ := hp.own a hd
        unfold Phys.Ram
        rw [hkend, hfrees, htable, List.mem_cons, not_or]
        exact ⟨hram', ⟨hne, hfree'⟩, hnot'⟩
      · intro w w' hw₁ hw₂ hw₁' hw₂' heq
        rw [hother w hw₁ hw₂, hother w' hw₁' hw₂'] at heq
        exact hp.inj w w' (by omega) (by omega) (by omega) (by omega) heq
    have hstep : Phys.Moved s s₁ (fun a => s.Table r a ∨ s.Data r v (n + 1) a)
        (fun a => s₁.Table r a ∨ s₁.Data r (v + 1) n a) := by
      refine ⟨hok.cons hkend hfrees hram hfree, hkend, ?_, ?_, ?_⟩
      · intro a
        rw [hfrees, htable, List.mem_cons, hdata]
        by_cases ha : a = addr (s.map r v)
        · simp [ha, hfirst]
        · simp [ha]
      · intro a ha
        rcases ha with ha | ha
        · exact ht₁.apart a ha
        · exact (hpages₁.own a ha).2.1
      · intro a _ hA
        rw [not_or] at hA
        apply hpages a hA.1
        rintro - rfl
        exact hA.2 hfirst
    obtain ⟨s', hrun', ht', hmoved, htable', hmaps'⟩ := ih s₁ (v + 1) hstep.ok ht₁ (by omega) hpages₁
    refine ⟨s', hrun.trans hrun', ht', hstep.trans hmoved, fun a => (htable' a).trans (htable a), ?_⟩
    intro w hw
    rw [hmaps' w hw, unmapped_cons (hmaps w hw)]

end Unmap

/-! ### An empty table -/

section Empty

variable {s : Phys} {r : Nat} (h : s.page r = fun _ => 0)
include h

theorem map_empty : Tree s.next 2 r ∧ (∀ a, s.Table r a → a = r) ∧ ∀ w, s.map r w = 0#64 := by
  have hfollow : ∀ p n, follow s.next r p = some n → p = [] := by
    intro p n hp
    cases p with
    | nil => rfl
    | cons i p =>
      rw [follow, Phys.next_zero h] at hp
      cases hp
  refine ⟨?_, ?_, ?_⟩
  · intro p q n _ _ hp hq
    rw [hfollow p n hp, hfollow q n hq]
  · rintro a ⟨p, -, hp⟩
    rw [hfollow p a hp] at hp
    exact (Option.some.inj hp).symm
  · intro w
    have hleaf : s.leaf r w = none := by
      unfold Phys.leaf path
      rw [follow, Phys.next_zero h]
      rfl
    unfold Phys.map
    rw [hleaf]

theorem tables_empty (hfree : r ∉ s.free) (hram : s.Ram r) : s.Tables r := by
  obtain ⟨htree, hroot, -⟩ := map_empty h
  exact ⟨htree, fun a ha => by rwa [hroot a ha], fun a ha => by rwa [hroot a ha]⟩

end Empty

/-- Memory of zeros, in which every page is an empty table; six pages are free. -/
def blank : Phys := ⟨fun _ _ => 0, [0x80002000, 0x80004000, 0x80005000, 0x80006000, 0x80007000, 0x80008000], KERNBASE⟩

theorem blank_ok : blank.Ok := by
  refine ⟨by decide, ?_, Nat.le_refl _⟩
  show ∀ a ∈ [0x80002000, 0x80004000, 0x80005000, 0x80006000, 0x80007000, 0x80008000], a % PGSIZE = 0 ∧ KERNBASE ≤ a ∧ a < PHYSTOP
  decide

theorem blank_tables : blank.Tables 0x80001000 := tables_empty rfl (by decide) (by unfold Phys.Ram; decide)

end Xv6
