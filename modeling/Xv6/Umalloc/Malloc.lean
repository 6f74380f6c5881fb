import Xv6.Umalloc.Free

/-! `malloc`. The search goes once around the list; if no block is large enough there is one after `morecore`, which
the search then finds. -/

namespace Xv6

open Lib List

namespace Umalloc

/-- `sbrk` of a positive size fails or adds as many bytes: less than `limit` from `lo` on, all of them at addresses. -/
def Grants (lo limit : Nat) (growproc : Nat → Int → Option Nat) : Prop :=
  ∀ brk n brk', growproc brk n = some brk' → 0 < n → brk' = brk + n.toNat ∧ brk' < lo + limit ∧ brk' ≤ 2 ^ 64

section Blocks

variable {base lo : Nat} {h : Heap} {used l l₁ l₂ : List Block} {a : Block}

theorem Inv.node_bounds (hl : Layout base lo h.brk) (hinv : Inv base lo h used l) {x : Nat}
    (hx : x ∈ base :: l.map Block.addr) : 0 < x ∧ x + 16 ≤ h.brk := by
  have hpos := hl.pos
  have hlow := hl.low
  have hle := hl.le
  rcases mem_cons.1 hx with rfl | hx
  · omega
  · obtain ⟨c, hc, rfl⟩ := mem_map.1 hx
    have := hinv.bounds hc
    omega

/-- The memory that `sbrk` adds is a block. -/
theorem Inv.grow (hl : Layout base lo h.brk) (hinv : Inv base lo h used l) {nu : Nat} (hpos : 0 < nu)
    (hnu : nu < 2 ^ 32) (hhigh : h.brk + nu * 16 ≤ 2 ^ 64) :
    Inv base lo ⟨setSize h.mem h.brk nu, h.freep, h.brk + nu * 16⟩ (⟨h.brk, nu, 0⟩ :: used) l := by
  have honly : OnlyAt h.brk h.mem (setSize h.mem h.brk nu) := onlyAt_setSize
  have haway : ∀ x ∈ base :: l.map Block.addr, Away h.brk x := fun x hx => Or.inr (hinv.node_bounds hl hx).2
  have hself : size (setSize h.mem h.brk nu) h.brk = nu := size_setSize_self (by omega) hnu
  have hlt : h.brk < h.brk + nu * 16 := by omega
  constructor
  · refine hinv.tiles.grow hl.le (by rfl) ?_ hlt
    unfold Block.stop
    dsimp only
    rw [Nat.mul_comm]
  · apply hinv.circle.congr
    intro x hx
    rw [← cons_append, dropLast_concat] at hx
    exact honly.ptr (haway x hx)
  · intro c hc
    rcases mem_cons.1 hc with rfl | hc
    · exact hself
    · have hstop := addr_lt_stop hinv.tiles hc
      rw [← hinv.sizes c hc]
      apply honly.size
      right
      omega
  · rw [← hinv.baseSize]
    exact honly.size (haway base (mem_cons_self ..))
  · exact hinv.spaced
  · exact hinv.freep

section

variable (hinv : Inv base lo h used (l₁ ++ a :: l₂))
include hinv

/-- The block before `a` in the list. -/
theorem Inv.eq_pred (hl : Layout base lo h.brk) {x : Nat}
    (hx : x ∈ base :: (l₁ ++ a :: l₂).map Block.addr) (hnext : ptr h.mem x = a.addr) : x = pred base l₁ := by
  have hnodup : (base :: (l₁ ++ a :: l₂).map Block.addr).Nodup := (hinv.sorted hl).imp Nat.ne_of_lt
  have hpath : Links (ptr h.mem) base (l₁.map Block.addr ++ (a.addr :: l₂.map Block.addr ++ [base])) := by
    rw [← append_assoc, ← map_cons, ← map_append]
    exact hinv.circle
  have hpred : ptr h.mem (pred base l₁) = a.addr := (links_append.1 hpath).2.1
  have hmem : pred base l₁ ∈ base :: (l₁ ++ a :: l₂).map Block.addr := by
    rw [map_append, ← cons_append]
    exact mem_append_left _ (pred_mem base l₁)
  exact hinv.circle.next_inj hnodup hx hmem (hnext.trans hpred.symm)

theorem Inv.tiles_middle : Tiles Block.addr Block.stop (a :: (used ++ (l₁ ++ l₂))) lo h.brk :=
  hinv.tiles.perm (perm_insert a used l₁ l₂)

variable (hl : Layout base lo h.brk)
include hl

/-- The nodes of the list up to `a`, and from `a` on. -/
theorem Inv.around :
    Links (ptr h.mem) base (l₁.map Block.addr) ∧ Links (ptr h.mem) a.addr (l₂.map Block.addr ++ [base]) ∧
      (∀ x ∈ (base :: l₁.map Block.addr).dropLast, x < pred base l₁) ∧
      ∀ x ∈ a.addr :: l₂.map Block.addr, pred base l₁ < x := by
  have hpath : Links (ptr h.mem) base (l₁.map Block.addr ++ (a.addr :: l₂.map Block.addr ++ [base])) := by
    rw [← append_assoc, ← map_cons, ← map_append]
    exact hinv.circle
  have hsorted := hinv.sorted hl
  rw [map_append, ← cons_append, map_cons] at hsorted
  obtain ⟨hsorted₁, -, hcross⟩ := pairwise_append.1 hsorted
  obtain ⟨hpath₁, hpath₂⟩ := links_append.1 hpath
  exact ⟨hpath₁, hpath₂.2, fun x hx => lt_pred hsorted₁ hx, fun x hx => hcross _ (pred_mem base l₁) x hx⟩

/-- A block that has the size asked for leaves the list. -/
theorem Inv.take (nbytes : Nat) {m : Memory}
    (honly : OnlyAt (pred base l₁) h.mem m) (hlink : ptr m (pred base l₁) = ptr h.mem a.addr)
    (hself : size m (pred base l₁) = size h.mem (pred base l₁)) :
    Inv base lo ⟨m, pred base l₁, h.brk⟩ (⟨a.addr, a.units, nbytes⟩ :: used) (l₁ ++ l₂) := by
  obtain ⟨hpath₁, hpath₂, hbelow, habove⟩ := hinv.around hl
  have hfree : base :: (l₁ ++ a :: l₂).map Block.addr ⊆ base :: (used ++ (l₁ ++ a :: l₂)).map Block.addr :=
    nodes_mono base (subset_append_right used _)
  have hlist : base :: l₁.map Block.addr ⊆ base :: (l₁ ++ a :: l₂).map Block.addr :=
    nodes_mono base (subset_append_left l₁ _)
  have haway : ∀ x ∈ base :: (used ++ (l₁ ++ a :: l₂)).map Block.addr, x ≠ pred base l₁ → Away (pred base l₁) x :=
    fun x hx hne => away_of_ne hl hinv.tiles (hfree (hlist (pred_mem base l₁))) hx hne.symm
  have hsize : ∀ x ∈ base :: (used ++ (l₁ ++ a :: l₂)).map Block.addr, size m x = size h.mem x := by
    intro x hx
    by_cases hne : x = pred base l₁
    · rw [hne, hself]
    · exact honly.size (haway x hx hne)
  constructor
  · exact hinv.tiles_middle.rename rfl rfl
  · unfold Circular
    rw [map_append, append_assoc, links_append]
    constructor
    · apply hpath₁.congr
      intro x hx
      exact honly.ptr (haway x (hfree (hlist (dropLast_subset _ hx))) (Nat.ne_of_lt (hbelow x hx)))
    · apply hpath₂.start hlink
      intro x hx
      rw [dropLast_concat] at hx
      have hx' : x ∈ a.addr :: l₂.map Block.addr := mem_cons_of_mem a.addr hx
      apply honly.ptr (haway x (hfree _) (Nat.ne_of_gt (habove x hx')))
      rw [map_append]
      exact mem_cons_of_mem base (mem_append_right _ hx')
  · intro c hc
    obtain ⟨d, hd, haddr, hunits⟩ : ∃ d ∈ used ++ (l₁ ++ a :: l₂), c.addr = d.addr ∧ c.units = d.units := by
      rcases mem_cons.1 hc with rfl | hc
      · exact ⟨a, (perm_insert a used l₁ l₂).mem_iff.2 (mem_cons_self ..), rfl, rfl⟩
      · exact ⟨c, (perm_insert a used l₁ l₂).mem_iff.2 (mem_cons_of_mem a hc), rfl, rfl⟩
    rw [haddr, hunits]
    exact (hsize d.addr (mem_cons_of_mem base (mem_map_of_mem hd))).trans (hinv.sizes d hd)
  · exact (hsize base (mem_cons_self ..)).trans hinv.baseSize
  · exact hinv.spaced.sublist ((sublist_cons_self a l₂).append_left l₁)
  · rw [map_append, ← cons_append]
    exact mem_append_left _ (pred_mem base l₁)

/-- The upper part of a block that is larger leaves the list. -/
theorem Inv.split {n : Nat} (nbytes : Nat) (hn : 0 < n) (hlt : n < a.units) {m : Memory}
    (honly : ∀ i, (i < a.addr ∨ a.stop ≤ i) → m.get i = h.mem.get i) (hptr : ptr m a.addr = ptr h.mem a.addr)
    (hsize : size m a.addr = a.units - n) (hsize' : size m (a.addr + 16 * (a.units - n)) = n) :
    Inv base lo ⟨m, pred base l₁, h.brk⟩ (⟨a.addr + 16 * (a.units - n), n, nbytes⟩ :: used)
      (l₁ ++ ⟨a.addr, a.units - n, 0⟩ :: l₂) := by
  have hamem : a ∈ l₁ ++ a :: l₂ := mem_append_right l₁ (mem_cons_self ..)
  have hastop : a.stop = a.addr + 16 * a.units := rfl
  have hmap : (l₁ ++ ⟨a.addr, a.units - n, 0⟩ :: l₂).map Block.addr = (l₁ ++ a :: l₂).map Block.addr := by
    rw [map_append, map_append]
    rfl
  have hfields : ∀ x ∈ base :: (used ++ (l₁ ++ l₂)).map Block.addr,
      ptr m x = ptr h.mem x ∧ size m x = size h.mem x := by
    refine forall_mem_cons.2 ⟨?_, forall_mem_map.2 fun c hc => ?_⟩
    · exact fields_eq honly (Or.inl (hl.base_lt hinv.tiles_middle (mem_cons_self ..)))
    · have hc' := addr_lt_stop hinv.tiles_middle (mem_cons_of_mem a hc)
      have hapart := hinv.tiles_middle.apart_of_cons hc
      unfold Apart at hapart
      exact fields_eq honly (by omega)
  have htiles : Tiles Block.addr Block.stop (⟨a.addr, a.units - n, 0⟩ :: ⟨a.addr + 16 * (a.units - n), n, nbytes⟩ ::
      (used ++ (l₁ ++ l₂))) lo h.brk := by
    apply hinv.tiles_middle.cut <;> simp only [Block.stop] <;> omega
  constructor
  · exact htiles.perm ((List.Perm.swap _ _ _).trans ((perm_insert _ used l₁ l₂).symm.cons _))
  · rw [hmap]
    apply hinv.circle.congr
    rw [← cons_append, dropLast_concat]
    refine forall_mem_cons.2 ⟨(hfields base (mem_cons_self ..)).1, forall_mem_map.2 fun c hc => ?_⟩
    rcases mem_cons.1 (perm_middle.mem_iff.1 hc) with rfl | hc
    · exact hptr
    · exact (hfields c.addr (mem_cons_of_mem base (mem_map_of_mem (mem_append_right used hc)))).1
  · intro c hc
    rcases mem_cons.1 hc with rfl | hc
    · exact hsize'
    · rcases mem_cons.1 ((perm_insert _ used l₁ l₂).mem_iff.1 hc) with rfl | hc
      · exact hsize
      · apply (hfields c.addr (mem_cons_of_mem base (mem_map_of_mem hc))).2.trans
        exact hinv.sizes c ((perm_insert a used l₁ l₂).mem_iff.2 (mem_cons_of_mem a hc))
  · exact (hfields base (mem_cons_self ..)).2.trans hinv.baseSize
  · obtain ⟨hspaced₁, hspaced₂, hcross⟩ := pairwise_append.1 hinv.spaced
    obtain ⟨habove, hspaced₂⟩ := pairwise_cons.1 hspaced₂
    refine pairwise_append.2 ⟨hspaced₁, pairwise_cons.2 ⟨?_, hspaced₂⟩, ?_⟩
    · intro d hd
      have hlt := habove d hd
      unfold Block.stop at hlt ⊢
      dsimp only
      omega
    · intro c hc d hd
      rcases mem_cons.1 hd with rfl | hd
      · exact hcross c hc a (mem_cons_self ..)
      · exact hcross c hc d (mem_cons_of_mem a hd)
  · rw [map_append, ← cons_append]
    exact mem_append_left _ (pred_mem base l₁)

end

/-- What `malloc` does with the block after `prevp`. -/
theorem carve_spec (hl : Layout base lo h.brk) (hinv : Inv base lo h used l) {n prevp : Nat} (nbytes : Nat)
    (hprev : prevp ∈ base :: l.map Block.addr) (hn : 0 < n) (hfit : n ≤ size h.mem (ptr h.mem prevp)) :
    ∃ q h' l', carve n prevp (ptr h.mem prevp) h = (q + 16, h') ∧ h'.brk = h.brk ∧
      Inv base lo h' (⟨q, n, nbytes⟩ :: used) l' ∧ Kept used h h' := by
  have hnext := hinv.circle.next_mem hprev
  have hne : ptr h.mem prevp ≠ base := by
    intro heq
    rw [heq, hinv.baseSize] at hfit
    omega
  obtain ⟨a, ha, haddr⟩ := mem_map.1 ((mem_cons.1 hnext).resolve_left hne)
  obtain ⟨l₁, l₂, rfl⟩ := append_of_mem ha
  have hpred : prevp = pred base l₁ := hinv.eq_pred hl hprev haddr.symm
  have hsize : size h.mem a.addr = a.units := hinv.sizes a (mem_append_right used ha)
  have hbounds := hinv.bounds ha
  have hstop : a.stop = a.addr + 16 * a.units := rfl
  have hhigh := hl.high
  have hsmall := hl.small
  rw [← haddr] at hfit ⊢
  rw [hsize] at hfit
  unfold carve
  rw [hsize]
  by_cases hexact : a.units = n
  · rw [if_pos hexact]
    have hprevb := hinv.node_bounds hl hprev
    refine ⟨a.addr, _, l₁ ++ l₂, rfl, rfl, ?_, ?_⟩
    · rw [← hexact, hpred]
      apply hinv.take hl nbytes onlyAt_setPtr
      · rw [← hpred]
        exact ptr_setPtr_self (by omega) (ptr_lt _ _)
      · exact size_setPtr_self
    · intro c hc i hi hstop
      apply onlyAt_setPtr
      rw [hpred]
      exact hinv.pred_outside hl hc hi hstop
  · rw [if_neg hexact]
    have hsize' : size (setSize h.mem a.addr (a.units - n)) a.addr = a.units - n :=
      size_setSize_self (by omega) (by omega)
    have haway : Away (a.addr + 16 * (a.units - n)) a.addr := by
      right
      omega
    dsimp only
    rw [hsize']
    have honly : ∀ i, (i < a.addr ∨ a.stop ≤ i) →
        (setSize (setSize h.mem a.addr (a.units - n)) (a.addr + 16 * (a.units - n)) n).get i = h.mem.get i := by
      intro i hi
      rw [get_setSize (by omega), get_setSize (by omega)]
    refine ⟨a.addr + 16 * (a.units - n), _, l₁ ++ ⟨a.addr, a.units - n, 0⟩ :: l₂, rfl, rfl, ?_, ?_⟩
    · rw [hpred]
      apply hinv.split hl nbytes hn (by omega) honly
      · rw [onlyAt_setSize.ptr haway, ptr_setSize_self]
      · rw [onlyAt_setSize.size haway, hsize']
      · exact size_setSize_self (by omega) (by omega)
    · intro c hc i hi hi'
      apply honly
      have hcmem : c ∈ used ++ (l₁ ++ l₂) := mem_append_left _ hc
      have hapart := hinv.tiles_middle.apart_of_cons hcmem
      unfold Apart at hapart
      omega

theorem Kept.trans {h' h'' : Heap} (hkept : Kept used h h') (hkept' : Kept used h' h'') : Kept used h h'' :=
  fun c hc i hi hstop => (hkept' c hc i hi hstop).trans (hkept c hc i hi hstop)

end Blocks

/-! ### More memory -/

section Morecore

variable {growproc : Nat → Int → Option Nat} {base lo : Nat} {h : Heap} {used l : List Block}

theorem sbrkArg_eq {nu : Nat} (hnu : nu < 2 ^ 27) : sbrkArg nu = (nu * 16 : Nat) := by
  unfold sbrkArg
  rw [BitVec.toInt_eq_toNat_cond, BitVec.toNat_ofNat, Nat.mod_eq_of_lt (by omega), if_pos (by omega)]

theorem morecore_spec (hl : Layout base lo h.brk) (hinv : Inv base lo h used l) (hgrant : Grants lo (2 ^ 36) growproc)
    {nu : Nat} (hpos : 0 < nu) (hnu : nu < 2 ^ 27) :
    morecore growproc nu h = some (0, h) ∨
    ∃ h' l', morecore growproc nu h = some (h'.freep, h') ∧ Layout base lo h'.brk ∧ Inv base lo h' used l' ∧
      (∃ c ∈ l', nu ≤ c.units) ∧ l'.length ≤ l.length + 1 ∧ Kept used h h' := by
  unfold morecore sbrk
  dsimp only
  generalize hnu' : (if nu < 4096 then 4096 else nu) = nu'
  have hle : nu ≤ nu' ∧ nu' < 2 ^ 27 := by
    rw [← hnu']
    split <;> omega
  rw [sbrkArg_eq hle.2]
  cases hgrow : growproc h.brk (nu' * 16 : Nat) with
  | none => exact Or.inl rfl
  | some brk =>
    right
    obtain ⟨rfl, hsmall, hhigh⟩ := hgrant _ _ _ hgrow (by omega)
    rw [Int.toNat_natCast] at hsmall hhigh ⊢
    have hl' : Layout base lo (h.brk + nu' * 16) :=
      ⟨hl.pos, hl.low, Nat.le_trans hl.le (Nat.le_add_right ..), hhigh, hsmall⟩
    have hadd := hinv.grow hl (by omega) (by omega) hhigh
    obtain ⟨h', l', hfree, hbrk, hinv', ⟨c, hc, hunits⟩, hlen, hkept⟩ := free_spec hl' hadd
    have hfree' : free (h.brk + 16) ⟨setSize h.mem h.brk nu', h.freep, h.brk + nu' * 16⟩ = some h' := hfree
    have hbrk' : h'.brk = h.brk + nu' * 16 := hbrk
    refine ⟨h', l', ?_, hbrk' ▸ hl', hinv', ⟨c, hc, Nat.le_trans hle.1 hunits⟩, hlen, ?_⟩
    · dsimp only
      rw [hfree']
      rfl
    · intro d hd i hi hstop
      have hdstop := addr_lt_stop hinv.tiles (mem_append_left l hd)
      rw [hkept d hd i hi hstop]
      exact get_setSize (by omega)

end Morecore

/-! ### The search -/

section Search

variable (more : Nat → Heap → Option (Nat × Heap)) (n : Nat) {h : Heap} {prevp fuel : Nat} {l : List Nat}

/-- The search from `prevp` on up to `freep`: it takes the first block that is large enough, or asks for more. -/
theorem search_path (hpath : Links (ptr h.mem) prevp (l ++ [h.freep])) (hnot : h.freep ∉ l) (hfuel : l.length < fuel) :
    (∃ q ∈ prevp :: l, n ≤ size h.mem (ptr h.mem q) ∧
      search more n fuel prevp (ptr h.mem prevp) h = some (carve n q (ptr h.mem q) h)) ∨
    (∀ x ∈ l ++ [h.freep], size h.mem x < n) ∧ search more n fuel prevp (ptr h.mem prevp) h = (more n h).bind fun r =>
        if r.1 = 0 then some (0, r.2) else search more n (fuel - l.length - 1) r.1 (ptr r.2.mem r.1) r.2 := by
  induction l generalizing prevp fuel with
  | nil =>
    obtain ⟨fuel, rfl⟩ : ∃ k, fuel = k + 1 := ⟨fuel - 1, by omega⟩
    have hnext : ptr h.mem prevp = h.freep := hpath.1
    rw [search]
    by_cases hfit : n ≤ size h.mem (ptr h.mem prevp)
    · left
      exact ⟨prevp, mem_cons_self .., hfit, if_pos hfit⟩
    · right
      rw [if_neg hfit, if_pos hnext]
      refine ⟨?_, rfl⟩
      intro x hx
      rw [nil_append, mem_singleton] at hx
      rw [hx, ← hnext]
      omega
  | cons y l ih =>
    obtain ⟨fuel, rfl⟩ : ∃ k, fuel = k + 1 := ⟨fuel - 1, by omega⟩
    obtain ⟨hnext, hpath⟩ := hpath
    rw [length_cons] at hfuel
    rw [search]
    by_cases hfit : n ≤ size h.mem (ptr h.mem prevp)
    · left
      exact ⟨prevp, mem_cons_self .., hfit, if_pos hfit⟩
    · have hne : ptr h.mem prevp ≠ h.freep := by
        intro heq
        rw [hnext] at heq
        exact hnot (heq ▸ mem_cons_self ..)
      rw [if_neg hfit, if_neg hne, hnext]
      have hrest : l.length < fuel := by omega
      rcases ih hpath (fun hmem => hnot (mem_cons_of_mem y hmem)) hrest with hfound | hmore
      · left
        obtain ⟨q, hq, hfitq, hsearch⟩ := hfound
        exact ⟨q, mem_cons_of_mem prevp hq, hfitq, hsearch⟩
      · right
        refine ⟨?_, ?_⟩
        · intro x hx
          rcases mem_cons.1 hx with rfl | hx
          · rw [← hnext]
            omega
          · exact hmore.1 x hx
        · rw [hmore.2, length_cons]
          have hfuel' : fuel + 1 - (l.length + 1) - 1 = fuel - l.length - 1 := by omega
          rw [hfuel']

end Search

/-! ### `malloc` -/

section Malloc

variable {growproc : Nat → Int → Option Nat} {base lo : Nat} {h : Heap} {used l : List Block} {fuel : Nat}

theorem search_around (more : Nat → Heap → Option (Nat × Heap)) (n : Nat) (hl : Layout base lo h.brk)
    (hinv : Inv base lo h used l) (hfuel : l.length < fuel) :
    (∃ q ∈ base :: l.map Block.addr, n ≤ size h.mem (ptr h.mem q) ∧
      search more n fuel h.freep (ptr h.mem h.freep) h = some (carve n q (ptr h.mem q) h)) ∨ (∀ c ∈ l, c.units < n) ∧
      search more n fuel h.freep (ptr h.mem h.freep) h = (more n h).bind fun r =>
        if r.1 = 0 then some (0, r.2) else search more n (fuel - l.length - 1) r.1 (ptr r.2.mem r.1) r.2 := by
  obtain ⟨l', hcircle, hperm⟩ := hinv.circle.enter hinv.freep
  have hnodup : (h.freep :: l').Nodup := hperm.nodup_iff.2 ((hinv.sorted hl).imp Nat.ne_of_lt)
  have hlen : l'.length = l.length := by
    have := hperm.length_eq
    rw [length_cons, length_cons, length_map] at this
    omega
  rcases search_path more n hcircle (nodup_cons.1 hnodup).1 (hlen ▸ hfuel) with hfound | hmore
  · left
    obtain ⟨q, hq, hfit, hsearch⟩ := hfound
    exact ⟨q, hperm.subset hq, hfit, hsearch⟩
  · right
    rw [hlen] at hmore
    refine ⟨?_, hmore.2⟩
    intro c hc
    rw [← hinv.sizes c (mem_append_right used hc)]
    apply hmore.1
    have hmem : c.addr ∈ h.freep :: l' := hperm.symm.subset (mem_cons_of_mem base (mem_map_of_mem hc))
    exact (perm_append_singleton h.freep l').symm.subset hmem

/-- What a call of `malloc` leaves, with the pointer that it returns. -/
def Gives (base lo : Nat) (used : List Block) (nbytes p : Nat) (h : Heap) : Prop :=
  (p = 0 ∧ ∃ l, Inv base lo h used l) ∨ ∃ q l, p = q + 16 ∧ Inv base lo h (⟨q, units nbytes, nbytes⟩ :: used) l

theorem units_pos (nbytes : Nat) : 0 < units nbytes := Nat.succ_pos _

section

variable (hl : Layout base lo h.brk) (hinv : Inv base lo h used l)
include hl hinv

theorem gives_of_carve (nbytes : Nat) {q : Nat}
    (hq : q ∈ base :: l.map Block.addr) (hfit : units nbytes ≤ size h.mem (ptr h.mem q)) :
    ∃ p h', carve (units nbytes) q (ptr h.mem q) h = (p, h') ∧ Layout base lo h'.brk ∧ Kept used h h' ∧
      Gives base lo used nbytes p h' := by
  obtain ⟨r, h', l', hcarve, hbrk, hinv', hkept⟩ := carve_spec hl hinv nbytes hq (units_pos nbytes) hfit
  exact ⟨r + 16, h', hcarve, hbrk ▸ hl, hkept, Or.inr ⟨r, l', rfl, hinv'⟩⟩

theorem search_spec (hgrant : Grants lo (2 ^ 36) growproc) {nbytes : Nat}
    (hsize : 16 * units nbytes < 2 ^ 31) (hfuel : 2 * l.length + 2 < fuel) :
    ∃ p h', search (morecore growproc) (units nbytes) fuel h.freep (ptr h.mem h.freep) h = some (p, h') ∧ Layout base lo h'.brk ∧
      Kept used h h' ∧ Gives base lo used nbytes p h' := by
  have hfuel₀ : l.length < fuel := by omega
  rcases search_around (morecore growproc) (units nbytes) hl hinv hfuel₀ with hfound | hmore
  · obtain ⟨q, hq, hfit, hsearch⟩ := hfound
    obtain ⟨p, h', hcarve, hrest⟩ := gives_of_carve hl hinv nbytes hq hfit
    rw [hcarve] at hsearch
    exact ⟨p, h', hsearch, hrest⟩
  · rcases morecore_spec hl hinv hgrant (units_pos nbytes) (by omega) with hfailed | hgrown
    · refine ⟨0, h, ?_, hl, fun c hc i hi hstop => rfl, Or.inl ⟨rfl, l, hinv⟩⟩
      rw [hmore.2, hfailed]
      rfl
    · obtain ⟨h₁, l₁, hmorecore, hl₁, hinv₁, ⟨c, hc, hunits⟩, hlen, hkept⟩ := hgrown
      have hpos := (hinv₁.node_bounds hl₁ hinv₁.freep).1
      have hsearch : search (morecore growproc) (units nbytes) fuel h.freep (ptr h.mem h.freep) h =
          search (morecore growproc) (units nbytes) (fuel - l.length - 1) h₁.freep (ptr h₁.mem h₁.freep) h₁ := by
        rw [hmore.2, hmorecore, Option.bind_some, if_neg (Nat.ne_of_gt hpos)]
      -- the second time around there is a block for it
      have hfuel₁ : l₁.length < fuel - l.length - 1 := by omega
      rcases search_around (morecore growproc) (units nbytes) hl₁ hinv₁ hfuel₁ with hfound | hmore₁
      · obtain ⟨q, hq, hfit, hsearch₁⟩ := hfound
        obtain ⟨p, h', hcarve, hl', hkept', hgives⟩ := gives_of_carve hl₁ hinv₁ nbytes hq hfit
        rw [hcarve] at hsearch₁
        exact ⟨p, h', hsearch.trans hsearch₁, hl', hkept.trans hkept', hgives⟩
      · have := hmore₁.1 c hc
        omega

theorem Inv.start_eq : start base h = h :=
  if_neg (Nat.ne_of_gt (hinv.node_bounds hl hinv.freep).1)

/-- `malloc` once the list is there. -/
theorem malloc_spec (hgrant : Grants lo (2 ^ 36) growproc) {nbytes : Nat} (hsize : 16 * units nbytes < 2 ^ 31) :
    ∃ p h', malloc growproc base nbytes h = some (p, h') ∧ Layout base lo h'.brk ∧ Kept used h h' ∧
      Gives base lo used nbytes p h' := by
  have hlen := hinv.length_lt hl
  unfold malloc mallocWith
  dsimp only
  rw [hinv.start_eq hl]
  apply search_spec hl hinv hgrant hsize
  unfold Heap.fuel
  omega

end

/-- The first call of `malloc`. -/
theorem inv_start (hl : Layout base lo lo) (hfreep : h.freep = 0) (hbrk : h.brk = lo) :
    Inv base lo (start base h) [] [] := by
  have hlow := hl.low
  have hhigh := hl.high
  have hlt : base + 16 ≤ 2 ^ 64 := by omega
  have heq : start base h = ⟨setSize (setPtr h.mem base base) base 0, base, lo⟩ := by
    unfold start
    rw [if_pos hfreep, hbrk]
  rw [heq]
  have hptr : ptr (setSize (setPtr h.mem base base) base 0) base = base := by
    rw [ptr_setSize_self]
    exact ptr_setPtr_self hlt (by omega)
  have hsize : size (setSize (setPtr h.mem base base) base 0) base = 0 := size_setSize_self hlt (by decide)
  refine ⟨⟨nofun, List.Pairwise.nil, ?_⟩, ⟨hptr, trivial⟩, nofun, hsize, List.Pairwise.nil, mem_cons_self ..⟩
  intro i
  constructor
  · intro hi
    obtain ⟨c, hc, -⟩ := hi
    exact absurd hc not_mem_nil
  · intro hi
    dsimp only at hi
    omega

end Malloc

end Umalloc

end Xv6
