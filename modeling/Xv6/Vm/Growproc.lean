import Xv6.Vm.Space

/-! `growproc`, with `PTE2PA` as `riscv.h` has it. It makes of the entry for a table an address far above the memory, so
that `walk` faults where a table is to be passed: of the requests that are not refused, those come to an end that
leave the number of pages as it is, and the one for a first page, on the way to which `walk` makes the tables. -/

namespace Xv6

open Lib Pte

/-- `PTE2PA` as it is written, and the memory there is. -/
@[reducible] def Mmu.riscv : Mmu := ⟨fun pte => (Pte.pte2pa pte).toNat, fun a => KERNBASE ≤ a ∧ a < PHYSTOP⟩

/-- What `growproc` reports is so. -/
def GrowsTruly (s : Phys) (r psz : Nat) (n : Int) : Prop :=
  ∃ ret sz s', @growproc .riscv r psz n s = .ok (ret, sz) s' ∧
    (ret = 0 ∧ (sz : Int) = psz + n ∧ Space s' r (pagesOf sz) ∧ (∀ va, va < psz → va < sz → s'.byte r va = s.byte r va) ∨
      ret = -1 ∧ sz = psz ∧ ∀ w, w < VPAGES → Same (s.map r w) (s'.map r w))

theorem le_pte2pa {e : BitVec 64} (hlow : KERNBASE ≤ addr e) (hhigh : addr e < PHYSTOP) :
    PHYSTOP ≤ (Pte.pte2pa e).toNat := by
  have he := e.isLt
  rw [addr, BitVec.toNat_shiftLeft, BitVec.toNat_ushiftRight, Nat.shiftRight_eq_div_pow, Nat.shiftLeft_eq] at hlow hhigh
  rw [toNat_pte2pa]
  unfold PHYSTOP KERNBASE at *
  omega

section Fault

variable {s : Phys} {r va v k oldsz newsz a : Nat}

theorem uvmdealloc_self : @uvmdealloc .riscv r a a s = .ok a s := by
  unfold uvmdealloc
  rw [if_pos (Nat.le_refl a)]
  rfl

theorem uvmalloc_nil (hfree : s.free = []) :
    @uvmallocFrom .riscv r oldsz newsz (k + 1) a s = (@uvmdealloc .riscv r a oldsz >>= fun _ => pure 0) s :=
  Run.bind_ok (show kalloc s = .ok 0 s by rw [kalloc, hfree])

theorem Phys.Tables.next_taken {c : Nat} {l : List Nat} {b : Bytes PGSIZE} (ht : s.Tables r) (hfree : s.free = c :: l) :
    (s.taken c l b).next r = s.next r := by
  refine next_congr (page_taken_of_ne ?_)
  rintro rfl
  exact ht.apart r ⟨[], Nat.zero_le 2, rfl⟩ (by rw [hfree]; exact List.mem_cons_self ..)

theorem Phys.Ok.mem (hok : s.Ok) (hram : s.Ram a) : Mmu.riscv.mem a :=
  decide_eq_true ⟨Nat.le_trans hok.kend hram.2.1, hram.2.2⟩

variable (hok : s.Ok) (ht : s.Tables r) (hroot : (s.next r 0).isSome)
include hok ht hroot

/-- `walk` reads the root and then an address without memory. -/
theorem walk_fault (hva : va < 2 ^ 30) (alloc : Bool) : @walk .riscv r va alloc s = .panic "kerneltrap" := by
  have hpx : px 2 va = 0 := by
    rw [px_eq]
    unfold PGSIZE
    omega
  obtain ⟨a, ha⟩ := Option.isSome_iff_exists.1 hroot
  have hram' : s.Ram a := ht.ram a ⟨[0], by decide, by simp [Radix.follow, ha]⟩
  unfold Phys.next at ha
  split at ha
  · rename_i hvalid
    obtain rfl := Option.some.inj ha
    have hfar := le_pte2pa (Nat.le_trans hok.kend hram'.2.1) hram'.2.2
    have hload := @load_ok .riscv (r, 0) s (hok.mem (ht.ram r ⟨[], Nat.zero_le 2, rfl⟩))
    have hfault : ∀ i, @load .riscv ((Pte.pte2pa (s.pte (r, 0))).toNat, i) s = .panic "kerneltrap" := fun i =>
      if_neg fun h => absurd (of_decide_eq_true h).2 (Nat.not_lt.2 hfar)
    unfold walk
    rw [if_neg (by unfold MAXVA; omega)]
    show (@load .riscv (r, px 2 va) >>= _) s = _
    rw [hpx, Run.bind_ok hload, if_pos hvalid]
    exact Run.bind_panic (hfault _)
  · cases ha

theorem uvmunmap_fault (hv : v < 2 ^ 18) (doFree : Bool) :
    @uvmunmapFrom .riscv r doFree (k + 1) (v * PGSIZE) s = .panic "kerneltrap" :=
  Run.bind_panic (walk_fault hok ht hroot (by unfold PGSIZE; omega) false)

theorem mappages_fault (hv : v < 2 ^ 18) (size pa : Nat) (perm : BitVec 64) :
    @mappages .riscv r (v * PGSIZE) size pa perm s = .panic "kerneltrap" := by
  refine Run.bind_panic (walk_fault hok ht hroot ?_ true)
  unfold pgRoundDown PGSIZE
  omega

/-- A page is free, but there is no way to the table in which it is to be mapped. -/
theorem uvmalloc_fault (hfree : s.free ≠ []) (hv : v < 2 ^ 18) :
    @uvmallocFrom .riscv r oldsz newsz (k + 1) (v * PGSIZE) s = .panic "kerneltrap" := by
  obtain ⟨c, l, hfree⟩ := List.exists_cons_of_ne_nil hfree
  have htake := Phys.Moved.taken hok hfree fun _ => 0
  refine (@newPage_cons .riscv _ _ _ _ _ _ _ _ (fill · 0) _ _ hok hfree rfl).trans (Run.bind_panic ?_)
  exact mappages_fault htake.ok (ht.frame htake fun _ _ => not_false).1 (by rwa [ht.next_taken hfree]) hv PGSIZE c _

/-- The second page cannot be mapped, and the first one cannot be given back. -/
theorem uvmalloc_second : @uvmallocFrom .riscv r 0 newsz (k + 1) PGSIZE s = .panic "kerneltrap" := by
  by_cases hfree : s.free = []
  · refine (uvmalloc_nil hfree).trans (Run.bind_panic ?_)
    rw [@uvmdealloc_eq r PGSIZE 0 .riscv (by decide) (by decide)]
    exact Run.bind_panic (uvmunmap_fault (v := 0) hok ht hroot (by decide) true)
  · exact uvmalloc_fault (v := 1) hok ht hroot hfree (by decide)

end Fault

section Grow

variable {s : Phys} {r psz : Nat} {n : Int}

theorem toUint_natCast {m : Nat} (h : m < 2 ^ 32) : toUint m = m := by
  unfold toUint
  omega

/-- The table of the first gigabyte is there if there is memory. -/
theorem Space.root {m : Nat} (hs : Space s r m) (hpos : 0 < m) : (s.next r 0).isSome := by
  have hvalid := (hs.pages.leaf 0 (Nat.le_refl 0) (by omega)).1
  by_contra hnone
  rw [Option.not_isSome_iff_eq_none] at hnone
  have hleaf : s.leaf r 0 = none := by
    simp [Phys.leaf, path, Radix.follow, hnone]
  unfold Phys.map at hvalid
  rw [hleaf] at hvalid
  exact not_has_zero PTE_V hvalid

/-- A call that changes nothing but the size. -/
theorem grows_iff {ret : Int} {sz : Nat} (h : @growproc .riscv r psz n s = .ok (ret, sz) s) :
    GrowsTruly s r psz n ↔ ret = 0 ∧ (sz : Int) = psz + n ∧ Space s r (pagesOf sz) ∨ ret = -1 ∧ sz = psz := by
  constructor
  · rintro ⟨ret', sz', s', hrun, htrue⟩
    cases h.symm.trans hrun
    exact htrue.imp (fun h => ⟨h.1, h.2.1, h.2.2.1⟩) fun h => ⟨h.1, h.2.1⟩
  · intro htrue
    exact ⟨ret, sz, s, h, htrue.imp (fun h => ⟨h.1, h.2.1, h.2.2, fun _ _ _ => rfl⟩)
      fun h => ⟨h.1, h.2, fun _ _ => Or.inl rfl⟩⟩

theorem not_grows {msg : String} (h : @growproc .riscv r psz n s = .panic msg) : ¬ GrowsTruly s r psz n := by
  rintro ⟨ret, sz, s', hrun, -⟩
  rw [h] at hrun
  cases hrun

section Size

variable (hsz : psz ≤ 2 ^ 27) {new : Nat} (hnew : (new : Int) = psz + n)
include hsz hnew

theorem growproc_eq (hup : 0 < n) (hn : n < 2 ^ 31) : @growproc .riscv r psz n s =
    (@uvmallocFrom .riscv r (pagesOf psz * PGSIZE) new (pagesOf new - pagesOf psz) (pagesOf psz * PGSIZE) >>= fun r =>
      if r % 2 ^ 32 = 0 then pure (-1, psz) else pure (0, r % 2 ^ 32)) s := by
  unfold growproc
  rw [if_pos hup, Nat.mod_eq_of_lt (show psz < 2 ^ 32 by omega), ← hnew, toUint_natCast (by omega),
    @uvmalloc_eq r psz new .riscv (by omega) (by unfold PGSIZE; omega)]

variable (hok : s.Ok) (hs : Space s r (pagesOf psz))
include hok hs

theorem growproc_up (hup : 0 < n) (hn : n < 2 ^ 31) (hroot : s.free ≠ [] → (s.next r 0).isSome) :
    @growproc .riscv r psz n s = if pagesOf new = pagesOf psz then .ok (0, new) s
      else if s.free = [] then .ok (-1, psz) s else .panic "kerneltrap" := by
  have hmod : new % 2 ^ 32 = new := Nat.mod_eq_of_lt (by omega)
  have hpages : pagesOf psz ≤ pagesOf new := Nat.div_le_div_right (by omega)
  rw [growproc_eq hsz hnew hup hn]
  cases hk : pagesOf new - pagesOf psz with
  | zero =>
    rw [if_pos (by omega), Run.bind_ok (show @uvmallocFrom .riscv _ _ _ 0 _ s = .ok new s from rfl), hmod,
      if_neg (by omega)]
    rfl
  | succ k =>
    rw [if_neg (by omega)]
    split
    · rename_i hfree
      exact Run.bind_ok ((uvmalloc_nil hfree).trans (Run.bind_ok uvmdealloc_self))
    · rename_i hfree
      exact Run.bind_panic (uvmalloc_fault hok hs.tables (hroot hfree) hfree (by unfold pagesOf PGSIZE; omega))

theorem growproc_down (hdown : n < 0) : @growproc .riscv r psz n s =
    if pagesOf new = pagesOf psz then .ok (0, new) s else .panic "kerneltrap" := by
  have hpages : pagesOf new ≤ pagesOf psz := Nat.div_le_div_right (by omega)
  unfold growproc
  rw [if_neg (by omega), if_pos hdown, Nat.mod_eq_of_lt (show psz < 2 ^ 32 by omega), ← hnew, toUint_natCast (by omega),
    @uvmdealloc_eq r psz new .riscv (by omega) (by unfold pagesOf PGSIZE VPAGES; omega)]
  cases hk : pagesOf psz - pagesOf new with
  | zero =>
    rw [if_pos (by omega)]
    show Outcome.ok ((0 : Int), new % 2 ^ 32) s = _
    rw [Nat.mod_eq_of_lt (by omega)]
  | succ k =>
    rw [if_neg (by omega)]
    exact Run.bind_panic (Run.bind_panic (uvmunmap_fault hok hs.tables (hs.root (by unfold pagesOf PGSIZE; omega))
      (by unfold pagesOf PGSIZE at *; omega) true))

end Size

/-- The first page is mapped if there are pages for the two tables. -/
theorem mappages_new (hok : s.Ok) (ht : s.Tables r) (hnone : s.next r 0 = none) (hempty : ¬ Has (s.map r 0) PTE_V)
    (pa : Nat) (perm : BitVec 64) :
    ∃ ret s', (∀ m : Mmu, (∀ a, s.Ram a → m.mem a) → @mappages m r 0 PGSIZE pa perm s = .ok ret s') ∧
      (ret = 0 ↔ 2 ≤ s.free.length) := by
  obtain ⟨o, s', -, hgrew, -, hslot, hnew⟩ := walk_true hok ht (show 0 < MAXVA by decide)
  obtain ⟨hfull, hwalk⟩ := hnew hnone
  cases o with
  | none =>
    exact ⟨-1, s', fun m hm => Run.bind_ok (hwalk m hm), iff_of_false (by decide) (Nat.not_le.2 (hfull.1 rfl))⟩
  | some slot =>
    obtain ⟨t, i⟩ := slot
    rw [Nat.zero_div] at hslot
    obtain ⟨rfl, hleaf⟩ := hslot _ rfl
    have hram : s.Ram t := hgrew.moved.ram.1 (hgrew.tables.ram t (Phys.leaf_table hleaf))
    rw [← hgrew.map, map_of_leaf hleaf] at hempty
    refine ⟨0, s'.setPte (t, 0) (entry pa perm), fun m hm => ?_,
      iff_of_true rfl (Nat.not_lt.1 fun h => Option.some_ne_none _ (hfull.2 h))⟩
    refine (Run.bind_ok (hwalk m hm)).trans ?_
    show (load (t, 0) >>= _) s' = _
    rw [Run.bind_ok (load_ok (hm t hram)), if_neg hempty, Run.bind_ok (store_ok (hm t hram) _)]
    rfl

/-- The first turn of the loop of `uvmalloc`. -/
theorem uvmalloc_new (hok : s.Ok) (hs : Space s r (pagesOf 0)) (hnone : s.next r 0 = none) (hfree : s.free ≠ [])
    (newsz k : Nat) : ∃ s', s.free.length < 3 ∧ Rolled s r 0 0 s' ∧ @uvmallocFrom .riscv r 0 newsz (k + 1) 0 s = .ok 0 s' ∨
      3 ≤ s.free.length ∧ s'.Ok ∧ Space s' r 1 ∧
        @uvmallocFrom .riscv r 0 newsz (k + 1) 0 s = @uvmallocFrom .riscv r 0 newsz k PGSIZE s' := by
  obtain ⟨c, l, hfree⟩ := List.exists_cons_of_ne_nil hfree
  have htake := Phys.Moved.taken hok hfree fun _ => 0
  obtain ⟨ht, hmap, -⟩ := hs.tables.frame htake fun _ _ => not_false
  obtain ⟨ret, s₁, hmaps, hret⟩ := mappages_new htake.ok ht (by rwa [hs.tables.next_taken hfree])
    (by rw [hmap]; exact hs.empty 0 (Nat.le_refl 0) (by decide)) c userFlags
  have hlen : ret = 0 ↔ 3 ≤ s.free.length := by
    rw [hret, hfree]
    exact Nat.succ_le_succ_iff.symm
  have hturn : ∀ (m : Mmu) (newsz k : Nat), (∀ a, s.Ram a → m.mem a) → @uvmallocFrom m r 0 newsz (k + 1) 0 s =
      (if ret ≠ 0 then kfree c >>= fun _ => pure 0 else @uvmallocFrom m r 0 newsz k PGSIZE) s₁ := fun m newsz k hm =>
    (@newPage_cons m _ _ _ _ _ _ _ _ (fill · 0) _ _ hok hfree rfl).trans (Run.bind_ok (hmaps m hm))
  have hriscv := hturn .riscv newsz k fun _ => hok.mem
  -- with the tables as they should be, it is all of the loop if there is one page to map
  obtain ⟨s', ⟨hrun, hrolled⟩ | ⟨hrun, hext⟩⟩ := uvmalloc_spec hok hs (Nat.zero_le 1) (by decide)
  all_goals
    have hrun := (hturn _ 1 0 fun _ _ => rfl).symm.trans hrun
    split_ifs at hrun hriscv with hzero
  · exact ⟨s', Or.inl ⟨by omega, hrolled, hriscv.trans hrun⟩⟩
  · cases hrun
  · obtain ⟨_, _, -, hone⟩ := Run.bind_eq_ok.1 hrun
    cases hone
  · cases hrun
    exact ⟨s₁, Or.inr ⟨by omega, hext.moved.ok, hext.space hs (by decide), hriscv⟩⟩

/-- The tables on the way to the first page are new, and those of the second are in the way. -/
theorem growproc_first (hok : s.Ok) (hs : Space s r (pagesOf 0)) (hnone : s.next r 0 = none) (hfree : s.free ≠ []) (hup : 0 < n)
    (hn : n < 2 ^ 31) : GrowsTruly s r 0 n ↔ s.free.length < 3 ∨ n ≤ PGSIZE := by
  obtain ⟨new, rfl⟩ := Int.eq_ofNat_of_zero_le hup.le
  have hmod : new % 2 ^ 32 = new := Nat.mod_eq_of_lt (by omega)
  have hgrow := growproc_eq (s := s) (r := r) (Nat.zero_le _) (Int.zero_add _).symm hup hn
  obtain ⟨k, hk⟩ : ∃ k, pagesOf new = k + 1 := Nat.exists_eq_add_one_of_ne_zero (by unfold pagesOf PGSIZE; omega)
  rw [show pagesOf 0 = 0 from rfl, Nat.zero_mul, hk, Nat.sub_zero] at hgrow
  obtain ⟨s', ⟨hlen, hrolled, hrun⟩ | ⟨hlen, hok', hspace, hrun⟩⟩ := uvmalloc_new hok hs hnone hfree new k
  · rw [Run.bind_ok hrun] at hgrow
    refine iff_of_true ⟨-1, 0, s', hgrow, Or.inr ⟨rfl, rfl, fun w hw => ?_⟩⟩ (Or.inl hlen)
    have hsame := hrolled.map w hw
    rwa [unmapped_of_not (by omega)] at hsame
  · cases k with
    | zero =>
      rw [Run.bind_ok (hrun.trans rfl), hmod, if_neg (by omega)] at hgrow
      refine iff_of_true ⟨0, new, s', hgrow, Or.inl ⟨rfl, (Int.zero_add _).symm, ?_, fun va hva => absurd hva va.not_lt_zero⟩⟩
        (Or.inr ?_)
      · rwa [hk]
      · unfold pagesOf PGSIZE at *
        omega
    | succ k =>
      have hpanic := hrun.trans (uvmalloc_second hok' hspace.tables (hspace.root Nat.one_pos))
      refine iff_of_false (not_grows (hgrow.trans (Run.bind_panic hpanic))) ?_
      unfold pagesOf PGSIZE at *
      omega

/-- **`growproc`, as it is written.** It does what it reports just if it does not shrink memory by more than there is,
and either has no page to map or to free, or finds no free page, or has a first page to map or not enough memory for
it. -/
theorem growproc_true_iff (hok : s.Ok) (hs : Space s r (pagesOf psz)) (hn : -2 ^ 31 ≤ n ∧ n < 2 ^ 31) :
    GrowsTruly s r psz n ↔ 0 ≤ psz + n ∧ (pagesOf (psz + n).toNat = pagesOf psz ∨
      0 < n ∧ (s.free = [] ∨ s.next r 0 = none ∧ (s.free.length < 3 ∨ n ≤ PGSIZE))) := by
  have hpages := hs.pages.le hok
  rw [show RAMPAGES = 2 ^ 15 by decide] at hpages
  have hsz : psz ≤ 2 ^ 27 := by
    unfold pagesOf PGSIZE at hpages
    omega
  have hmod : psz % 2 ^ 32 = psz := Nat.mod_eq_of_lt (by omega)
  by_cases hsum : 0 ≤ psz + n
  · by_cases hfirst : 0 < n ∧ s.free ≠ [] ∧ s.next r 0 = none
    · obtain ⟨hup, hfree, hnone⟩ := hfirst
      obtain rfl : psz = 0 := by
        by_contra hpos
        have hroot := hs.root (by unfold pagesOf PGSIZE; omega)
        rw [hnone] at hroot
        cases hroot
      have hmore : pagesOf n.toNat ≠ pagesOf 0 := by
        unfold pagesOf PGSIZE
        omega
      rw [growproc_first hok hs hnone hfree hup hn.2]
      simp [hup, hup.le, hnone, hfree, hmore]
    obtain ⟨new, hnew⟩ := Int.eq_ofNat_of_zero_le hsum
    have htoNat : (psz + n).toNat = new := by omega
    rw [htoNat]
    have hrun : @growproc .riscv r psz n s = if pagesOf new = pagesOf psz then .ok (0, new) s
        else if 0 < n ∧ s.free = [] then .ok (-1, psz) s else .panic "kerneltrap" := by
      rcases lt_trichotomy n 0 with hdown | rfl | hup
      · rw [growproc_down hsz hnew.symm hok hs hdown]
        simp [Int.not_lt.2 hdown.le]
      · obtain rfl : psz = new := by omega
        unfold growproc
        rw [if_pos rfl, hmod]
        rfl
      · rw [growproc_up hsz hnew.symm hok hs hup hn.2
          fun hfree => Option.isSome_iff_ne_none.2 fun hnone => hfirst ⟨hup, hfree, hnone⟩]
        simp [hup]
    split_ifs at hrun with hsame hnone
    · rw [grows_iff hrun]
      simp [hnew, hsame, hs]
    · rw [grows_iff hrun]
      simp [hsum, hnone]
    · exact iff_of_false (not_grows hrun) (by tauto)
  · -- the sum wraps around to a size above the old one, and `uvmdealloc` does nothing
    have hwrap : psz ≤ toUint (psz + n) := by
      unfold toUint
      omega
    have hrun : @growproc .riscv r psz n s = .ok (0, psz) s := by
      unfold growproc uvmdealloc
      rw [hmod, if_neg (by omega), if_pos (by omega), if_pos hwrap]
      show Outcome.ok (0, psz % 2 ^ 32) s = _
      rw [hmod]
    rw [grows_iff hrun]
    exact iff_of_false (by omega) fun h => hsum h.1

/-- A process with a page of memory gets the rest of it. -/
theorem growproc_true_iff_rest : ∃ s, s.Ok ∧ Space s 0x80001000 1 ∧ GrowsTruly s 0x80001000 1 4095 := by
  obtain ⟨s, hext⟩ := exists_onePage
  have hs : Space s 0x80001000 (pagesOf 1) := hext.space blank_space (by decide)
  exact ⟨s, hext.moved.ok, hs, (growproc_true_iff hext.moved.ok hs (by decide)).2 ⟨by decide, Or.inl rfl⟩⟩

/-- A process with a byte of memory is told that it got rid of two. -/
theorem growproc_below_zero : ∃ s, s.Ok ∧ Space s 0x80001000 1 ∧
    @growproc .riscv 0x80001000 1 (-2) s = .ok (0, 1) s ∧ ¬ GrowsTruly s 0x80001000 1 (-2) := by
  obtain ⟨s, hext⟩ := exists_onePage
  have hrun : @growproc .riscv 0x80001000 1 (-2) s = .ok (0, 1) s := rfl
  refine ⟨s, hext.moved.ok, hext.space blank_space (by decide), hrun, ?_⟩
  rw [grows_iff hrun]
  omega

end Grow

end Xv6
