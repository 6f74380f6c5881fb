import Xv6.Vm.Map
import Mathlib.Data.Fintype.Card

/-! User memory that grows page by page. `uvmalloc` and `uvmcopy` take a page, fill it and map it; where a page or a
table is not to be had, they give back what they took. -/

namespace Xv6

open Lib Pte Radix Function

/-! ### A page is taken or given back -/

namespace Phys

variable {s s' : Phys} {r a : Nat} {l : List Nat}

/-- A page is given back. -/
theorem Moved.give (hok : s.Ok) (hram : s.Ram a) (hfree : a ∉ s.free) : Moved s (s.freed a) (· = a) fun _ => False := by
  refine ⟨hok.cons rfl rfl hram hfree, rfl, ?_, nofun, ?_⟩
  · intro x
    show x ∈ a :: s.free ∨ False ↔ _
    rw [List.mem_cons, or_false, or_comm]
  · intro x _ hx
    exact page_setPage_of_ne hx

theorem Moved.add_table (h : Moved s s' (fun _ => False) (· = a)) (ht : s.Tables r) :
    Moved s s' (s.Table r) fun x => s.Table r x ∨ x = a := by
  refine (h.add (B := s.Table r) fun x hx => ⟨ht.apart x hx, not_false⟩).congr ?_ ?_
  · intro x
    rw [false_or]
  · intro x
    exact or_comm

end Phys

/-- The body of the loops of `uvmalloc` and `uvmcopy`. -/
def newPage [Mmu] {α : Type} (pagetable a : Nat) (perm : BitVec 64) (put : Nat → VmM Unit) (fail rest : VmM α) : VmM α := do
  let mem ← kalloc
  if mem = 0 then fail
  else do
    put mem
    let r ← mappages pagetable a PGSIZE mem perm
    if r ≠ 0 then do
      kfree mem
      fail
    else rest

theorem newPage_cons [Mmu] {α : Type} {s : Phys} {r a c : Nat} {l : List Nat} {perm : BitVec 64} {b : Bytes PGSIZE}
    {put : Nat → VmM Unit} {fail rest : VmM α} (hok : s.Ok) (hfree : s.free = c :: l)
    (hput : put c ({ s with free := l }.setPage c fun _ => 5) = .ok () (s.taken c l b)) :
    newPage r a perm put fail rest s =
      (mappages r a PGSIZE c perm >>= fun r => if r ≠ 0 then kfree c >>= fun _ => fail else rest) (s.taken c l b) := by
  have hram := hok.ram c (by rw [hfree]; exact List.mem_cons_self ..)
  rw [newPage, Run.bind_ok (show kalloc s = .ok c _ by rw [kalloc, hfree]), if_neg (hram.pos hok), Run.bind_ok hput]

/-- A new page `c` with content `b` is mapped at virtual page `v`. -/
structure Added (s : Phys) (r v : Nat) (perm : BitVec 64) (b : Bytes PGSIZE) (s' : Phys) (c : Nat) : Prop where
  tables : s'.Tables r
  moved : Phys.Moved s s' (s.Table r) fun a => s'.Table r a ∨ a = c
  new : c ∈ s.free
  grow : ∀ a, s.Table r a → s'.Table r a
  apart : ¬ s'.Table r c
  page : s'.page c = b
  map : ∀ w, w < VPAGES → s'.map r w = update (s.map r) v (entry c perm) w

/-- The page table is as it was, up to new tables. -/
structure Undone (s : Phys) (r : Nat) (s' : Phys) : Prop where
  tables : s'.Tables r
  moved : Phys.Moved s s' (s.Table r) (s'.Table r)
  map : ∀ w, w < VPAGES → s'.map r w = s.map r w

section Add

variable {s s' : Phys} {r v n c : Nat} {perm : BitVec 64} {b : Bytes PGSIZE}

theorem newPage_spec {α : Type} {put : Nat → VmM Unit} (fail rest : VmM α) (hok : s.Ok) (ht : s.Tables r)
    (hput : ∀ (s₁ : Phys) c, c ∈ s.free → (∀ a, a ≠ c → s₁.page a = s.page a) → put c s₁ = .ok () (s₁.setPage c b))
    (hv : v < VPAGES) (hnone : ¬ Has (s.map r v) PTE_V) (perm : BitVec 64) :
    ∃ s', Undone s r s' ∧ newPage r (v * PGSIZE) perm put fail rest s = fail s' ∨
      ∃ c, Added s r v perm b s' c ∧ newPage r (v * PGSIZE) perm put fail rest s = rest s' := by
  cases hfree : s.free with
  | nil =>
    refine ⟨s, Or.inl ⟨⟨ht, .refl hok ht.apart, fun _ _ => rfl⟩, ?_⟩⟩
    rw [newPage, Run.bind_ok (show kalloc s = .ok 0 s by rw [kalloc, hfree])]
    rfl
  | cons c l =>
    have hmem : c ∈ s.free := by
      rw [hfree]
      exact List.mem_cons_self ..
    have hram := hok.ram c hmem
    have htake := Phys.Moved.taken hok hfree b
    obtain ⟨ht₂, hmap₂, htable₂⟩ := ht.frame htake fun _ _ => not_false
    obtain ⟨ret, s', hrun, ht', hmoved, hgrow, hret⟩ := mappages_one htake.ok ht₂ (Nat.lt_trans hram.lt (by decide)) perm hv
      (by rw [hmap₂]; exact hnone)
    have hother : ∀ a, a = c → a ∉ (s.taken c l b).free ∧ ¬ (s.taken c l b).Table r a := by
      rintro a rfl
      exact ⟨htake.apart a rfl, fun h => ht.apart a ((htable₂ a).1 h) hmem⟩
    have hall : Phys.Moved s s' (s.Table r) fun a => s'.Table r a ∨ a = c := by
      refine (htake.add_table ht).trans ((hmoved.add (B := (· = c)) hother).congr ?_ fun _ => Iff.rfl)
      intro a
      rw [htable₂]
    have hc := hmoved.outside (hother c rfl).1 (hother c rfl).2
    have hstep : newPage r (v * PGSIZE) perm put fail rest s =
        (if ret ≠ 0 then kfree c >>= fun _ => fail else rest) s' := by
      rw [newPage_cons hok hfree (hput _ c hmem fun a ha => Phys.page_setPage_of_ne ha), Run.bind_ok hrun]
    rcases hret with ⟨rfl, hmap'⟩ | ⟨rfl, -, hmap'⟩
    · refine ⟨s', Or.inr ⟨c, ⟨ht', hall, hmem, fun a ha => hgrow a ((htable₂ a).2 ha), hc.2, ?_, ?_⟩, hstep⟩⟩
      · rw [hmoved.frame c (hother c rfl).1 (hother c rfl).2, Phys.taken, Phys.page_setPage_self]
      · intro w hw
        rw [hmap' w hw, show (s.taken c l b).map r = s.map r from funext hmap₂]
    · obtain ⟨ht₃, hmap₃, htable₃⟩ := ht'.freed hc.2
      have hram' : s'.Ram c := hall.ram.2 hram
      refine ⟨s'.freed c, Or.inl ⟨⟨ht₃, ?_, ?_⟩, ?_⟩⟩
      · refine hall.trans (((Phys.Moved.give hall.ok hram' hc.1).add (B := s'.Table r) ?_).congr ?_ ?_)
        · intro a ha
          refine ⟨ht'.apart a ha, ?_⟩
          rintro rfl
          exact hc.2 ha
        · intro a
          exact or_comm
        · intro a
          rw [htable₃, false_or]
      · intro w hw
        rw [hmap₃, hmap' w hw, hmap₂]
      · rw [hstep, if_pos (by decide), Run.bind_ok (kfree_ram hram')]

/-- Pages that are in use stay where they are. -/
theorem Phys.Pages.keep {A B : Nat → Prop} (hp : s.Pages r v n) (hm : Phys.Moved s s' A B)
    (hA : ∀ a, s.Data r v n a → ¬ A a) (hB : ∀ a, s'.Table r a → B a) (hmap : ∀ w, v ≤ w → w < v + n → s'.map r w = s.map r w) :
    s'.Pages r v n ∧ ∀ a, s'.Data r v n a ↔ s.Data r v n a := by
  have hdata : ∀ a, s'.Data r v n a ↔ s.Data r v n a := by
    intro a
    apply exists_congr
    intro w
    constructor
    · rintro ⟨hw, hw', ha⟩
      rw [hmap w hw hw'] at ha
      exact ⟨hw, hw', ha⟩
    · rintro ⟨hw, hw', ha⟩
      rw [← hmap w hw hw'] at ha
      exact ⟨hw, hw', ha⟩
  refine ⟨⟨?_, ?_, ?_⟩, hdata⟩
  · intro w hw hw'
    rw [hmap w hw hw']
    exact hp.leaf w hw hw'
  · intro a ha
    obtain ⟨hram, hfree, -⟩ := hp.own a ((hdata a).1 ha)
    obtain ⟨hfree', hB'⟩ := hm.outside hfree (hA a ((hdata a).1 ha))
    exact ⟨hm.ram.2 hram, hfree', fun h => hB' (hB a h)⟩
  · intro w w' hw₁ hw₂ hw₁' hw₂' heq
    rw [hmap w hw₁ hw₂, hmap w' hw₁' hw₂'] at heq
    exact hp.inj w w' hw₁ hw₂ hw₁' hw₂' heq

theorem data_zero (a : Nat) : ¬ s.Data r v 0 a := by
  rintro ⟨w, hw, hw', -⟩
  omega

theorem data_one (a : Nat) : s.Data r v 1 a ↔ addr (s.map r v) = a := by
  constructor
  · rintro ⟨w, hw, hw', ha⟩
    rwa [show w = v by omega] at ha
  · intro ha
    exact ⟨v, Nat.le_refl v, by omega, ha⟩

theorem data_append {m : Nat} (a : Nat) : s.Data r v (n + m) a ↔ s.Data r v n a ∨ s.Data r (v + n) m a := by
  constructor
  · rintro ⟨w, hw, hw', ha⟩
    by_cases hlt : w < v + n
    · exact Or.inl ⟨w, hw, hlt, ha⟩
    · exact Or.inr ⟨w, by omega, by omega, ha⟩
  · rintro (⟨w, hw, hw', ha⟩ | ⟨w, hw, hw', ha⟩)
    · exact ⟨w, hw, by omega, ha⟩
    · exact ⟨w, by omega, by omega, ha⟩

namespace Phys.Pages

theorem zero : s.Pages r v 0 :=
  ⟨fun w hw hw' => by omega, fun a ha => absurd ha (data_zero a), fun w w' hw hw' => by omega⟩

theorem one (hleaf : Leaf (s.map r v)) (hram : s.Ram (addr (s.map r v))) (hfree : addr (s.map r v) ∉ s.free)
    (htable : ¬ s.Table r (addr (s.map r v))) : s.Pages r v 1 := by
  refine ⟨?_, ?_, fun w w' hw hw' hw₁ hw₂ _ => by omega⟩
  · intro w hw hw'
    rwa [show w = v by omega]
  · intro a ha
    rw [data_one] at ha
    rw [← ha]
    exact ⟨hram, hfree, htable⟩

/-- Pages and other pages after them. -/
theorem append {m : Nat} (h : s.Pages r v n) (h' : s.Pages r (v + n) m)
    (hne : ∀ a, s.Data r v n a → ¬ s.Data r (v + n) m a) : s.Pages r v (n + m) := by
  refine ⟨?_, ?_, ?_⟩
  · intro w hw hw'
    by_cases hlt : w < v + n
    · exact h.leaf w hw hlt
    · exact h'.leaf w (by omega) (by omega)
  · intro a ha
    exact ((data_append a).1 ha).elim (h.own a) (h'.own a)
  · intro w w' hw₁ hw₂ hw₁' hw₂' heq
    by_cases hlt : w < v + n
    · by_cases hlt' : w' < v + n
      · exact h.inj w w' hw₁ hlt hw₁' hlt' heq
      · exact absurd ⟨w', by omega, by omega, rfl⟩ (hne _ ⟨w, hw₁, hlt, heq⟩)
    · by_cases hlt' : w' < v + n
      · exact absurd ⟨w, by omega, by omega, rfl⟩ (hne _ ⟨w', hw₁', hlt', heq.symm⟩)
      · exact h'.inj w w' (by omega) (by omega) (by omega) (by omega) heq

theorem sub {v' n' : Nat} (hp : s.Pages r v n) (hv : v ≤ v') (hn : v' + n' ≤ v + n) : s.Pages r v' n' := by
  refine ⟨fun w hw hw' => hp.leaf w (by omega) (by omega), ?_, ?_⟩
  · rintro a ⟨w, hw, hw', ha⟩
    exact hp.own a ⟨w, by omega, by omega, ha⟩
  · intro w w' hw₁ hw₂ hw₁' hw₂'
    exact hp.inj w w' (by omega) (by omega) (by omega) (by omega)

end Phys.Pages

/-- The new page by itself. -/
theorem Added.one (h : Added s r v perm b s' c) (hok : s.Ok) (hv : v < VPAGES) (hperm : perm.toNat < 2 ^ 10)
    (hne : perm ||| PTE_V ≠ PTE_V) : s'.Pages r v 1 ∧ addr (s'.map r v) = c := by
  have hram := hok.ram c h.new
  have hmap : s'.map r v = entry c perm := by rw [h.map v hv, update_self]
  have haddr : addr (s'.map r v) = c := by rw [hmap, addr_entry hram.1 hram.lt hperm]
  refine ⟨.one ?_ ?_ ?_ ?_, haddr⟩
  · rw [hmap]
    exact leaf_entry hram.lt hperm hne
  · rw [haddr]
    exact h.moved.ram.2 hram
  · rw [haddr]
    exact h.moved.apart c (Or.inr rfl)
  · rw [haddr]
    exact h.apart

/-- The new page comes after others. -/
theorem Added.pages (h : Added s r (v + n) perm b s' c) (hok : s.Ok) (hv : v + n < VPAGES) (hp : s.Pages r v n)
    (hperm : perm.toNat < 2 ^ 10) (hne : perm ||| PTE_V ≠ PTE_V) :
    s'.Pages r v (n + 1) ∧ ∀ a, s'.Data r v (n + 1) a ↔ s.Data r v n a ∨ a = c := by
  obtain ⟨hone, haddr⟩ := h.one hok hv hperm hne
  have hmap : ∀ w, v ≤ w → w < v + n → s'.map r w = s.map r w := by
    intro w _ hw
    rw [h.map w (by omega), update_of_ne (by omega)]
  obtain ⟨hp', hdata⟩ := hp.keep h.moved (fun a ha => (hp.own a ha).2.2) (fun a ha => Or.inl ha) hmap
  constructor
  · refine hp'.append hone fun a ha hnew => ?_
    -- the new page was free, the others were not
    rw [data_one, haddr] at hnew
    rw [hdata, ← hnew] at ha
    exact (hp.own c ha).2.1 h.new
  · intro a
    rw [data_append, hdata, data_one, haddr, eq_comm]

/-- The pages from `v` on were given back. -/
structure Rolled (s : Phys) (r v n : Nat) (s' : Phys) : Prop where
  tables : s'.Tables r
  moved : Phys.Moved s s' (fun a => s.Table r a ∨ s.Data r v n a) (s'.Table r)
  map : ∀ w, w < VPAGES → Same (unmapped (s.map r) v n w) (s'.map r w)

/-- There are `n` new pages from `v` on, with these flags and contents. -/
structure Extended (s : Phys) (r v n : Nat) (perm : Nat → BitVec 64) (b : Nat → Bytes PGSIZE) (s' : Phys) : Prop where
  tables : s'.Tables r
  moved : Phys.Moved s s' (s.Table r) fun a => s'.Table r a ∨ s'.Data r v n a
  pages : s'.Pages r v n
  fresh : ∀ a, s'.Data r v n a → a ∈ s.free
  new : ∀ w, v ≤ w → w < v + n → s'.page (addr (s'.map r w)) = b w ∧ pteFlags (s'.map r w) = perm w ||| PTE_V
  map : ∀ w, w < VPAGES → ¬ (v ≤ w ∧ w < v + n) → s'.map r w = s.map r w

theorem unmapped_of_lt {m : Nat → BitVec 64} {w : Nat} (h : v ≤ w ∧ w < v + n) : unmapped m v n w = 0#64 := if_pos h

theorem unmapped_of_not {m : Nat → BitVec 64} {w : Nat} (h : ¬ (v ≤ w ∧ w < v + n)) : unmapped m v n w = m w := if_neg h

/-- `uvmunmap` of new pages gives them back. -/
theorem Phys.Pages.rolled (hok : s.Ok) (ht : s.Tables r) (hv : v + n ≤ VPAGES) (hp : s.Pages r v n) :
    ∃ s', uvmunmapFrom r true n (v * PGSIZE) s = .ok () s' ∧ Rolled s r v n s' := by
  obtain ⟨s', hrun, ht', hmoved, -, hmap⟩ := uvmunmapFrom_free n s v hok ht hv hp
  exact ⟨s', hrun, ht', hmoved, fun w hw => Or.inl (hmap w hw).symm⟩

theorem Undone.pages (h : Undone s r s') (hv : v + n ≤ VPAGES) (hp : s.Pages r v n) :
    s'.Pages r v n ∧ ∀ a, s'.Data r v n a ↔ s.Data r v n a :=
  hp.keep h.moved (fun a ha => (hp.own a ha).2.2) (fun _ ha => ha) fun w _ hw => h.map w (by omega)

theorem Undone.rolled {s₁ : Phys} (h : Undone s r s₁) (hv : v + n ≤ VPAGES) (hp : s.Pages r v n) (h' : Rolled s₁ r v n s') :
    Rolled s r v n s' := by
  refine ⟨h'.tables, ?_, ?_⟩
  · refine (h.moved.add (B := s.Data r v n) fun a ha => (hp.own a ha).2).trans (h'.moved.congr ?_ fun _ => Iff.rfl)
    intro a
    rw [(h.pages hv hp).2]
  · intro w hw
    have := h'.map w hw
    unfold unmapped at *
    rwa [h.map w hw] at this

theorem Added.rolled {s₁ : Phys} (h : Added s r (v + n) perm b s₁ c) (hok : s.Ok) (hv : v + n < VPAGES)
    (hp : s.Pages r v n) (hperm : perm.toNat < 2 ^ 10) (hne : perm ||| PTE_V ≠ PTE_V)
    (hnone : ¬ Has (s.map r (v + n)) PTE_V) (h' : Rolled s₁ r v (n + 1) s') : Rolled s r v n s' := by
  refine ⟨h'.tables, ?_, ?_⟩
  · refine (h.moved.add (B := s.Data r v n) fun a ha => (hp.own a ha).2).trans (h'.moved.congr ?_ fun _ => Iff.rfl)
    intro a
    rw [(h.pages hok hv hp hperm hne).2, or_assoc, or_comm (a := a = c)]
  · intro w hw
    refine Same.trans ?_ (h'.map w hw)
    by_cases hin : v ≤ w ∧ w < v + n
    · rw [unmapped_of_lt hin, unmapped_of_lt (by omega)]
      exact Or.inl rfl
    · by_cases hlast : w = v + n
      · rw [unmapped_of_not hin, unmapped_of_lt (by omega), hlast]
        exact Or.inr ⟨hnone, not_has_zero _⟩
      · rw [unmapped_of_not hin, unmapped_of_not (by omega), h.map w hw, update_of_ne hlast]
        exact Or.inl rfl

theorem Extended.zero {perm : Nat → BitVec 64} {b : Nat → Bytes PGSIZE} (hok : s.Ok) (ht : s.Tables r) :
    Extended s r v 0 perm b s := by
  refine ⟨ht, (Phys.Moved.refl hok ht.apart).congr (fun _ => Iff.rfl) fun a => or_iff_left (data_zero a), .zero,
    fun a ha => absurd ha (data_zero a), fun w hw hw' => by omega, fun _ _ _ => rfl⟩

/-- A new page, and more after it. -/
theorem Added.extended {s₁ : Phys} {perm : Nat → BitVec 64} {b : Nat → Bytes PGSIZE}
    (h : Added s r v (perm v) (b v) s₁ c) (hok : s.Ok) (hv : v < VPAGES) (hperm : (perm v).toNat < 2 ^ 10)
    (hne : perm v ||| PTE_V ≠ PTE_V) (h' : Extended s₁ r (v + 1) n perm b s') : Extended s r v (n + 1) perm b s' := by
  have hram := hok.ram c h.new
  obtain ⟨hone, haddr⟩ := h.one hok hv hperm hne
  have hsame : s'.map r v = s₁.map r v := h'.map v hv (by omega)
  have hc := h.moved.apart c (Or.inr rfl)
  obtain ⟨hone', -⟩ := hone.keep h'.moved (fun a ha => (hone.own a ha).2.2) (fun a ha => Or.inl ha) fun w hw hw' => by
    rwa [show w = v by omega]
  have hdata : ∀ a, s'.Data r v (n + 1) a ↔ a = c ∨ s'.Data r (v + 1) n a := by
    intro a
    rw [Nat.add_comm n 1, data_append, data_one, hsame, haddr, eq_comm]
  refine ⟨h'.tables, ?_, ?_, ?_, ?_, ?_⟩
  · refine h.moved.trans ((h'.moved.add (B := (· = c)) ?_).congr (fun _ => Iff.rfl) ?_)
    · rintro a rfl
      exact ⟨hc, h.apart⟩
    · intro a
      rw [hdata, or_assoc, or_comm (a := a = c)]
  · rw [Nat.add_comm n 1]
    refine hone'.append h'.pages fun a ha hnew => ?_
    rw [data_one, hsame, haddr] at ha
    rw [← ha] at hnew
    exact (h'.moved.outside hc h.apart).2 (Or.inr hnew)
  · intro a ha
    rcases (hdata a).1 ha with rfl | ha
    · exact h.new
    · -- a page that was free after the first step was free before
      rcases (h.moved.conserve a).1 (Or.inl (h'.fresh a ha)) with hfree | htable
      · exact hfree
      · exact absurd (h'.fresh a ha) (h.tables.apart a (h.grow a htable))
  · intro w hw hw'
    by_cases hfirst : w = v
    · rw [hfirst, hsame, haddr, h'.moved.frame c hc h.apart, h.page, h.map v hv, update_self, flags_entry hram.lt hperm]
      exact ⟨rfl, rfl⟩
    · exact h'.new w (by omega) (by omega)
  · intro w hw hnot
    rw [h'.map w hw (by omega), h.map w hw, update_of_ne (by omega)]

/-- A turn of a loop that adds a page at virtual page `v`. -/
structure Turn {α : Type} (s : Phys) (r v : Nat) (perm : BitVec 64) (b : Bytes PGSIZE) (body fail rest : VmM α) :
    Prop where
  room : v < VPAGES
  empty : ¬ Has (s.map r v) PTE_V
  flags : perm.toNat < 2 ^ 10
  leaf : perm ||| PTE_V ≠ PTE_V
  body : ∃ put : Nat → VmM Unit,
    (∀ (s₁ : Phys) c, c ∈ s.free → (∀ a, a ≠ c → s₁.page a = s.page a) → put c s₁ = .ok () (s₁.setPage c b)) ∧
      body s = newPage r (v * PGSIZE) perm put fail rest s

/-- A loop that adds pages from `v` on adds them all, or it gives back those that it added. -/
theorem addPages {α : Type} (r v : Nat) (loop : Nat → Nat → VmM α) (fail : Nat → VmM α) (good bad : α)
    (I : Nat → Nat → Phys → Prop) (perm : Nat → BitVec 64) (b : Nat → Bytes PGSIZE)
    (hdone : ∀ k (s : Phys), loop 0 k s = .ok good s)
    (hturn : ∀ m k (s : Phys), s.Ok → s.Pages r v k → I k (m + 1) s →
      Turn s r (v + k) (perm (v + k)) (b (v + k)) (loop (m + 1) k) (fail k) (loop m (k + 1)))
    (hnext : ∀ m k (s s' : Phys) c, I k (m + 1) s → Added s r (v + k) (perm (v + k)) (b (v + k)) s' c → I (k + 1) m s')
    (hfail : ∀ k (s : Phys), s.Ok → s.Tables r → v + k ≤ VPAGES → s.Pages r v k →
      ∃ s', fail k s = .ok bad s' ∧ Rolled s r v k s') :
    ∀ m k (s : Phys), s.Ok → s.Tables r → s.Pages r v k → I k m s → ∃ s', loop m k s = .ok bad s' ∧ Rolled s r v k s' ∨
        loop m k s = .ok good s' ∧ Extended s r (v + k) m perm b s' := by
  intro m
  induction m with
  | zero =>
    intro k s hok ht _ _
    exact ⟨s, Or.inr ⟨hdone k s, .zero hok ht⟩⟩
  | succ m ih =>
    intro k s hok ht hp hI
    obtain ⟨hv, hnone, hperm, hne, put, hput, hbody⟩ := hturn m k s hok hp hI
    rcases newPage_spec (fail k) (loop m (k + 1)) hok ht hput hv hnone (perm (v + k)) with
      ⟨s₁, ⟨hundone, hrun⟩ | ⟨c, hadded, hrun⟩⟩
    · obtain ⟨s', hrun', hrolled⟩ :=
        hfail k s₁ hundone.moved.ok hundone.tables (Nat.le_of_lt hv) (hundone.pages (Nat.le_of_lt hv) hp).1
      refine ⟨s', Or.inl ⟨?_, hundone.rolled (Nat.le_of_lt hv) hp hrolled⟩⟩
      rw [hbody, hrun, hrun']
    · have hp₁ := (hadded.pages hok hv hp hperm hne).1
      rcases ih (k + 1) s₁ hadded.moved.ok hadded.tables hp₁ (hnext m k s s₁ c hI hadded) with
        ⟨s', ⟨hrun', hrolled⟩ | ⟨hrun', hextended⟩⟩
      · refine ⟨s', Or.inl ⟨?_, hadded.rolled hok hv hp hperm hne hnone hrolled⟩⟩
        rw [hbody, hrun, hrun']
      · refine ⟨s', Or.inr ⟨?_, hadded.extended hok hv hperm hne hextended⟩⟩
        rw [hbody, hrun, hrun']

end Add

/-! ### `uvmalloc` -/

/-- A byte of user memory, at the page that the hardware finds. -/
def Phys.byte (s : Phys) (r va : Nat) : UInt8 := (s.page (addr (s.map r (va / PGSIZE)))).get (va % PGSIZE)

/-- The pages of the first `sz` bytes. -/
def pagesOf (sz : Nat) : Nat := (sz + (PGSIZE - 1)) / PGSIZE

/-- The page table has exactly the first `n` pages of user memory, besides `TRAPFRAME` and `TRAMPOLINE`. -/
structure Space (s : Phys) (r n : Nat) : Prop where
  tables : s.Tables r
  pages : s.Pages r 0 n
  empty : ∀ w, n ≤ w → w < VPAGES - 2 → ¬ Has (s.map r w) PTE_V

section Alloc

variable {s s' : Phys} {r v n oldsz newsz : Nat}

theorem pgRoundUp_eq {sz : Nat} (h : sz + PGSIZE ≤ 2 ^ 64) : pgRoundUp sz = pagesOf sz * PGSIZE := by
  unfold pgRoundUp pagesOf
  have : 0 < PGSIZE := by decide
  rw [Nat.mod_eq_of_lt (by omega)]

/-- The number of pages from the kernel's first address to the end of memory. -/
def RAMPAGES : Nat := (PHYSTOP - KERNBASE) / PGSIZE

/-- There are not more pages than memory has. -/
theorem Phys.Pages.le (hok : s.Ok) (hp : s.Pages r v n) : n ≤ RAMPAGES := by
  have hlow : ∀ i, i < n → KERNBASE ≤ addr (s.map r (v + i)) ∧ addr (s.map r (v + i)) < PHYSTOP := by
    intro i hi
    obtain ⟨-, hlow, hhigh⟩ := (hp.own _ ⟨v + i, by omega, by omega, rfl⟩).1
    exact ⟨Nat.le_trans hok.kend hlow, hhigh⟩
  let f : Fin n → Fin RAMPAGES := fun i => ⟨(addr (s.map r (v + i)) - KERNBASE) / PGSIZE, by
    have := hlow i i.isLt
    unfold RAMPAGES
    unfold PHYSTOP KERNBASE PGSIZE at *
    omega⟩
  have hf : Function.Injective f := by
    intro i j hij
    have hi := hlow i i.isLt
    have hj := hlow j j.isLt
    have hi' := addr_mod (s.map r (v + i))
    have hj' := addr_mod (s.map r (v + j))
    have heq := congrArg Fin.val hij
    dsimp only [f] at heq
    have := hp.inj (v + i) (v + j) (by omega) (by omega) (by omega) (by omega) (by unfold KERNBASE PGSIZE at *; omega)
    exact Fin.ext (by omega)
  simpa using Fintype.card_le_of_injective f hf

theorem pagesOf_mul (n : Nat) : pagesOf (n * PGSIZE) = n := by
  unfold pagesOf PGSIZE
  omega

theorem throughInt_of_lt {n : Nat} (h : n < 2 ^ 31) : throughInt n = n := by
  unfold throughInt
  rw [Nat.mod_eq_of_lt (by omega), if_pos h]

theorem uvmdealloc_eq [Mmu] (hlt : newsz < oldsz) (hold : pagesOf oldsz ≤ VPAGES) : uvmdealloc r oldsz newsz =
    uvmunmapFrom r true (pagesOf oldsz - pagesOf newsz) (pagesOf newsz * PGSIZE) >>= fun _ => pure newsz := by
  have hpages : pagesOf newsz ≤ pagesOf oldsz := Nat.div_le_div_right (by omega)
  have hbound : oldsz + PGSIZE ≤ 2 ^ 64 := by
    unfold pagesOf PGSIZE VPAGES at hold
    unfold PGSIZE
    omega
  unfold uvmdealloc
  rw [if_neg (Nat.not_le_of_lt hlt), pgRoundUp_eq hbound, pgRoundUp_eq (by omega)]
  by_cases hsame : pagesOf newsz * PGSIZE < pagesOf oldsz * PGSIZE
  · rw [if_pos hsame, ← Nat.sub_mul, Nat.mul_div_cancel _ (by decide),
      throughInt_of_lt (Nat.lt_of_le_of_lt (Nat.le_trans (Nat.sub_le ..) hold) (by decide)), uvmunmap_eq true (by omega)]
  · have hzero : pagesOf oldsz - pagesOf newsz = 0 := by
      unfold PGSIZE at hsame
      omega
    rw [if_neg hsame, hzero]
    rfl

/-- `uvmdealloc` gives back the pages between the two sizes. -/
theorem uvmdealloc_spec (hok : s.Ok) (ht : s.Tables r) (hle : newsz ≤ oldsz) (hold : pagesOf oldsz ≤ VPAGES)
    (hp : s.Pages r (pagesOf newsz) (pagesOf oldsz - pagesOf newsz)) :
    ∃ s', uvmdealloc r oldsz newsz s = .ok newsz s' ∧ Rolled s r (pagesOf newsz) (pagesOf oldsz - pagesOf newsz) s' := by
  have hpages : pagesOf newsz ≤ pagesOf oldsz := Nat.div_le_div_right (by omega)
  obtain ⟨s', hrun, hrolled⟩ := hp.rolled hok ht (by omega)
  refine ⟨s', ?_, hrolled⟩
  rcases Nat.lt_or_eq_of_le hle with hlt | rfl
  · rw [uvmdealloc_eq hlt hold, Run.bind_ok hrun]
    rfl
  · -- nothing is to be done
    rw [Nat.sub_self] at hrun
    cases hrun
    unfold uvmdealloc
    rw [if_pos (Nat.le_refl _)]
    rfl

/-- The flags of new user pages. -/
def userFlags : BitVec 64 := PTE_W ||| PTE_X ||| PTE_R ||| PTE_U

theorem uvmalloc_eq [Mmu] (hle : oldsz ≤ newsz) (hold : oldsz + PGSIZE ≤ 2 ^ 64) : uvmalloc r oldsz newsz =
    uvmallocFrom r (pagesOf oldsz * PGSIZE) newsz (pagesOf newsz - pagesOf oldsz) (pagesOf oldsz * PGSIZE) := by
  have hcount : (newsz - pagesOf oldsz * PGSIZE + (PGSIZE - 1)) / PGSIZE = pagesOf newsz - pagesOf oldsz := by
    unfold pagesOf PGSIZE
    omega
  unfold uvmalloc
  rw [if_neg (Nat.not_lt.2 hle), pgRoundUp_eq hold, hcount]

theorem uvmalloc_spec (hok : s.Ok) (hs : Space s r (pagesOf oldsz)) (hle : oldsz ≤ newsz) (hnew : newsz < 2 ^ 64) :
    ∃ s', uvmalloc r oldsz newsz s = .ok 0 s' ∧ Rolled s r (pagesOf oldsz) 0 s' ∨
      uvmalloc r oldsz newsz s = .ok newsz s' ∧
        Extended s r (pagesOf oldsz) (pagesOf newsz - pagesOf oldsz) (fun _ => userFlags) (fun _ _ => 0) s' := by
  have hsz := hs.pages.le hok
  have hram : RAMPAGES = 2 ^ 15 := by decide
  have hold : oldsz + PGSIZE ≤ 2 ^ 64 := by
    unfold pagesOf PGSIZE at hsz
    unfold PGSIZE
    omega
  have hloop := addPages r (pagesOf oldsz)
    (fun m k => uvmallocFrom r (pagesOf oldsz * PGSIZE) newsz m ((pagesOf oldsz + k) * PGSIZE))
    (fun k => uvmdealloc r ((pagesOf oldsz + k) * PGSIZE) (pagesOf oldsz * PGSIZE) >>= fun _ => pure 0) newsz 0
    (fun k _ s => ∀ w, pagesOf oldsz + k ≤ w → w < VPAGES - 2 → ¬ Has (s.map r w) PTE_V)
    (fun _ => userFlags) (fun _ _ => 0) (fun _ _ => rfl) ?_ ?_ ?_
    (pagesOf newsz - pagesOf oldsz) 0 s hok hs.tables .zero hs.empty
  · rw [uvmalloc_eq hle hold]
    exact hloop
  · -- there is room below `TRAPFRAME`, because memory has fewer pages
    intro m k s hok hp hI
    have hk := hp.le hok
    have hroom : pagesOf oldsz + k < VPAGES - 2 := by
      unfold VPAGES
      omega
    refine ⟨by omega, hI _ (Nat.le_refl _) hroom, by decide, by decide, fun c => fill c 0, fun s₁ c _ _ => rfl, ?_⟩
    show uvmallocFrom r _ newsz (m + 1) _ s = _
    rw [uvmallocFrom, newPage, ← Nat.add_assoc, Nat.add_mul _ 1, Nat.one_mul]
    rfl
  · intro m k s s' c hI hadded w hw hw'
    rw [hadded.map w (by omega), update_of_ne (by omega)]
    exact hI w (by omega) hw'
  · intro k s hok ht hk hp
    have hspec := @uvmdealloc_spec s r ((pagesOf oldsz + k) * PGSIZE) (pagesOf oldsz * PGSIZE) hok ht
      (Nat.mul_le_mul_right _ (by omega))
    rw [pagesOf_mul, pagesOf_mul, Nat.add_sub_cancel_left] at hspec
    obtain ⟨s', hrun, hrolled⟩ := hspec hk hp
    exact ⟨s', by rw [Run.bind_ok hrun]; rfl, hrolled⟩

/-- The old and the new pages together. -/
theorem Extended.space {perm : Nat → BitVec 64} {b : Nat → Bytes PGSIZE} (h : Extended s r n v perm b s')
    (hs : Space s r n) (hv : n + v ≤ VPAGES) : Space s' r (n + v) := by
  have hold : ∀ w, 0 ≤ w → w < 0 + n → s'.map r w = s.map r w := fun w _ hw => h.map w (by omega) (by omega)
  obtain ⟨hp, hdata⟩ := hs.pages.keep h.moved (fun a ha => (hs.pages.own a ha).2.2) (fun a ha => Or.inl ha) hold
  refine ⟨h.tables, hp.append ?_ ?_, ?_⟩
  · rw [Nat.zero_add]
    exact h.pages
  · -- an old page was not free, so that it is not a new one
    intro a ha hnew
    rw [Nat.zero_add] at hnew
    exact (hs.pages.own a ((hdata a).1 ha)).2.1 (h.fresh a hnew)
  · intro w hw hw'
    rw [h.map w (by omega) (by omega)]
    exact hs.empty w (by omega) hw'

/-- The first pages are left. -/
theorem Rolled.space (h : Rolled s r n v s') (hs : Space s r (n + v)) (hv : n + v ≤ VPAGES) :
    Space s' r n ∧ ∀ w, w < n → s'.map r w = s.map r w ∧ s'.page (addr (s.map r w)) = s.page (addr (s.map r w)) := by
  have hp : s.Pages r 0 n := hs.pages.sub (Nat.le_refl 0) (by omega)
  have hmap : ∀ w, 0 ≤ w → w < 0 + n → s'.map r w = s.map r w := by
    intro w _ hw
    have hsame := h.map w (by omega)
    rw [unmapped_of_not (by omega)] at hsame
    exact hsame.eq (hp.leaf w (Nat.zero_le w) hw).1
  have hA : ∀ a, s.Data r 0 n a → ¬ (s.Table r a ∨ s.Data r n v a) := by
    rintro a ⟨w, -, hw, rfl⟩ (htable | ⟨w', hw₁, hw₂, heq⟩)
    · exact (hp.own _ ⟨w, Nat.zero_le w, hw, rfl⟩).2.2 htable
    · have := hs.pages.inj w' w (Nat.zero_le w') (by omega) (Nat.zero_le w) (by omega) heq
      omega
  refine ⟨⟨h.tables, (hp.keep h.moved hA (fun _ ha => ha) hmap).1, ?_⟩, ?_⟩
  · intro w hw hw'
    refine (h.map w (by omega)).not ?_
    by_cases hin : n ≤ w ∧ w < n + v
    · rw [unmapped_of_lt hin]
      exact not_has_zero _
    · rw [unmapped_of_not hin]
      exact hs.empty w (by omega) hw'
  · intro w hw
    have hdata : s.Data r 0 n (addr (s.map r w)) := ⟨w, Nat.zero_le w, by omega, rfl⟩
    exact ⟨hmap w (Nat.zero_le w) (by omega), h.moved.frame _ (hp.own _ hdata).2.1 (hA _ hdata)⟩

theorem Extended.old {perm : Nat → BitVec 64} {b : Nat → Bytes PGSIZE} (h : Extended s r n v perm b s') (hok : s.Ok)
    (hs : Space s r n) :
    ∀ w, w < n → s'.map r w = s.map r w ∧ s'.page (addr (s.map r w)) = s.page (addr (s.map r w)) := by
  intro w hw
  have hle := hs.pages.le hok
  obtain ⟨-, hfree, htable⟩ := hs.pages.own _ ⟨w, Nat.zero_le w, by omega, rfl⟩
  have hlt : w < VPAGES := Nat.lt_of_lt_of_le hw (Nat.le_trans hle (by decide))
  exact ⟨h.map w hlt (by omega), h.moved.frame _ hfree htable⟩

theorem Extended.grown {perm : Nat → BitVec 64} {b : Nat → Bytes PGSIZE}
    (h : Extended s r (pagesOf oldsz) (pagesOf newsz - pagesOf oldsz) perm b s') (hok : s.Ok)
    (hs : Space s r (pagesOf oldsz)) (hle : oldsz ≤ newsz) : Space s' r (pagesOf newsz) := by
  have hpages : pagesOf oldsz ≤ pagesOf newsz := Nat.div_le_div_right (by omega)
  have hle₁ := hs.pages.le hok
  have hle₂ := h.pages.le h.moved.ok
  rw [show RAMPAGES = 2 ^ 15 by decide] at hle₁ hle₂
  have hspace := h.space hs (by unfold VPAGES; omega)
  rwa [show pagesOf oldsz + (pagesOf newsz - pagesOf oldsz) = pagesOf newsz by omega] at hspace

/-- **`uvmalloc` rolls back.** -/
theorem uvmalloc_rolls_back (hok : s.Ok) (hs : Space s r (pagesOf oldsz)) (hle : oldsz ≤ newsz) (hnew : newsz < 2 ^ 64) :
    ∃ ret s', uvmalloc r oldsz newsz s = .ok ret s' ∧ (ret = 0 ∨ ret = newsz) ∧ s'.Ok ∧
      (∀ w, w < pagesOf oldsz → s'.map r w = s.map r w ∧ s'.page (addr (s.map r w)) = s.page (addr (s.map r w))) ∧
      (ret = 0 → (∀ w, w < VPAGES → Same (s.map r w) (s'.map r w)) ∧ ∀ a, a ∈ s.free → a ∈ s'.free ∨ s'.Table r a) ∧
      (ret = newsz → Space s' r (pagesOf newsz) ∧
        (∀ w, pagesOf newsz ≤ w → w < VPAGES → s'.map r w = s.map r w) ∧
        ∀ w, pagesOf oldsz ≤ w → w < pagesOf newsz → addr (s'.map r w) ∈ s.free ∧
          pteFlags (s'.map r w) = PTE_W ||| PTE_X ||| PTE_R ||| PTE_U ||| PTE_V ∧
          s'.page (addr (s'.map r w)) = fun _ => 0) := by
  by_cases hzero : newsz = 0
  · subst hzero
    obtain rfl : oldsz = 0 := Nat.le_zero.1 hle
    refine ⟨0, s, rfl, Or.inl rfl, hok, fun w _ => ⟨rfl, rfl⟩, fun _ => ⟨fun _ _ => Or.inl rfl, fun _ ha => Or.inl ha⟩,
      fun _ => ⟨hs, fun _ _ _ => rfl, fun w hw hw' => by omega⟩⟩
  · have hold := Nat.le_trans (hs.pages.le hok) (show RAMPAGES ≤ VPAGES by decide)
    rcases uvmalloc_spec hok hs hle hnew with ⟨s', ⟨hrun, hrolled⟩ | ⟨hrun, hext⟩⟩
    · refine ⟨0, s', hrun, Or.inl rfl, hrolled.moved.ok, (hrolled.space hs hold).2, fun _ => ⟨?_, ?_⟩,
        fun h => absurd h.symm hzero⟩
      · intro w hw
        have hsame := hrolled.map w hw
        rwa [unmapped_of_not (by omega)] at hsame
      · intro a ha
        exact (hrolled.moved.conserve a).2 (Or.inl ha)
    · have hpages : pagesOf oldsz ≤ pagesOf newsz := Nat.div_le_div_right (by omega)
      refine ⟨newsz, s', hrun, Or.inr rfl, hext.moved.ok, hext.old hok hs, fun h => absurd h hzero,
        fun _ => ⟨hext.grown hok hs hle, ?_, ?_⟩⟩
      · intro w hw hw'
        exact hext.map w hw' (by omega)
      · intro w hw hw'
        obtain ⟨hpage, hflags⟩ := hext.new w hw (by omega)
        exact ⟨hext.fresh _ ⟨w, hw, by omega, rfl⟩, hflags, hpage⟩

theorem blank_space : Space blank 0x80001000 0 := by
  refine ⟨blank_tables, .zero, fun w _ _ => ?_⟩
  rw [(map_empty rfl).2.2]
  exact not_has_zero _

theorem uvmalloc_rolls_back_one : ∃ ret s', uvmalloc 0x80001000 0 1 blank = .ok ret s' ∧ (ret = 0 ∨ ret = 1) := by
  obtain ⟨ret, s', hrun, hret, -⟩ :=
    @uvmalloc_rolls_back blank 0x80001000 0 1 blank_ok blank_space (Nat.zero_le 1) (by decide)
  exact ⟨ret, s', hrun, hret⟩

theorem uvmalloc_blank : (match uvmalloc 0x80001000 0 1 blank with | .ok ret _ => ret | _ => 0) = 1 := rfl

theorem exists_onePage : ∃ s, Extended blank 0x80001000 0 1 (fun _ => userFlags) (fun _ _ => 0) s := by
  have hret := uvmalloc_blank
  rcases @uvmalloc_spec blank 0x80001000 0 1 blank_ok blank_space (Nat.zero_le 1) (by decide) with
    ⟨s, ⟨hrun, -⟩ | ⟨-, hext⟩⟩
  · rw [hrun] at hret
    exact absurd hret Nat.zero_ne_one
  · exact ⟨s, hext⟩

/-- **Growing and shrinking back cancel.** No page is lost but to the page table. -/
theorem uvmdealloc_of_uvmalloc (hok : s.Ok) (hs : Space s r (pagesOf oldsz)) (hle : oldsz ≤ newsz) (hnew : newsz < 2 ^ 64)
    (hpos : 0 < newsz) {s₁ : Phys} (hgrow : uvmalloc r oldsz newsz s = .ok newsz s₁) :
    ∃ s', uvmdealloc r newsz oldsz s₁ = .ok oldsz s' ∧ Space s' r (pagesOf oldsz) ∧
      (∀ w, w < pagesOf oldsz → s'.map r w = s.map r w ∧ s'.page (addr (s.map r w)) = s.page (addr (s.map r w))) ∧
      ∀ a, a ∈ s'.free ∨ s'.Table r a ↔ a ∈ s.free ∨ s.Table r a := by
  rcases uvmalloc_spec hok hs hle hnew with ⟨s₂, ⟨hrun, -⟩ | ⟨hrun, hext⟩⟩ <;>
    obtain ⟨hret, rfl⟩ := Outcome.ok.inj (hgrow.symm.trans hrun)
  · omega
  · have hspace := hext.grown hok hs hle
    have hbound := Nat.le_trans (hspace.pages.le hext.moved.ok) (show RAMPAGES ≤ VPAGES by decide)
    have hpages : pagesOf oldsz ≤ pagesOf newsz := Nat.div_le_div_right (by omega)
    obtain ⟨s', hshrink, hrolled⟩ := uvmdealloc_spec hext.moved.ok hext.tables hle hbound hext.pages
    rw [← Nat.add_sub_cancel' hpages] at hspace
    obtain ⟨hspace', hkept⟩ := hrolled.space hspace (by omega)
    refine ⟨s', hshrink, hspace', fun w hw => ?_, fun a => (hrolled.moved.conserve a).trans (hext.moved.conserve a)⟩
    obtain ⟨hmap, hpage⟩ := hext.old hok hs w hw
    rw [← hpage, ← hmap]
    exact hkept w hw

theorem uvmdealloc_of_uvmalloc_one :
    ∃ s s', uvmalloc 0x80001000 0 1 blank = .ok 1 s ∧ uvmdealloc 0x80001000 1 0 s = .ok 0 s' := by
  obtain ⟨s', hrun, -⟩ :=
    uvmdealloc_of_uvmalloc blank_ok blank_space (Nat.zero_le 1) (by decide) Nat.one_pos rfl
  exact ⟨_, s', rfl, hrun⟩

end Alloc

end Xv6
