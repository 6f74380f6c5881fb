import Xv6.Vm.Pte
import Xv6.Lib.Solo
import Xv6.Lib.Radix

/-! Physical memory, `kalloc.c`, and entries of page tables. Memory is a page at every page address, and the free list
has the addresses of the free pages. A table has 512 entries of eight bytes. `PTE2PA` is taken to be the
inverse of `PA2PTE`: an address is the number above the ten flags. -/

namespace Xv6

open Lib

/-! ### `riscv.h` and `memlayout.h` -/

def MAXVA : Nat := 2 ^ 38
def KERNBASE : Nat := 0x80000000
def PHYSTOP : Nat := KERNBASE + 128 * 1024 * 1024

def pgRoundUp (sz : Nat) : Nat := (sz + (PGSIZE - 1)) % 2 ^ 64 / PGSIZE * PGSIZE

def pgRoundDown (a : Nat) : Nat := a / PGSIZE * PGSIZE

def px (level va : Nat) : Nat := va >>> (12 + 9 * level) &&& 0x1FF

/-! ### Entries -/

namespace Pte

/-- The address in an entry, with `PTE2PA` as the inverse of `PA2PTE`. -/
def addr (pte : BitVec 64) : Nat := ((pte >>> 10) <<< 12).toNat

/-- `PA2PTE(pa) | perm | PTE_V`. -/
def entry (pa : Nat) (perm : BitVec 64) : BitVec 64 := pa2pte (BitVec.ofNat 64 pa) ||| perm ||| PTE_V

/-- The flag is set. -/
def Has (pte flag : BitVec 64) : Prop := pte &&& flag ≠ 0#64

instance (pte flag : BitVec 64) : Decidable (Has pte flag) := inferInstanceAs (Decidable (_ ≠ _))

end Pte

/-! ### Memory -/

/-- The memory, the free list of `kalloc.c`, and the address `end` after the kernel. -/
structure Phys where
  page : Nat → Bytes PGSIZE
  free : List Nat
  kend : Nat

/-- A `pte_t *`: an entry of a table. -/
abbrev PtePtr := Nat × Nat

namespace Phys

def setPage (s : Phys) (a : Nat) (b : Bytes PGSIZE) : Phys := { s with page := Function.update s.page a b }

def pte (s : Phys) (slot : PtePtr) : BitVec 64 := BitVec.ofNat 64 ((s.page slot.1).getLE (8 * slot.2) 8)

def setPte (s : Phys) (slot : PtePtr) (v : BitVec 64) : Phys :=
  s.setPage slot.1 ((s.page slot.1).setLE (8 * slot.2) 8 v.toNat)

/-- The table that an entry leads to. -/
def next (s : Phys) (t i : Nat) : Option Nat :=
  if Pte.Has (s.pte (t, i)) Pte.PTE_V then some (Pte.addr (s.pte (t, i))) else none

/-- The page may be freed. -/
def Ram (s : Phys) (a : Nat) : Prop := a % PGSIZE = 0 ∧ s.kend ≤ a ∧ a < PHYSTOP

/-- What holds of the free list: it has no page twice, and only pages above the kernel. -/
structure Ok (s : Phys) : Prop where
  nodup : s.free.Nodup
  ram : ∀ a ∈ s.free, s.Ram a
  kend : KERNBASE ≤ s.kend

end Phys

/-! ### `kalloc.c` -/

/-- Kernel code on physical memory. -/
abbrev VmM := Run Phys

def fill (a : Nat) (c : UInt8) : VmM Unit := fun s => .ok () (s.setPage a fun _ => c)

def kalloc : VmM Nat := fun s =>
  match s.free with
  | [] => .ok 0 s
  | a :: l => .ok a ({ s with free := l }.setPage a fun _ => 5)

def kfree (pa : Nat) : VmM Unit := fun s =>
  if pa % PGSIZE ≠ 0 ∨ pa < s.kend ∨ pa ≥ PHYSTOP then .panic "kfree"
  else .ok () ({ s with free := pa :: s.free }.setPage pa fun _ => 1)

/-! ### Accesses to page tables -/

/-- `PTE2PA`, and the addresses with memory behind them. An access elsewhere is a fault, at which `kerneltrap` panics. -/
class Mmu where
  pte2pa : BitVec 64 → Nat
  mem : Nat → Bool

/-- `PTE2PA` as the inverse of `PA2PTE`. -/
instance : Mmu := ⟨Pte.addr, fun _ => true⟩

def load [Mmu] (slot : PtePtr) : VmM (BitVec 64) := fun s =>
  if Mmu.mem slot.1 then .ok (s.pte slot) s else .panic "kerneltrap"

def store [Mmu] (slot : PtePtr) (v : BitVec 64) : VmM Unit := fun s =>
  if Mmu.mem slot.1 then .ok () (s.setPte slot v) else .panic "kerneltrap"

theorem load_ok [m : Mmu] {slot : PtePtr} {s : Phys} (h : m.mem slot.1) : load slot s = .ok (s.pte slot) s := if_pos h

theorem store_ok [m : Mmu] {slot : PtePtr} {s : Phys} (h : m.mem slot.1) (v : BitVec 64) :
    store slot v s = .ok () (s.setPte slot v) := if_pos h

/-! ### Facts about entries -/

namespace Pte

variable {pa : Nat} {e e' perm f : BitVec 64}

theorem not_has_zero (f : BitVec 64) : ¬ Has 0#64 f := by
  unfold Has
  rw [BitVec.zero_and]
  exact not_not.2 rfl

theorem has_or : Has (e ||| e') f ↔ Has e f ∨ Has e' f := by
  have hdist : (e ||| e') &&& f = (e &&& f) ||| (e' &&& f) := by
    apply BitVec.eq_of_getLsbD_eq
    intro i hi
    simp [Bool.and_or_distrib_right]
  unfold Has
  rw [hdist, Ne, BitVec.or_eq_zero_iff, not_and_or]

theorem getLsbD_of_lt {k i : Nat} (hf : f.toNat < 2 ^ k) (hi : k ≤ i) : f.getLsbD i = false := by
  rw [BitVec.getLsbD]
  exact Nat.testBit_lt_two_pow (Nat.lt_of_lt_of_le hf (Nat.pow_le_pow_right (by decide) hi))

theorem not_has_pa2pte (x : BitVec 64) (hf : f.toNat < 2 ^ 10) : ¬ Has (pa2pte x) f := by
  unfold Has
  rw [not_not]
  apply BitVec.eq_of_getLsbD_eq
  intro i hi
  by_cases hlt : i < 10
  · simp [pa2pte, hlt]
  · simp [getLsbD_of_lt hf (Nat.le_of_not_lt hlt)]

theorem has_entry (hf : f.toNat < 2 ^ 10) : Has (entry pa perm) f ↔ Has perm f ∨ Has PTE_V f := by
  unfold entry
  rw [has_or, has_or]
  simp [not_has_pa2pte _ hf]

theorem entry_valid : Has (entry pa perm) PTE_V := (has_entry (by decide)).2 (Or.inr (by decide))

theorem flags_lt (hperm : perm.toNat < 2 ^ 10) : (perm ||| PTE_V).toNat < 2 ^ 10 := by
  rw [BitVec.toNat_or]
  exact Nat.or_lt_two_pow hperm (by decide)

theorem toNat_ofNat_of_lt (hpa : pa < 2 ^ 56) : (BitVec.ofNat 64 pa).toNat = pa := by
  rw [BitVec.toNat_ofNat]
  exact Nat.mod_eq_of_lt (by omega)

theorem flags_entry (hpa : pa < 2 ^ 56) (hperm : perm.toNat < 2 ^ 10) : pteFlags (entry pa perm) = perm ||| PTE_V := by
  rw [entry, BitVec.or_assoc]
  exact pteFlags_entry (by rwa [toNat_ofNat_of_lt hpa]) (flags_lt hperm)

theorem addr_entry (hpage : pa % PGSIZE = 0) (hpa : pa < 2 ^ 56) (hperm : perm.toNat < 2 ^ 10) :
    addr (entry pa perm) = pa := by
  have hpage' : pa % 4096 = 0 := hpage
  have htoNat : (entry pa perm).toNat = pa / 2 ^ 12 * 2 ^ 10 + (perm ||| PTE_V).toNat := by
    rw [entry, BitVec.or_assoc, toNat_entry (by rwa [toNat_ofNat_of_lt hpa]) (flags_lt hperm), toNat_ofNat_of_lt hpa]
  have hlt := flags_lt hperm
  rw [addr, BitVec.toNat_shiftLeft, BitVec.toNat_ushiftRight, htoNat, Nat.shiftRight_eq_div_pow, Nat.shiftLeft_eq]
  omega

theorem addr_mod (e : BitVec 64) : addr e % PGSIZE = 0 := by
  show addr e % 4096 = 0
  rw [addr, BitVec.toNat_shiftLeft, Nat.shiftLeft_eq]
  omega

/-- What `uvmunmap` takes to be a leaf. -/
def Leaf (e : BitVec 64) : Prop := Has e PTE_V ∧ pteFlags e ≠ PTE_V

theorem leaf_entry (hpa : pa < 2 ^ 56) (hperm : perm.toNat < 2 ^ 10) (hne : perm ||| PTE_V ≠ PTE_V) :
    Leaf (entry pa perm) := ⟨entry_valid, by rwa [flags_entry hpa hperm]⟩

/-- Two entries that map alike. -/
def Same (e e' : BitVec 64) : Prop := e = e' ∨ ¬ Has e PTE_V ∧ ¬ Has e' PTE_V

theorem Same.eq (h : Same e e') (he : Has e PTE_V) : e' = e := h.elim Eq.symm fun h => absurd he h.1

theorem Same.not (h : Same e e') (he : ¬ Has e PTE_V) : ¬ Has e' PTE_V := h.elim (fun h => h ▸ he) And.right

theorem Same.trans {e'' : BitVec 64} (h : Same e e') (h' : Same e' e'') : Same e e'' := by
  unfold Same at *
  rcases h with rfl | h
  · exact h'
  · rcases h' with rfl | h'
    · exact Or.inr h
    · exact Or.inr ⟨h.1, h'.2⟩

end Pte

/-! ### Indices -/

theorem px_eq (level va : Nat) : px level va = va / PGSIZE / 512 ^ level % 512 := by
  unfold px
  rw [show (0x1FF : Nat) = 2 ^ 9 - 1 from rfl, Nat.and_two_pow_sub_one_eq_mod, Nat.shiftRight_eq_div_pow, Nat.pow_add,
    ← Nat.div_div_eq_div_mul, Nat.pow_mul]
  rfl

theorem px_lt (level va : Nat) : px level va < 512 := by
  rw [px_eq]
  exact Nat.mod_lt _ (by decide)

/-! ### Facts about memory -/

namespace Phys

variable {s : Phys} {a b : Nat} {d : Bytes PGSIZE} {slot slot' : PtePtr} {v : BitVec 64}

@[simp] theorem page_setPage_self : (s.setPage a d).page a = d := Function.update_self ..

theorem page_setPage_of_ne (h : b ≠ a) : (s.setPage a d).page b = s.page b := Function.update_of_ne h ..

@[simp] theorem free_setPte : (s.setPte slot v).free = s.free := rfl

theorem page_setPte_of_ne (h : b ≠ slot.1) : (s.setPte slot v).page b = s.page b := page_setPage_of_ne h

theorem pte_congr {s' : Phys} {slot : PtePtr} (h : s'.page slot.1 = s.page slot.1) : s'.pte slot = s.pte slot := by
  unfold pte
  rw [h]

theorem next_congr {s' : Phys} {t : Nat} (h : s'.page t = s.page t) : s'.next t = s.next t := by
  funext i
  unfold next
  rw [show s'.pte (t, i) = s.pte (t, i) from pte_congr h]

theorem pte_setPte_self (hi : slot.2 < 512) : (s.setPte slot v).pte slot = v := by
  have hoff : 8 * slot.2 + 8 ≤ PGSIZE := by
    unfold PGSIZE
    omega
  unfold pte setPte
  rw [page_setPage_self, Bytes.getLE_setLE_same _ _ hoff]
  apply BitVec.eq_of_toNat_eq
  have := v.isLt
  rw [BitVec.toNat_ofNat]
  omega

theorem pte_setPte_of_ne (h : slot' ≠ slot) : (s.setPte slot v).pte slot' = s.pte slot' := by
  by_cases hpage : slot'.1 = slot.1
  · have hi : slot'.2 ≠ slot.2 := fun hi => h (Prod.ext hpage hi)
    unfold pte setPte
    rw [hpage, page_setPage_self, Bytes.getLE_setLE_of_disjoint _ _ (by omega)]
  · exact pte_congr (page_setPte_of_ne hpage)

theorem pte_zero {i : Nat} (h : s.page a = fun _ => 0) : s.pte (a, i) = 0#64 := by
  have hzero : ∀ k off, Bytes.getLE (fun _ => 0 : Bytes PGSIZE) off k = 0 := by
    intro k
    induction k with
    | zero => intro off; rfl
    | succ k ih =>
      intro off
      rw [Bytes.getLE, ih]
      simp [Bytes.get]
  unfold pte
  rw [h, hzero]

theorem next_zero {i : Nat} (h : s.page a = fun _ => 0) : s.next a i = none := by
  unfold next
  rw [pte_zero h]
  exact if_neg (by decide)

theorem Ram.pos {s : Phys} (h : s.Ram a) (hok : s.Ok) : a ≠ 0 := by
  have hkend := hok.kend
  have := h.2.1
  unfold KERNBASE at hkend
  omega

theorem Ram.lt {s : Phys} (h : s.Ram a) : a < 2 ^ 56 := Nat.lt_trans h.2.2 (by decide)

end Phys

end Xv6
