import Xv6.Param
import Mathlib.Data.Nat.Bitwise
import Mathlib.Tactic.Ring

/-! Page-table entries of `riscv.h`. An entry has the number of a physical page from bit 10 on and ten flags
below. `PTE2PA` shifts an entry to the left by 12, to the right by 10 and to the left by 12 again, which in
64 bits multiplies it by `2 ^ 14`: the flags are not dropped, and the page number ends 12 bits too high. -/

namespace Xv6

namespace Pte

def PTE_V : BitVec 64 := 1 <<< 0
def PTE_R : BitVec 64 := 1 <<< 1
def PTE_W : BitVec 64 := 1 <<< 2
def PTE_X : BitVec 64 := 1 <<< 3
def PTE_U : BitVec 64 := 1 <<< 4

def pa2pte (pa : BitVec 64) : BitVec 64 := (pa >>> 12) <<< 10

def pte2pa (pte : BitVec 64) : BitVec 64 := ((pte <<< 12) >>> 10) <<< 12

def pteFlags (pte : BitVec 64) : BitVec 64 := pte &&& 0x3FF

variable {pa f : BitVec 64}

theorem toNat_entry (hpa : pa.toNat < 2 ^ 56) (hf : f.toNat < 2 ^ 10) :
    (pa2pte pa ||| f).toNat = pa.toNat / 2 ^ 12 * 2 ^ 10 + f.toNat := by
  have hpage : pa.toNat / 2 ^ 12 * 2 ^ 10 < 2 ^ 64 := by omega
  have hpte : (pa2pte pa).toNat = pa.toNat / 2 ^ 12 * 2 ^ 10 := by
    rw [pa2pte, BitVec.toNat_shiftLeft, BitVec.toNat_ushiftRight, Nat.shiftRight_eq_div_pow, Nat.shiftLeft_eq,
      Nat.mod_eq_of_lt hpage]
  rw [BitVec.toNat_or, hpte, ← Nat.shiftLeft_eq, ← Nat.shiftLeft_add_eq_or_of_lt hf]

theorem toNat_pte2pa (pte : BitVec 64) : (pte2pa pte).toNat = pte.toNat * 2 ^ 14 % 2 ^ 64 := by
  have hlt := pte.isLt
  rw [pte2pa, BitVec.toNat_shiftLeft, BitVec.toNat_ushiftRight, BitVec.toNat_shiftLeft, Nat.shiftLeft_eq,
    Nat.shiftRight_eq_div_pow, Nat.shiftLeft_eq]
  omega

theorem pteFlags_entry (hpa : pa.toNat < 2 ^ 56) (hf : f.toNat < 2 ^ 10) : pteFlags (pa2pte pa ||| f) = f := by
  apply BitVec.eq_of_toNat_eq
  have hmask : (0x3FF : BitVec 64).toNat = 2 ^ 10 - 1 := by decide
  rw [pteFlags, BitVec.toNat_and, toNat_entry hpa hf, hmask, Nat.and_two_pow_sub_one_eq_mod]
  omega

theorem low_digit {k f m : Nat} (hf : f < 2 ^ 10) (h : 4095 * k + 4 * f = 4096 * m) :
    ∃ k', k = 4 * f + 4096 * k' ∧ 4095 * k' + 4 * f = m :=
  ⟨k / 4096, by omega, by omega⟩

theorem page_eq_iff {k f : Nat} (hk : k < 2 ^ 44) (hf : f < 2 ^ 10) : (k * 2 ^ 10 + f) * 2 ^ 14 % 2 ^ 64 = k * 2 ^ 12 ↔
      f % 4 = 0 ∧ f < 64 ∧ k = f * (2 ^ 2 + 2 ^ 14 + 2 ^ 26 + 2 ^ 38) := by
  constructor
  · intro h
    obtain ⟨q, hq⟩ : ∃ q, 4095 * k + 4 * f = 4096 * (4096 * (4096 * (4096 * (16 * q)))) :=
      ⟨(k * 2 ^ 10 + f) * 2 ^ 14 / 2 ^ 64, by omega⟩
    obtain ⟨k₁, hk₁, hq₁⟩ := low_digit hf hq
    obtain ⟨k₂, hk₂, hq₂⟩ := low_digit hf hq₁
    obtain ⟨k₃, hk₃, hq₃⟩ := low_digit hf hq₂
    obtain ⟨k₄, hk₄, hq₄⟩ := low_digit hf hq₃
    have hdigits : k = f * (2 ^ 2 + 2 ^ 14 + 2 ^ 26 + 2 ^ 38) + 2 ^ 48 * k₄ := by
      rw [hk₁, hk₂, hk₃, hk₄]
      ring
    clear h hq hq₁ hq₂ hq₃ hk₁ hk₂ hk₃ hk₄
    obtain rfl : k₄ = 0 := by omega
    omega
  · rintro ⟨hmod, hlt, rfl⟩
    omega

/-- The address comes back only where the flags are the low digits of the page number: each group of twelve
bits of the number is four times the flags. -/
theorem pte2pa_entry_iff (hpage : pa.toNat % 2 ^ 12 = 0) (hpa : pa.toNat < 2 ^ 56) (hf : f.toNat < 2 ^ 10) :
    pte2pa (pa2pte pa ||| f) = pa ↔
      f.toNat % 4 = 0 ∧ f.toNat < 64 ∧ pa.toNat = f.toNat * (2 ^ 14 + 2 ^ 26 + 2 ^ 38 + 2 ^ 50) := by
  have hk : pa.toNat / 2 ^ 12 < 2 ^ 44 := by omega
  have hpa' : pa.toNat = pa.toNat / 2 ^ 12 * 2 ^ 12 := by omega
  have hnumber : pa.toNat = f.toNat * (2 ^ 14 + 2 ^ 26 + 2 ^ 38 + 2 ^ 50) ↔
      pa.toNat / 2 ^ 12 = f.toNat * (2 ^ 2 + 2 ^ 14 + 2 ^ 26 + 2 ^ 38) := by
    omega
  rw [hnumber, ← page_eq_iff hk hf, ← hpa', ← BitVec.toNat_inj, toNat_pte2pa, toNat_entry hpa hf]

/-- Exactly when an address and its flags are recovered from the entry that stores them. -/
theorem entry_round_trip_iff (pa f : BitVec 64) (hpage : pa.toNat % 2 ^ 12 = 0) (hpa : pa.toNat < 2 ^ 56)
    (hf : f.toNat < 2 ^ 10) :
    (pte2pa (pa2pte pa ||| f) = pa ∧ pteFlags (pa2pte pa ||| f) = f) ↔
      f.toNat % 4 = 0 ∧ f.toNat < 64 ∧ pa.toNat = f.toNat * (2 ^ 14 + 2 ^ 26 + 2 ^ 38 + 2 ^ 50) := by
  rw [pte2pa_entry_iff hpage hpa hf]
  exact and_iff_left (pteFlags_entry hpa hf)

/-- A page far above the memory, with the flag `PTE_W` alone. -/
theorem entry_round_trip_write :
    pte2pa (pa2pte 0x10010010010000 ||| PTE_W) = 0x10010010010000 ∧ pteFlags (pa2pte 0x10010010010000 ||| PTE_W) = PTE_W :=
  (entry_round_trip_iff 0x10010010010000 PTE_W (by decide) (by decide) (by decide)).2 (by decide)

/-- The first page of the memory, mapped as a valid page. -/
theorem kernbase_not_recovered :
    ¬(pte2pa (pa2pte 0x80000000 ||| PTE_V) = 0x80000000 ∧ pteFlags (pa2pte 0x80000000 ||| PTE_V) = PTE_V) := by
  decide

end Pte

end Xv6
