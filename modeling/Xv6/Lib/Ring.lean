import Mathlib.Data.BitVec
import Mathlib.Data.List.Basic

/-! Rings: `m` cells that are indexed by counters which run freely and wrap at `2 ^ w`, where `m` divides
`2 ^ w`. The slice between two counters is a queue: what is written at its end comes last, what is read at
its start came first, and nothing is overwritten while it has at most `m` cells. -/

namespace Xv6.Lib

open Function

variable {α : Type} {m w : Nat} {data : Nat → α} {lo mid hi : BitVec w}

def cell (m : Nat) (i : BitVec w) : Nat := i.toNat % m

/-- What is between two counters, in order. -/
def slice (data : Nat → α) (m : Nat) (lo hi : BitVec w) : List α :=
  (List.range (hi - lo).toNat).map fun k => data (cell m (lo + BitVec.ofNat w k))

theorem cell_add (hm : m ∣ 2 ^ w) (i : BitVec w) (k : Nat) : cell m (i + BitVec.ofNat w k) = (i.toNat + k) % m := by
  unfold cell
  rw [BitVec.toNat_add, BitVec.toNat_ofNat, Nat.add_mod_mod]
  exact Nat.mod_mod_of_dvd _ hm

theorem add_ofNat_sub (lo hi : BitVec w) : lo + BitVec.ofNat w (hi - lo).toNat = hi := by
  rw [BitVec.ofNat_toNat, BitVec.setWidth_eq, add_comm, sub_add_cancel]

@[simp] theorem slice_self (data : Nat → α) (m : Nat) (lo : BitVec w) : slice data m lo lo = [] := by
  have hzero : (lo - lo).toNat = 0 := by
    rw [sub_self]
    rfl
  rw [slice, hzero, List.range_zero, List.map_nil]

theorem toNat_sub_pos (h : lo ≠ hi) : 0 < (hi - lo).toNat := by
  apply Nat.pos_of_ne_zero
  intro hzero
  have hsub : hi - lo = 0 := BitVec.eq_of_toNat_eq hzero
  exact h (sub_eq_zero.1 hsub).symm

theorem toNat_sub_split (hmid : (mid - lo).toNat ≤ (hi - lo).toNat) :
    (hi - lo).toNat = (mid - lo).toNat + (hi - mid).toNat := by
  have hsum : hi - lo = (mid - lo) + (hi - mid) := by
    rw [add_comm, sub_add_sub_cancel]
  have hlt := (hi - mid).isLt
  have hlt' := (mid - lo).isLt
  rw [hsum, BitVec.toNat_add] at hmid ⊢
  by_cases hsmall : (mid - lo).toNat + (hi - mid).toNat < 2 ^ w
  · exact Nat.mod_eq_of_lt hsmall
  · rw [Nat.mod_eq_sub_mod (by omega), Nat.mod_eq_of_lt (by omega)] at hmid
    omega

theorem slice_append (hmid : (mid - lo).toNat ≤ (hi - lo).toNat) :
    slice data m lo mid ++ slice data m mid hi = slice data m lo hi := by
  have hlen := toNat_sub_split hmid
  unfold slice
  rw [hlen, List.range_add, List.map_append, List.map_map]
  congr 1
  apply List.map_congr_left
  intro k _
  have hshift : mid + BitVec.ofNat w k = lo + BitVec.ofNat w ((mid - lo).toNat + k) := by
    rw [BitVec.ofNat_add, ← add_assoc, add_ofNat_sub]
  rw [comp_apply, hshift]

theorem slice_update (hm : m ∣ 2 ^ w) {k : Nat} {x : α} (hlen : (hi - lo).toNat ≤ k) (hk : k < m) :
    slice (update data ((lo.toNat + k) % m) x) m lo hi = slice data m lo hi := by
  apply List.map_congr_left
  intro j hj
  apply update_of_ne
  rw [cell_add hm]
  have hj' := List.mem_range.1 hj
  intro heq
  have hmod := (Nat.ModEq.add_left_cancel' lo.toNat (show lo.toNat + j ≡ lo.toNat + k [MOD m] from heq) : j ≡ k [MOD m])
  rw [Nat.ModEq, Nat.mod_eq_of_lt (by omega), Nat.mod_eq_of_lt hk] at hmod
  omega

theorem toNat_one_of_lt (hw : 1 < 2 ^ w) : (1 : BitVec w).toNat = 1 := by
  show 1 % 2 ^ w = 1
  exact Nat.mod_eq_of_lt hw

theorem toNat_succ_sub (hw : (hi - lo).toNat + 1 < 2 ^ w) : (hi + 1 - lo).toNat = (hi - lo).toNat + 1 := by
  rw [add_sub_right_comm, BitVec.toNat_add, toNat_one_of_lt (by omega), Nat.mod_eq_of_lt hw]

theorem toNat_sub_succ (hne : lo ≠ hi) : (hi - lo).toNat = (hi - (lo + 1)).toNat + 1 := by
  have hpos := toNat_sub_pos hne
  have hlt := (hi - lo).isLt
  have hone : (1 : BitVec w).toNat = 1 := toNat_one_of_lt (by omega)
  have hle : (1 : BitVec w) ≤ hi - lo := by
    rw [BitVec.le_def, hone]
    exact hpos
  rw [← sub_sub, BitVec.toNat_sub_of_le hle, hone]
  omega

theorem slice_push (hm : m ∣ 2 ^ w) (hroom : (hi - lo).toNat < m) (hw : m < 2 ^ w) (x : α) :
    slice (update data (cell m hi) x) m lo (hi + 1) = slice data m lo hi ++ [x] := by
  have hlast : cell m hi = (lo.toNat + (hi - lo).toNat) % m := by
    rw [← cell_add hm, add_ofNat_sub]
  have hlen : (hi + 1 - lo).toNat = (hi - lo).toNat + 1 := toNat_succ_sub (by omega)
  calc slice (update data (cell m hi) x) m lo (hi + 1) = slice (update data (cell m hi) x) m lo hi ++ [x] := by
        unfold slice
        rw [hlen, List.range_succ, List.map_append, List.map_singleton, add_ofNat_sub, update_self]
    _ = slice data m lo hi ++ [x] := by
        rw [hlast, slice_update hm (le_refl _) hroom]

theorem slice_pop (hne : lo ≠ hi) : slice data m lo hi = data (cell m lo) :: slice data m (lo + 1) hi := by
  unfold slice
  rw [toNat_sub_succ hne, List.range_succ_eq_map, List.map_cons, List.map_map]
  congr 1
  · rw [show BitVec.ofNat w 0 = 0 from rfl, add_zero]
  · apply List.map_congr_left
    intro k _
    rw [comp_apply, add_assoc, Nat.succ_eq_add_one, BitVec.ofNat_add, add_comm (BitVec.ofNat w k)]
    rfl

theorem slice_write_after (hm : m ∣ 2 ^ w) (hmid : (mid - lo).toNat ≤ (hi - lo).toNat) (hroom : (hi - lo).toNat < m)
    (x : α) : slice (update data (cell m hi) x) m lo mid = slice data m lo mid := by
  have hlast : cell m hi = (lo.toNat + (hi - lo).toNat) % m := by
    rw [← cell_add hm, add_ofNat_sub]
  rw [hlast, slice_update hm hmid hroom]

theorem toNat_pred_sub (hne : lo ≠ hi) : (hi - 1 - lo).toNat + 1 = (hi - lo).toNat := by
  have hsub : hi - 1 - lo = hi - (lo + 1) := by
    rw [sub_right_comm, sub_sub]
  rw [hsub, toNat_sub_succ hne]

theorem slice_pred (hne : lo ≠ hi) : slice data m lo hi = slice data m lo (hi - 1) ++ [data (cell m (hi - 1))] := by
  have hle : (hi - 1 - lo).toNat ≤ (hi - lo).toNat := by
    have := toNat_pred_sub hne
    omega
  have hpred : hi - 1 ≠ hi := by
    intro heq
    have hzero : (1 : BitVec w) = 0 := by
      rw [← sub_sub_cancel hi 1, heq, sub_self]
    apply hne
    rw [← mul_one lo, ← mul_one hi, hzero, mul_zero, mul_zero]
  rw [← slice_append hle, slice_pop hpred, sub_add_cancel, slice_self]

end Xv6.Lib
