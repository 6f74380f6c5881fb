import Mathlib.Data.BitVec
import Mathlib.Logic.Function.Basic

/-! `memmove` of the kernel (`string.c`) and of the user library (`ulib.c`). A loop that goes up is right unless the
destination starts inside the source, one that goes down unless the source starts inside the destination. -/

namespace Xv6

open Function BitVec

namespace Memmove

abbrev Mem := BitVec 64 → UInt8

/-! ### The code -/

/-- `while(n-- > 0) *d++ = *s++;` -/
def copyUp : Nat → BitVec 64 → BitVec 64 → Mem → Mem
  | 0, _, _, mem => mem
  | n + 1, d, s, mem => copyUp n (d + 1) (s + 1) (update mem d (mem s))

/-- `while(n-- > 0) *--d = *--s;` -/
def copyDown : Nat → BitVec 64 → BitVec 64 → Mem → Mem
  | 0, _, _, mem => mem
  | n + 1, d, s, mem => copyDown n (d - 1) (s - 1) (update mem (d - 1) (mem (s - 1)))

/-- `memmove` of `string.c`, where `n` is a `uint`. -/
def kernel (dst src : BitVec 64) (n : BitVec 32) (mem : Mem) : Mem :=
  let len := n.setWidth 64
  if src < dst ∧ src + len > dst then copyDown n.toNat (dst + len) (src + len) mem
  else copyUp n.toNat dst src mem

/-- `memmove` of `ulib.c`, where `n` is an `int`. -/
def user (dst src : BitVec 64) (n : BitVec 32) (mem : Mem) : Mem :=
  let len := n.signExtend 64
  if src > dst then copyUp n.toInt.toNat dst src mem
  else copyDown n.toInt.toNat (dst + len) (src + len) mem

/-! ### What the loops do -/

/-- The bytes of the source, as they were, at the destination. -/
def moved (dst src : BitVec 64) (n : Nat) (mem : Mem) : Mem := fun a =>
  if (a - dst).toNat < n then mem (src + (a - dst)) else mem a

variable {dst src : BitVec 64} {n : Nat}

theorem copyUp_eq (hn : n ≤ 2 ^ 64) (hapart : dst = src ∨ n ≤ (dst - src).toNat) (mem : Mem) :
    copyUp n dst src mem = moved dst src n mem := by
  induction n generalizing dst src mem with
  | zero =>
    funext a
    simp [copyUp, moved]
  | succ n ih =>
    have hsub : dst + 1 - (src + 1) = dst - src := by bv_omega
    rw [copyUp, ih (by omega) (hapart.imp (by rintro rfl; rfl) fun h => by rw [hsub]; omega)]
    funext a
    unfold moved
    have hback : src + 1 + (a - (dst + 1)) = src + (a - dst) := by bv_omega
    by_cases ha : a = dst
    · -- the first byte is not touched again
      have hlast : (a - (dst + 1)).toNat = 2 ^ 64 - 1 := by bv_omega
      have hzero : src + (dst - dst) = src := by bv_omega
      rw [if_neg (by omega), ha, update_self, if_pos (by simp), hzero]
    · have hstep : (a - (dst + 1)).toNat + 1 = (a - dst).toNat := by bv_omega
      rw [hback, update_of_ne ha]
      by_cases hlt : (a - dst).toNat < n + 1
      · have hne : src + (a - dst) ≠ dst := by
          rcases hapart with rfl | hle
          · bv_omega
          · intro heq
            have hdiff : dst - src = a - dst := by bv_omega
            rw [hdiff] at hle
            omega
        rw [if_pos (by omega), if_pos hlt, update_of_ne hne]
      · rw [if_neg (by omega), if_neg hlt]

theorem copyDown_eq (hn : n < 2 ^ 64) (hapart : dst = src ∨ n ≤ (src - dst).toNat) (mem : Mem) :
    copyDown n (dst + BitVec.ofNat 64 n) (src + BitVec.ofNat 64 n) mem = moved dst src n mem := by
  induction n generalizing mem with
  | zero =>
    funext a
    simp [copyDown, moved]
  | succ n ih =>
    have hsucc : BitVec.ofNat 64 (n + 1) = BitVec.ofNat 64 n + 1 := ofNat_add ..
    have hlen : (BitVec.ofNat 64 n).toNat = n := by
      rw [toNat_ofNat, Nat.mod_eq_of_lt (by omega)]
    have hback : ∀ x len : BitVec 64, x + (len + 1) - 1 = x + len := fun x len => by bv_omega
    have ih := ih (by omega) (hapart.imp_right fun h => by omega)
    rw [copyDown, hsucc, hback, hback, ih]
    generalize BitVec.ofNat 64 n = len at hlen
    funext a
    unfold moved
    by_cases ha : a = dst + len
    · -- the last byte is not touched again
      have hoff : a - dst = len := by bv_omega
      rw [hoff, hlen, if_neg (Nat.lt_irrefl n), if_pos (Nat.lt_succ_self n), ha, update_self]
    · have hoff : (a - dst).toNat ≠ n := by bv_omega
      rw [update_of_ne ha]
      by_cases hlt : (a - dst).toNat < n
      · have hne : src + (a - dst) ≠ dst + len := by
          rcases hapart with rfl | hle
          · bv_omega
          · bv_omega
        rw [if_pos hlt, if_pos (by omega), update_of_ne hne]
      · rw [if_neg hlt, if_neg (by omega)]

/-! ### Both functions -/

/-- **`memmove` handles every overlap.** Where neither range wraps, both functions put the original bytes of the source
at the destination and leave all others as they were. -/
theorem memmove_eq_moved (dst src : BitVec 64) (n : BitVec 32) (hdst : dst.toNat + n.toNat ≤ 2 ^ 64)
    (hsrc : src.toNat + n.toNat ≤ 2 ^ 64) (mem : Mem) :
    kernel dst src n mem = moved dst src n.toNat mem ∧
      (0 ≤ n.toInt → user dst src n mem = moved dst src n.toNat mem) := by
  have hn : n.toNat < 2 ^ 32 := n.isLt
  have hup : ¬(src < dst ∧ src.toNat + n.toNat > dst.toNat) → copyUp n.toNat dst src mem = moved dst src n.toNat mem := by
    intro hno
    apply copyUp_eq (by omega)
    bv_omega
  have hdown : ¬dst < src → copyDown n.toNat (dst + BitVec.ofNat 64 n.toNat) (src + BitVec.ofNat 64 n.toNat) mem =
      moved dst src n.toNat mem := by
    intro hle
    apply copyDown_eq (by omega)
    bv_omega
  have hlen : n.setWidth 64 = BitVec.ofNat 64 n.toNat := by
    apply eq_of_toNat_eq
    simp
  have htoNat : (BitVec.ofNat 64 n.toNat).toNat = n.toNat := by
    rw [toNat_ofNat, Nat.mod_eq_of_lt (by omega)]
  constructor
  · unfold kernel
    dsimp only
    rw [hlen]
    split
    · exact hdown (by bv_omega)
    · apply hup
      bv_omega
  · intro hpos
    have hmsb : n.msb = false := by
      rw [msb_eq_toInt]
      exact decide_eq_false (by omega)
    have hint : n.toInt.toNat = n.toNat := by
      rw [toInt_eq_toNat_of_msb hmsb, Int.toNat_natCast]
    unfold user
    dsimp only
    rw [signExtend_eq_setWidth_of_msb_false hmsb, hlen, hint]
    split
    · apply hup
      bv_omega
    · apply hdown
      bv_omega

/-- Three bytes, moved up by one. -/
theorem memmove_eq_moved_up : kernel 1 0 3 (fun a => UInt8.ofNat a.toNat) 3 = 2 ∧
    user 1 0 3 (fun a => UInt8.ofNat a.toNat) 3 = 2 := by
  have h := memmove_eq_moved 1 0 3 (by decide) (by decide) fun a => UInt8.ofNat a.toNat
  rw [h.1, h.2 (by decide)]
  decide

end Memmove

end Xv6
