import Mathlib.Data.Nat.Basic
import Mathlib.Tactic.Ring

/-! Fixed-size byte arrays with little-endian numbers in them. A field of a record stored in such an
array is read and written at its byte offset; what one write does to every other field follows from
two lemmas, one for the field written and one for the fields that do not overlap it. -/

namespace Xv6.Lib

abbrev Bytes (n : Nat) := Fin n → UInt8

namespace Bytes

variable {n : Nat}

def get (b : Bytes n) (i : Nat) : UInt8 := if h : i < n then b ⟨i, h⟩ else 0

def ofFn (f : Nat → UInt8) : Bytes n := fun i => f i

@[simp] theorem get_ofFn (f : Nat → UInt8) {i : Nat} (hi : i < n) : (ofFn f : Bytes n).get i = f i := by
  simp [get, ofFn, hi]

@[ext] theorem ext_get {a b : Bytes n} (h : ∀ i, i < n → a.get i = b.get i) : a = b := by
  funext i
  simpa [get] using h i i.isLt

/-- The `k` bytes from offset `off` replaced by `src 0`, `src 1`, and so on. -/
def write (b : Bytes n) (off : Nat) (src : Nat → UInt8) (k : Nat) : Bytes n :=
  ofFn fun i => if off ≤ i ∧ i < off + k then src (i - off) else b.get i

theorem get_write_of_mem (b : Bytes n) {off k i : Nat} (src : Nat → UInt8) (hi : i < n)
    (hoff : off ≤ i) (hk : i < off + k) : (b.write off src k).get i = src (i - off) := by
  rw [write, get_ofFn _ hi, if_pos ⟨hoff, hk⟩]

theorem get_write_of_not_mem (b : Bytes n) {off k i : Nat} (src : Nat → UInt8)
    (hi : ¬(off ≤ i ∧ i < off + k)) : (b.write off src k).get i = b.get i := by
  by_cases hn : i < n
  · rw [write, get_ofFn _ hn, if_neg hi]
  · simp [get, hn]

theorem write_eq_self (b : Bytes n) {off k : Nat} {src : Nat → UInt8}
    (h : ∀ i, i < n → off ≤ i → i < off + k → src (i - off) = b.get i) : b.write off src k = b := by
  ext i hi
  by_cases hin : off ≤ i ∧ i < off + k
  · rw [get_write_of_mem b src hi hin.1 hin.2, h i hi hin.1 hin.2]
  · rw [get_write_of_not_mem b src hin]

/-- The little-endian number in the `k` bytes from offset `off`. -/
def getLE (b : Bytes n) (off : Nat) : Nat → Nat
  | 0 => 0
  | k + 1 => (b.get off).toNat + 256 * b.getLE (off + 1) k

/-- The `k` bytes from offset `off` set to the number `v`, little-endian. -/
def setLE (b : Bytes n) (off k v : Nat) : Bytes n :=
  b.write off (fun j => UInt8.ofNat (v / 256 ^ j)) k

theorem getLE_congr {m : Nat} {a : Bytes n} {b : Bytes m} {off off' : Nat} :
    ∀ {k : Nat}, (∀ j, j < k → a.get (off + j) = b.get (off' + j)) → a.getLE off k = b.getLE off' k := by
  intro k
  induction k generalizing off off' with
  | zero => intro _; rfl
  | succ k ih =>
    intro h
    have hhead := h 0 (Nat.succ_pos k)
    rw [Nat.add_zero, Nat.add_zero] at hhead
    rw [getLE, getLE, hhead, ih fun j hj => ?_]
    have htail := h (j + 1) (Nat.succ_lt_succ hj)
    rwa [Nat.add_comm j 1, ← Nat.add_assoc, ← Nat.add_assoc] at htail

variable (b : Bytes n)
include b

theorem getLE_lt (off k : Nat) : b.getLE off k < 256 ^ k := by
  induction k generalizing off with
  | zero => simp [getLE]
  | succ k ih =>
    have hbyte := (b.get off).toNat_lt
    have htail := ih (off + 1)
    rw [getLE, Nat.pow_succ]
    omega

theorem getLE_of_digits {off v : Nat} : ∀ {k : Nat}, (∀ j, j < k → (b.get (off + j)).toNat = v / 256 ^ j % 256) →
      b.getLE off k = v % 256 ^ k := by
  intro k
  induction k generalizing off v with
  | zero => intro _; simp [getLE, Nat.mod_one]
  | succ k ih =>
    intro h
    have hhead := h 0 (Nat.succ_pos k)
    rw [Nat.add_zero, Nat.pow_zero, Nat.div_one] at hhead
    have htail : ∀ j, j < k → (b.get (off + 1 + j)).toNat = v / 256 / 256 ^ j % 256 := by
      intro j hj
      rw [Nat.add_assoc, Nat.add_comm 1 j, h (j + 1) (Nat.succ_lt_succ hj), Nat.div_div_eq_div_mul, Nat.pow_succ']
    rw [getLE, hhead, ih htail, Nat.pow_succ', Nat.mod_mul]

theorem getLE_digit : ∀ {k off j : Nat}, j < k → UInt8.ofNat (b.getLE off k / 256 ^ j) = b.get (off + j) := by
  intro k
  induction k with
  | zero => intro off j hj; omega
  | succ k ih =>
    intro off j hj
    have hbyte := (b.get off).toNat_lt
    rw [getLE]
    cases j with
    | zero =>
      show UInt8.ofNat (((b.get off).toNat + 256 * b.getLE (off + 1) k) / 256 ^ 0) = b.get off
      rw [Nat.pow_zero, Nat.div_one, ← UInt8.toNat_inj, UInt8.toNat_ofNat']
      omega
    | succ j =>
      have hdiv : ((b.get off).toNat + 256 * b.getLE (off + 1) k) / 256 = b.getLE (off + 1) k := by omega
      rw [Nat.pow_succ', ← Nat.div_div_eq_div_mul, hdiv, ih (by omega)]
      congr 1
      omega

theorem getLE_setLE_same {off k : Nat} (v : Nat) (hoff : off + k ≤ n) :
    (b.setLE off k v).getLE off k = v % 256 ^ k := by
  apply getLE_of_digits
  intro j hj
  rw [setLE, get_write_of_mem b _ (by omega) (by omega) (by omega), Nat.add_sub_cancel_left]
  exact UInt8.toNat_ofNat'

theorem getLE_write_of_disjoint {off k off' k' : Nat} (src : Nat → UInt8) (h : off + k ≤ off' ∨ off' + k' ≤ off) :
    (b.write off src k).getLE off' k' = b.getLE off' k' := by
  apply getLE_congr
  intro j hj
  exact get_write_of_not_mem b src (by omega)

theorem getLE_setLE_of_disjoint {off k off' k' : Nat} (v : Nat)
    (h : off + k ≤ off' ∨ off' + k' ≤ off) : (b.setLE off k v).getLE off' k' = b.getLE off' k' :=
  getLE_write_of_disjoint b _ h

end Bytes

end Xv6.Lib
