import Mathlib.Data.Nat.Digits.Lemmas
import Mathlib.Data.BitVec

/-! `printf.c` and `atoi`: how numbers are written and read. Digits are taken off at the low end, put into a buffer and
written in reverse. -/

namespace Xv6

namespace Printf

/-! ### The code -/

def digit (d : Nat) : UInt8 := if d < 10 then UInt8.ofNat (48 + d) else UInt8.ofNat (55 + d)

/-- The `do` loop of `printint`: the characters that it puts into `buf`. A `uint` has no more than 32 digits. -/
def digitsFrom (base : Nat) : Nat → Nat → List UInt8
  | 0, _ => []
  | fuel + 1, x => digit (x % base) :: if x / base ≠ 0 then digitsFrom base fuel (x / base) else []

/-- What `buf` holds in the end. The digits are those of a `uint`. -/
def printintBuf (xx : BitVec 32) (base : Nat) (sgn : Bool) : List UInt8 :=
  if sgn ∧ xx.toInt < 0 then digitsFrom base 32 (-xx).toNat ++ [45] else digitsFrom base 32 xx.toNat

def printint (xx : BitVec 32) (base : Nat) (sgn : Bool) : List UInt8 := (printintBuf xx base sgn).reverse

def printptrFrom : Nat → BitVec 64 → List UInt8
  | 0, _ => []
  | n + 1, x => digit (x >>> 60).toNat :: printptrFrom n (x <<< 4)

def printptr (x : BitVec 64) : List UInt8 := [48, 120] ++ printptrFrom 16 x

/-- What `vprintf` writes, in state `%` or 0, with the strings in memory and the arguments. A `va_arg` takes the low
bits of an argument, and the conversion to the type of the parameter of `printint` those of an `int`. -/
def vprintf (mem : BitVec 64 → List UInt8) : Bool → List UInt8 → List (BitVec 64) → List UInt8
  | _, [], _ => []
  | false, c :: fmt, ap => if c = 37 then vprintf mem true fmt ap else c :: vprintf mem false fmt ap
  | true, c :: fmt, ap =>
      let v := ap.headD 0
      if c = 100 then printint (v.setWidth 32) 10 true ++ vprintf mem false fmt ap.tail
      else if c = 108 then printint (v.setWidth 32) 10 false ++ vprintf mem false fmt ap.tail
      else if c = 120 then printint (v.setWidth 32) 16 false ++ vprintf mem false fmt ap.tail
      else if c = 112 then printptr v ++ vprintf mem false fmt ap.tail
      else if c = 115 then
        (if v = 0 then [40, 110, 117, 108, 108, 41] else mem v) ++ vprintf mem false fmt ap.tail
      else if c = 99 then UInt8.ofNat v.toNat :: vprintf mem false fmt ap.tail
      else if c = 37 then c :: vprintf mem false fmt ap
      else 37 :: c :: vprintf mem false fmt ap

/-- The loop of `atoi`, on a string without its NUL. -/
def atoiFrom : List UInt8 → BitVec 32 → BitVec 32
  | [], n => n
  | c :: s, n => if 48 ≤ c ∧ c ≤ 57 then atoiFrom s (n * 10 + BitVec.ofNat 32 c.toNat - 48) else n

def atoi (s : List UInt8) : BitVec 32 := atoiFrom s 0

/-! ### Numerals -/

/-- The digits are those of `n`, the least one last. -/
def Denotes (base : Nat) (text : List UInt8) (n : Nat) : Prop :=
  ∃ l : List Nat, text = (l.map digit).reverse ∧ (∀ d ∈ l, d < base) ∧ Nat.ofDigits base l = n

/-- There are no zeros before the first digit that counts. -/
def Plain (text : List UInt8) : Prop := text ≠ [] ∧ (text.head? = some (digit 0) → text = [digit 0])

theorem digit_inj : ∀ a < 16, ∀ b < 16, digit a = digit b → a = b := by decide

theorem map_digit_inj : ∀ {l l' : List Nat}, (∀ d ∈ l, d < 16) → (∀ d ∈ l', d < 16) → l.map digit = l'.map digit →
    l = l'
  | [], [], _, _, _ => rfl
  | a :: l, b :: l', h, h', heq => by
    obtain ⟨hhead, htail⟩ := List.cons.inj heq
    rw [digit_inj a (h a List.mem_cons_self) b (h' b List.mem_cons_self) hhead,
      map_digit_inj (fun d hd => h d (List.mem_cons_of_mem _ hd)) (fun d hd => h' d (List.mem_cons_of_mem _ hd)) htail]

/-- A numeral is for one number only. -/
theorem Denotes.unique {base : Nat} (hbase : base ≤ 16) {text : List UInt8} {n m : Nat} (h : Denotes base text n)
    (h' : Denotes base text m) : n = m := by
  obtain ⟨l, hl, hlt, rfl⟩ := h
  obtain ⟨l', hl', hlt', rfl⟩ := h'
  have heq : l.map digit = l'.map digit := List.reverse_injective (hl.symm.trans hl')
  rw [map_digit_inj (fun d hd => (hlt d hd).trans_le hbase) (fun d hd => (hlt' d hd).trans_le hbase) heq]

theorem digitsFrom_eq {base : Nat} (hbase : 1 < base) : ∀ {fuel x : Nat}, x < base ^ fuel → 0 < fuel →
    digitsFrom base fuel x = if x = 0 then [digit 0] else (Nat.digits base x).map digit
  | 0, _, _, hfuel => absurd hfuel (Nat.lt_irrefl 0)
  | fuel + 1, x, hx, _ => by
    rw [digitsFrom]
    by_cases hzero : x = 0
    · rw [if_pos hzero, hzero, Nat.zero_mod, Nat.zero_div, if_neg (by simp)]
    · rw [if_neg hzero, Nat.digits_def' hbase (Nat.pos_of_ne_zero hzero), List.map_cons]
      by_cases hdiv : x / base = 0
      · rw [if_neg (not_not.2 hdiv), hdiv, Nat.digits_zero, List.map_nil]
      · have hlt : x / base < base ^ fuel := Nat.div_lt_of_lt_mul (by rwa [← Nat.pow_succ'])
        have hfuel : 0 < fuel := by
          by_contra hno
          rw [Nat.le_zero.1 (Nat.le_of_not_lt hno), Nat.pow_zero] at hlt
          exact hdiv (Nat.lt_one_iff.1 hlt)
        rw [if_pos hdiv, digitsFrom_eq hbase hlt hfuel, if_neg hdiv]

/-- The numeral of a `uint`, in base 10 or 16. -/
theorem numeral_uint (base : Nat) (hbase : 10 ≤ base) (hle : base ≤ 16) {x : Nat} (hx : x < 2 ^ 32) :
    Denotes base (digitsFrom base 32 x).reverse x ∧ Plain (digitsFrom base 32 x).reverse ∧
      (digitsFrom base 32 x).length ≤ 10 := by
  have hpow : ∀ k, 10 ^ k ≤ base ^ k := fun k => Nat.pow_le_pow_left hbase k
  rw [digitsFrom_eq (by omega) (hx.trans_le ((by decide : 2 ^ 32 ≤ 10 ^ 32).trans (hpow 32))) (by decide)]
  by_cases hzero : x = 0
  · rw [if_pos hzero, hzero]
    refine ⟨⟨[0], rfl, ?_, by simp⟩, ⟨by simp, fun _ => rfl⟩, by simp⟩
    intro d hd
    rw [List.mem_singleton.1 hd]
    omega
  · have hne : Nat.digits base x ≠ [] := Nat.digits_ne_nil_iff_ne_zero.2 hzero
    rw [if_neg hzero]
    refine ⟨⟨_, rfl, fun d hd => Nat.digits_lt_base (by omega) hd, Nat.ofDigits_digits base x⟩, ⟨by simpa using hne, ?_⟩, ?_⟩
    · intro hhead
      rw [List.head?_reverse, List.getLast?_map, List.getLast?_eq_getLast_of_ne_nil hne, Option.map_some] at hhead
      have hlt := Nat.digits_lt_base (b := base) (m := x) (by omega) (List.getLast_mem hne)
      have hlast := digit_inj _ (hlt.trans_le hle) 0 (by decide) (Option.some.inj hhead)
      exact absurd hlast (Nat.getLast_digit_ne_zero base hzero)
    · rw [List.length_map, Nat.digits_length_le_iff (by omega)]
      exact hx.trans_le ((by decide : 2 ^ 32 ≤ 10 ^ 10).trans (hpow 10))

/-- The digits of `printptr`. -/
def nibbles : Nat → BitVec 64 → List Nat
  | 0, _ => []
  | n + 1, x => (x >>> 60).toNat :: nibbles n (x <<< 4)

theorem printptrFrom_eq (n : Nat) (x : BitVec 64) : printptrFrom n x = (nibbles n x).map digit := by
  induction n generalizing x with
  | zero => rfl
  | succ n ih => rw [printptrFrom, nibbles, List.map_cons, ih]

theorem nibbles_lt (n : Nat) (x : BitVec 64) : ∀ d ∈ nibbles n x, d < 16 := by
  induction n generalizing x with
  | zero => exact fun d hd => absurd hd List.not_mem_nil
  | succ n ih =>
    intro d hd
    rcases List.mem_cons.1 hd with rfl | htail
    · rw [BitVec.toNat_ushiftRight, Nat.shiftRight_eq_div_pow]
      have := x.isLt
      omega
    · exact ih _ d htail

theorem foldl_nibbles (n acc : Nat) (x : BitVec 64) : ∃ r < 2 ^ 64,
    (nibbles n x).foldl (fun a d => a * 16 + d) acc * 2 ^ 64 + r = 16 ^ n * (acc * 2 ^ 64 + x.toNat) := by
  induction n generalizing acc x with
  | zero => exact ⟨x.toNat, x.isLt, by simp [nibbles]⟩
  | succ n ih =>
    have hlt : x.toNat < 18446744073709551616 := x.isLt
    have hhigh : (x >>> 60).toNat = x.toNat / 1152921504606846976 := Nat.shiftRight_eq_div_pow ..
    have hlow : (x <<< 4).toNat = x.toNat * 16 % 18446744073709551616 := by
      rw [BitVec.toNat_shiftLeft, Nat.shiftLeft_eq]
    have hstep : (acc * 16 + (x >>> 60).toNat) * 18446744073709551616 + (x <<< 4).toNat =
        16 * (acc * 18446744073709551616 + x.toNat) := by
      clear ih
      omega
    obtain ⟨r, hr, heq⟩ := ih (acc * 16 + (x >>> 60).toNat) (x <<< 4)
    refine ⟨r, hr, heq.trans ?_⟩
    calc 16 ^ n * ((acc * 16 + (x >>> 60).toNat) * 2 ^ 64 + (x <<< 4).toNat)
      _ = 16 ^ n * (16 * (acc * 2 ^ 64 + x.toNat)) := congrArg (16 ^ n * ·) hstep
      _ = 16 ^ (n + 1) * (acc * 2 ^ 64 + x.toNat) := by rw [← Nat.mul_assoc, ← Nat.pow_succ]

theorem ofDigits_reverse (base : Nat) (l : List Nat) :
    Nat.ofDigits base l.reverse = l.foldl (fun a d => a * base + d) 0 := by
  rw [Nat.ofDigits_eq_foldr, List.foldr_reverse]
  congr 1
  funext a d
  simp [Nat.mul_comm, Nat.add_comm]

theorem denotes_printptrFrom (x : BitVec 64) : Denotes 16 (printptrFrom 16 x) x.toNat := by
  refine ⟨(nibbles 16 x).reverse, ?_, fun d hd => nibbles_lt 16 x d (List.mem_reverse.1 hd), ?_⟩
  · rw [printptrFrom_eq, List.map_reverse, List.reverse_reverse]
  · obtain ⟨r, hr, heq⟩ := foldl_nibbles 16 0 x
    rw [ofDigits_reverse]
    omega

/-! ### Reading -/

theorem digit_decimal : ∀ d < 10, 48 ≤ digit d ∧ digit d ≤ 57 ∧ (digit d).toNat = 48 + d := by decide

theorem atoiFrom_digits : ∀ (l : List Nat) (n : BitVec 32), (∀ d ∈ l, d < 10) →
    atoiFrom (l.map digit) n = l.foldl (fun a d => a * 10 + BitVec.ofNat 32 d) n
  | [], _, _ => rfl
  | d :: l, n, h => by
    have hchar := digit_decimal d (h d List.mem_cons_self)
    have hstep : n * 10 + BitVec.ofNat 32 (digit d).toNat - 48 = n * 10 + BitVec.ofNat 32 d := by
      rw [hchar.2.2, BitVec.ofNat_add]
      generalize n * 10 = m
      bv_omega
    rw [List.map_cons, atoiFrom, if_pos ⟨hchar.1, hchar.2.1⟩, hstep,
      atoiFrom_digits l _ fun d' hd' => h d' (List.mem_cons_of_mem _ hd'), List.foldl_cons]

theorem foldl_ofNat : ∀ (l : List Nat) (n : Nat), l.foldl (fun a d => a * 10 + BitVec.ofNat 32 d) (BitVec.ofNat 32 n) =
    BitVec.ofNat 32 (l.foldl (fun a d => a * 10 + d) n)
  | [], _ => rfl
  | d :: l, n => by
    rw [List.foldl_cons, List.foldl_cons, ← foldl_ofNat l, BitVec.ofNat_add, BitVec.ofNat_mul]
    rfl

theorem atoi_eq {text : List UInt8} {n : Nat} (h : Denotes 10 text n) : atoi text = BitVec.ofNat 32 n := by
  obtain ⟨l, rfl, hlt, rfl⟩ := h
  have hsum := ofDigits_reverse 10 l.reverse
  rw [List.reverse_reverse] at hsum
  rw [atoi, ← List.map_reverse, atoiFrom_digits _ _ fun d hd => hlt d (List.mem_reverse.1 hd), hsum]
  exact foldl_ofNat l.reverse 0

/-! ### The conversions -/

inductive Conv where
  | d
  | x
  | l
  | p

def Conv.char : Conv → UInt8
  | d => 100
  | x => 120
  | l => 108
  | p => 112

/-- What `printint` puts into its buffer. -/
def Conv.buf (v : BitVec 64) : Conv → List UInt8
  | d => printintBuf (v.setWidth 32) 10 true
  | x => printintBuf (v.setWidth 32) 16 false
  | l => printintBuf (v.setWidth 32) 10 false
  | p => []

/-- The characters denote the value of the argument: an `int`, a `uint`, or a `uint64` in decimal or in hexadecimal. -/
def Conv.Shows (v : BitVec 64) (out : List UInt8) : Conv → Prop
  | d => if (v.setWidth 32).toInt < 0 then ∃ t, out = 45 :: t ∧ Denotes 10 t (v.setWidth 32).toInt.natAbs ∧ Plain t
      else Denotes 10 out (v.setWidth 32).toInt.toNat ∧ Plain out
  | x => Denotes 16 out (v.setWidth 32).toNat ∧ Plain out
  | l => Denotes 10 out v.toNat ∧ Plain out
  | p => ∃ t, out = [48, 120] ++ t ∧ Denotes 16 t v.toNat

/-- The buffer is large enough, and `atoi` reads what `%d` has written. -/
structure Exact (c : Conv) (v : BitVec 64) (out : List UInt8) : Prop where
  text : c.Shows v out
  fits : (c.buf v).length ≤ 16
  atoi : c = .d → 0 ≤ (v.setWidth 32).toInt → Printf.atoi out = v.setWidth 32

theorem natAbs_toInt {xx : BitVec 32} (h : xx.toInt < 0) : xx.toInt.natAbs = (-xx).toNat := by
  rw [BitVec.toInt_eq_toNat_cond] at h ⊢
  split at h
  · omega
  · rw [if_neg (by assumption), BitVec.toNat_neg]
    have := xx.isLt
    omega

theorem toNat_toInt {xx : BitVec 32} (h : ¬xx.toInt < 0) : xx.toInt.toNat = xx.toNat := by
  rw [BitVec.toInt_eq_toNat_cond] at h ⊢
  split at h
  · rw [if_pos (by assumption), Int.toNat_natCast]
  · have := xx.isLt
    omega

theorem exact_d (v : BitVec 64) : Exact .d v (printint (v.setWidth 32) 10 true) := by
  generalize hxx : v.setWidth 32 = xx
  by_cases hneg : xx.toInt < 0
  · obtain ⟨hden, hplain, hlen⟩ := numeral_uint 10 (by decide) (by decide) (-xx).isLt
    have hbuf : printintBuf xx 10 true = digitsFrom 10 32 (-xx).toNat ++ [45] := if_pos ⟨rfl, hneg⟩
    refine ⟨?_, ?_, fun _ hpos => ?_⟩
    · rw [Conv.Shows, hxx, if_pos hneg, natAbs_toInt hneg, printint, hbuf, List.reverse_append]
      exact ⟨_, rfl, hden, hplain⟩
    · rw [Conv.buf, hxx, hbuf, List.length_append, List.length_singleton]
      omega
    · rw [hxx] at hpos
      omega
  · obtain ⟨hden, hplain, hlen⟩ := numeral_uint 10 (by decide) (by decide) xx.isLt
    have hbuf : printintBuf xx 10 true = digitsFrom 10 32 xx.toNat := if_neg fun h => hneg h.2
    refine ⟨?_, ?_, fun _ _ => ?_⟩
    · rw [Conv.Shows, hxx, if_neg hneg, toNat_toInt hneg, printint, hbuf]
      exact ⟨hden, hplain⟩
    · rw [Conv.buf, hxx, hbuf]
      omega
    · rw [printint, hbuf, atoi_eq hden, hxx, BitVec.ofNat_toNat, BitVec.setWidth_eq]

/-- What a `uint` in base 10 or 16 is written as. -/
theorem numeral_printint (xx : BitVec 32) (base : Nat) (hbase : 10 ≤ base) (hle : base ≤ 16) :
    Denotes base (printint xx base false) xx.toNat ∧ Plain (printint xx base false) ∧
      (printintBuf xx base false).length ≤ 16 := by
  have hbuf : printintBuf xx base false = digitsFrom base 32 xx.toNat := if_neg fun h => Bool.false_ne_true h.1
  obtain ⟨hden, hplain, hlen⟩ := numeral_uint base hbase hle xx.isLt
  rw [printint, hbuf]
  exact ⟨hden, hplain, by omega⟩

/-- **Numbers are written exactly** if and only if the conversion is not `%l` or its argument is a `uint`. -/
theorem vprintf_exact_iff (c : Conv) (v : BitVec 64) (mem : BitVec 64 → List UInt8) (fmt : List UInt8)
    (ap : List (BitVec 64)) : ∃ out,
      vprintf mem false (37 :: c.char :: fmt) (v :: ap) = out ++ vprintf mem false fmt ap ∧
        (Exact c v out ↔ (c = .l → v.toNat < 2 ^ 32)) := by
  cases c with
  | d => exact ⟨_, rfl, iff_of_true (exact_d v) nofun⟩
  | x =>
      obtain ⟨hden, hplain, hlen⟩ := numeral_printint (v.setWidth 32) 16 (by decide) (by decide)
      exact ⟨_, rfl, iff_of_true ⟨⟨hden, hplain⟩, hlen, nofun⟩ nofun⟩
  | l =>
      obtain ⟨hden, hplain, hlen⟩ := numeral_printint (v.setWidth 32) 10 (by decide) (by decide)
      have hmod : (v.setWidth 32).toNat = v.toNat % 2 ^ 32 := BitVec.toNat_setWidth ..
      rw [hmod] at hden
      refine ⟨_, rfl, fun h _ => ?_, fun hlt => ⟨⟨?_, hplain⟩, hlen, nofun⟩⟩
      · have heq := h.text.1.unique (by decide) hden
        rw [heq]
        exact Nat.mod_lt _ (by decide)
      · rwa [Nat.mod_eq_of_lt (hlt rfl)] at hden
  | p => exact ⟨_, rfl, iff_of_true ⟨⟨_, rfl, denotes_printptrFrom v⟩, by simp [Conv.buf], nofun⟩ nofun⟩

/-- `%l` writes 0 for `2 ^ 32`. -/
theorem vprintf_truncates : vprintf (fun _ => []) false [37, 108] [4294967296] = [48] := by decide

end Printf

end Xv6
