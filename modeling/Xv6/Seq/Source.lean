import Xv6.Fs.Interface
import Mathlib.Data.List.GetD

/-! The source of `either_copyin`, byte by byte. A copy stops at the first byte whose page is not there, so that
it succeeds just if all bytes are there. `either_copyout` goes over the same pages. -/

namespace Xv6

open Lib List

/-- The byte at a virtual address, if `walkaddr` finds its page. -/
def UserMem.byte (um : UserMem) (va : Nat) : Option UInt8 :=
  (um (va - va % PGSIZE)).map fun page => page.get (va % PGSIZE)

namespace Src

def byte : Src → Nat → Option UInt8
  | .user um addr, j => um.byte ((addr + j) % 2 ^ 64)
  | .kernel bytes, j => some (bytes j)

/-- A user address is a `uint64`. -/
def Ok : Src → Prop
  | .user _ addr => addr < 2 ^ 64
  | .kernel _ => True

/-- These bytes are at the source. -/
def Has (src : Src) (b : List UInt8) : Prop := ∀ j, j < b.length → src.byte j = some (b.getD j 0)

theorem byte_add (src : Src) (m j : Nat) : (src.add m).byte j = src.byte (m + j) := by
  cases src with
  | user um addr =>
    show um.byte (((addr + m) % 2 ^ 64 + j) % 2 ^ 64) = um.byte ((addr + (m + j)) % 2 ^ 64)
    rw [Nat.mod_add_mod, Nat.add_assoc]
  | kernel bytes =>
    show some (bytes (j + m)) = some (bytes (m + j))
    rw [Nat.add_comm]

theorem Has.append {src src' : Src} {b b' : List UInt8} (h : src.Has b) (h' : src'.Has b')
    (hbyte : ∀ j, src'.byte j = src.byte (b.length + j)) : src.Has (b ++ b') := by
  intro j hj
  by_cases hlt : j < b.length
  · rw [getD_append _ _ _ _ hlt]
    exact h j hlt
  · have hle := Nat.le_of_not_lt hlt
    rw [length_append] at hj
    rw [getD_append_right _ _ _ _ hle, ← h' (j - b.length) (by omega), hbyte, Nat.add_sub_cancel' hle]

theorem ok_add (src : Src) (m : Nat) : (src.add m).Ok := by
  cases src with
  | user um addr => exact Nat.mod_lt _ (by decide)
  | kernel bytes => trivial

end Src

/-- The bytes that a copy of `len` bytes has made: those up to the first one that is not there. -/
structure Copied (byte : Nat → Option UInt8) (len : Nat) (bytes : List UInt8) : Prop where
  le : bytes.length ≤ len
  read : ∀ j, j < bytes.length → byte j = some (bytes.getD j 0)
  stop : bytes.length < len → byte bytes.length = none

namespace Copied

variable {byte byte' : Nat → Option UInt8} {len n : Nat} {bytes bytes' : List UInt8}

theorem length_eq_iff (h : Copied byte len bytes) : bytes.length = len ↔ ∀ j, j < len → (byte j).isSome := by
  constructor
  · intro heq j hj
    rw [h.read j (by omega)]
    rfl
  · intro hall
    by_contra hne
    have hlt : bytes.length < len := Nat.lt_of_le_of_ne h.le hne
    have hsome := hall _ hlt
    rw [h.stop hlt] at hsome
    cases hsome

theorem nil : Copied byte 0 [] :=
  ⟨Nat.le_refl 0, fun _ hj => absurd hj (Nat.not_lt_zero _), fun hlt => absurd hlt (Nat.lt_irrefl 0)⟩

/-- A copy goes on where a first one ended. -/
theorem append (h : Copied byte n bytes) (hn : bytes.length = n) (h' : Copied byte' (len - n) bytes') (hle : n ≤ len)
    (hbyte : ∀ j, j < len - n → byte' j = byte (n + j)) : Copied byte len (bytes ++ bytes') where
  le := by
    have := h'.le
    rw [length_append]
    omega
  read j hj := by
    rw [length_append] at hj
    have hle' := h'.le
    by_cases hlt : j < bytes.length
    · rw [getD_append _ _ _ _ hlt]
      exact h.read j hlt
    · rw [getD_append_right _ _ _ _ (Nat.le_of_not_lt hlt)]
      have hrest := h'.read (j - bytes.length) (by omega)
      rw [hbyte _ (by omega), hn] at hrest
      rw [hn, ← hrest, show n + (j - n) = j by omega]
  stop hlt := by
    rw [length_append] at hlt ⊢
    have hrest := h'.stop (by omega)
    rw [hbyte _ (by omega)] at hrest
    rw [hn]
    exact hrest

end Copied

/-! ### `copyin` -/

theorem copied_page {um : UserMem} {srcva n : Nat} {page : Bytes PGSIZE} (hva : srcva < 2 ^ 64)
    (hpage : um (srcva - srcva % PGSIZE) = some page) (hn : n ≤ PGSIZE - srcva % PGSIZE) :
    Copied (fun j => um.byte ((srcva + j) % 2 ^ 64)) n ((List.range n).map fun j => page.get (srcva % PGSIZE + j)) where
  le := by simp
  read j hj := by
    rw [length_map, length_range] at hj
    have hn' : n ≤ 4096 - srcva % 4096 := hn
    have hva' : srcva < 18446744073709551616 := hva
    have hmod : (srcva + j) % 18446744073709551616 = srcva + j := by omega
    have hoff : (srcva + j) % 4096 = srcva % 4096 + j := by omega
    have hbase : srcva + j - (srcva + j) % 4096 = srcva - srcva % 4096 := by omega
    show (um ((srcva + j) % 18446744073709551616 - (srcva + j) % 18446744073709551616 % 4096)).map
      (fun page => page.get ((srcva + j) % 18446744073709551616 % 4096)) = _
    rw [hmod, hbase, hoff]
    have hpage' : um (srcva - srcva % 4096) = some page := hpage
    have hget : ((List.range n).map fun j => page.get (srcva % PGSIZE + j)).getD j 0 = page.get (srcva % 4096 + j) := by
      simp [getD_eq_getElem?_getD, hj, PGSIZE]
    rw [hpage', hget]
    rfl
  stop hlt := by simp at hlt

theorem copyinLoop_spec (um : UserMem) : ∀ (fuel srcva len : Nat) (acc : List UInt8), srcva < 2 ^ 64 → len ≤ fuel →
    ∃ bytes, copyinLoop um fuel srcva len acc = (acc ++ bytes, decide (bytes.length = len)) ∧
      Copied (fun j => um.byte ((srcva + j) % 2 ^ 64)) len bytes := by
  intro fuel
  induction fuel with
  | zero =>
    intro srcva len acc _ hlen
    obtain rfl : len = 0 := by omega
    exact ⟨[], by simp [copyinLoop], Copied.nil⟩
  | succ fuel ih =>
    intro srcva len acc hva hlen
    rw [copyinLoop]
    split
    · rename_i hzero
      rw [hzero]
      exact ⟨[], by simp, Copied.nil⟩
    · rename_i hpos
      have hoff : srcva - (srcva - srcva % PGSIZE) = srcva % PGSIZE := Nat.sub_sub_self (Nat.mod_le ..)
      have hlt : srcva % PGSIZE < PGSIZE := Nat.mod_lt _ (by decide)
      dsimp only
      rw [hoff]
      cases hpage : um (srcva - srcva % PGSIZE) with
      | none =>
        have hne : ¬([] : List UInt8).length = len := fun heq => hpos heq.symm
        refine ⟨[], by rw [decide_eq_false hne, append_nil], Nat.zero_le _, fun j hj => absurd hj (Nat.not_lt_zero _),
          fun _ => ?_⟩
        show um.byte ((srcva + 0) % 2 ^ 64) = none
        rw [Nat.add_zero, Nat.mod_eq_of_lt hva, UserMem.byte, hpage]
        rfl
      | some page =>
        dsimp only
        have hle : min (PGSIZE - srcva % PGSIZE) len ≤ len := Nat.min_le_right ..
        have hle' : min (PGSIZE - srcva % PGSIZE) len ≤ PGSIZE - srcva % PGSIZE := Nat.min_le_left ..
        have hone : 0 < min (PGSIZE - srcva % PGSIZE) len := by omega
        have hmin : min (PGSIZE - srcva % PGSIZE) len = PGSIZE - srcva % PGSIZE ∨
            min (PGSIZE - srcva % PGSIZE) len = len := by omega
        generalize min (PGSIZE - srcva % PGSIZE) len = n at hle hle' hone hmin
        obtain ⟨bytes, heq, hrest⟩ := ih ((srcva - srcva % PGSIZE + PGSIZE) % 2 ^ 64) (len - n)
          (acc ++ (List.range n).map fun j => page.get (srcva % PGSIZE + j)) (Nat.mod_lt _ (by decide)) (by omega)
        have hcopied := (copied_page hva hpage hle').append (by simp) hrest hle fun j hj => by
          -- bytes are left, so that the page was copied to its end
          have hend : srcva + n = srcva - srcva % PGSIZE + PGSIZE := by
            have := Nat.mod_le srcva PGSIZE
            omega
          show um.byte (((srcva - srcva % PGSIZE + PGSIZE) % 2 ^ 64 + j) % 2 ^ 64) = _
          rw [Nat.mod_add_mod, ← hend, Nat.add_assoc]
        refine ⟨_, ?_, hcopied⟩
        rw [heq, append_assoc]
        congr 1
        rw [length_append, length_map, length_range]
        exact decide_eq_decide.2 (by omega)

/-- What `either_copyin` copies. -/
theorem eitherCopyin_spec {src : Src} (h : src.Ok) (len : Nat) : Copied src.byte len (eitherCopyin src len).1 ∧
    ((eitherCopyin src len).2 = true ↔ (eitherCopyin src len).1.length = len) := by
  cases src with
  | user um addr =>
    obtain ⟨bytes, heq, hcopied⟩ := copyinLoop_spec um len addr len [] h (Nat.le_refl len)
    have heq' : eitherCopyin (.user um addr) len = (bytes, decide (bytes.length = len)) := heq
    rw [heq']
    exact ⟨hcopied, decide_eq_true_iff⟩
  | kernel bytes =>
    refine ⟨⟨by simp [eitherCopyin], fun j hj => ?_, fun hlt => by simp [eitherCopyin] at hlt⟩, by simp [eitherCopyin]⟩
    simp only [eitherCopyin, length_map, length_range] at hj
    simp [eitherCopyin, Src.byte, getD_eq_getElem?_getD, hj]

/-! ### `copyout` -/

namespace Dst

/-- Memory with the same pages, to read from. -/
def source : Dst → Src
  | .kernel => .kernel fun _ => 0
  | .user mapped addr => .user (fun va => if mapped va then some fun _ => 0 else none) addr

theorem source_add (dst : Dst) (m : Nat) : (dst.add m).source = dst.source.add m := by
  cases dst <;> rfl

theorem length_copyinLoop (mapped : Nat → Bool) : ∀ (fuel va len : Nat) (acc : List UInt8),
    (copyinLoop (fun va => if mapped va then some fun _ => 0 else none) fuel va len acc).1.length =
      acc.length + copyoutLoop mapped fuel va len := by
  intro fuel
  induction fuel with
  | zero => exact fun _ _ _ => rfl
  | succ fuel ih =>
    intro va len acc
    rw [copyinLoop, copyoutLoop]
    by_cases hlen : len = 0
    · rw [if_pos hlen, if_pos hlen]
      rfl
    · rw [if_neg hlen, if_neg hlen]
      by_cases hpage : mapped (va - va % PGSIZE)
      · simp only [if_pos hpage, ih, length_append, length_map, length_range, Nat.add_assoc]
      · simp only [if_neg hpage]
        rfl

theorem stored_spec {dst : Dst} (h : dst.source.Ok) (len : Nat) :
    dst.stored len ≤ len ∧ (∀ j, j < dst.stored len → (dst.source.byte j).isSome) ∧
      (dst.stored len < len → dst.source.byte (dst.stored len) = none) := by
  have hcopied := (eitherCopyin_spec h len).1
  have hstored : (eitherCopyin dst.source len).1.length = dst.stored len := by
    cases dst with
    | kernel => simp [source, eitherCopyin, stored]
    | user mapped addr => exact (length_copyinLoop mapped len addr len []).trans (Nat.zero_add _)
  rw [← hstored]
  refine ⟨hcopied.le, fun j hj => ?_, hcopied.stop⟩
  rw [hcopied.read j hj]
  rfl

end Dst

end Xv6
