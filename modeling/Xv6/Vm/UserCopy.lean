import Xv6.Vm.Space
import Xv6.Seq.Source

/-! Copies between the kernel and user memory: `copyout`, `copyin` and `copyinstr` stop at the first page that is not
a user page below `MAXVA`, so that their addresses never wrap around. -/

namespace Xv6

open Lib Pte Radix

/-! ### `walkaddr` -/

namespace Phys

/-- The byte at `va` is in a user page. -/
def User (s : Phys) (r va : Nat) : Prop := va < MAXVA ∧ Has (s.map r (va / PGSIZE)) PTE_V ∧ Has (s.map r (va / PGSIZE)) PTE_U

instance (s : Phys) (r va : Nat) : Decidable (s.User r va) := inferInstanceAs (Decidable (_ ∧ _ ∧ _))

/-- The page that `va` is mapped to. -/
def frame (s : Phys) (r va : Nat) : Nat := addr (s.map r (va / PGSIZE))

/-- The user pages have pages of their own, not at 0, and none of them is a table. -/
structure Frames (s : Phys) (r : Nat) : Prop where
  pos : ∀ va, s.User r va → s.frame r va ≠ 0
  apart : ∀ va, s.User r va → ¬ s.Table r (s.frame r va)
  inj : ∀ va va', s.User r va → s.User r va' → s.frame r va = s.frame r va' → va / PGSIZE = va' / PGSIZE

/-- User memory as `walkaddr` finds it. -/
def user (s : Phys) (r : Nat) : UserMem := fun va =>
  match walkaddr r va s with
  | .ok pa _ => if pa = 0 then none else some (s.page pa)
  | _ => none

/-- The byte at `va`, if it is in a user page. -/
def userByte (s : Phys) (r va : Nat) : Option UInt8 := if s.User r va then some (s.byte r va) else none

end Phys

section Walkaddr

variable {s : Phys} {r va : Nat}

theorem walkaddr_eq (r va : Nat) (s : Phys) : walkaddr r va s = .ok (if s.User r va then s.frame r va else 0) s := by
  unfold walkaddr
  by_cases hva : va < MAXVA
  · rw [if_neg (Nat.not_le_of_lt hva), Run.bind_ok (walk_false hva)]
    cases ht : s.leaf r (va / PGSIZE) with
    | none =>
      have hmap : s.map r (va / PGSIZE) = 0#64 := by
        unfold Phys.map
        rw [ht]
      rw [if_neg]
      · rfl
      · rintro ⟨-, hvalid, -⟩
        rw [hmap] at hvalid
        exact not_has_zero _ hvalid
    | some t =>
      show (load (t, va / PGSIZE % 512) >>= _) s = _
      rw [Run.bind_ok (show load (t, va / PGSIZE % 512) s = .ok (s.map r (va / PGSIZE)) s by rw [map_of_leaf ht]; rfl)]
      by_cases hvalid : Has (s.map r (va / PGSIZE)) PTE_V
      · by_cases huser : Has (s.map r (va / PGSIZE)) PTE_U
        · rw [if_pos hvalid, if_pos huser, if_pos (show s.User r va from ⟨hva, hvalid, huser⟩)]
          rfl
        · rw [if_pos hvalid, if_neg huser, if_neg (show ¬ s.User r va from fun h => huser h.2.2)]
          rfl
      · rw [if_neg hvalid, if_neg (show ¬ s.User r va from fun h => hvalid h.2.1)]
        rfl
  · rw [if_pos (Nat.le_of_not_lt hva), if_neg (fun h => hva h.1)]
    rfl

theorem user_congr {va' : Nat} (h : va / PGSIZE = va' / PGSIZE) : s.User r va ↔ s.User r va' := by
  unfold Phys.User MAXVA
  rw [h]
  unfold PGSIZE at *
  constructor
  · rintro ⟨hva, hrest⟩
    exact ⟨by omega, hrest⟩
  · rintro ⟨hva, hrest⟩
    exact ⟨by omega, hrest⟩

theorem byte_user (hf : s.Frames r) (va : Nat) : (s.user r).byte va = s.userByte r va := by
  have hpage : (va - va % PGSIZE) / PGSIZE = va / PGSIZE := by
    unfold PGSIZE
    omega
  unfold UserMem.byte Phys.user Phys.userByte
  rw [walkaddr_eq]
  dsimp only
  by_cases huser : s.User r va
  · have huser' := (user_congr hpage).2 huser
    have hframe : s.frame r (va - va % PGSIZE) = s.frame r va := by
      unfold Phys.frame
      rw [hpage]
    rw [if_pos huser', if_pos huser, hframe, if_neg (hf.pos va huser)]
    rfl
  · rw [if_neg fun h => huser ((user_congr hpage).1 h), if_neg huser, if_pos rfl]
    rfl

end Walkaddr

/-! ### `copyin` -/

section Copyin

variable {s : Phys} {r va : Nat}

/-- Where the bytes above `MAXVA` are not there, no copy gets to the addresses that wrap around. -/
theorem Copied.unwrap {byte : Nat → Option UInt8} {len : Nat} {bytes : List UInt8}
    (h : Copied (fun j => byte ((va + j) % 2 ^ 64)) len bytes) (hva : va < 2 ^ 64)
    (hhigh : ∀ x, MAXVA ≤ x → byte x = none) : Copied (fun j => byte (va + j)) len bytes := by
  have hlow : ∀ j, j ≤ bytes.length → j < len → va + j < 2 ^ 64 := by
    intro j hj _
    by_contra hwrap
    -- the last address was read
    have hlast := h.read (2 ^ 64 - 1 - va) (by omega)
    rw [show (va + (2 ^ 64 - 1 - va)) % 2 ^ 64 = 2 ^ 64 - 1 by omega, hhigh _ (by decide)] at hlast
    cases hlast
  refine ⟨h.le, ?_, ?_⟩
  · intro j hj
    have := h.read j hj
    have hle := h.le
    rwa [Nat.mod_eq_of_lt (hlow j (Nat.le_of_lt hj) (by omega))] at this
  · intro hlt
    have := h.stop hlt
    rwa [Nat.mod_eq_of_lt (hlow _ (Nat.le_refl _) hlt)] at this

theorem userByte_high (va : Nat) (h : MAXVA ≤ va) : s.userByte r va = none := if_neg fun huser => absurd huser.1 (Nat.not_lt.2 h)

theorem copyin_user (hf : s.Frames r) (hva : va < 2 ^ 64) (len : Nat) :
    ∃ bytes, copyin (s.user r) va len = (bytes, decide (bytes.length = len)) ∧
      Copied (fun j => s.userByte r (va + j)) len bytes := by
  obtain ⟨bytes, heq, hcopied⟩ := copyinLoop_spec (s.user r) len va len [] hva (Nat.le_refl len)
  simp only [byte_user hf] at hcopied
  exact ⟨bytes, heq, hcopied.unwrap hva userByte_high⟩

end Copyin

/-! ### `copyinstr` -/

/-- What `copyinstr` stores: a string and its NUL, or bytes without a NUL up to the first one that is not there. -/
def Strung (byte : Nat → Option UInt8) (max : Nat) (bytes : List UInt8) (found : Bool) : Prop :=
  if found then bytes.length ≤ max ∧ Copied byte bytes.length bytes ∧ ∃ str, bytes = str ++ [0] ∧ 0 ∉ str
  else Copied byte max bytes ∧ 0 ∉ bytes

section Copyinstr

variable {s : Phys} {r va : Nat} {byte byte' : Nat → Option UInt8} {max n : Nat} {bytes bytes' : List UInt8} {found : Bool}

/-- `copyinstr` meets a NUL just if there is one that can be read. -/
theorem Strung.found_iff (h : Strung byte max bytes found) :
    found = true ↔ ∃ k, k < max ∧ byte k = some 0 ∧ ∀ j, j < k → (byte j).isSome := by
  unfold Strung at h
  cases found with
  | true =>
    obtain ⟨hle, hcopied, str, rfl, -⟩ := h
    rw [List.length_append, List.length_singleton] at hle hcopied
    refine ⟨fun _ => ⟨str.length, by omega, ?_, ?_⟩, fun _ => rfl⟩
    · have := hcopied.read str.length (by simp)
      rwa [List.getD_append_right _ _ _ _ (Nat.le_refl _), Nat.sub_self] at this
    · intro j hj
      rw [hcopied.read j (by simp; omega)]
      rfl
  | false =>
    obtain ⟨hcopied, hnot⟩ := h
    refine ⟨nofun, ?_⟩
    rintro ⟨k, hk, hbyte, hall⟩
    have hle := hcopied.le
    by_cases hlt : k < bytes.length
    · have hread := hcopied.read k hlt
      rw [hbyte, List.getD_eq_getElem _ _ hlt] at hread
      exact absurd (Option.some.inj hread ▸ List.getElem_mem hlt) hnot
    · have hstop := hcopied.stop (by omega)
      by_cases heq : bytes.length = k
      · rw [heq, hbyte] at hstop
        cases hstop
      · have hsome := hall bytes.length (by omega)
        rw [hstop] at hsome
        cases hsome

theorem Strung.append (h : Copied byte n bytes) (hn : bytes.length = n) (hnot : 0 ∉ bytes)
    (h' : Strung byte' (max - n) bytes' found) (hle : n ≤ max) (hbyte : ∀ j, j < max - n → byte' j = byte (n + j)) :
    Strung byte max (bytes ++ bytes') found := by
  unfold Strung at *
  cases found with
  | true =>
    obtain ⟨hle', hcopied, str, rfl, hstr⟩ := h'
    refine ⟨by rw [List.length_append]; omega, ?_, bytes ++ str, by simp, by simp [hnot, hstr]⟩
    rw [List.length_append, hn]
    refine h.append hn ?_ (Nat.le_add_right ..) fun j hj => hbyte j (by omega)
    rwa [Nat.add_sub_cancel_left]
  | false =>
    obtain ⟨hcopied, hnot'⟩ := h'
    exact ⟨h.append hn hcopied hle hbyte, by simp [hnot, hnot']⟩

theorem copyinstrPage_spec (page : Bytes PGSIZE) : ∀ n p dst, ∃ k found, k ≤ n ∧
    copyinstrPage page n p dst = (dst ++ (List.range k).map (fun j => page.get (p + j)), found) ∧
      if found then ∃ str, (List.range k).map (fun j => page.get (p + j)) = str ++ [0] ∧ 0 ∉ str
      else k = n ∧ 0 ∉ (List.range k).map fun j => page.get (p + j) := by
  intro n
  induction n with
  | zero =>
    intro p dst
    exact ⟨0, false, Nat.le_refl 0, by simp [copyinstrPage], rfl, by simp⟩
  | succ n ih =>
    intro p dst
    rw [copyinstrPage]
    by_cases hnul : page.get p = 0
    · rw [if_pos hnul]
      exact ⟨1, true, by omega, by simp [hnul], [], by simp [hnul], by simp⟩
    · obtain ⟨k, found, hk, heq, hend⟩ := ih (p + 1) (dst ++ [page.get p])
      have hmap : (List.range (k + 1)).map (fun j => page.get (p + j)) =
          page.get p :: (List.range k).map fun j => page.get (p + 1 + j) := by
        rw [List.range_succ_eq_map, List.map_cons, List.map_map, Nat.add_zero]
        congr 2
        funext j
        show page.get (p + (j + 1)) = page.get (p + 1 + j)
        rw [Nat.add_right_comm, Nat.add_assoc]
      rw [if_neg hnul, heq]
      refine ⟨k + 1, found, by omega, by rw [hmap]; simp, ?_⟩
      rw [hmap]
      cases found with
      | true =>
        obtain ⟨str, hstr, hnot⟩ := hend
        exact ⟨page.get p :: str, by rw [hstr]; rfl, by simp [hnot, Ne.symm hnul]⟩
      | false => exact ⟨by rw [hend.1], by simp only [List.mem_cons, not_or]; exact ⟨Ne.symm hnul, hend.2⟩⟩

theorem copyinstrLoop_spec (um : UserMem) (hhigh : ∀ x, MAXVA ≤ x → um x = none) :
    ∀ (fuel srcva max : Nat) (dst : List UInt8), srcva < 2 ^ 64 → max ≤ fuel →
      ∃ bytes found, copyinstrLoop um fuel srcva max dst = (dst ++ bytes, found) ∧
        Strung (fun j => um.byte (srcva + j)) max bytes found := by
  intro fuel
  induction fuel with
  | zero =>
    intro srcva max dst _ hmax
    obtain rfl : max = 0 := by omega
    exact ⟨[], false, by simp [copyinstrLoop], Copied.nil, by simp⟩
  | succ fuel ih =>
    intro srcva max dst hva hmax
    rw [copyinstrLoop]
    by_cases hzero : max = 0
    · rw [if_pos hzero, hzero]
      exact ⟨[], false, by simp, Copied.nil, by simp⟩
    have hdown : pgRoundDown srcva = srcva - srcva % PGSIZE := by
      unfold pgRoundDown PGSIZE
      omega
    have hoff : srcva - (srcva - srcva % PGSIZE) = srcva % PGSIZE := Nat.sub_sub_self (Nat.mod_le ..)
    have hbyte : ∀ x, MAXVA ≤ x → um.byte x = none := by
      intro x hx
      unfold UserMem.byte
      rw [hhigh _ (by unfold MAXVA PGSIZE at *; omega)]
      rfl
    rw [if_neg hzero, hdown]
    dsimp only
    rw [hoff]
    cases hpage : um (srcva - srcva % PGSIZE) with
    | none =>
      refine ⟨[], false, by simp, ⟨Nat.zero_le _, fun _ h => absurd h (Nat.not_lt_zero _), fun _ => ?_⟩, by simp⟩
      show um.byte (srcva + 0) = none
      rw [Nat.add_zero, UserMem.byte, hpage]
      rfl
    | some page =>
      have hlow : srcva - srcva % PGSIZE < MAXVA := by
        by_contra hge
        rw [hhigh _ (Nat.not_lt.1 hge)] at hpage
        cases hpage
      obtain ⟨k, found, hk, heq, hend⟩ := copyinstrPage_spec page (min (PGSIZE - srcva % PGSIZE) max) (srcva % PGSIZE) dst
      have hcopied := (copied_page hva hpage (Nat.le_trans hk (Nat.min_le_left ..))).unwrap hva hbyte
      dsimp only
      rw [heq]
      cases found with
      | true =>
        refine ⟨_, true, rfl, ?_⟩
        rw [Strung, if_pos rfl, List.length_map, List.length_range]
        exact ⟨Nat.le_trans hk (Nat.min_le_right ..), hcopied, hend⟩
      | false =>
        obtain ⟨rfl, hnot⟩ := hend
        have hlt : srcva % PGSIZE < PGSIZE := Nat.mod_lt _ (by decide)
        obtain ⟨bytes, found, hrest, hstrung⟩ := ih ((srcva - srcva % PGSIZE + PGSIZE) % 2 ^ 64)
          (max - min (PGSIZE - srcva % PGSIZE) max) _ (Nat.mod_lt _ (by decide)) (by omega)
        refine ⟨_, found, (if_neg Bool.false_ne_true).trans (hrest.trans (by rw [List.append_assoc])),
          Strung.append hcopied (by simp) hnot hstrung (Nat.min_le_right ..) fun j hj => ?_⟩
        -- bytes are left, so that the page was read to its end
        have hle := Nat.mod_le srcva PGSIZE
        have hnext : (srcva - srcva % PGSIZE + PGSIZE) % 2 ^ 64 = srcva + min (PGSIZE - srcva % PGSIZE) max := by
          unfold MAXVA at hlow
          unfold PGSIZE at *
          omega
        rw [hnext, Nat.add_assoc]

/-- `copyinstr` of user memory. -/
theorem copyinstr_user (hf : s.Frames r) (hva : va < 2 ^ 64) (max : Nat) :
    ∃ bytes found, copyinstr (s.user r) va max = (bytes, found) ∧ Strung (fun j => s.userByte r (va + j)) max bytes found := by
  have hhigh : ∀ x, MAXVA ≤ x → s.user r x = none := by
    intro x hx
    unfold Phys.user
    rw [walkaddr_eq, if_neg fun h => absurd h.1 (Nat.not_lt.2 hx)]
    rfl
  obtain ⟨bytes, found, heq, hstrung⟩ := copyinstrLoop_spec (s.user r) hhigh max va max [] hva (Nat.le_refl max)
  simp only [byte_user hf] at hstrung
  exact ⟨bytes, found, heq, hstrung⟩

end Copyinstr

/-! ### `copyout` -/

/-- The first `n` bytes of `src` are in user memory from `va` on, and nothing else is changed. -/
structure Wrote (s : Phys) (r va : Nat) (src : Nat → UInt8) (n : Nat) (s' : Phys) : Prop where
  user : ∀ j, j < n → s.User r (va + j)
  byte : ∀ j, j < n → (s'.page (s.frame r (va + j))).get ((va + j) % PGSIZE) = src j
  rest : ∀ a i, (∀ j, j < n → ¬ (s.frame r (va + j) = a ∧ (va + j) % PGSIZE = i)) → (s'.page a).get i = (s.page a).get i
  free : s'.free = s.free
  kend : s'.kend = s.kend

section Copyout

variable {s s' : Phys} {r va n : Nat} {src : Nat → UInt8}

theorem Wrote.zero : Wrote s r va src 0 s := ⟨nofun, nofun, fun _ _ _ => rfl, rfl, rfl⟩

/-- What a write to pages that are no tables leaves. -/
theorem Phys.Frames.keep (hf : s.Frames r) (h : ∀ a, s.Table r a → s'.page a = s.page a) :
    (∀ va, s'.User r va ↔ s.User r va) ∧ (∀ va, s'.frame r va = s.frame r va) ∧ s'.Frames r := by
  have hmap := Phys.map_congr h
  have huser : ∀ va, s'.User r va ↔ s.User r va := by
    intro va
    unfold Phys.User
    rw [hmap]
  have hframe : ∀ va, s'.frame r va = s.frame r va := by
    intro va
    unfold Phys.frame
    rw [hmap]
  refine ⟨huser, hframe, ?_, ?_, ?_⟩
  · intro va hva
    rw [hframe]
    exact hf.pos va ((huser va).1 hva)
  · intro va hva
    rw [hframe, Phys.table_congr h]
    exact hf.apart va ((huser va).1 hva)
  · intro va va' hva hva' heq
    rw [hframe, hframe] at heq
    exact hf.inj va va' ((huser va).1 hva) ((huser va').1 hva') heq

/-- User pages are no tables. -/
theorem Phys.Frames.setPage (hf : s.Frames r) (huser : s.User r va) (b : Bytes PGSIZE) :
    (∀ x, (s.setPage (s.frame r va) b).User r x ↔ s.User r x) ∧
      (∀ x, (s.setPage (s.frame r va) b).frame r x = s.frame r x) ∧ (s.setPage (s.frame r va) b).Frames r := by
  refine hf.keep fun a ha => ?_
  apply Phys.page_setPage_of_ne
  rintro rfl
  exact hf.apart va huser ha

/-- A first part in one page, and then the rest. -/
theorem Wrote.append {m : Nat} (hf : s.Frames r) (hn : va % PGSIZE + n ≤ PGSIZE) (huser : s.User r va)
    (hnext : 0 < m → (va + n) % PGSIZE = 0) (hpos : 0 < n)
    (h : Wrote (s.setPage (s.frame r va) ((s.page (s.frame r va)).write (va % PGSIZE) src n)) r (va + n)
      (fun j => src (n + j)) m s') : Wrote s r va src (n + m) s' := by
  obtain ⟨huser', hframe', -⟩ := hf.setPage huser ((s.page (s.frame r va)).write (va % PGSIZE) src n)
  have hpage : ∀ j, j < n → (va + j) / PGSIZE = va / PGSIZE ∧ (va + j) % PGSIZE = va % PGSIZE + j := by
    intro j hj
    unfold PGSIZE at *
    omega
  have hsame : ∀ j, j < n → s.User r (va + j) ∧ s.frame r (va + j) = s.frame r va := by
    intro j hj
    refine ⟨(user_congr (hpage j hj).1).2 huser, ?_⟩
    unfold Phys.frame
    rw [(hpage j hj).1]
  -- the bytes after the first part are in other pages
  have hother : ∀ j, j < m → s.frame r (va + n + j) ≠ s.frame r va := by
    intro j hj heq
    have := hf.inj _ _ ((huser' _).1 (h.user j hj)) huser heq
    have := hnext (by omega)
    unfold PGSIZE at *
    omega
  refine ⟨?_, ?_, ?_, h.free, h.kend⟩
  · intro j hj
    by_cases hlt : j < n
    · exact (hsame j hlt).1
    · have := (huser' _).1 (h.user (j - n) (by omega))
      rwa [show va + n + (j - n) = va + j by omega] at this
  · intro j hj
    by_cases hlt : j < n
    · rw [(hsame j hlt).2, (hpage j hlt).2, h.rest, Phys.page_setPage_self,
        Bytes.get_write_of_mem _ _ (by omega) (by omega) (by omega), Nat.add_sub_cancel_left]
      intro j' hj' hboth
      rw [hframe'] at hboth
      exact hother j' hj' hboth.1
    · have := h.byte (j - n) (by omega)
      rwa [hframe', show va + n + (j - n) = va + j by omega, show n + (j - n) = j by omega] at this
  · intro a i hnone
    rw [h.rest a i]
    · by_cases ha : a = s.frame r va
      · rw [ha, Phys.page_setPage_self, Bytes.get_write_of_not_mem]
        rintro ⟨hi, hi'⟩
        have hj : i - va % PGSIZE < n := by omega
        apply hnone (i - va % PGSIZE) (by omega)
        rw [(hsame _ hj).2, (hpage _ hj).2]
        exact ⟨ha.symm, by omega⟩
      · rw [Phys.page_setPage_of_ne ha]
    · intro j hj hboth
      rw [hframe', Nat.add_assoc] at hboth
      exact hnone (n + j) (by omega) hboth

theorem copyoutFrom_spec (r : Nat) : ∀ (fuel va : Nat) (src : Nat → UInt8) (len : Nat) (s : Phys), s.Frames r →
    va < 2 ^ 64 → len ≤ fuel → ∃ n ret s', copyoutFrom r fuel va src len s = .ok ret s' ∧ Wrote s r va src n s' ∧
      (ret = 0 ∧ n = len ∨ ret = -1 ∧ n < len ∧ ¬ s.User r (va + n)) := by
  intro fuel
  induction fuel with
  | zero =>
    intro va src len s _ _ hlen
    exact ⟨0, 0, s, rfl, .zero, Or.inl ⟨rfl, by omega⟩⟩
  | succ fuel ih =>
    intro va src len s hf hva hlen
    rw [copyoutFrom]
    by_cases hzero : len = 0
    · rw [if_pos hzero]
      exact ⟨0, 0, s, rfl, .zero, Or.inl ⟨rfl, hzero.symm⟩⟩
    have hdown : pgRoundDown va = va - va % PGSIZE := by
      unfold pgRoundDown PGSIZE
      omega
    have hpage : (va - va % PGSIZE) / PGSIZE = va / PGSIZE := by
      unfold PGSIZE
      omega
    have hoff : va - (va - va % PGSIZE) = va % PGSIZE := Nat.sub_sub_self (Nat.mod_le ..)
    rw [if_neg hzero, hdown]
    dsimp only
    rw [Run.bind_ok (walkaddr_eq r _ s), hoff]
    by_cases huser : s.User r va
    · have hframe : s.frame r (va - va % PGSIZE) = s.frame r va := by
        unfold Phys.frame
        rw [hpage]
      rw [if_pos ((user_congr hpage).2 huser), hframe, if_neg (hf.pos va huser)]
      have hlt : va % PGSIZE < PGSIZE := Nat.mod_lt _ (by decide)
      have hmin : min (PGSIZE - va % PGSIZE) len ≤ len := Nat.min_le_right ..
      have hmin' : min (PGSIZE - va % PGSIZE) len ≤ PGSIZE - va % PGSIZE := Nat.min_le_left ..
      have hpos : 0 < min (PGSIZE - va % PGSIZE) len := by omega
      have hfull : min (PGSIZE - va % PGSIZE) len < len →
          va + min (PGSIZE - va % PGSIZE) len = va - va % PGSIZE + PGSIZE := by
        have := Nat.mod_le va PGSIZE
        omega
      generalize min (PGSIZE - va % PGSIZE) len = k at *
      obtain ⟨huser', -, hf'⟩ := hf.setPage huser ((s.page (s.frame r va)).write (va % PGSIZE) src k)
      obtain ⟨n, ret, s', hrun, hwrote, hret⟩ := ih ((va - va % PGSIZE + PGSIZE) % 2 ^ 64) (fun j => src (k + j)) (len - k) _
        hf' (Nat.mod_lt _ (by decide)) (by omega)
      have hnext : k < len → (va - va % PGSIZE + PGSIZE) % 2 ^ 64 = va + k := by
        intro hk
        have hva' := huser.1
        unfold MAXVA at hva'
        rw [hfull hk]
        unfold PGSIZE
        omega
      refine ⟨k + n, ret, s', hrun, ?_⟩
      by_cases hk : k < len
      · rw [hnext hk] at hwrote hret
        refine ⟨hwrote.append hf (by omega) huser ?_ hpos, ?_⟩
        · intro _
          rw [hfull hk]
          unfold PGSIZE
          omega
        · rw [huser', Nat.add_assoc] at hret
          exact hret.imp (fun h => ⟨h.1, by omega⟩) fun h => ⟨h.1, by omega, h.2.2⟩
      · -- nothing is left
        obtain rfl : n = 0 := by omega
        refine ⟨Wrote.append hf (by omega) huser nofun hpos ⟨nofun, nofun, fun a i _ => hwrote.rest a i nofun, hwrote.free,
          hwrote.kend⟩, ?_⟩
        exact hret.imp (fun h => ⟨h.1, by omega⟩) fun h => absurd h.2.1 (by omega)
    · refine ⟨0, -1, s, ?_, .zero, Or.inr ⟨rfl, Nat.pos_of_ne_zero hzero, huser⟩⟩
      rw [if_neg fun h => huser ((user_congr hpage).1 h), if_pos rfl]
      rfl

/-- **User copies are exact and bounded.** -/
theorem user_copies (hf : s.Frames r) (hva : va < 2 ^ 64) (src : Nat → UInt8) (len : Nat) :
    (∃ n ret s', copyout r va src len s = .ok ret s' ∧ Wrote s r va src n s' ∧
      (ret = 0 ∧ n = len ∨ ret = -1 ∧ n < len ∧ ¬ s.User r (va + n)) ∧ (ret = 0 ↔ ∀ j, j < len → s.User r (va + j))) ∧
    (∃ bytes ok, copyin (s.user r) va len = (bytes, ok) ∧ Copied (fun j => s.userByte r (va + j)) len bytes ∧
      (ok = true ↔ bytes.length = len) ∧ (ok = true ↔ ∀ j, j < len → s.User r (va + j))) ∧
    ∃ bytes found, copyinstr (s.user r) va len = (bytes, found) ∧ Strung (fun j => s.userByte r (va + j)) len bytes found ∧
      (found = true ↔ ∃ k, k < len ∧ s.byte r (va + k) = 0 ∧ ∀ j, j ≤ k → s.User r (va + j)) := by
  have hsome : ∀ x, (s.userByte r x).isSome ↔ s.User r x := by
    intro x
    unfold Phys.userByte
    split <;> simp [*]
  refine ⟨?_, ?_, ?_⟩
  · obtain ⟨n, ret, s', hrun, hwrote, hret⟩ := copyoutFrom_spec r len va src len s hf hva (Nat.le_refl len)
    refine ⟨n, ret, s', hrun, hwrote, hret, ?_⟩
    rcases hret with ⟨rfl, rfl⟩ | ⟨rfl, hlt, hnot⟩
    · exact ⟨fun _ => hwrote.user, fun _ => rfl⟩
    · exact ⟨nofun, fun h => absurd (h n hlt) hnot⟩
  · obtain ⟨bytes, heq, hcopied⟩ := copyin_user hf hva len
    refine ⟨bytes, _, heq, hcopied, decide_eq_true_iff, ?_⟩
    rw [decide_eq_true_iff, hcopied.length_eq_iff]
    simp only [hsome]
  · obtain ⟨bytes, found, heq, hstrung⟩ := copyinstr_user hf hva len
    refine ⟨bytes, found, heq, hstrung, hstrung.found_iff.trans ?_⟩
    apply exists_congr
    intro k
    simp only [hsome]
    apply and_congr_right
    intro _
    constructor
    · rintro ⟨hbyte, hall⟩
      have huser : s.User r (va + k) := (hsome _).1 (by rw [hbyte]; rfl)
      rw [Phys.userByte, if_pos huser] at hbyte
      refine ⟨Option.some.inj hbyte, fun j hj => ?_⟩
      rcases Nat.lt_or_eq_of_le hj with hlt | rfl
      · exact hall j hlt
      · exact huser
    · rintro ⟨hbyte, hall⟩
      rw [Phys.userByte, if_pos (hall k (Nat.le_refl k)), hbyte]
      exact ⟨rfl, fun j hj => hall j (Nat.le_of_lt hj)⟩

theorem user_copies_onePage : ∃ s, Phys.User s 0x80001000 0 ∧ ∃ n ret s',
    copyout 0x80001000 0 (fun _ => 7) 2 s = .ok ret s' ∧ Wrote s 0x80001000 0 (fun _ => 7) n s' := by
  obtain ⟨s, hext⟩ := exists_onePage
  have hflags := (hext.new 0 (Nat.le_refl 0) (by decide)).2
  have hhas : ∀ f, f &&& 0x3FF = f → (Has (s.map 0x80001000 0) f ↔ Has (userFlags ||| PTE_V) f) := by
    intro f hf
    unfold Has
    rw [← hflags, pteFlags, BitVec.and_assoc, BitVec.and_comm 0x3FF f, hf]
  have huser : s.User 0x80001000 0 := ⟨by decide, (hhas _ (by decide)).2 (by decide), (hhas _ (by decide)).2 (by decide)⟩
  have hzero : ∀ va, s.User 0x80001000 va → va / PGSIZE = 0 := by
    intro va hva
    by_contra hne
    have hvalid := hva.2.1
    rw [hext.map _ (vpage_lt hva.1) (by omega), (map_empty rfl).2.2] at hvalid
    exact not_has_zero _ hvalid
  have hframe : ∀ va, s.User 0x80001000 va → s.Data 0x80001000 0 1 (s.frame 0x80001000 va) := by
    intro va hva
    unfold Phys.frame
    rw [hzero va hva]
    exact ⟨0, Nat.le_refl 0, by decide, rfl⟩
  have hf : s.Frames 0x80001000 := by
    refine ⟨?_, ?_, ?_⟩
    · intro va hva
      exact (hext.pages.own _ (hframe va hva)).1.pos hext.moved.ok
    · intro va hva
      exact (hext.pages.own _ (hframe va hva)).2.2
    · intro va va' hva hva' _
      rw [hzero va hva, hzero va' hva']
  obtain ⟨⟨n, ret, s', hrun, hwrote, -⟩, -⟩ := user_copies hf (show 0 < 2 ^ 64 by decide) (fun _ => 7) 2
  exact ⟨s, huser, n, ret, s', hrun, hwrote⟩

end Copyout

end Xv6
