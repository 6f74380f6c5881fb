import Xv6.Fs.Logical

/-! The content of an inode: the bytes of a file, and the entries of a directory. A block that the inode does
not have reads as zeros, so that a new block changes nothing. -/

namespace Xv6

open Lib

namespace Block

@[simp] theorem get_zero (i : Nat) : Bytes.get Block.zero i = 0 := by
  unfold Bytes.get
  split <;> rfl

end Block

/-! ### Names -/

/-- What `strncmp` and `strncpy` see of a string: at most `n` bytes, up to the first zero. -/
def cstr : Nat → List UInt8 → List UInt8
  | 0, _ => []
  | n + 1, p => if p.headD 0 = 0 then [] else p.headD 0 :: cstr n p.tail

theorem strncmp_eq_zero : ∀ {n : Nat} {p q : List UInt8}, strncmp n p q = 0 ↔ cstr n p = cstr n q := by
  intro n
  induction n with
  | zero => intro p q; simp [strncmp, cstr]
  | succ n ih =>
    intro p q
    unfold strncmp cstr
    generalize p.headD 0 = a
    generalize q.headD 0 = b
    have hsub : ((a.toNat : Int) - b.toNat = 0) ↔ a = b := by
      rw [← UInt8.toNat_inj]
      omega
    by_cases hab : a = b
    · rw [hab, Int.sub_self]
      by_cases hb : b = 0
      · simp [hb]
      · simp [hb, ih]
    · rw [if_neg fun h => hab h.2, hsub]
      by_cases ha : a = 0 <;> by_cases hb : b = 0
      · exact absurd (ha.trans hb.symm) hab
      · simp [ha, hb, Ne.symm hb]
      · simp [ha, hb]
      · simp [ha, hb, hab]

theorem namecmp_eq_zero {s t : List UInt8} : namecmp s t = 0 ↔ cstr DIRSIZ s = cstr DIRSIZ t := strncmp_eq_zero

theorem cstr_strncpy : ∀ {n : Nat} {t : List UInt8}, cstr n (strncpy n t) = cstr n t := by
  intro n
  induction n with
  | zero => intro t; rfl
  | succ n ih =>
    intro t
    unfold strncpy
    by_cases ht : t.headD 0 = 0
    · rw [if_pos ht, cstr, cstr, if_pos ht]
      simp [List.replicate_succ]
    · have hhead : (t.headD 0 :: strncpy n t.tail).headD 0 = t.headD 0 := rfl
      have htail : (t.headD 0 :: strncpy n t.tail).tail = strncpy n t.tail := rfl
      rw [if_neg ht, cstr, hhead, htail, if_neg ht, cstr, if_neg ht, ih]

theorem length_strncpy : ∀ (n : Nat) (t : List UInt8), (strncpy n t).length = n := by
  intro n
  induction n with
  | zero => intro t; rfl
  | succ n ih =>
    intro t
    unfold strncpy
    split
    · simp
    · simp [ih]

/-! ### Entries -/

theorem length_dirent (inum : Nat) (name : List UInt8) : (dirent inum name).length = DIRENT := by
  simp [dirent, length_strncpy, DIRSIZ, DIRENT]

theorem direntInum_dirent {inum : Nat} (h : inum < 65536) (name : List UInt8) :
    direntInum (dirent inum name) = inum := by
  have h0 : (dirent inum name).getD 0 0 = UInt8.ofNat inum := rfl
  have h1 : (dirent inum name).getD 1 0 = UInt8.ofNat (inum / 256) := rfl
  unfold direntInum
  rw [h0, h1, UInt8.toNat_ofNat', UInt8.toNat_ofNat']
  omega

theorem direntName_dirent (inum : Nat) (name : List UInt8) : direntName (dirent inum name) = strncpy DIRSIZ name := rfl

/-! ### Bytes -/

namespace Dinode

variable (v : Dinode) (m : BlockMap)

def fileByte (i : Nat) : UInt8 :=
  match v.data m (i / BSIZE) with
  | some d => d.get (i % BSIZE)
  | none => 0

def fileBytes (off n : Nat) : List UInt8 := (List.range n).map fun j => v.fileByte m (off + j)

def dirent (k : Nat) : List UInt8 := v.fileBytes m (DIRENT * k) DIRENT

variable {v m}

theorem fileByte_of_data {d : Block} {i : Nat} (h : v.data m (i / BSIZE) = some d) :
    v.fileByte m i = d.get (i % BSIZE) := by
  rw [fileByte, h]

theorem fileByte_of_none {i : Nat} (h : v.data m (i / BSIZE) = none) : v.fileByte m i = 0 := by
  rw [fileByte, h]

theorem fileByte_congr {v' : Dinode} {m' : BlockMap} {i : Nat}
    (h : v'.data m' (i / BSIZE) = v.data m (i / BSIZE)) : v'.fileByte m' i = v.fileByte m i := by
  rw [fileByte, fileByte, h]

theorem fileBytes_congr {v' : Dinode} {m' : BlockMap} {off n : Nat}
    (h : ∀ i, off ≤ i → i < off + n → v'.fileByte m' i = v.fileByte m i) :
    v'.fileBytes m' off n = v.fileBytes m off n := by
  refine List.map_congr_left fun j hj => ?_
  have hlt := List.mem_range.1 hj
  exact h _ (Nat.le_add_right ..) (Nat.add_lt_add_left hlt _)

theorem length_fileBytes {off n : Nat} : (v.fileBytes m off n).length = n := by
  simp [fileBytes]

theorem fileBytes_append {off a b : Nat} :
    v.fileBytes m off a ++ v.fileBytes m (off + a) b = v.fileBytes m off (a + b) := by
  unfold fileBytes
  rw [List.range_add, List.map_append, List.map_map]
  simp only [Function.comp_def, Nat.add_assoc]

theorem fileBytes_of_data {d : Block} {off n : Nat} (h : v.data m (off / BSIZE) = some d)
    (hn : off % BSIZE + n ≤ BSIZE) :
    v.fileBytes m off n = (List.range n).map fun j => d.get (off % BSIZE + j) := by
  refine List.map_congr_left fun j hj => ?_
  have hlt := List.mem_range.1 hj
  have hpos : 0 < BSIZE := by decide
  have hdiv : (off + j) / BSIZE = off / BSIZE := by
    rw [← Nat.div_add_mod off BSIZE, Nat.add_assoc, Nat.mul_add_div hpos,
      Nat.div_eq_of_lt (Nat.lt_of_lt_of_le (Nat.add_lt_add_left hlt _) hn), Nat.mul_add_div hpos,
      Nat.mod_div_self]
  have hmod : (off + j) % BSIZE = off % BSIZE + j := by
    rw [Nat.add_mod_eq_add_mod_right j (Nat.mod_mod off BSIZE).symm,
      Nat.mod_eq_of_lt (Nat.lt_of_lt_of_le (Nat.add_lt_add_left hlt _) hn)]
  rw [fileByte_of_data (hdiv ▸ h), hmod]

theorem div_of_dirent {k i : Nat} (h : DIRENT * k ≤ i) (h' : i < DIRENT * k + DIRENT) :
    i / BSIZE = DIRENT * k / BSIZE := by
  have h₁ : 16 * k ≤ i := h
  have h₂ : i < 16 * k + 16 := h'
  show i / 1024 = 16 * k / 1024
  omega

theorem direntInum_of_none {k : Nat} (h : v.data m (DIRENT * k / BSIZE) = none) : direntInum (v.dirent m k) = 0 := by
  have hbyte : ∀ j, j < DIRENT → (v.dirent m k).getD j 0 = 0 := by
    intro j hj
    have hzero : v.fileByte m (DIRENT * k + j) = 0 := by
      refine fileByte_of_none ?_
      rw [div_of_dirent (Nat.le_add_right ..) (Nat.add_lt_add_left hj _)]
      exact h
    simp [dirent, fileBytes, hj, hzero]
  rw [direntInum, hbyte 0 (by decide), hbyte 1 (by decide)]
  rfl

/-- A new block holds the zeros that were read before. -/
theorem Grows.fileByte {v' : Dinode} {m' : BlockMap} (h : Grows v m v' m') {i : Nat}
    (hi : i < MAXFILE * BSIZE) : v'.fileByte m' i = v.fileByte m i := by
  have hbn : i / BSIZE < MAXFILE := Nat.div_lt_of_lt_mul (Nat.mul_comm MAXFILE BSIZE ▸ hi)
  rcases h.data _ hbn with heq | ⟨hnone, hzero⟩
  · exact fileByte_congr heq
  · rw [fileByte_of_none hnone, fileByte_of_data hzero, Block.get_zero]

theorem intact_zero {sb : Superblock} (t : Short) : Dinode.Intact sb { Dinode.zero with type := t } fun _ => none where
  mapped := mapped_zero fun j hj => by simp [addr, zero]
  full bn h := absurd h (Nat.not_lt_zero _)
  dir _ _ _ _ h := nomatch h

end Dinode

end Xv6
