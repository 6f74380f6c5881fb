import Xv6.Fs.Layout

/-! The blocks of an inode. An inode names blocks in its `addrs` and in the entries of its indirect block:
its slots. A block map has the blocks that belong to the inode with their contents; it fits the
inode if no two slots name one block, and the blocks of the map are those that the slots name. -/

namespace Xv6

open Lib Function Option

/-- Some blocks with their contents. -/
abbrev BlockMap := Nat → Option Block

def NSLOT : Nat := NDIRECT + 1 + NINDIRECT

/-- The slot of block `bn` of a file. -/
def fileSlot (bn : Nat) : Nat := if bn < NDIRECT then bn else bn + 1

variable {bn : Nat} {d : Block}

theorem fileSlot_lt (h : bn < MAXFILE) : fileSlot bn < NSLOT := by
  have h' : bn < 268 := h
  show fileSlot bn < 269
  unfold fileSlot
  split <;> omega

theorem fileSlot_of_lt (h : bn < NDIRECT) : fileSlot bn = bn := if_pos h

theorem fileSlot_of_ge (h : ¬bn < NDIRECT) : fileSlot bn = NDIRECT + 1 + (bn - NDIRECT) := by
  rw [fileSlot, if_neg h]
  omega

theorem lt_of_not_direct (hbn : bn < MAXFILE) (h : ¬bn < NDIRECT) : bn - NDIRECT < NINDIRECT := by
  have h₁ : bn < 268 := hbn
  have h₂ : ¬bn < 12 := h
  show bn - 12 < 256
  omega

theorem fileSlot_ne (bn : Nat) : fileSlot bn ≠ NDIRECT := by
  unfold fileSlot
  split <;> omega

theorem fileSlot_inj {i j : Nat} (h : fileSlot i = fileSlot j) : i = j := by
  unfold fileSlot at h
  split at h <;> split at h <;> omega

namespace Dinode

variable (v : Dinode) (m : BlockMap)

/-- The block that slot `j` names, or 0. -/
def slot (j : Nat) : Nat :=
  if j ≤ NDIRECT then v.addr j
  else match m (v.addr NDIRECT) with
    | some d => (d.entry (j - (NDIRECT + 1))).val
    | none => 0

/-- The content of block `bn` of the file, if it has such a block. -/
def data (bn : Nat) : Option Block := m (v.slot m (fileSlot bn))

/-- The map has the blocks of the inode, and every block has one slot. -/
structure Mapped : Prop where
  inj : ∀ i j, i < NSLOT → j < NSLOT → v.slot m i ≠ 0 → v.slot m i = v.slot m j → i = j
  cover : ∀ b, (m b).isSome ↔ b ≠ 0 ∧ ∃ j, j < NSLOT ∧ v.slot m j = b

variable {v m} {j : Nat}

theorem addr_setAddr (hj : j ≤ NDIRECT) (a : Uint) (i : Nat) :
    (v.setAddr j a).addr i = if i = j then a.val else v.addr i := by
  by_cases hi : i < NDIRECT + 1
  · simp only [addr, dif_pos hi, setAddr]
    split <;> rfl
  · have hne : i ≠ j := by omega
    rw [if_neg hne, addr, addr, dif_neg hi, dif_neg hi]

theorem addr_lt (v : Dinode) (j : Nat) : v.addr j < 4294967296 := by
  unfold addr
  split
  · exact Fin.isLt _
  · decide

theorem val_addr (v : Dinode) (j : Nat) : (Uint.of (v.addr j)).val = v.addr j := Uint.val_of (addr_lt v j)

theorem slot_of_le (hj : j ≤ NDIRECT) : v.slot m j = v.addr j := if_pos hj

theorem slot_of_gt (hj : NDIRECT < j) (hd : m (v.addr NDIRECT) = some d) :
    v.slot m j = (d.entry (j - (NDIRECT + 1))).val := by
  rw [slot, if_neg (by omega), hd]

theorem slot_of_none (hj : NDIRECT < j) (hd : m (v.addr NDIRECT) = none) : v.slot m j = 0 := by
  rw [slot, if_neg (by omega), hd]

namespace Mapped

variable (h : v.Mapped m)
include h

theorem zero : m 0 = none := by
  have hcover := h.cover 0
  rw [← not_isSome_iff_eq_none]
  exact fun hsome => (hcover.1 hsome).1 rfl

theorem isSome (hj : j < NSLOT) (hne : v.slot m j ≠ 0) : (m (v.slot m j)).isSome :=
  (h.cover _).2 ⟨hne, j, hj, rfl⟩

theorem indirect (hne : v.addr NDIRECT ≠ 0) : ∃ d, m (v.addr NDIRECT) = some d := by
  have hslot : v.slot m NDIRECT = v.addr NDIRECT := slot_of_le (le_refl _)
  have hsome := h.isSome (j := NDIRECT) (by decide) (by rwa [hslot])
  rw [hslot] at hsome
  exact isSome_iff_exists.1 hsome

/-- One more slot names a block, and the map has it. -/
theorem link {v' : Dinode} {m' : BlockMap} {j a : Nat} (hj : j < NSLOT) (hempty : v.slot m j = 0)
    (hnew : m a = none) (ha : a ≠ 0) (hslot : ∀ i, i < NSLOT → v'.slot m' i = if i = j then a else v.slot m i)
    (hmap : ∀ b, (m' b).isSome ↔ (m b).isSome ∨ b = a) : v'.Mapped m' := by
  have hfresh : ∀ i, i < NSLOT → v.slot m i ≠ a := by
    intro i hi heq
    have hsome := h.isSome hi (heq ▸ ha)
    rw [heq, hnew] at hsome
    cases hsome
  constructor
  · intro i i' hi hi' hne heq
    rw [hslot i hi, hslot i' hi'] at heq
    rw [hslot i hi] at hne
    by_cases hij : i = j <;> by_cases hij' : i' = j
    · omega
    · rw [if_pos hij, if_neg hij'] at heq
      exact absurd heq.symm (hfresh i' hi')
    · rw [if_neg hij, if_pos hij'] at heq
      exact absurd heq (hfresh i hi)
    · rw [if_neg hij, if_neg hij'] at heq
      rw [if_neg hij] at hne
      exact h.inj i i' hi hi' hne heq
  · intro b
    rw [hmap, h.cover]
    constructor
    · rintro (⟨hb, i, hi, rfl⟩ | rfl)
      · refine ⟨hb, i, hi, ?_⟩
        rw [hslot i hi, if_neg]
        rintro rfl
        exact hb hempty
      · exact ⟨ha, j, hj, by rw [hslot j hj, if_pos rfl]⟩
    · rintro ⟨hb, i, hi, rfl⟩
      rw [hslot i hi] at hb ⊢
      by_cases hij : i = j
      · exact Or.inr (if_pos hij)
      · rw [if_neg hij] at hb ⊢
        exact Or.inl ⟨hb, i, hi, rfl⟩

/-- Some slots are cleared, and the map loses the blocks they named. -/
theorem unlink {v' : Dinode} {m' : BlockMap} {D : Nat → Prop} [DecidablePred D]
    (hslot : ∀ i, i < NSLOT → v'.slot m' i = if D i then 0 else v.slot m i)
    (hmap : ∀ b, (m' b).isSome ↔ (m b).isSome ∧ ∀ i, i < NSLOT → D i → v.slot m i ≠ b) :
    v'.Mapped m' := by
  constructor
  · intro i i' hi hi' hne heq
    rw [hslot i hi] at hne
    rw [hslot i hi, hslot i' hi'] at heq
    by_cases hD : D i
    · exact absurd (if_pos hD) hne
    · rw [if_neg hD] at hne heq
      by_cases hD' : D i'
      · rw [if_pos hD'] at heq
        exact absurd heq hne
      · rw [if_neg hD'] at heq
        exact h.inj i i' hi hi' hne heq
  · intro b
    rw [hmap, h.cover]
    constructor
    · rintro ⟨⟨hb, i, hi, rfl⟩, hD⟩
      refine ⟨hb, i, hi, ?_⟩
      rw [hslot i hi, if_neg fun hDi => hD i hi hDi rfl]
    · rintro ⟨hb, i, hi, rfl⟩
      rw [hslot i hi] at hb ⊢
      by_cases hD : D i
      · exact absurd (if_pos hD) hb
      · rw [if_neg hD] at hb ⊢
        refine ⟨⟨hb, i, hi, rfl⟩, fun i' hi' hD' heq => ?_⟩
        rw [h.inj i i' hi hi' hb heq.symm] at hD
        exact hD hD'

end Mapped

/-! ### A new block -/

/-- What `bmap` may do to an inode: more slots name blocks, and the new blocks of the file are zero. -/
structure Grows (v : Dinode) (m : BlockMap) (v' : Dinode) (m' : BlockMap) : Prop where
  fields : { v' with addrs := v.addrs } = v
  mapped : v'.Mapped m'
  slots : ∀ j, j < NSLOT → v.slot m j ≠ 0 → v'.slot m' j = v.slot m j
  data : ∀ bn, bn < MAXFILE →
    v'.data m' bn = v.data m bn ∨ v.data m bn = none ∧ v'.data m' bn = some Block.zero

namespace Grows

variable {v' v'' : Dinode} {m' m'' : BlockMap}

theorem refl (h : v.Mapped m) : Grows v m v m := ⟨rfl, h, fun _ _ _ => rfl, fun _ _ => Or.inl rfl⟩

theorem trans (h : Grows v m v' m') (h' : Grows v' m' v'' m'') : Grows v m v'' m'' where
  fields := by
    rw [← h.fields, ← h'.fields]
  mapped := h'.mapped
  slots j hj hne := by
    have heq := h.slots j hj hne
    rw [h'.slots j hj (by rwa [heq]), heq]
  data bn hbn := by
    rcases h.data bn hbn with heq | ⟨hnone, hzero⟩ <;> rcases h'.data bn hbn with heq' | ⟨hnone', hzero'⟩
    · exact Or.inl (heq'.trans heq)
    · exact Or.inr ⟨heq.symm.trans hnone', hzero'⟩
    · exact Or.inr ⟨hnone, heq'.trans hzero⟩
    · rw [hnone'] at hzero
      cases hzero

theorem of_link (h : v.Mapped m) {j a : Nat} (hfields : { v' with addrs := v.addrs } = v) (hj : j < NSLOT)
    (hempty : v.slot m j = 0) (hnew : m a = none) (ha : a ≠ 0)
    (hslot : ∀ i, i < NSLOT → v'.slot m' i = if i = j then a else v.slot m i)
    (hmap : ∀ b, (m' b).isSome ↔ (m b).isSome ∨ b = a) (hzero : m' a = some Block.zero)
    (hkeep : ∀ b, b ≠ a → b ≠ v.addr NDIRECT → m' b = m b) : Grows v m v' m' := by
  have hmapped : v'.Mapped m' := h.link hj hempty hnew ha hslot hmap
  refine ⟨hfields, hmapped, fun i hi hne => ?_, fun bn hbn => ?_⟩
  · rw [hslot i hi, if_neg]
    rintro rfl
    exact hne hempty
  · have hlt := fileSlot_lt hbn
    have hslot' := hslot _ hlt
    unfold Dinode.data
    by_cases hij : fileSlot bn = j
    · rw [if_pos hij] at hslot'
      rw [hslot', hij, hempty]
      exact Or.inr ⟨h.zero, hzero⟩
    · rw [if_neg hij] at hslot'
      rw [hslot']
      refine Or.inl ?_
      by_cases hb : v.slot m (fileSlot bn) = 0
      · rw [hb, h.zero, hmapped.zero]
      · have hsome := h.isSome hlt hb
        refine hkeep _ (fun heq => ?_) fun heq => ?_
        · rw [heq, hnew] at hsome
          cases hsome
        · rw [← slot_of_le (v := v) (m := m) (le_refl NDIRECT)] at heq
          exact fileSlot_ne bn (h.inj _ _ hlt (by decide) hb heq)

end Grows

theorem isSome_update_some {m : BlockMap} {a : Nat} (b : Nat) :
    (update m a (some d) b).isSome ↔ (m b).isSome ∨ b = a := by
  by_cases hb : b = a
  · rw [hb, update_self]
    simp
  · rw [update_of_ne hb]
    simp [hb]

section Link

variable {a : Uint} (h : v.Mapped m) (hnew : m a.val = none) (ha : a.val ≠ 0)
include h hnew ha

theorem addr_ne_of_new : v.addr NDIRECT ≠ a.val := by
  intro heq
  obtain ⟨d, hd⟩ := h.indirect (heq ▸ ha)
  rw [heq, hnew] at hd
  cases hd

/-- `bmap` assigns a direct block. -/
theorem grows_direct (hbn : bn < NDIRECT) (hempty : v.addr bn = 0) :
    Grows v m (v.setAddr bn a) (update m a.val (some Block.zero)) := by
  have hne := addr_ne_of_new h hnew ha
  have hbn' : bn < 12 := hbn
  refine Grows.of_link h rfl (Nat.lt_trans hbn (by decide)) ((slot_of_le hbn.le).trans hempty) hnew ha
    (fun i hi => ?_) isSome_update_some (update_self ..) fun b hb _ => update_of_ne hb ..
  by_cases hi' : i ≤ NDIRECT
  · rw [slot_of_le hi', slot_of_le hi', addr_setAddr hbn.le]
  · have hij : i ≠ bn := by
      rintro rfl
      exact hi' hbn.le
    rw [if_neg hij, slot, slot, if_neg hi', if_neg hi', addr_setAddr hbn.le, if_neg hbn.ne', update_of_ne hne]

/-- `bmap` assigns the indirect block. -/
theorem grows_indirect (hempty : v.addr NDIRECT = 0) :
    Grows v m (v.setAddr NDIRECT a) (update m a.val (some Block.zero)) := by
  refine Grows.of_link h rfl (by decide) ((slot_of_le (le_refl _)).trans hempty) hnew ha (fun i hi => ?_)
    isSome_update_some (update_self ..) fun b hb _ => update_of_ne hb ..
  by_cases hi' : i ≤ NDIRECT
  · rw [slot_of_le hi', slot_of_le hi', addr_setAddr (le_refl _)]
  · have hgt : NDIRECT < i := by omega
    have hself : (v.setAddr NDIRECT a).addr NDIRECT = a.val := by
      rw [addr_setAddr (le_refl _), if_pos rfl]
    have hnone : v.slot m i = 0 := slot_of_none hgt (by rw [hempty]; exact h.zero)
    rw [if_neg hgt.ne', hnone, slot_of_gt hgt (d := Block.zero) (by rw [hself, update_self]), Block.entry_zero]
    rfl

/-- `bmap` assigns an entry of the indirect block. -/
theorem grows_entry {k : Nat} (hk : k < NINDIRECT) (hd : m (v.addr NDIRECT) = some d) (hempty : d.entry k = 0) :
    Grows v m v (update (update m a.val (some Block.zero)) (v.addr NDIRECT) (some (d.setEntry k a))) := by
  have hne := addr_ne_of_new h hnew ha
  have hk' : k < 256 := hk
  have hgt : NDIRECT < NDIRECT + 1 + k := by omega
  have hsub : NDIRECT + 1 + k - (NDIRECT + 1) = k := by omega
  refine Grows.of_link h (j := NDIRECT + 1 + k) rfl (Nat.add_lt_add_left hk _) ?_ hnew ha (fun i hi => ?_)
    (fun b => ?_) ?_ fun b hb hb' => ?_
  · rw [slot_of_gt hgt hd, hsub, hempty]
    rfl
  · by_cases hi' : i ≤ NDIRECT
    · rw [slot_of_le hi', slot_of_le hi', if_neg (by omega)]
    · rw [slot_of_gt (by omega) (update_self ..), slot_of_gt (by omega) hd, Block.entry_setEntry hk]
      have hiff : i - (NDIRECT + 1) = k ↔ i = NDIRECT + 1 + k := by omega
      simp only [hiff]
      split <;> rfl
  · rw [isSome_update_some, isSome_update_some]
    constructor
    · rintro (hb | rfl)
      · exact hb
      · exact Or.inl (by rw [hd]; rfl)
    · exact Or.inl
  · rw [update_of_ne hne.symm, update_self]
  · rw [update_of_ne hb', update_of_ne hb]

end Link

/-! ### Freed blocks -/

/-- `itrunc` clears a direct block. -/
theorem Mapped.drop_direct (h : v.Mapped m) (hj : j < NDIRECT) (hne : v.addr j ≠ 0) :
    (v.setAddr j 0).Mapped (update m (v.addr j) none) := by
  have hind : v.addr NDIRECT ≠ v.addr j := by
    intro heq
    have hslot : v.slot m j = v.slot m NDIRECT := by
      rw [slot_of_le hj.le, slot_of_le (le_refl _), heq]
    have := h.inj j NDIRECT (Nat.lt_trans hj (by decide)) (by decide) (by rwa [slot_of_le hj.le]) hslot
    omega
  refine h.unlink (D := fun i => i = j) (fun i hi => ?_) fun b => ?_
  · by_cases hi' : i ≤ NDIRECT
    · rw [slot_of_le hi', slot_of_le hi', addr_setAddr hj.le]
      rfl
    · have hij : i ≠ j := by
        rintro rfl
        exact hi' hj.le
      rw [if_neg hij, slot, slot, if_neg hi', if_neg hi', addr_setAddr hj.le, if_neg hj.ne', update_of_ne hind]
  · by_cases hb : b = v.addr j
    · rw [hb, update_self]
      simp only [isSome_none, Bool.false_eq_true, false_iff, not_and, not_forall]
      exact fun _ => ⟨j, Nat.lt_trans hj (by decide), rfl, not_not.2 (slot_of_le hj.le)⟩
    · rw [update_of_ne hb, iff_self_and]
      rintro _ i _ rfl heq
      exact hb (heq.symm.trans (slot_of_le hj.le))

/-- `itrunc` clears the indirect block with its entries. -/
theorem Mapped.drop_indirect (h : v.Mapped m) (hd : m (v.addr NDIRECT) = some d) {m' : BlockMap}
    (hmap : ∀ b, m' b = if b = v.addr NDIRECT ∨ ∃ k, k < NINDIRECT ∧ (d.entry k).val = b then none else m b) :
    (v.setAddr NDIRECT 0).Mapped m' := by
  have hself : (v.setAddr NDIRECT 0).addr NDIRECT = 0 := by
    rw [addr_setAddr (le_refl _), if_pos rfl]
    rfl
  refine h.unlink (D := fun i => NDIRECT ≤ i) (fun i hi => ?_) fun b => ?_
  · by_cases hi' : i ≤ NDIRECT
    · rw [slot_of_le hi', slot_of_le hi', addr_setAddr (le_refl _)]
      by_cases hi'' : i = NDIRECT
      · rw [if_pos hi'', if_pos (by omega)]
        rfl
      · rw [if_neg hi'', if_neg (by omega)]
    · rw [if_pos (by omega), slot_of_none (by omega)]
      rw [hself, hmap]
      split
      · rfl
      · exact h.zero
  · rw [hmap]
    have hslots : (b = v.addr NDIRECT ∨ ∃ k, k < NINDIRECT ∧ (d.entry k).val = b) ↔
        ∃ i, i < NSLOT ∧ NDIRECT ≤ i ∧ v.slot m i = b := by
      constructor
      · rintro (rfl | ⟨k, hk, rfl⟩)
        · exact ⟨NDIRECT, by decide, le_refl _, slot_of_le (le_refl _)⟩
        · refine ⟨NDIRECT + 1 + k, Nat.add_lt_add_left hk _, by omega, ?_⟩
          rw [slot_of_gt (by omega) hd, show NDIRECT + 1 + k - (NDIRECT + 1) = k by omega]
      · rintro ⟨i, hi, hle, rfl⟩
        by_cases hi' : i = NDIRECT
        · exact Or.inl (by rw [hi', slot_of_le (le_refl _)])
        · refine Or.inr ⟨i - (NDIRECT + 1), ?_, (slot_of_gt (by omega) hd).symm⟩
          have hi'' : i < NDIRECT + 1 + NINDIRECT := hi
          omega
    split
    · rename_i hex
      obtain ⟨i, hi, hle, heq⟩ := hslots.1 hex
      simp only [isSome_none, Bool.false_eq_true, false_iff, not_and, not_forall]
      exact fun _ => ⟨i, hi, hle, not_not.2 heq⟩
    · rename_i hex
      rw [iff_self_and]
      exact fun _ i hi hle heq => hex (hslots.2 ⟨i, hi, hle, heq⟩)

theorem slot_update {b : Nat} (hb : b ≠ v.addr NDIRECT) (j : Nat) : v.slot (update m b (some d)) j = v.slot m j := by
  unfold slot
  rw [update_of_ne hb.symm]

theorem Mapped.store (h : v.Mapped m) {b : Nat} {d d' : Block} (hd : m b = some d) (hb : b ≠ v.addr NDIRECT) :
    v.Mapped (update m b (some d')) := by
  constructor
  · intro i j hi hj
    rw [slot_update hb, slot_update hb]
    exact h.inj i j hi hj
  · intro b'
    simp only [slot_update hb]
    rw [isSome_update_some, ← h.cover]
    constructor
    · rintro (hb' | rfl)
      · exact hb'
      · rw [hd]
        rfl
    · exact Or.inl

theorem Mapped.eq_none (h : v.Mapped m) (haddr : ∀ j, j ≤ NDIRECT → v.addr j = 0) : m = fun _ => none := by
  funext b
  rw [← not_isSome_iff_eq_none, h.cover]
  rintro ⟨hb, j, hj, rfl⟩
  by_cases hj' : j ≤ NDIRECT
  · exact hb ((slot_of_le hj').trans (haddr j hj'))
  · exact hb (slot_of_none (by omega) (by rw [haddr _ (le_refl _)]; exact h.zero))

theorem mapped_zero (haddr : ∀ j, j ≤ NDIRECT → v.addr j = 0) : v.Mapped fun _ => none := by
  have hslot : ∀ j, v.slot (fun _ => none) j = 0 := by
    intro j
    by_cases hj : j ≤ NDIRECT
    · exact (slot_of_le hj).trans (haddr j hj)
    · exact slot_of_none (by omega) rfl
  constructor
  · intro i j _ _ hne
    exact absurd (hslot i) hne
  · intro b
    simp only [hslot]
    constructor
    · intro h
      cases h
    · rintro ⟨hb, _, _, h0⟩
      exact absurd h0.symm hb

end Dinode

/-! ### Truncation -/

namespace Fs

def without (m : BlockMap) (as : List Uint) : BlockMap := fun b => if b ∈ as.map Fin.val then none else m b

theorem without_nil (m : BlockMap) : without m [] = m := by
  funext b
  simp [without]

theorem without_cons (m : BlockMap) (a : Uint) (as : List Uint) :
    without (update m a.val none) as = without m (a :: as) := by
  funext b
  unfold without
  by_cases hb : b = a.val
  · simp [hb]
  · simp [hb]

theorem without_cons_of_none {m : BlockMap} {a : Uint} (h : m a.val = none) (as : List Uint) :
    without m (a :: as) = without m as := by
  rw [← without_cons, ← h, update_eq_self]

def withAddrs (v : Dinode) (as : Fin (NDIRECT + 1) → Uint) : Dinode := { v with addrs := as }

def truncated (v : Dinode) : Dinode := { v with size := 0, addrs := fun _ => 0 }

theorem addrs_eq_zero {v : Dinode} (h : ∀ j, j ≤ NDIRECT → v.addr j = 0) : v.addrs = fun _ => 0 := by
  funext j
  have hj := h j.val (Nat.le_of_lt_succ j.isLt)
  rw [Dinode.addr, dif_pos j.isLt] at hj
  exact Fin.ext hj

end Fs

/-- The entries of the indirect block: each names a block of its own, and without these and the indirect block the
map is that of the inode with the indirect block cleared. -/
theorem Dinode.Mapped.indirect_entries {v : Dinode} {m : BlockMap} (h : v.Mapped m)
    (hd : m (v.addr NDIRECT) = some d) (hne : v.addr NDIRECT ≠ 0) :
    (∀ a ∈ (List.range NINDIRECT).map d.entry, a ≠ 0 → (m a.val).isSome) ∧
    ((List.range NINDIRECT).map d.entry).Pairwise (fun a b => a ≠ 0 → a ≠ b) ∧
    v.addr NDIRECT ∉ ((List.range NINDIRECT).map d.entry).map Fin.val ∧ (v.setAddr NDIRECT 0).Mapped
      (update (Fs.without m ((List.range NINDIRECT).map d.entry)) (v.addr NDIRECT) none) := by
  have hslot : ∀ k, k < NINDIRECT → v.slot m (NDIRECT + 1 + k) = (d.entry k).val := fun k hk => by
    rw [slot_of_gt (by omega) hd, show NDIRECT + 1 + k - (NDIRECT + 1) = k by omega]
  have hlt : ∀ k, k < NINDIRECT → NDIRECT + 1 + k < NSLOT := fun k hk => Nat.add_lt_add_left hk _
  refine ⟨fun a ha hane => ?_, ?_, fun hmem => ?_, h.drop_indirect hd fun b => ?_⟩
  · obtain ⟨k, hk, rfl⟩ := List.mem_map.1 ha
    rw [← hslot k (List.mem_range.1 hk)]
    refine h.isSome (hlt k (List.mem_range.1 hk)) ?_
    rw [hslot k (List.mem_range.1 hk)]
    exact fun hzero => hane (Fin.ext hzero)
  · rw [List.pairwise_map]
    refine List.nodup_range.imp_of_mem fun {i j} hi hj hij hine heq => hij ?_
    have hi := List.mem_range.1 hi
    have hj := List.mem_range.1 hj
    have hinj := h.inj _ _ (hlt i hi) (hlt j hj) (by
      rw [hslot i hi]
      exact fun hzero => hine (Fin.ext hzero)) (by rw [hslot i hi, hslot j hj, heq])
    omega
  · simp only [List.map_map, List.mem_map, List.mem_range, comp_apply] at hmem
    obtain ⟨k, hk, heq⟩ := hmem
    rw [← hslot k hk, ← slot_of_le (v := v) (m := m) (le_refl NDIRECT)] at heq
    have heq' := h.inj _ _ (hlt k hk) (by decide) (by rw [heq, slot_of_le (le_refl _)]; exact hne) heq
    omega
  · by_cases hb : b = v.addr NDIRECT
    · rw [hb, update_self, if_pos (Or.inl rfl)]
    · rw [update_of_ne hb, Fs.without]
      simp only [List.map_map, List.mem_map, List.mem_range, comp_apply, hb, false_or]

end Xv6
