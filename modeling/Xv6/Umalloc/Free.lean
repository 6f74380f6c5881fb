import Xv6.Lib.Links
import Xv6.Lib.Tiling
import Xv6.Umalloc.Code

/-! The free list and `free`. The list is circular, from `base` through the free blocks in the order of their addresses.
`free` finds the place of a block from wherever `freep` is, and puts it there, joined with the free blocks that it
touches. -/

namespace Xv6

open Lib List

namespace Umalloc

/-- A block: the address of its header, its size in headers, and what `malloc` was asked for. -/
structure Block where
  addr : Nat
  units : Nat
  nbytes : Nat
  deriving DecidableEq

namespace Block

def stop (b : Block) : Nat := b.addr + 16 * b.units

end Block

/-- The blocks that are free are in the list, those that are in use are not; together they are all of the memory from
`lo` up to the break. -/
structure Inv (base lo : Nat) (h : Heap) (used free : List Block) : Prop where
  tiles : Tiles Block.addr Block.stop (used ++ free) lo h.brk
  circle : Circular (ptr h.mem) base (free.map Block.addr)
  sizes : ∀ b ∈ used ++ free, size h.mem b.addr = b.units
  baseSize : size h.mem base = 0
  spaced : free.Pairwise fun b c => b.stop < c.addr
  freep : h.freep ∈ base :: free.map Block.addr

/-- No byte of these blocks is changed. -/
def Kept (used : List Block) (h h' : Heap) : Prop :=
  ∀ c ∈ used, ∀ i, c.addr ≤ i → i < c.stop → h'.mem.get i = h.mem.get i

/-- `base` is below the heap, which has less than `2 ^ 32` headers. -/
structure Layout (base lo brk : Nat) : Prop where
  pos : 0 < base
  low : base + 16 ≤ lo
  le : lo ≤ brk
  high : brk ≤ 2 ^ 64
  small : brk < lo + 2 ^ 36

variable {x : Nat} {c : Block}

section Nodes

variable {base lo brk : Nat} {l l' : List Block}

theorem nodes_mono (base : Nat) (hsub : l ⊆ l') : base :: l.map Block.addr ⊆ base :: l'.map Block.addr :=
  cons_subset_cons base (map_subset Block.addr hsub)

theorem perm_insert (b : Block) (used l₁ l₂ : List Block) :
    List.Perm (used ++ (l₁ ++ b :: l₂)) (b :: (used ++ (l₁ ++ l₂))) := by
  rw [← append_assoc, ← append_assoc]
  exact perm_middle

theorem Layout.base_lt (hl : Layout base lo brk) (ht : Tiles Block.addr Block.stop l lo brk) {b : Block} (hb : b ∈ l) :
    base + 16 ≤ b.addr := by
  have := (ht.bounds hb).1
  have := hl.low
  omega

theorem addr_lt_stop (ht : Tiles Block.addr Block.stop l lo brk) {b : Block} (hb : b ∈ l) :
    lo ≤ b.addr ∧ b.addr + 16 ≤ b.stop ∧ b.stop ≤ brk := by
  obtain ⟨hlo, hlt, hhi⟩ := ht.bounds hb
  unfold Block.stop at hlt hhi ⊢
  omega

theorem Away.of_apart (ht : Tiles Block.addr Block.stop l lo brk) {b c : Block} (hb : b ∈ l) (hc : c ∈ l)
    (h : Apart Block.addr Block.stop b c) : Away b.addr c.addr := by
  have hbstop := addr_lt_stop ht hb
  have hcstop := addr_lt_stop ht hc
  unfold Apart at h
  unfold Away
  omega

/-- The headers of two blocks, or of a block and `base`. -/
theorem away_of_ne (hl : Layout base lo brk) (ht : Tiles Block.addr Block.stop l lo brk) {x y : Nat}
    (hx : x ∈ base :: l.map Block.addr) (hy : y ∈ base :: l.map Block.addr) (hne : x ≠ y) : Away x y := by
  rcases mem_cons.1 hx with rfl | hx
  · rcases mem_cons.1 hy with rfl | hy
    · exact absurd rfl hne
    · obtain ⟨c, hc, rfl⟩ := mem_map.1 hy
      exact Or.inl (hl.base_lt ht hc)
  · obtain ⟨b, hb, rfl⟩ := mem_map.1 hx
    rcases mem_cons.1 hy with rfl | hy
    · exact Or.inr (hl.base_lt ht hb)
    · obtain ⟨c, hc, rfl⟩ := mem_map.1 hy
      have hne' : b ≠ c := by
        intro heq
        rw [heq] at hne
        exact hne rfl
      exact Away.of_apart ht hb hc (ht.apart_of_ne hb hc hne')

theorem away_of_cons (hl : Layout base lo brk) {b : Block} (ht : Tiles Block.addr Block.stop (b :: l) lo brk)
    (hx : x ∈ base :: l.map Block.addr) : Away b.addr x := by
  rcases mem_cons.1 hx with rfl | hx
  · exact Or.inr (hl.base_lt ht (mem_cons_self ..))
  · obtain ⟨c, hc, rfl⟩ := mem_map.1 hx
    exact Away.of_apart ht (mem_cons_self ..) (mem_cons_of_mem b hc) (ht.apart_of_cons hc)

theorem sorted_nodes (hl : Layout base lo brk) (ht : Tiles Block.addr Block.stop l lo brk) {free : List Block}
    (hsub : ∀ b ∈ free, b ∈ l) (hspaced : free.Pairwise fun b c => b.stop < c.addr) :
    (base :: free.map Block.addr).Pairwise (· < ·) := by
  refine pairwise_cons.2 ⟨?_, ?_⟩
  · intro x hx
    obtain ⟨b, hb, rfl⟩ := mem_map.1 hx
    have := hl.base_lt ht (hsub b hb)
    omega
  · rw [pairwise_map]
    refine hspaced.imp_of_mem ?_
    intro b c hb _ hlt
    have := addr_lt_stop ht (hsub b hb)
    omega

theorem length_free_le {free : List Block} (hbounds : ∀ b ∈ free, lo ≤ b.addr ∧ b.addr + 16 ≤ b.stop ∧ b.stop ≤ brk)
    (hspaced : free.Pairwise fun b c => b.stop < c.addr) (hle : lo ≤ brk) : lo + free.length ≤ brk := by
  induction free generalizing lo with
  | nil => exact hle
  | cons d free ih =>
    obtain ⟨habove, hspaced⟩ := pairwise_cons.1 hspaced
    have hd := hbounds d (mem_cons_self ..)
    have hrest : d.stop + free.length ≤ brk := by
      apply ih _ hspaced hd.2.2
      intro b hb
      have hb' := hbounds b (mem_cons_of_mem d hb)
      exact ⟨Nat.le_of_lt (habove b hb), hb'.2⟩
    rw [length_cons]
    omega

end Nodes

/-! ### The search -/

section Place

variable {m : Memory} {base bp p t : Nat} {l l₁ l₂ : List Nat}

/-- The loop of `free` ends at `p`. -/
def Stops (m : Memory) (bp p : Nat) : Prop :=
  bp > p ∧ bp < ptr m p ∨ p ≥ ptr m p ∧ (bp > p ∨ bp < ptr m p)

theorem place_of_path {fuel : Nat} (h : Links (ptr m) p l) (ht : t ∈ p :: l) (hstop : Stops m bp t)
    (honly : ∀ x ∈ p :: l, Stops m bp x → x = t) (hfuel : l.length < fuel) : place m bp fuel p = some t := by
  induction l generalizing p fuel with
  | nil =>
    obtain ⟨fuel, rfl⟩ : ∃ k, fuel = k + 1 := ⟨fuel - 1, by omega⟩
    rw [mem_singleton] at ht
    rw [← ht]
    unfold Stops at hstop
    unfold place
    split
    · rfl
    · rename_i hfirst
      rw [if_pos (hstop.resolve_left hfirst)]
  | cons x l ih =>
    obtain ⟨fuel, rfl⟩ : ∃ k, fuel = k + 1 := ⟨fuel - 1, by omega⟩
    unfold place
    split
    · rename_i hfirst
      rw [honly p (mem_cons_self ..) (Or.inl hfirst)]
    · rename_i hfirst
      split
      · rename_i hsecond
        rw [honly p (mem_cons_self ..) (Or.inr hsecond)]
      · rename_i hsecond
        obtain ⟨hx, hpath⟩ := h
        have hne : t ≠ p := by
          intro heq
          rw [heq] at hstop
          exact hstop.elim hfirst hsecond
        rw [hx]
        apply ih hpath ((mem_cons.1 ht).resolve_left hne)
        · intro y hy
          exact honly y (mem_cons_of_mem p hy)
        · rw [length_cons] at hfuel
          omega

theorem lt_next_or_eq (hcircle : Circular (ptr m) base l) (hsorted : (base :: l).Pairwise (· < ·))
    (hx : x ∈ base :: l) : x < ptr m x ∨ ptr m x = base := by
  obtain ⟨hpath, hlast⟩ := links_append.1 hcircle
  rcases mem_cons_iff_dropLast.1 hx with hx | rfl
  · exact Or.inl (hpath.next_mem hsorted hx).1
  · exact Or.inr hlast.1

/-- Wherever `free` starts, it ends at the last node below the block. -/
theorem place_eq (hcircle : Circular (ptr m) base (l₁ ++ l₂)) (hsorted : (base :: (l₁ ++ l₂)).Pairwise (· < ·))
    (hlower : ∀ x ∈ base :: l₁, x < bp) (hupper : ∀ x ∈ l₂, bp < x) (hp : p ∈ base :: (l₁ ++ l₂)) {fuel : Nat}
    (hfuel : (l₁ ++ l₂).length + 1 < fuel) : place m bp fuel p = some (l₁.getLastD base) := by
  have hpath : Links (ptr m) base (l₁ ++ (l₂ ++ [base])) := by
    rw [← append_assoc]
    exact hcircle
  obtain ⟨hpath₁, hpath₂⟩ := links_append.1 hpath
  have hsorted₁ : (base :: l₁).Pairwise (· < ·) := hsorted.sublist ((sublist_append_left l₁ l₂).cons_cons base)
  have hbase : base < bp := hlower base (mem_cons_self ..)
  have htmem : l₁.getLastD base ∈ base :: l₁ := mem_cons_iff_dropLast.2 (Or.inr rfl)
  have hbase_le : ∀ x ∈ base :: l₁, base ≤ x := by
    intro x hx
    rcases mem_cons.1 hx with rfl | hx
    · exact Nat.le_refl _
    · exact Nat.le_of_lt (rel_of_pairwise_cons hsorted₁ hx)
  have hstop : Stops m bp (l₁.getLastD base) := by
    have hlt := hlower _ htmem
    cases l₂ with
    | nil =>
      have hnext : ptr m (l₁.getLastD base) = base := hpath₂.1
      right
      rw [hnext]
      exact ⟨hbase_le _ htmem, Or.inl hlt⟩
    | cons y l₂ =>
      have hnext : ptr m (l₁.getLastD base) = y := hpath₂.1
      left
      rw [hnext]
      exact ⟨hlt, hupper y (mem_cons_self ..)⟩
  have honly : ∀ x ∈ base :: (l₁ ++ l₂), Stops m bp x → x = l₁.getLastD base := by
    intro x hx hstopx
    rw [← cons_append, mem_append] at hx
    rcases hx with hx | hx
    · rcases mem_cons_iff_dropLast.1 hx with hx | hx
      · -- a node further down leads to another one below the block
        obtain ⟨hlt, hmem⟩ := hpath₁.next_mem hsorted₁ hx
        have hbelow := hlower _ (mem_cons_of_mem base hmem)
        unfold Stops at hstopx
        omega
      · exact hx
    · have habove := hupper x hx
      have hnext := lt_next_or_eq hcircle hsorted (mem_cons_of_mem base (mem_append_right l₁ hx))
      unfold Stops at hstopx
      omega
  obtain ⟨l', hcircle', hperm⟩ := hcircle.enter hp
  have hlen : l'.length = (l₁ ++ l₂).length := by
    have := hperm.length_eq
    rw [length_cons, length_cons] at this
    omega
  have hmem : ∀ x, x ∈ p :: (l' ++ [p]) ↔ x ∈ base :: (l₁ ++ l₂) := by
    intro x
    rw [← hperm.mem_iff, ← cons_append, mem_append, mem_singleton, mem_cons, or_right_comm, or_self]
  apply place_of_path hcircle' ((hmem _).2 ?_) hstop
  · intro x hx
    exact honly x ((hmem x).1 hx)
  · rw [length_append, length_singleton]
    omega
  · rw [← cons_append]
    exact mem_append_left l₂ htmem

end Place

/-! ### The two joins -/

section Joins

variable {base lo brk : Nat} {m : Memory} {used l₁ l₂ : List Block} {b : Block}

/-- A block that leads into the list, which does not lead to it yet. It touches no block above it. -/
structure Loose (base lo brk : Nat) (m : Memory) (used l₁ : List Block) (b : Block) (l₂ : List Block) : Prop where
  tiles : Tiles Block.addr Block.stop (b :: (used ++ (l₁ ++ l₂))) lo brk
  path₁ : Links (ptr m) base (l₁.map Block.addr)
  path₂ : Links (ptr m) b.addr (l₂.map Block.addr ++ [base])
  sizes : ∀ c ∈ b :: (used ++ (l₁ ++ l₂)), size m c.addr = c.units
  baseSize : size m base = 0
  spaced : (l₁ ++ l₂).Pairwise fun c d => c.stop < d.addr
  lower : ∀ c ∈ l₁, c.addr < b.addr
  upper : ∀ c ∈ l₂, b.stop < c.addr

/-- The address of the last free block of `l₁`, or of `base`. -/
abbrev pred (base : Nat) (l₁ : List Block) : Nat := (l₁.map Block.addr).getLastD base

theorem pred_mem (base : Nat) (l₁ : List Block) : pred base l₁ ∈ base :: l₁.map Block.addr :=
  mem_cons_iff_dropLast.2 (Or.inr rfl)

theorem pred_concat (base : Nat) (l : List Block) (a : Block) : pred base (l ++ [a]) = a.addr := by
  unfold pred
  rw [map_append, map_singleton, getLastD_concat]

variable {h : Heap}

theorem Inv.paths (hinv : Inv base lo h (b :: used) (l₁ ++ l₂)) :
    Links (ptr h.mem) base (l₁.map Block.addr) ∧ Links (ptr h.mem) (pred base l₁) (l₂.map Block.addr ++ [base]) := by
  have hcircle := hinv.circle
  unfold Circular at hcircle
  rw [map_append, append_assoc] at hcircle
  exact links_append.1 hcircle

theorem Inv.tiles_cons {l : List Block} (hinv : Inv base lo h (b :: used) l) :
    Tiles Block.addr Block.stop (b :: (used ++ l)) lo h.brk := hinv.tiles

section

variable (hinv : Inv base lo h (b :: used) (l₁ ++ l₂))
include hinv

/-- What the header of `b` does not change. -/
theorem Inv.loose (hl : Layout base lo h.brk)
    (hlower : ∀ c ∈ l₁, c.addr < b.addr) {m : Memory} (honly : OnlyAt b.addr h.mem m) {b' : Block} {l₂' : List Block}
    (haddr : b'.addr = b.addr) (hsub : List.Sublist l₂' l₂)
    (htiles : Tiles Block.addr Block.stop (b' :: (used ++ (l₁ ++ l₂'))) lo h.brk) (hsize : size m b.addr = b'.units)
    (hpath : Links (ptr m) b.addr (l₂'.map Block.addr ++ [base])) (hupper : ∀ c ∈ l₂', b'.stop < c.addr) :
    Loose base lo h.brk m used l₁ b' l₂' := by
  have haway : ∀ x ∈ base :: (used ++ (l₁ ++ l₂)).map Block.addr, Away b.addr x :=
    fun x hx => away_of_cons hl hinv.tiles hx
  have hsub' : List.Sublist (l₁ ++ l₂') (l₁ ++ l₂) := hsub.append_left l₁
  refine ⟨htiles, ?_, ?_, ?_, ?_, hinv.spaced.sublist hsub', ?_, hupper⟩
  · apply hinv.paths.1.congr
    intro x hx
    exact honly.ptr (haway x (nodes_mono base (subset_append_of_subset_right used (subset_append_left l₁ l₂))
      (dropLast_subset _ hx)))
  · rw [haddr]
    exact hpath
  · intro c hc
    rcases mem_cons.1 hc with rfl | hc
    · rw [haddr]
      exact hsize
    · have hmem : c ∈ used ++ (l₁ ++ l₂) := (hsub'.append_left used).subset hc
      rw [honly.size (haway _ (mem_cons_of_mem base (mem_map_of_mem hmem)))]
      exact hinv.sizes c (mem_cons_of_mem b hmem)
  · rw [honly.size (haway _ (mem_cons_self ..))]
    exact hinv.baseSize
  · rw [haddr]
    exact hlower

/-- The nodes above `b` are apart from it. -/
theorem Inv.away_upper (hl : Layout base lo h.brk) {l : List Block}
    (hsub : List.Sublist l l₂) (hx : x ∈ (l.map Block.addr ++ [base]).dropLast) : Away b.addr x := by
  rw [dropLast_concat] at hx
  obtain ⟨c, hc, rfl⟩ := mem_map.1 hx
  apply away_of_cons hl hinv.tiles_cons (mem_cons_of_mem base (mem_map_of_mem _))
  exact mem_append_right used (mem_append_right l₁ (hsub.subset hc))

theorem Inv.stop_le (hupper : ∀ c ∈ l₂, b.addr < c.addr) (hc : c ∈ l₂) : b.stop ≤ c.addr := by
  have hmem : c ∈ used ++ (l₁ ++ l₂) := mem_append_right _ (mem_append_right _ hc)
  have hlt := hupper c hc
  have hstop := addr_lt_stop hinv.tiles (mem_cons_of_mem b hmem)
  have hapart : Apart Block.addr Block.stop b c := hinv.tiles.apart_of_cons hmem
  unfold Apart at hapart
  omega

/-- The first `if` of `free` for a block that touches no free block above it. -/
theorem Inv.joinUpper_apart (hl : Layout base lo h.brk)
    (hlower : ∀ c ∈ l₁, c.addr < b.addr) (hupper : ∀ c ∈ l₂, b.addr < c.addr)
    (happart : b.stop ≠ ptr h.mem (pred base l₁)) :
    Loose base lo h.brk (joinUpper h.mem (pred base l₁) b.addr) used l₁ b l₂ := by
  have hb := addr_lt_stop hinv.tiles (mem_cons_self ..)
  have hhigh := hl.high
  have hsize : size h.mem b.addr = b.units := hinv.sizes b (mem_cons_self ..)
  have heq : joinUpper h.mem (pred base l₁) b.addr = setPtr h.mem b.addr (ptr h.mem (pred base l₁)) := by
    unfold joinUpper
    rw [hsize, if_neg (show ¬ b.addr + 16 * b.units = _ from happart)]
  have honly : OnlyAt b.addr h.mem (joinUpper h.mem (pred base l₁) b.addr) := onlyAt_joinUpper
  apply hinv.loose hl hlower honly rfl (List.Sublist.refl l₂) hinv.tiles
  · rw [heq, size_setPtr_self, hsize]
  · apply hinv.paths.2.start
    · rw [heq, ptr_setPtr_self (by omega) (ptr_lt _ _)]
    · intro x hx
      exact honly.ptr (hinv.away_upper hl (List.Sublist.refl l₂) hx)
  · cases l₂ with
    | nil => exact nofun
    | cons d l₂ =>
      have hnext : ptr h.mem (pred base l₁) = d.addr := hinv.paths.2.1
      have hle := hinv.stop_le hupper (mem_cons_self ..)
      have hspaced := (pairwise_append.1 hinv.spaced).2.1
      intro c hc
      rcases mem_cons.1 hc with rfl | hc
      · omega
      · have hlt : d.stop < c.addr := rel_of_pairwise_cons hspaced hc
        have hd := addr_lt_stop hinv.tiles (b := d) (by simp)
        omega

end

/-- The first `if` of `free` for a block that touches the free block above it. -/
theorem Inv.joinUpper_join (hl : Layout base lo h.brk) (hinv : Inv base lo h (b :: used) (l₁ ++ c :: l₂))
    (hlower : ∀ c ∈ l₁, c.addr < b.addr) (hjoin : b.stop = c.addr) :
    Loose base lo h.brk (joinUpper h.mem (pred base l₁) b.addr) used l₁ ⟨b.addr, b.units + c.units, 0⟩ l₂ := by
  have hb := addr_lt_stop hinv.tiles (mem_cons_self ..)
  have hc := addr_lt_stop hinv.tiles (b := c) (by simp)
  have hhigh := hl.high
  have hsmall := hl.small
  have hstop : c.addr = b.addr + 16 * b.units := hjoin.symm
  have hcstop : c.stop = c.addr + 16 * c.units := rfl
  have hsize : size h.mem b.addr = b.units := hinv.sizes b (mem_cons_self ..)
  have hsizec : size h.mem c.addr = c.units := hinv.sizes c (by simp)
  obtain ⟨hnext, hpath₂⟩ := hinv.paths.2
  have haway : Away b.addr c.addr := away_of_cons hl hinv.tiles_cons (by simp)
  have hpred : Away b.addr (pred base l₁) := away_of_cons hl hinv.tiles_cons
    (nodes_mono base (subset_append_of_subset_right used (subset_append_left l₁ _)) (pred_mem base l₁))
  have heq : joinUpper h.mem (pred base l₁) b.addr =
      setPtr (setSize h.mem b.addr (b.units + c.units)) b.addr (ptr h.mem c.addr) := by
    unfold joinUpper
    dsimp only
    rw [hsize, hnext, if_pos (show b.addr + 16 * b.units = c.addr from hjoin), hsizec, onlyAt_setSize.ptr hpred, hnext,
      onlyAt_setSize.ptr haway]
  have honly : OnlyAt b.addr h.mem (joinUpper h.mem (pred base l₁) b.addr) := onlyAt_joinUpper
  have htiles := hinv.tiles_cons.perm ((perm_insert c used l₁ l₂).cons b)
  refine hinv.loose hl hlower honly rfl (sublist_cons_self c l₂) (htiles.join hjoin rfl ?_) ?_ ?_ ?_
  · unfold Block.stop
    dsimp only
    omega
  · rw [heq, size_setPtr_self, size_setSize_self (by omega) (by omega)]
  · apply hpath₂.start
    · rw [heq, ptr_setPtr_self (by omega) (ptr_lt _ _)]
    · intro x hx
      exact honly.ptr (hinv.away_upper hl (sublist_cons_self c l₂) hx)
  · intro d hd
    have hlt : c.stop < d.addr := rel_of_pairwise_cons (pairwise_append.1 hinv.spaced).2.1 hd
    unfold Block.stop at hlt ⊢
    dsimp only
    omega

/-- The first `if` of `free`. -/
theorem Inv.loosen (hl : Layout base lo h.brk) (hinv : Inv base lo h (b :: used) (l₁ ++ l₂))
    (hlower : ∀ c ∈ l₁, c.addr < b.addr) (hupper : ∀ c ∈ l₂, b.addr < c.addr) :
    ∃ b' l₂', b'.addr = b.addr ∧ b.units ≤ b'.units ∧ l₂'.length ≤ l₂.length ∧
      Loose base lo h.brk (joinUpper h.mem (pred base l₁) b.addr) used l₁ b' l₂' := by
  by_cases hjoin : b.stop = ptr h.mem (pred base l₁)
  · cases l₂ with
    | nil =>
      have hnext : ptr h.mem (pred base l₁) = base := hinv.paths.2.1
      have hb := addr_lt_stop hinv.tiles (mem_cons_self ..)
      have hlow := hl.low
      omega
    | cons c l₂ =>
      have hnext : ptr h.mem (pred base l₁) = c.addr := hinv.paths.2.1
      exact ⟨⟨b.addr, b.units + c.units, 0⟩, l₂, rfl, Nat.le_add_right .., Nat.le_succ _,
        hinv.joinUpper_join hl hlower (hjoin.trans hnext)⟩
  · exact ⟨b, l₂, rfl, Nat.le_refl _, Nat.le_refl _, hinv.joinUpper_apart hl hlower hupper hjoin⟩

/-! ### The second join -/

theorem Loose.mem_of_lower {a : Block} (ha : a ∈ l₁) : a ∈ b :: (used ++ (l₁ ++ l₂)) :=
  mem_cons_of_mem b (mem_append_right used (mem_append_left l₂ ha))

theorem lt_pred (hsorted : (base :: l₁.map Block.addr).Pairwise (· < ·))
    (hx : x ∈ (base :: l₁.map Block.addr).dropLast) : x < pred base l₁ := by
  rw [← dropLast_append_getLastD] at hsorted
  exact (pairwise_append.1 hsorted).2.2 x hx _ (mem_singleton_self _)

section

variable (hloose : Loose base lo brk m used l₁ b l₂) (hl : Layout base lo brk)
include hloose hl

theorem Loose.away (hx : x ∈ base :: (b :: (used ++ (l₁ ++ l₂))).map Block.addr) (hne : x ≠ pred base l₁) :
    Away (pred base l₁) x :=
  away_of_ne hl hloose.tiles (nodes_mono base (fun _ => Loose.mem_of_lower) (pred_mem base l₁)) hx hne.symm

theorem Loose.pred_lt : pred base l₁ + 16 ≤ b.addr := by
  have hlt : pred base l₁ < b.addr := by
    rcases mem_cons.1 (pred_mem base l₁) with hbase | hmem
    · rw [hbase]
      have := hl.base_lt hloose.tiles (mem_cons_self ..)
      omega
    · obtain ⟨a, ha, haddr⟩ := mem_map.1 hmem
      rw [← haddr]
      exact hloose.lower a ha
  have haway := hloose.away hl (mem_cons_of_mem base (mem_cons_self ..)) (Nat.ne_of_gt hlt)
  unfold Away at haway
  omega

/-- What leads to the list and from `b` on is not changed by the header before `b`. -/
theorem Loose.paths {m' : Memory} (honly : OnlyAt (pred base l₁) m m') :
    Links (ptr m') base (l₁.map Block.addr) ∧ Links (ptr m') b.addr (l₂.map Block.addr ++ [base]) := by
  have hsorted := sorted_nodes hl hloose.tiles (fun _ => Loose.mem_of_lower) (pairwise_append.1 hloose.spaced).1
  have hlt := hloose.pred_lt hl
  constructor
  · apply hloose.path₁.congr
    intro x hx
    apply honly.ptr (hloose.away hl _ (Nat.ne_of_lt (lt_pred hsorted hx)))
    exact nodes_mono base (fun _ => Loose.mem_of_lower) (dropLast_subset _ hx)
  · apply hloose.path₂.congr
    rw [← cons_append, dropLast_concat]
    refine forall_mem_cons.2 ⟨?_, forall_mem_map.2 fun c hc => ?_⟩
    · exact honly.ptr (hloose.away hl (mem_cons_of_mem base (mem_cons_self ..)) (by omega))
    · have hc' : c ∈ b :: (used ++ (l₁ ++ l₂)) := mem_cons_of_mem b (mem_append_right used (mem_append_right l₁ hc))
      have habove := hloose.upper c hc
      have hb := addr_lt_stop hloose.tiles (mem_cons_self ..)
      exact honly.ptr (hloose.away hl (mem_cons_of_mem base (mem_map_of_mem hc')) (by omega))

/-- The block is put into the list. -/
theorem Loose.link {m' : Memory} (honly : OnlyAt (pred base l₁) m m') (hlink : ptr m' (pred base l₁) = b.addr)
    (hself : size m' (pred base l₁) = size m (pred base l₁))
    (hapart : pred base l₁ + 16 * size m (pred base l₁) ≠ b.addr) :
    Inv base lo ⟨m', pred base l₁, brk⟩ used (l₁ ++ b :: l₂) := by
  obtain ⟨hpath₁, hpath₂⟩ := hloose.paths hl honly
  have hsize : ∀ x ∈ base :: (b :: (used ++ (l₁ ++ l₂))).map Block.addr, size m' x = size m x := by
    intro x hx
    by_cases heq : x = pred base l₁
    · rw [heq, hself]
    · exact honly.size (hloose.away hl hx heq)
  constructor
  · exact hloose.tiles.perm (perm_insert b used l₁ l₂).symm
  · unfold Circular
    rw [map_append, append_assoc, links_append, map_cons, cons_append]
    exact ⟨hpath₁, hlink, hpath₂⟩
  · intro c hc
    have hc' := (perm_insert b used l₁ l₂).mem_iff.1 hc
    exact (hsize c.addr (mem_cons_of_mem base (mem_map_of_mem hc'))).trans (hloose.sizes c hc')
  · exact (hsize base (mem_cons_self ..)).trans hloose.baseSize
  · obtain ⟨hspaced₁, hspaced₂, hcross⟩ := pairwise_append.1 hloose.spaced
    refine pairwise_append.2 ⟨hspaced₁, pairwise_cons.2 ⟨hloose.upper, hspaced₂⟩, ?_⟩
    intro c hc d hd
    rcases mem_cons.1 hd with rfl | hd
    · -- only the last block of `l₁` can touch `b`
      rcases eq_nil_or_concat l₁ with rfl | ⟨l, a, rfl⟩
      · exact absurd hc not_mem_nil
      · have hlt := hloose.lower c hc
        have hapartc := hloose.tiles.apart_of_cons (mem_append_right used (mem_append_left l₂ hc))
        rw [concat_eq_append] at hc hapart hspaced₁
        rcases mem_append.1 hc with hc | hc
        · have ha : a ∈ List.concat l a := by simp
          have hlta : c.stop < a.addr := (pairwise_append.1 hspaced₁).2.2 c hc a (mem_singleton_self a)
          have hab := hloose.lower a ha
          omega
        · rw [mem_singleton] at hc
          rw [pred_concat] at hapart
          have hsize : size m a.addr = a.units := hloose.sizes a (Loose.mem_of_lower (by simp))
          rw [hsize] at hapart
          have hne : a.stop ≠ d.addr := hapart
          have hd := addr_lt_stop hloose.tiles (mem_cons_self ..)
          rw [hc] at hlt hapartc ⊢
          unfold Apart at hapartc
          omega
    · exact hcross c hc d hd
  · rw [map_append, ← cons_append]
    exact mem_append_left _ (pred_mem base l₁)

/-- The second `if` of `free` for a block that touches no free block below it. -/
theorem Loose.joinLower_apart (hapart : pred base l₁ + 16 * size m (pred base l₁) ≠ b.addr) :
    Inv base lo ⟨joinLower m (pred base l₁) b.addr, pred base l₁, brk⟩ used (l₁ ++ b :: l₂) := by
  have hb := addr_lt_stop hloose.tiles (mem_cons_self ..)
  have hhigh := hl.high
  have hlt := hloose.pred_lt hl
  have heq : joinLower m (pred base l₁) b.addr = setPtr m (pred base l₁) b.addr := if_neg hapart
  apply hloose.link hl onlyAt_joinLower _ _ hapart
  · rw [heq]
    exact ptr_setPtr_self (by omega) (by omega)
  · rw [heq]
    exact size_setPtr_self

end

variable (hl : Layout base lo brk)
include hl

/-- The block becomes part of the one below it. -/
theorem Loose.merge {a : Block} (hloose : Loose base lo brk m used (l₁ ++ [a]) b l₂)
    {m' : Memory} (honly : OnlyAt a.addr m m') (hlink : ptr m' a.addr = ptr m b.addr)
    (hself : size m' a.addr = a.units + b.units) (hjoin : a.stop = b.addr) :
    Inv base lo ⟨m', a.addr, brk⟩ used (l₁ ++ ⟨a.addr, a.units + b.units, 0⟩ :: l₂) := by
  obtain ⟨hspaced₁, hspaced₂, hcross⟩ := pairwise_append.1 hloose.spaced
  obtain ⟨hspaced, -, hbelow⟩ := pairwise_append.1 hspaced₁
  have hperm : List.Perm (b :: (used ++ (l₁ ++ [a] ++ l₂))) (a :: b :: (used ++ (l₁ ++ l₂))) := by
    rw [append_assoc l₁, singleton_append]
    exact ((perm_insert a used l₁ l₂).cons b).trans (List.Perm.swap a b _)
  have htiles := hloose.tiles.perm hperm
  have haway : ∀ c ∈ used ++ (l₁ ++ l₂), Away a.addr c.addr := fun c hc =>
    away_of_cons hl htiles (mem_cons_of_mem base (mem_map_of_mem (mem_cons_of_mem b hc)))
  have hbase : Away a.addr base := away_of_cons hl htiles (mem_cons_self ..)
  constructor
  · refine (htiles.join hjoin (by rfl) ?_).perm (perm_insert _ used l₁ l₂).symm
    unfold Block.stop at hjoin ⊢
    dsimp only
    omega
  · have hmap : (l₁ ++ ⟨a.addr, a.units + b.units, 0⟩ :: l₂).map Block.addr ++ [base] =
        (l₁ ++ [a]).map Block.addr ++ (l₂.map Block.addr ++ [base]) := by
      simp
    unfold Circular
    rw [hmap, links_append]
    refine ⟨hloose.path₁.congr ?_, hloose.path₂.start ?_ ?_⟩
    · rw [map_append, map_singleton, ← cons_append, dropLast_concat]
      exact forall_mem_cons.2 ⟨honly.ptr hbase, forall_mem_map.2 fun c hc =>
        honly.ptr (haway c (mem_append_right used (mem_append_left l₂ hc)))⟩
    · exact (congrArg (ptr m') (pred_concat base l₁ a)).trans hlink
    · rw [dropLast_concat]
      exact forall_mem_map.2 fun c hc => honly.ptr (haway c (mem_append_right used (mem_append_right l₁ hc)))
  · intro c hc
    rcases mem_cons.1 ((perm_insert _ used l₁ l₂).mem_iff.1 hc) with rfl | hc
    · exact hself
    · exact (honly.size (haway c hc)).trans (hloose.sizes c (hperm.mem_iff.2 (mem_cons_of_mem a (mem_cons_of_mem b hc))))
  · exact (honly.size hbase).trans hloose.baseSize
  · refine pairwise_append.2 ⟨hspaced, pairwise_cons.2 ⟨?_, hspaced₂⟩, ?_⟩
    · intro d hd
      have hlt := hloose.upper d hd
      unfold Block.stop at hjoin hlt ⊢
      dsimp only
      omega
    · intro c hc d hd
      rcases mem_cons.1 hd with rfl | hd
      · exact hbelow c hc a (mem_singleton_self a)
      · exact hcross c (mem_append_left [a] hc) d hd
  · apply mem_cons_of_mem
    exact mem_map.2 ⟨⟨a.addr, a.units + b.units, 0⟩, mem_append_right l₁ (mem_cons_self ..), rfl⟩

/-- The second `if` of `free` for a block that touches the free block below it. -/
theorem Loose.joinLower_join {a : Block} (hloose : Loose base lo brk m used (l₁ ++ [a]) b l₂)
    (hjoin : a.stop = b.addr) :
    Inv base lo ⟨joinLower m a.addr b.addr, a.addr, brk⟩ used (l₁ ++ ⟨a.addr, a.units + b.units, 0⟩ :: l₂) := by
  have ha : a ∈ l₁ ++ [a] := mem_append_right l₁ (mem_singleton_self a)
  have hastop := addr_lt_stop hloose.tiles (Loose.mem_of_lower ha)
  have hb := addr_lt_stop hloose.tiles (mem_cons_self ..)
  have hhigh := hl.high
  have hsmall := hl.small
  have haddr : a.stop = a.addr + 16 * a.units := rfl
  have hbaddr : b.stop = b.addr + 16 * b.units := rfl
  have hsize : size m a.addr = a.units := hloose.sizes a (Loose.mem_of_lower ha)
  have hsizeb : size m b.addr = b.units := hloose.sizes b (mem_cons_self ..)
  have haway : Away a.addr b.addr := by
    left
    omega
  have heq : joinLower m a.addr b.addr = setPtr (setSize m a.addr (a.units + b.units)) a.addr (ptr m b.addr) := by
    unfold joinLower
    dsimp only
    rw [hsize, if_pos (show a.addr + 16 * a.units = b.addr from hjoin), hsizeb, onlyAt_setSize.ptr haway]
  apply hloose.merge hl onlyAt_joinLower _ _ hjoin
  · rw [heq]
    exact ptr_setPtr_self (by omega) (ptr_lt _ _)
  · rw [heq, size_setPtr_self]
    exact size_setSize_self (by omega) (by omega)

/-- The second `if` of `free`. -/
theorem Loose.tighten (hloose : Loose base lo brk m used l₁ b l₂) :
    ∃ free, Inv base lo ⟨joinLower m (pred base l₁) b.addr, pred base l₁, brk⟩ used free ∧
      (∃ c ∈ free, b.units ≤ c.units) ∧ free.length ≤ l₁.length + l₂.length + 1 := by
  by_cases hapart : pred base l₁ + 16 * size m (pred base l₁) = b.addr
  · rcases eq_nil_or_concat l₁ with rfl | ⟨l, a, rfl⟩
    · -- `base` is no block
      have hbase : base + 16 * size m base = b.addr := hapart
      have hlt := hl.base_lt hloose.tiles (mem_cons_self ..)
      rw [hloose.baseSize] at hbase
      omega
    · rw [concat_eq_append] at hloose hapart ⊢
      have ha : a ∈ l ++ [a] := mem_append_right l (mem_singleton_self a)
      rw [pred_concat] at hapart ⊢
      rw [hloose.sizes a (Loose.mem_of_lower ha)] at hapart
      refine ⟨_, hloose.joinLower_join hl hapart, ⟨⟨a.addr, a.units + b.units, 0⟩, ?_, Nat.le_add_left ..⟩, ?_⟩
      · exact mem_append_right l (mem_cons_self ..)
      · simp only [length_append, length_cons, length_nil]
        omega
  · refine ⟨_, hloose.joinLower_apart hl hapart, ⟨b, mem_append_right l₁ (mem_cons_self ..), Nat.le_refl _⟩, ?_⟩
    rw [length_append, length_cons, Nat.add_assoc]

end Joins

/-! ### `free` -/

section Free

variable {base lo : Nat} {h : Heap} {used l : List Block} {b : Block}

theorem exists_split (hspaced : l.Pairwise fun c d => c.stop < d.addr) (bp : Nat) (hne : ∀ c ∈ l, c.addr ≠ bp) :
    ∃ l₁ l₂, l = l₁ ++ l₂ ∧ (∀ c ∈ l₁, c.addr < bp) ∧ ∀ c ∈ l₂, bp < c.addr := by
  induction l with
  | nil => exact ⟨[], [], rfl, nofun, nofun⟩
  | cons d l ih =>
    obtain ⟨habove, hspaced⟩ := pairwise_cons.1 hspaced
    by_cases hlt : d.addr < bp
    · obtain ⟨l₁, l₂, rfl, hlower, hupper⟩ := ih hspaced fun c hc => hne c (mem_cons_of_mem d hc)
      exact ⟨d :: l₁, l₂, rfl, forall_mem_cons.2 ⟨hlt, hlower⟩, hupper⟩
    · refine ⟨[], d :: l, rfl, nofun, ?_⟩
      have hd := hne d (mem_cons_self ..)
      intro c hc
      rcases mem_cons.1 hc with rfl | hc
      · omega
      · have habovec : d.addr + 16 * d.units < c.addr := habove c hc
        omega

theorem Inv.bounds (hinv : Inv base lo h used l) (hc : c ∈ l) : lo ≤ c.addr ∧ c.addr + 16 ≤ c.stop ∧ c.stop ≤ h.brk :=
  addr_lt_stop hinv.tiles (mem_append_right used hc)

variable (hl : Layout base lo h.brk)
include hl

theorem Inv.sorted (hinv : Inv base lo h used l) : (base :: l.map Block.addr).Pairwise (· < ·) :=
  sorted_nodes hl hinv.tiles (fun _ => mem_append_right used) hinv.spaced

theorem Inv.length_lt (hinv : Inv base lo h used l) : l.length < h.brk := by
  have hlen := length_free_le (fun _ => hinv.bounds) hinv.spaced hl.le
  have hpos := hl.pos
  have hlow := hl.low
  omega

variable {l₁ l₂ : List Block}

/-- The place of a block, which `free` finds. -/
theorem Inv.finds (hinv : Inv base lo h (b :: used) (l₁ ++ l₂))
    (hlower : ∀ c ∈ l₁, c.addr < b.addr) (hupper : ∀ c ∈ l₂, b.addr < c.addr) :
    place h.mem b.addr h.fuel h.freep = some (pred base l₁) := by
  have hcircle := hinv.circle
  have hsorted := hinv.sorted hl
  have hfreep := hinv.freep
  have hlen := hinv.length_lt hl
  rw [map_append] at hcircle hsorted hfreep
  apply place_eq hcircle hsorted _ _ hfreep
  · unfold Heap.fuel
    rw [← map_append, length_map]
    omega
  · have hbase := hl.base_lt hinv.tiles (mem_cons_self ..)
    exact forall_mem_cons.2 ⟨by omega, forall_mem_map.2 hlower⟩
  · exact forall_mem_map.2 hupper

theorem Inv.pred_outside (hinv : Inv base lo h used (l₁ ++ l₂)) (hc : c ∈ used) {i : Nat} (hi : c.addr ≤ i)
    (hstop : i < c.stop) :
    i < pred base l₁ ∨ pred base l₁ + 16 ≤ i := by
  have hcstop := addr_lt_stop hinv.tiles (mem_append_left _ hc)
  rcases mem_cons.1 (pred_mem base l₁) with hbase | hmem
  · have hlow := hl.low
    omega
  · obtain ⟨a, ha, haddr⟩ := mem_map.1 hmem
    have hamem : a ∈ l₁ ++ l₂ := mem_append_left l₂ ha
    have hastop := hinv.bounds hamem
    have haparta := (pairwise_append.1 hinv.tiles.apart).2.2 c hc a hamem
    unfold Apart at haparta
    omega

/-- The headers that `free` writes are not in the blocks in use. -/
theorem Inv.get_joins (hinv : Inv base lo h (b :: used) (l₁ ++ l₂)) (hc : c ∈ used) {i : Nat} (hi : c.addr ≤ i)
    (hstop : i < c.stop) :
    (joinLower (joinUpper h.mem (pred base l₁) b.addr) (pred base l₁) b.addr).get i = h.mem.get i := by
  have hcmem : c ∈ used ++ (l₁ ++ l₂) := mem_append_left _ hc
  have hb := addr_lt_stop hinv.tiles_cons (mem_cons_self ..)
  have hcstop := addr_lt_stop hinv.tiles_cons (mem_cons_of_mem b hcmem)
  have hapart := hinv.tiles_cons.apart_of_cons hcmem
  unfold Apart at hapart
  have hpred := hinv.pred_outside hl (mem_cons_of_mem b hc) hi hstop
  rw [onlyAt_joinLower i hpred]
  exact onlyAt_joinUpper i (by omega)

/-- `free` puts a block into the list, and changes no byte of the blocks in use. -/
theorem free_spec (hinv : Inv base lo h (b :: used) l) :
    ∃ h' l', free (b.addr + 16) h = some h' ∧ h'.brk = h.brk ∧ Inv base lo h' used l' ∧
      (∃ c ∈ l', b.units ≤ c.units) ∧ l'.length ≤ l.length + 1 ∧ Kept used h h' := by
  have hne : ∀ c ∈ l, c.addr ≠ b.addr := by
    intro c hc
    have hb := addr_lt_stop hinv.tiles_cons (mem_cons_self ..)
    have hcstop := hinv.bounds hc
    have hapart := hinv.tiles_cons.apart_of_cons (mem_append_right used hc)
    unfold Apart at hapart
    omega
  obtain ⟨l₁, l₂, rfl, hlower, hupper⟩ := exists_split hinv.spaced b.addr hne
  obtain ⟨b', l₂', haddr, hunits, hlen₂, hloose⟩ := hinv.loosen hl hlower hupper
  obtain ⟨l', hinv', ⟨c, hc, hle⟩, hlen⟩ := hloose.tighten hl
  rw [haddr] at hinv'
  have hfree : free (b.addr + 16) h =
      some ⟨joinLower (joinUpper h.mem (pred base l₁) b.addr) (pred base l₁) b.addr, pred base l₁, h.brk⟩ := by
    unfold free
    rw [Nat.add_sub_cancel]
    dsimp only
    rw [hinv.finds hl hlower hupper]
    rfl
  have hlen' : l'.length ≤ (l₁ ++ l₂).length + 1 := by
    rw [length_append]
    omega
  refine ⟨_, l', hfree, rfl, hinv', ⟨c, hc, Nat.le_trans hunits hle⟩, hlen', ?_⟩
  intro d hd i hi hstop
  dsimp only
  exact hinv.get_joins hl hd hi hstop

end Free

end Umalloc

end Xv6
