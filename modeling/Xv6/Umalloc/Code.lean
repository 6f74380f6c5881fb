import Xv6.Lib.Bytes

/-! The allocator of `umalloc.c`. Memory is an array of bytes that pointers index; a `Header` has the `ptr` of the next
free block in its first eight bytes and its `size`, in headers, in the next four, and takes 16 bytes. The loops get
fuel, more than there are headers below the break. -/

namespace Xv6

open Lib

namespace Umalloc

abbrev Memory := Bytes (2 ^ 64)

def ptr (m : Memory) (p : Nat) : Nat := m.getLE p 8

def size (m : Memory) (p : Nat) : Nat := m.getLE (p + 8) 4

def setPtr (m : Memory) (p v : Nat) : Memory := m.setLE p 8 v

/-- The field is a `uint`: what does not fit in four bytes is lost. -/
def setSize (m : Memory) (p v : Nat) : Memory := m.setLE (p + 8) 4 v

/-- The memory of a process, its break and the static variable `freep`. -/
structure Heap where
  mem : Memory
  freep : Nat
  brk : Nat

def Heap.fuel (h : Heap) : Nat := h.brk + 1

/-- The loop of `free`: the block after which `bp` goes. -/
def place (m : Memory) (bp : Nat) : Nat → Nat → Option Nat
  | 0, _ => none
  | fuel + 1, p =>
      if bp > p ∧ bp < ptr m p then some p
      else if p ≥ ptr m p ∧ (bp > p ∨ bp < ptr m p) then some p
      else place m bp fuel (ptr m p)

/-- The first `if` of `free`. -/
def joinUpper (m : Memory) (p bp : Nat) : Memory :=
  if bp + 16 * size m bp = ptr m p then
    let m := setSize m bp (size m bp + size m (ptr m p))
    setPtr m bp (ptr m (ptr m p))
  else setPtr m bp (ptr m p)

/-- The second `if` of `free`. -/
def joinLower (m : Memory) (p bp : Nat) : Memory :=
  if p + 16 * size m p = bp then
    let m := setSize m p (size m p + size m bp)
    setPtr m p (ptr m bp)
  else setPtr m p bp

def free (ap : Nat) (h : Heap) : Option Heap := do
  let bp := ap - 16
  let p ← place h.mem bp h.fuel h.freep
  pure { h with mem := joinLower (joinUpper h.mem p bp) p bp, freep := p }

/-- What `morecore` passes to `sbrk`, which takes an `int`. -/
def sbrkArg (nu : Nat) : Int := (BitVec.ofNat 32 (nu * 16)).toInt

section Calls

-- the break that the kernel moves to, or nothing when it fails
variable (growproc : Nat → Int → Option Nat)

/-- `sbrk`: the old break, or nothing for -1. -/
def sbrk (n : Int) (h : Heap) : Option Nat × Heap :=
  match growproc h.brk n with
  | some brk => (some h.brk, { h with brk := brk })
  | none => (none, h)

def morecore (nu : Nat) (h : Heap) : Option (Nat × Heap) :=
  let nu := if nu < 4096 then 4096 else nu
  match sbrk growproc (sbrkArg nu) h with
  | (none, h) => some (0, h)
  | (some hp, h) => do
      let h ← free (hp + 16) { h with mem := setSize h.mem hp nu }
      pure (h.freep, h)

/-- What `malloc` does with a block that is large enough. -/
def carve (nunits prevp p : Nat) (h : Heap) : Nat × Heap :=
  if size h.mem p = nunits then
    (p + 16, { h with mem := setPtr h.mem prevp (ptr h.mem p), freep := prevp })
  else
    let m := setSize h.mem p (size h.mem p - nunits)
    let p := p + 16 * size m p
    (p + 16, { h with mem := setSize m p nunits, freep := prevp })

/-- The loop of `malloc`, with what it calls as `morecore`. -/
def search (more : Nat → Heap → Option (Nat × Heap)) (nunits : Nat) : Nat → Nat → Nat → Heap → Option (Nat × Heap)
  | 0, _, _, _ => none
  | fuel + 1, prevp, p, h =>
      if size h.mem p ≥ nunits then some (carve nunits prevp p h)
      else if p = h.freep then do
        let (p, h) ← more nunits h
        if p = 0 then pure (0, h) else search more nunits fuel p (ptr h.mem p) h
      else search more nunits fuel p (ptr h.mem p) h

def units (nbytes : Nat) : Nat := (nbytes + 16 - 1) / 16 + 1

/-- The first `if` of `malloc`. -/
def start (base : Nat) (h : Heap) : Heap :=
  if h.freep = 0 then { h with mem := setSize (setPtr h.mem base base) base 0, freep := base } else h

def mallocWith (more : Nat → Heap → Option (Nat × Heap)) (base nbytes : Nat) (h : Heap) : Option (Nat × Heap) :=
  let h := start base h
  search more (units nbytes) (2 * h.fuel + 2) h.freep (ptr h.mem h.freep) h

/-- `malloc`, with the address of `base`. -/
def malloc (base nbytes : Nat) (h : Heap) : Option (Nat × Heap) := mallocWith (morecore growproc) base nbytes h

end Calls

/-! ### Fields and bytes -/

/-- Two headers that have no byte in common. -/
def Away (p q : Nat) : Prop := p + 16 ≤ q ∨ q + 16 ≤ p

section Fields

variable {m m' : Memory} {p q v : Nat}

theorem ptr_setPtr_self (hp : p + 16 ≤ 2 ^ 64) (hv : v < 2 ^ 64) : ptr (setPtr m p v) p = v := by
  unfold ptr setPtr
  rw [Bytes.getLE_setLE_same m v (by omega)]
  exact Nat.mod_eq_of_lt hv

theorem size_setSize_self (hp : p + 16 ≤ 2 ^ 64) (hv : v < 2 ^ 32) : size (setSize m p v) p = v := by
  unfold size setSize
  rw [Bytes.getLE_setLE_same m v (by omega)]
  exact Nat.mod_eq_of_lt hv

theorem ptr_setSize_self : ptr (setSize m p v) p = ptr m p := Bytes.getLE_setLE_of_disjoint m v (by omega)

theorem size_setPtr_self : size (setPtr m p v) p = size m p := Bytes.getLE_setLE_of_disjoint m v (by omega)

theorem get_setPtr {i : Nat} (h : i < p ∨ p + 16 ≤ i) : (setPtr m p v).get i = m.get i := by
  unfold setPtr Bytes.setLE
  exact Bytes.get_write_of_not_mem m _ (by omega)

theorem get_setSize {i : Nat} (h : i < p ∨ p + 16 ≤ i) : (setSize m p v).get i = m.get i := by
  unfold setSize Bytes.setLE
  exact Bytes.get_write_of_not_mem m _ (by omega)

/-- At most the header at `p` is changed. -/
def OnlyAt (p : Nat) (m m' : Memory) : Prop := ∀ i, i < p ∨ p + 16 ≤ i → m'.get i = m.get i

theorem fields_eq {stop : Nat} (h : ∀ i, i < p ∨ stop ≤ i → m'.get i = m.get i) (hq : q + 16 ≤ p ∨ stop ≤ q) :
    Umalloc.ptr m' q = Umalloc.ptr m q ∧ Umalloc.size m' q = Umalloc.size m q := by
  constructor
  · apply Bytes.getLE_congr
    intro j hj
    exact h (q + j) (by omega)
  · apply Bytes.getLE_congr
    intro j hj
    exact h (q + 8 + j) (by omega)

theorem OnlyAt.ptr (h : OnlyAt p m m') (hq : Away p q) : ptr m' q = ptr m q :=
  (fields_eq h hq.symm).1

theorem OnlyAt.size (h : OnlyAt p m m') (hq : Away p q) : size m' q = size m q :=
  (fields_eq h hq.symm).2

theorem onlyAt_setPtr : OnlyAt p m (setPtr m p v) := fun _ => get_setPtr

theorem onlyAt_setSize : OnlyAt p m (setSize m p v) := fun _ => get_setSize

theorem OnlyAt.trans {m'' : Memory} (h : OnlyAt p m m') (h' : OnlyAt p m' m'') : OnlyAt p m m'' :=
  fun i hi => (h' i hi).trans (h i hi)

theorem onlyAt_joinUpper : OnlyAt q m (joinUpper m p q) := by
  unfold joinUpper
  split
  · exact onlyAt_setSize.trans onlyAt_setPtr
  · exact onlyAt_setPtr

theorem onlyAt_joinLower : OnlyAt p m (joinLower m p q) := by
  unfold joinLower
  split
  · exact onlyAt_setSize.trans onlyAt_setPtr
  · exact onlyAt_setPtr

theorem ptr_lt (m : Memory) (p : Nat) : ptr m p < 2 ^ 64 := Bytes.getLE_lt m p 8

end Fields

end Umalloc

end Xv6
