import Xv6.Vm.Memory
import Xv6.Bio.Interface

/-! `vm.c`, and the parts of `proc.c` that make, change and free user memory. Loops are counted by the pages that are
left, which their tests give; `mappages`, which ends when it meets the last page, is stopped by the panic of `walk`
at `MAXVA` at the latest. -/

namespace Xv6

open Lib Pte

/-! ### Page tables -/

/-- The loop of `walk`, at a table of the given level. -/
def walkFrom [Mmu] (va : Nat) (alloc : Bool) : Nat → Nat → VmM (Option PtePtr)
  | 0, pagetable => pure (some (pagetable, px 0 va))
  | level + 1, pagetable => do
      let pte ← load (pagetable, px (level + 1) va)
      if Has pte PTE_V then walkFrom va alloc level (Mmu.pte2pa pte)
      else if alloc then do
        let mem ← kalloc
        if mem = 0 then pure none
        else do
          fill mem 0
          store (pagetable, px (level + 1) va) (pa2pte (BitVec.ofNat 64 mem) ||| PTE_V)
          walkFrom va alloc level mem
      else pure none

def walk [Mmu] (pagetable va : Nat) (alloc : Bool) : VmM (Option PtePtr) :=
  if va ≥ MAXVA then Run.panic "walk" else walkFrom va alloc 2 pagetable

def walkaddr [Mmu] (pagetable va : Nat) : VmM Nat :=
  if va ≥ MAXVA then pure 0
  else do
    match ← walk pagetable va false with
    | none => pure 0
    | some slot => do
        let pte ← load slot
        if Has pte PTE_V then if Has pte PTE_U then pure (Mmu.pte2pa pte) else pure 0
        else pure 0

/-- The loop of `mappages`. Where the count ends, `a` is `MAXVA`. -/
def mappagesFrom [Mmu] (pagetable last : Nat) (perm : BitVec 64) : Nat → Nat → Nat → VmM Int
  | 0, _, _ => Run.panic "walk"
  | k + 1, a, pa => do
      match ← walk pagetable a true with
      | none => pure (-1)
      | some slot => do
          let pte ← load slot
          if Has pte PTE_V then Run.panic "remap"
          else do
            store slot (entry pa perm)
            if a = last then pure 0
            else mappagesFrom pagetable last perm k (a + PGSIZE) ((pa + PGSIZE) % 2 ^ 64)

def mappages [Mmu] (pagetable va size pa : Nat) (perm : BitVec 64) : VmM Int :=
  mappagesFrom pagetable (pgRoundDown ((va + size + (2 ^ 64 - 1)) % 2 ^ 64)) perm (MAXVA / PGSIZE) (pgRoundDown va) pa

def uvmunmapFrom [Mmu] (pagetable : Nat) (doFree : Bool) : Nat → Nat → VmM Unit
  | 0, _ => pure ()
  | k + 1, a => do
      match ← walk pagetable a false with
      | none => Run.panic "uvmunmap: walk"
      | some slot => do
          let pte ← load slot
          if ¬ Has pte PTE_V then Run.panic "uvmunmap: not mapped"
          else if pteFlags pte = PTE_V then Run.panic "uvmunmap: not a leaf"
          else do
            if doFree then kfree (Mmu.pte2pa pte) else pure ()
            store slot 0
            uvmunmapFrom pagetable doFree k (a + PGSIZE)

def uvmunmap [Mmu] (pagetable va npages : Nat) (doFree : Bool) : VmM Unit :=
  if va % PGSIZE ≠ 0 then Run.panic "uvmunmap: not aligned"
  else uvmunmapFrom pagetable doFree (((va + npages * PGSIZE) % 2 ^ 64 - va) / PGSIZE) va

/-! ### User memory -/

/-- A `uint64` that went through an `int`. -/
def throughInt (n : Nat) : Nat := if n % 2 ^ 32 < 2 ^ 31 then n % 2 ^ 32 else 2 ^ 64 - 2 ^ 32 + n % 2 ^ 32

def uvmdealloc [Mmu] (pagetable oldsz newsz : Nat) : VmM Nat :=
  if newsz ≥ oldsz then pure oldsz
  else do
    if pgRoundUp newsz < pgRoundUp oldsz then
      uvmunmap pagetable (pgRoundUp newsz) (throughInt ((pgRoundUp oldsz - pgRoundUp newsz) / PGSIZE)) true
    else pure ()
    pure newsz

/-- The loop of `uvmalloc`, with `oldsz` rounded up. -/
def uvmallocFrom [Mmu] (pagetable oldsz newsz : Nat) : Nat → Nat → VmM Nat
  | 0, _ => pure newsz
  | k + 1, a => do
      let mem ← kalloc
      if mem = 0 then do
        let _ ← uvmdealloc pagetable a oldsz
        pure 0
      else do
        fill mem 0
        let r ← mappages pagetable a PGSIZE mem (PTE_W ||| PTE_X ||| PTE_R ||| PTE_U)
        if r ≠ 0 then do
          kfree mem
          let _ ← uvmdealloc pagetable a oldsz
          pure 0
        else uvmallocFrom pagetable oldsz newsz k (a + PGSIZE)

def uvmalloc [Mmu] (pagetable oldsz newsz : Nat) : VmM Nat :=
  if newsz < oldsz then pure oldsz
  else uvmallocFrom pagetable (pgRoundUp oldsz) newsz ((newsz - pgRoundUp oldsz + (PGSIZE - 1)) / PGSIZE) (pgRoundUp oldsz)

def copyPage (dst src : Nat) : VmM Unit := fun s => .ok () (s.setPage dst (s.page src))

/-- The loop of `uvmcopy`, with `k` pages left from `i` on. -/
def uvmcopyFrom [Mmu] (old new : Nat) : Nat → Nat → VmM Int
  | 0, _ => pure 0
  | k + 1, i => do
      match ← walk old i false with
      | none => Run.panic "uvmcopy: pte should exist"
      | some slot => do
          let pte ← load slot
          if ¬ Has pte PTE_V then Run.panic "uvmcopy: page not present"
          else do
            let mem ← kalloc
            if mem = 0 then do
              uvmunmap new 0 (i / PGSIZE) true
              pure (-1)
            else do
              copyPage mem (Mmu.pte2pa pte)
              let r ← mappages new i PGSIZE mem (pteFlags pte)
              if r ≠ 0 then do
                kfree mem
                uvmunmap new 0 (i / PGSIZE) true
                pure (-1)
              else uvmcopyFrom old new k (i + PGSIZE)

def uvmcopy [Mmu] (old new sz : Nat) : VmM Int := uvmcopyFrom old new ((sz + (PGSIZE - 1)) / PGSIZE) 0

/-! ### Copies between the kernel and user memory -/

/-- `memmove` from the kernel into a page. -/
def writePage (pa off : Nat) (src : Nat → UInt8) (n : Nat) : VmM Unit :=
  fun s => .ok () (s.setPage pa ((s.page pa).write off src n))

/-- The loop of `copyout`; an iteration copies a byte at least, so that `len` iterations are enough. -/
def copyoutFrom [Mmu] (pagetable : Nat) : Nat → Nat → (Nat → UInt8) → Nat → VmM Int
  | 0, _, _, _ => pure 0
  | fuel + 1, dstva, src, len =>
      if len = 0 then pure 0
      else do
        let va0 := pgRoundDown dstva
        let pa0 ← walkaddr pagetable va0
        if pa0 = 0 then pure (-1)
        else do
          let n := min (PGSIZE - (dstva - va0)) len
          writePage pa0 (dstva - va0) src n
          copyoutFrom pagetable fuel ((va0 + PGSIZE) % 2 ^ 64) (fun j => src (n + j)) (len - n)

def copyout [Mmu] (pagetable dstva : Nat) (src : Nat → UInt8) (len : Nat) : VmM Int := copyoutFrom pagetable len dstva src len

/-- The inner loop of `copyinstr`: the bytes that it stores, and whether it met a NUL. -/
def copyinstrPage (page : Bytes PGSIZE) : Nat → Nat → List UInt8 → List UInt8 × Bool
  | 0, _, dst => (dst, false)
  | n + 1, p, dst =>
      if page.get p = 0 then (dst ++ [0], true) else copyinstrPage page n (p + 1) (dst ++ [page.get p])

/-- The loop of `copyinstr`, on user memory as `walkaddr` finds it: the bytes stored at `dst`, and whether it met a
NUL. -/
def copyinstrLoop (um : UserMem) : Nat → Nat → Nat → List UInt8 → List UInt8 × Bool
  | 0, _, _, dst => (dst, false)
  | fuel + 1, srcva, max, dst =>
      if max = 0 then (dst, false)
      else
        let va0 := pgRoundDown srcva
        match um va0 with
        | none => (dst, false)
        | some page =>
            let n := min (PGSIZE - (srcva - va0)) max
            let r := copyinstrPage page n (srcva - va0) dst
            if r.2 then r else copyinstrLoop um fuel ((va0 + PGSIZE) % 2 ^ 64) (max - n) r.1

def copyinstr (um : UserMem) (srcva max : Nat) : List UInt8 × Bool := copyinstrLoop um max srcva max []

/-! ### `proc.c` -/

/-- The `uint` that an `int` sum becomes. -/
def toUint (x : Int) : Nat := (x % 2 ^ 32).toNat

/-- `growproc`, on `p->pagetable` and `p->sz`: what it returns, and the new `p->sz`. -/
def growproc [Mmu] (pagetable psz : Nat) (n : Int) : VmM (Int × Nat) := do
  let sz := psz % 2 ^ 32
  if n > 0 then do
    let r ← uvmalloc pagetable sz (toUint (sz + n))
    if r % 2 ^ 32 = 0 then pure (-1, psz) else pure (0, r % 2 ^ 32)
  else if n < 0 then do
    let r ← uvmdealloc pagetable sz (toUint (sz + n))
    pure (0, r % 2 ^ 32)
  else pure (0, sz)

end Xv6
