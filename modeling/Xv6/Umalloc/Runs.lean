import Xv6.Umalloc.Malloc

/-! Programs that use the allocator: any number of calls of `malloc` and `free`, with writes to what they got. A block
is as large as its `size` says only while that field, a `uint`, can hold it, which is so for less than `2 ^ 36` bytes
from `sbrk`. -/

namespace Xv6

open Lib List Option

namespace Umalloc

/-- The heap, with the blocks that `malloc` returned and that are not freed. -/
structure State where
  heap : Heap
  live : List Block

/-- The blocks in use after `malloc` returned `p`. -/
def State.add (s : State) (nbytes p : Nat) (h : Heap) : State :=
  ⟨h, if p = 0 then s.live else ⟨p - 16, units nbytes, nbytes⟩ :: s.live⟩

def State.write (s : State) (i : Nat) (v : UInt8) : State :=
  ⟨{ s.heap with mem := s.heap.mem.write i (fun _ => v) 1 }, s.live⟩

/-- The states of a program: `sbrk` grants less than `limit` bytes in all. -/
inductive Reach (base lo limit : Nat) : State → Prop where
  | init (m : Memory) : Reach base lo limit ⟨⟨m, 0, lo⟩, []⟩
  | malloc {s : State} {growproc : Nat → Int → Option Nat} {nbytes p : Nat} {h : Heap} (hreach : Reach base lo limit s)
      (hgrant : Grants lo limit growproc) (hsize : 16 * units nbytes < 2 ^ 31)
      (hmalloc : malloc growproc base nbytes s.heap = some (p, h)) : Reach base lo limit (s.add nbytes p h)
  | free {s : State} {l₁ l₂ : List Block} {b : Block} {h : Heap} (hreach : Reach base lo limit s)
      (hlive : s.live = l₁ ++ b :: l₂) (hfree : free (b.addr + 16) s.heap = some h) :
      Reach base lo limit ⟨h, l₁ ++ l₂⟩
  | write {s : State} {b : Block} {i : Nat} (hreach : Reach base lo limit s) (hb : b ∈ s.live)
      (hi : b.addr + 16 ≤ i) (hlt : i < b.addr + 16 + b.nbytes) (v : UInt8) : Reach base lo limit (s.write i v)

/-- Before the first call of `malloc`. -/
def Fresh (lo : Nat) (s : State) : Prop := s.heap.freep = 0 ∧ s.live = [] ∧ s.heap.brk = lo

/-- The blocks in use have room for what was asked for. -/
def Roomy (live : List Block) : Prop := ∀ b ∈ live, b.addr + 16 + b.nbytes ≤ b.stop

/-- What holds in every state. -/
def Good (base lo : Nat) (s : State) : Prop :=
  Fresh lo s ∨ ∃ free, Layout base lo s.heap.brk ∧ Inv base lo s.heap s.live free ∧ Roomy s.live

section Steps

variable {base lo : Nat} {s : State}

theorem room_units (q nbytes : Nat) : q + 16 + nbytes ≤ Block.stop ⟨q, units nbytes, nbytes⟩ := by
  unfold Block.stop units
  dsimp only
  omega

/-- `malloc` in every state. -/
theorem Good.malloc {growproc : Nat → Int → Option Nat} {nbytes : Nat} (hl : Layout base lo lo) (hgood : Good base lo s)
    (hgrant : Grants lo (2 ^ 36) growproc) (hsize : 16 * units nbytes < 2 ^ 31) :
    ∃ p h, malloc growproc base nbytes s.heap = some (p, h) ∧ Layout base lo h.brk ∧ Kept s.live s.heap h ∧
      Gives base lo s.live nbytes p h := by
  rcases hgood with hfresh | ⟨free, hlayout, hinv, -⟩
  · obtain ⟨hfreep, hlive, hbrk⟩ := hfresh
    have hinv := inv_start hl hfreep hbrk
    have hbrk' : (start base s.heap).brk = lo := by
      unfold start
      rw [if_pos hfreep]
      exact hbrk
    obtain ⟨p, h, hmalloc, hlayout, -, hgives⟩ := malloc_spec (hbrk'.symm ▸ hl) hinv hgrant hsize
    rw [hlive]
    refine ⟨p, h, ?_, hlayout, nofun, hgives⟩
    rw [← hmalloc]
    unfold Umalloc.malloc mallocWith
    rw [hinv.start_eq (hbrk'.symm ▸ hl)]
  · exact malloc_spec hlayout hinv hgrant hsize

theorem Good.add {nbytes p : Nat} {h : Heap} (hgood : Good base lo s) (hlayout : Layout base lo h.brk)
    (hgives : Gives base lo s.live nbytes p h) : Good base lo (s.add nbytes p h) := by
  have hroomy : Roomy s.live := by
    rcases hgood with hfresh | ⟨_, -, -, hroomy⟩
    · rw [Roomy, hfresh.2.1]
      exact nofun
    · exact hroomy
  right
  rcases hgives with ⟨rfl, l, hinv⟩ | ⟨q, l, rfl, hinv⟩
  · exact ⟨l, hlayout, hinv, hroomy⟩
  · have hlive : (s.add nbytes (q + 16) h).live = ⟨q, units nbytes, nbytes⟩ :: s.live := by
      unfold State.add
      dsimp only
      rw [if_neg (Nat.succ_ne_zero _), Nat.add_sub_cancel]
    refine ⟨l, hlayout, ?_, ?_⟩
    · rw [hlive]
      exact hinv
    · rw [hlive]
      intro b hb
      rcases mem_cons.1 hb with rfl | hb
      · exact room_units q nbytes
      · exact hroomy b hb

theorem Inv.perm {h : Heap} {used used' l : List Block} (hinv : Inv base lo h used l) (hperm : List.Perm used used') :
    Inv base lo h used' l :=
  { hinv with
    tiles := hinv.tiles.perm (hperm.append_right l)
    sizes := fun b hb => hinv.sizes b ((hperm.append_right l).mem_iff.2 hb) }

/-- `free` of a block in use. -/
theorem Good.free {l₁ l₂ : List Block} {b : Block} (hgood : Good base lo s) (hlive : s.live = l₁ ++ b :: l₂) :
    ∃ h, free (b.addr + 16) s.heap = some h ∧ Good base lo ⟨h, l₁ ++ l₂⟩ ∧ Kept (l₁ ++ l₂) s.heap h := by
  rcases hgood with hfresh | ⟨free, hlayout, hinv, hroomy⟩
  · rw [hfresh.2.1] at hlive
    exact absurd hlive (append_ne_nil_of_right_ne_nil l₁ (cons_ne_nil b l₂)).symm
  · rw [hlive] at hinv hroomy
    obtain ⟨h, l', hfree, hbrk, hinv', -, -, hkept⟩ := free_spec hlayout (hinv.perm perm_middle)
    refine ⟨h, hfree, Or.inr ⟨l', ?_, hinv', ?_⟩, hkept⟩
    · rw [hbrk]
      exact hlayout
    · exact fun c hc => hroomy c (perm_middle.mem_iff.2 (mem_cons_of_mem b hc))

/-- A write to a block in use. -/
theorem Good.write {b : Block} {i : Nat} (hgood : Good base lo s) (hb : b ∈ s.live) (hi : b.addr + 16 ≤ i)
    (hlt : i < b.addr + 16 + b.nbytes) (v : UInt8) : Good base lo (s.write i v) := by
  rcases hgood with hfresh | ⟨free, hlayout, hinv, hroomy⟩
  · rw [hfresh.2.1] at hb
    exact absurd hb not_mem_nil
  · right
    have hstop := hroomy b hb
    have hbmem : b ∈ s.live ++ free := mem_append_left free hb
    have hbounds := addr_lt_stop hinv.tiles hbmem
    have honly : ∀ j, j < i ∨ i + 1 ≤ j → (s.write i v).heap.mem.get j = s.heap.mem.get j := by
      intro j hj
      have hj' : ¬ (i ≤ j ∧ j < i + 1) := by omega
      show (Bytes.write s.heap.mem i (fun _ => v) 1).get j = _
      exact Bytes.get_write_of_not_mem s.heap.mem _ hj'
    have hfields : ∀ x ∈ base :: (s.live ++ free).map Block.addr,
        ptr (s.write i v).heap.mem x = ptr s.heap.mem x ∧ size (s.write i v).heap.mem x = size s.heap.mem x := by
      have hbase := hlayout.base_lt hinv.tiles hbmem
      refine forall_mem_cons.2 ⟨fields_eq honly (by omega), forall_mem_map.2 fun c hc => ?_⟩
      apply fields_eq honly
      have hc' := addr_lt_stop hinv.tiles hc
      by_cases heq : b = c
      · rw [← heq]
        omega
      · have hapart := hinv.tiles.apart_of_ne hbmem hc heq
        unfold Apart at hapart
        omega
    refine ⟨free, hlayout, ⟨hinv.tiles, ?_, ?_, ?_, hinv.spaced, hinv.freep⟩, hroomy⟩
    · apply hinv.circle.congr
      intro x hx
      rw [← cons_append, dropLast_concat] at hx
      exact (hfields x (nodes_mono base (subset_append_right s.live free) hx)).1
    · intro c hc
      exact (hfields c.addr (mem_cons_of_mem base (mem_map_of_mem hc))).2.trans (hinv.sizes c hc)
    · exact (hfields base (mem_cons_self ..)).2.trans hinv.baseSize

theorem good_of_reach (hl : Layout base lo lo) (hreach : Reach base lo (2 ^ 36) s) : Good base lo s := by
  induction hreach with
  | init m => exact Or.inl ⟨rfl, rfl, rfl⟩
  | malloc _ hgrant hsize hmalloc ih =>
    obtain ⟨p, h, hmalloc', hlayout, -, hgives⟩ := ih.malloc hl hgrant hsize
    rw [hmalloc] at hmalloc'
    cases hmalloc'
    exact ih.add hlayout hgives
  | free _ hlive hfree ih =>
    obtain ⟨h, hfree', hgood, -⟩ := ih.free hlive
    rw [hfree] at hfree'
    cases hfree'
    exact hgood
  | write _ hb hi hlt v ih => exact ih.write hb hi hlt v

end Steps

/-- The blocks in use and the free ones tile the memory from `sbrk`, and the free list is what it should be. -/
structure Sound (base lo : Nat) (s : State) (free : List Block) : Prop where
  tiles : Tiles Block.addr Block.stop (s.live ++ free) lo s.heap.brk
  sizes : ∀ b ∈ s.live ++ free, size s.heap.mem b.addr = b.units
  roomy : Roomy s.live
  circle : Circular (ptr s.heap.mem) base (free.map Block.addr)
  ordered : (base :: free.map Block.addr).Pairwise (· < ·)
  coalesced : ∀ b ∈ free, ∀ c ∈ free, b.stop ≠ c.addr
  freep : s.heap.freep ∈ base :: free.map Block.addr

theorem coalesced_of_spaced {lo brk : Nat} {l free : List Block} (ht : Tiles Block.addr Block.stop l lo brk)
    (hsub : ∀ b ∈ free, b ∈ l) (hspaced : free.Pairwise fun b c => b.stop < c.addr) :
    ∀ b ∈ free, ∀ c ∈ free, b.stop ≠ c.addr := by
  intro b hb c hc heq
  have hbstop := addr_lt_stop ht (hsub b hb)
  have hcstop := addr_lt_stop ht (hsub c hc)
  have hne : b ≠ c := by
    intro hbc
    rw [hbc] at heq
    omega
  have hor : b.stop < c.addr ∨ c.stop < b.addr := by
    have hsymm : free.Pairwise fun b c => b.stop < c.addr ∨ c.stop < b.addr := hspaced.imp Or.inl
    have : Std.Symm fun b c : Block => b.stop < c.addr ∨ c.stop < b.addr := ⟨fun _ _ => Or.symm⟩
    exact hsymm.forall hb hc hne
  omega

section Safety

variable {base lo : Nat} {s : State}

/-- While `sbrk` grants less than `2 ^ 36` bytes, the blocks are disjoint and cover the heap, the free list is circular,
in order and coalesced, every call returns, and no call touches a block in use. -/
theorem heap_sound (hbase : 0 < base) (hlow : base + 16 ≤ lo) (hhigh : lo ≤ 2 ^ 64)
    (hreach : Reach base lo (2 ^ 36) s) :
    (Fresh lo s ∨ ∃ free, Sound base lo s free) ∧
    (∀ growproc nbytes, Grants lo (2 ^ 36) growproc → 16 * units nbytes < 2 ^ 31 →
      ∃ p h, malloc growproc base nbytes s.heap = some (p, h) ∧ Kept s.live s.heap h) ∧
    ∀ l₁ b l₂, s.live = l₁ ++ b :: l₂ →
      ∃ h, free (b.addr + 16) s.heap = some h ∧ Kept (l₁ ++ l₂) s.heap h := by
  have hl : Layout base lo lo := ⟨hbase, hlow, Nat.le_refl lo, hhigh, Nat.lt_add_of_pos_right (by decide)⟩
  have hgood := good_of_reach hl hreach
  refine ⟨?_, ?_, ?_⟩
  · refine hgood.imp_right ?_
    intro h
    obtain ⟨free, hlayout, hinv, hroomy⟩ := h
    have hsub : ∀ b ∈ free, b ∈ s.live ++ free := fun _ => mem_append_right s.live
    exact ⟨free, hinv.tiles, hinv.sizes, hroomy, hinv.circle, hinv.sorted hlayout,
      coalesced_of_spaced hinv.tiles hsub hinv.spaced, hinv.freep⟩
  · intro growproc nbytes hgrant hsize
    obtain ⟨p, h, hmalloc, -, hkept, -⟩ := hgood.malloc hl hgrant hsize
    exact ⟨p, h, hmalloc, hkept⟩
  · intro l₁ b l₂ hlive
    obtain ⟨h, hfree, -, hkept⟩ := hgood.free hlive
    exact ⟨h, hfree, hkept⟩

end Safety

/-- A heap from 8192 on, with `base` at 4096. -/
def blank : State := ⟨⟨fun _ => 0, 0, 8192⟩, []⟩

/-- A kernel that grants memory up to an address. -/
def grantsBelow (top brk : Nat) (n : Int) : Option Nat := if brk + n.toNat < top then some (brk + n.toNat) else none

theorem grants_grantsBelow {lo limit : Nat} (h : lo + limit ≤ 2 ^ 64) : Grants lo limit (grantsBelow (lo + limit)) := by
  intro brk n brk' hgrow _
  obtain ⟨hlt, heq⟩ := Option.ite_none_right_eq_some.1 hgrow
  cases heq
  exact ⟨rfl, hlt, by omega⟩

/-- A call of a program that frees what it got last. -/
inductive Call where
  | malloc (nbytes : Nat)
  | free

/-- The calls of a program, one after the other. -/
def calls (limit : Nat) : List Call → State → Option State
  | [], s => some s
  | .malloc n :: cs, s =>
      if 16 * units n < 2 ^ 31 then
        (malloc (grantsBelow (8192 + limit)) 4096 n s.heap).bind fun r => calls limit cs (s.add n r.1 r.2)
      else none
  | .free :: cs, ⟨h, b :: live⟩ => (free (b.addr + 16) h).bind fun h => calls limit cs ⟨h, live⟩
  | .free :: _, ⟨_, []⟩ => none

theorem Reach.calls {limit : Nat} (hlimit : 8192 + limit ≤ 2 ^ 64) {cs : List Call} {s t : State}
    (hreach : Reach 4096 8192 limit s) (hcalls : calls limit cs s = some t) : Reach 4096 8192 limit t := by
  induction cs generalizing s with
  | nil =>
    cases hcalls
    exact hreach
  | cons c cs ih =>
    cases c with
    | malloc n =>
      obtain ⟨hsize, hcalls⟩ := Option.ite_none_right_eq_some.1 hcalls
      obtain ⟨r, hmalloc, hrest⟩ := bind_eq_some_iff.1 hcalls
      exact ih (hreach.malloc (grants_grantsBelow hlimit) hsize hmalloc) hrest
    | free =>
      obtain ⟨h, _ | ⟨b, live⟩⟩ := s
      · cases hcalls
      · obtain ⟨h', hfree, hrest⟩ := bind_eq_some_iff.1 hcalls
        exact ih (hreach.free (nil_append _).symm hfree) hrest

theorem heap_sound_two :
    ∃ s, Reach 4096 8192 (2 ^ 36) s ∧ s.live.length = 2 ∧ ∃ free, Sound 4096 8192 s free := by
  obtain ⟨s, hcalls, hlen⟩ := map_eq_some_iff.1 (show (calls (2 ^ 36) [.malloc 100, .malloc 200] blank).map
    (fun s => s.live.length) = some 2 by decide)
  have hreach := (Reach.init fun _ => 0).calls (by decide) hcalls
  refine ⟨s, hreach, hlen, ?_⟩
  refine (heap_sound (by decide) (by decide) (by decide) hreach).1.resolve_left ?_
  intro hfresh
  have hnil := congrArg List.length hfresh.2.1
  exact absurd (hlen.symm.trans hnil) (by decide)

/-- With more memory than a `uint` can count, a free block is lost: of 33 blocks of almost `2 ^ 31` bytes that are freed
again the `size` is taken modulo `2 ^ 32`. -/
theorem heap_not_sound : ∃ s, Reach 4096 8192 (2 ^ 37) s ∧ ¬ Fresh 8192 s ∧ ¬ ∃ free, Sound 4096 8192 s free := by
  have hrun : (calls (2 ^ 37) (replicate 33 (.malloc (2 ^ 31 - 32)) ++ replicate 33 .free) blank).map (fun s =>
      (s.live.isEmpty, s.heap.brk, ptr s.heap.mem 4096, ptr s.heap.mem 8192, size s.heap.mem 8192)) =
      some (true, 8192 + 16 * (33 * (2 ^ 27 - 1)), 8192, 4096, 33 * (2 ^ 27 - 1) % 2 ^ 32) := by decide +kernel
  obtain ⟨s, hcalls, hfacts⟩ := map_eq_some_iff.1 hrun
  simp only [Prod.mk.injEq, List.isEmpty_iff] at hfacts
  obtain ⟨hlive, hbrk, hptr, hptr', hsize⟩ := hfacts
  refine ⟨s, (Reach.init fun _ => 0).calls (by decide) hcalls, ?_, ?_⟩
  · intro hfresh
    have := hfresh.2.2
    omega
  · intro h
    obtain ⟨free, hsound⟩ := h
    have hpath : Links (ptr s.heap.mem) 4096 (free.map Block.addr ++ [4096]) := hsound.circle
    have htiles := hsound.tiles
    have hsizes := hsound.sizes
    rw [hlive, nil_append] at htiles hsizes
    match free, hpath, htiles, hsizes with
    | [], hpath, _, _ =>
        have hnext : ptr s.heap.mem 4096 = 4096 := hpath.1
        omega
    | [c], hpath, htiles, hsizes =>
        -- the last byte is in no block
        have hnext : ptr s.heap.mem 4096 = c.addr := hpath.1
        have hunits := hsizes c (mem_cons_self ..)
        have hcover := (htiles.cover (s.heap.brk - 1)).2 ⟨by omega, by omega⟩
        obtain ⟨d, hd, -, hlt⟩ := hcover
        rw [mem_singleton] at hd
        rw [hd, Block.stop, ← hunits, ← hnext, hptr, hsize] at hlt
        omega
    | c :: d :: l, hpath, htiles, _ =>
        have hnext : ptr s.heap.mem 4096 = c.addr := hpath.1
        have hnext' : ptr s.heap.mem c.addr = d.addr := hpath.2.1
        have hbounds := htiles.bounds (mem_cons_of_mem c (mem_cons_self ..))
        rw [← hnext, hptr, hptr'] at hnext'
        omega

end Umalloc

end Xv6
