import Xv6.Umalloc.Runs

/-! What one call of `malloc` gets from the kernel. The units are a `uint`, but `sbrk` takes the bytes as an `int`: from
`2 ^ 31` bytes on it moves the break by something else than the header of the new block says. -/

namespace Xv6

open Lib List

namespace Umalloc

/-- `malloc` calls `morecore`: it has no result where that has none. -/
def Asks (base nbytes : Nat) (h : Heap) : Prop := mallocWith (fun _ _ => none) base nbytes h = none

/-- `malloc` returns, nothing but memory between the first break and the present one, and `morecore` passes the size of
its block to `sbrk`. -/
structure Honest (growproc : Nat → Int → Option Nat) (base lo nbytes : Nat) (h : Heap) : Prop where
  result : ∃ p h', malloc growproc base nbytes h = some (p, h') ∧ (p ≠ 0 → lo ≤ p ∧ p + nbytes ≤ h'.brk)
  size : Asks base nbytes h → 0 < sbrkArg (max 4096 (units nbytes)) ∧
    sbrkArg (max 4096 (units nbytes)) = (max 4096 (units nbytes) * 16 : Nat)

section Request

variable {growproc : Nat → Int → Option Nat} {base lo nbytes : Nat} {h : Heap} {used free : List Block}

theorem Gives.inside {p : Nat} {h' : Heap} (hgives : Gives base lo used nbytes p h') (hpos : p ≠ 0) :
    lo ≤ p ∧ p + nbytes ≤ h'.brk := by
  rcases hgives with ⟨hzero, -⟩ | ⟨q, l, rfl, hinv'⟩
  · exact absurd hzero hpos
  · have hbounds := addr_lt_stop hinv'.tiles (mem_cons_self ..)
    have hroom := room_units q nbytes
    dsimp only at hbounds
    omega

variable (hl : Layout base lo (start base h).brk) (hinv : Inv base lo (start base h) used free)
include hl hinv

/-- The search of `malloc` ends at a block that is large enough, or calls `morecore`. -/
theorem malloc_cases (more : Nat → Heap → Option (Nat × Heap)) :
    (∃ q ∈ base :: free.map Block.addr, units nbytes ≤ size (start base h).mem (ptr (start base h).mem q) ∧
      mallocWith more base nbytes h = some (carve (units nbytes) q (ptr (start base h).mem q) (start base h))) ∨
    (∀ b ∈ free, b.units < units nbytes) ∧ (more (units nbytes) (start base h) = none →
      mallocWith more base nbytes h = none) := by
  have hlen := hinv.length_lt hl
  have hfuel : free.length < 2 * (start base h).fuel + 2 := by
    unfold Heap.fuel
    omega
  refine (search_around more (units nbytes) hl hinv hfuel).imp_right ?_
  intro hmore
  refine ⟨hmore.1, ?_⟩
  intro hnone
  have hsearch := hmore.2
  rw [hnone] at hsearch
  exact hsearch

theorem asks_iff : Asks base nbytes h ↔ ∀ b ∈ free, b.units < units nbytes := by
  rcases @malloc_cases _ _ nbytes _ _ _ hl hinv (fun _ _ => none) with ⟨q, hq, hfit, hfound⟩ | ⟨hsmall, hnone⟩
  · have hsome : ¬ Asks base nbytes h := by
      unfold Asks
      rw [hfound]
      exact nofun
    refine iff_of_false hsome ?_
    intro hsmall
    rcases mem_cons.1 (hinv.circle.next_mem hq) with hbase | hnext
    · rw [hbase, hinv.baseSize] at hfit
      exact absurd hfit (Nat.not_le_of_lt (units_pos nbytes))
    · obtain ⟨b, hb, haddr⟩ := mem_map.1 hnext
      rw [← haddr, hinv.sizes b (mem_append_right used hb)] at hfit
      exact absurd hfit (Nat.not_le_of_lt (hsmall b hb))
  · exact iff_of_true (hnone rfl) hsmall

/-- A call of `malloc` is honest if and only if it asks for less than `2 ^ 31` bytes or finds a block for them. -/
theorem malloc_honest_iff (hgrant : Grants lo (2 ^ 36) growproc) (nbytes : Nat) :
    Honest growproc base lo nbytes h ↔ 16 * units nbytes < 2 ^ 31 ∨ ∃ b ∈ free, units nbytes ≤ b.units := by
  constructor
  · intro hhonest
    by_contra hnot
    obtain ⟨hlarge, hnone⟩ := not_or.1 hnot
    have hasks : Asks base nbytes h := by
      rw [asks_iff hl hinv]
      intro b hb
      by_contra hle
      exact hnone ⟨b, hb, Nat.le_of_not_lt hle⟩
    have hexact := (hhonest.size hasks).2
    have hlt : sbrkArg (max 4096 (units nbytes)) < 2 ^ 31 := BitVec.toInt_lt
    omega
  · intro hwhen
    by_cases hfree : ∃ b ∈ free, units nbytes ≤ b.units
    · have hnot : ¬ ∀ b ∈ free, b.units < units nbytes := by
        intro hsmall
        obtain ⟨b, hb, hle⟩ := hfree
        exact absurd hle (Nat.not_le_of_lt (hsmall b hb))
      refine ⟨?_, fun hasks => absurd ((asks_iff hl hinv).1 hasks) hnot⟩
      obtain ⟨q, hq, hfit, hfound⟩ := (malloc_cases hl hinv (morecore growproc)).resolve_right fun hmore => hnot hmore.1
      obtain ⟨p, h', hcarve, -, -, hgives⟩ := gives_of_carve hl hinv nbytes hq hfit
      rw [hcarve] at hfound
      exact ⟨p, h', hfound, hgives.inside⟩
    · have hsize := hwhen.resolve_right hfree
      obtain ⟨p, h', hmalloc, -, -, hgives⟩ := malloc_spec hl hinv hgrant hsize
      have hstart : malloc growproc base nbytes h = some (p, h') := by
        rw [← hmalloc]
        unfold malloc mallocWith
        rw [hinv.start_eq hl]
      refine ⟨⟨p, h', hstart, hgives.inside⟩, fun _ => ?_⟩
      rw [sbrkArg_eq (by omega)]
      exact ⟨by omega, rfl⟩

end Request

theorem malloc_honest_iff_hundred : Honest (grantsBelow (8192 + 2 ^ 36)) 4096 8192 100 blank.heap := by
  have hl : Layout 4096 8192 8192 := ⟨by decide, by decide, by decide, by decide, by decide⟩
  exact (malloc_honest_iff hl (inv_start hl rfl rfl) (grants_grantsBelow (by decide)) 100).2 (Or.inl (by decide))

/-- **Freed memory is used again.** Whatever a program did: once a block in use is freed, a request that fits it gets
memory although `sbrk` fails, and the other blocks in use keep their bytes. -/
theorem freed_memory_reused {base lo : Nat} {s : State} {l₁ l₂ : List Block} {b : Block} (hbase : 0 < base)
    (hlow : base + 16 ≤ lo) (hhigh : lo ≤ 2 ^ 64) (hreach : Reach base lo (2 ^ 36) s)
    (hlive : s.live = l₁ ++ b :: l₂) (nbytes : Nat) (hfit : units nbytes ≤ b.units) :
    ∃ h p h', free (b.addr + 16) s.heap = some h ∧ malloc (fun _ _ => none) base nbytes h = some (p, h') ∧ p ≠ 0 ∧
      h'.brk = s.heap.brk ∧ Kept (l₁ ++ l₂) s.heap h' := by
  have hl : Layout base lo lo := ⟨hbase, hlow, Nat.le_refl lo, by omega, by omega⟩
  rcases good_of_reach hl hreach with hfresh | ⟨l, hlayout, hinv, -⟩
  · rw [hfresh.2.1] at hlive
    exact absurd hlive.symm (by simp)
  · rw [hlive] at hinv
    obtain ⟨h, l', hfree, hbrk, hinv', ⟨c, hc, hle⟩, -, hkept⟩ := free_spec hlayout (hinv.perm perm_middle)
    rw [← hbrk] at hlayout
    have hstart := hinv'.start_eq hlayout
    have hcases := @malloc_cases _ _ nbytes _ _ _ (hstart.symm ▸ hlayout) (hstart.symm ▸ hinv') (morecore fun _ _ => none)
    rw [hstart] at hcases
    obtain ⟨q, hq, hsize, hfound⟩ := hcases.resolve_right fun hsmall => absurd (hfit.trans hle) (Nat.not_le_of_lt (hsmall.1 c hc))
    obtain ⟨r, h', -, hcarve, hbrk', -, hkept'⟩ := carve_spec hlayout hinv' nbytes hq (units_pos nbytes) hsize
    rw [hcarve] at hfound
    exact ⟨h, r + 16, h', hfree, hfound, by omega, by rw [hbrk', hbrk], hkept.trans hkept'⟩

theorem freed_memory_reused_hundred : ∃ s, Reach 4096 8192 (2 ^ 36) s ∧ s.live = [⟨73600, 8, 100⟩] ∧
    ∃ h p h', free 73616 s.heap = some h ∧ malloc (fun _ _ => none) 4096 100 h = some (p, h') ∧ p ≠ 0 := by
  obtain ⟨s, hcalls, hlive⟩ := Option.map_eq_some_iff.1 (show (calls (2 ^ 36) [.malloc 100] blank).map State.live =
    some ([] ++ ⟨73600, 8, 100⟩ :: []) by decide)
  have hreach := (Reach.init fun _ => 0).calls (by decide) hcalls
  obtain ⟨h, p, h', hfree, hagain, hpos, -⟩ := freed_memory_reused (by decide) (by decide) (by decide) hreach hlive 100 (by decide)
  exact ⟨_, hreach, hlive, h, p, h', hfree, hagain, hpos⟩

/-- `malloc(0xffffffff)` gets 16 bytes, and returns their end. -/
theorem malloc_past_break :
    (malloc (grantsBelow (8192 + 2 ^ 36)) 4096 (2 ^ 32 - 1) blank.heap).map (fun r => (r.1, r.2.brk)) = some (8208, 8208) ∧
      ¬ Honest (grantsBelow (8192 + 2 ^ 36)) 4096 8192 (2 ^ 32 - 1) blank.heap := by
  have hrun : (malloc (grantsBelow (8192 + 2 ^ 36)) 4096 (2 ^ 32 - 1) blank.heap).map (fun r => (r.1, r.2.brk)) =
      some (8208, 8208) := by decide
  refine ⟨hrun, ?_⟩
  intro hhonest
  obtain ⟨p, h', hmalloc, hinside⟩ := hhonest.result
  rw [hmalloc] at hrun
  obtain ⟨rfl, hbrk⟩ := Prod.mk.inj (Option.some.inj hrun)
  have hbelow := (hinside (by decide)).2
  dsimp only at hbrk
  omega

end Umalloc

end Xv6
