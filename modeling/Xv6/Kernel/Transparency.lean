import Xv6.Kernel.Boot

/-! The cache is transparent: however buffers are recycled, a process reads from a block what was last
stored in it. -/

namespace Xv6

open Lib

/-- A changed buffer is logged or written before it is released. -/
def Rules.logged : Rules := ⟨false, false, true, false, false, fun _ _ => True⟩

namespace Kernel

variable {P X : Type} [Procs P] {E : Sig} {R : Rules} {s : Kernel P X} {ρ : P → Res}

theorem Inv.victim_ne_of_pending (h : s.Inv R ρ) {i : Fin NBUF} (hi : s.cache.Holds i s.log.pending) :
    s.cache.victim ≠ some i := by
  intro hvictim
  have hzero : (s.cache.buf i).refcnt = 0 := by simpa using List.find?_some hvictim
  rw [h.refs.refcnt i, Cache.pin, if_pos hi] at hzero
  omega

/-- What `bread` gives to a process that has locked the buffer. -/
theorem Inv.fill_eq_stored (h : s.Inv R ρ) (hR : R.tracked) {p : P} {i : Fin NBUF} {b : Nat}
    (ht : (ρ p).bufs.transit = .locked i b) :
    s.cache.asked p = (ROOTDEV, b) ∧ ((s.cache.fill i).buf i).blockno = b ∧
      ((s.cache.fill i).buf i).data = s.cache.stored b := by
  have hblocks := h.blocks.fill h.refs (i := i) ht
  have hheld := (hblocks.knows p).held i ⟨b, ((s.cache.fill i).buf i).data, .safe⟩ (by
    rw [Function.update_self]
    exact Bufs.held_hold_self)
  have hdata := ((h.data hR).fill h.blocks h.refs (i := i) ht).cached i hheld.valid
  have hblock : ((s.cache.fill i).buf i).blockno = b := hheld.blockno
  rw [hblock, Cache.stored_fill] at hdata
  exact ⟨(h.blocks.knows p).asked i b (Or.inr ht), hblock, hdata⟩

variable {size : Nat} {ext : P → (e : E.Op) → X → Outcome X (E.Ret e)} {start : Nat} {disk : Nat → Block}
  {x : X} {p₀ : P} {clients : P → Prog (Client (Fin NBUF) E) Unit} {c : Conf (Prim E) P (Kernel P X)}

/-- **Transparency.** After boot from a disk whose log is empty: no two buffers cache the same block; a
logged block is cached and its buffer is not recycled before it is installed; and the buffer that `bread`
gives to a process caches the block it asked for, with the content last stored in that block, and keeps
it for every read of the process. -/
theorem cache_transparent (hempty : headN (disk start) ≤ 0) (hclients : ∀ p, Follows Rules.logged (clients p))
    (hruns : Runs size ext (fun _ _ _ => True) start disk x p₀ clients c) :
    (∀ i j, (c.st.cache.buf i).dev = ROOTDEV → (c.st.cache.buf j).dev = ROOTDEV →
      (c.st.cache.buf i).blockno = (c.st.cache.buf j).blockno → i = j) ∧
    (∀ b ∈ c.st.log.pending, ∃ i, (c.st.cache.buf i).dev = ROOTDEV ∧ (c.st.cache.buf i).blockno = b ∧
      (c.st.cache.buf i).data = c.st.cache.stored b ∧ c.st.cache.victim ≠ some i) ∧
    (c.st.log.log.committing = false → c.st.log.pending = c.st.log.log.head) ∧
    (∀ p i, (c.prog p).next = some (.fill i) → ∃ b, c.st.cache.asked p = (ROOTDEV, b) ∧
      ((c.st.cache.fill i).buf i).blockno = b ∧
      ((c.st.cache.fill i).buf i).data = c.st.cache.stored b) ∧ (∀ p i, (c.prog p).next = some (.data i) →
      (c.st.cache.buf i).data = c.st.cache.stored (c.st.cache.buf i).blockno) := by
  obtain ⟨R, ρ, hR, hinv, hwp⟩ := hruns.inv hempty (fun _ _ => trivial) nofun hclients
  have htracked : R.tracked := by
    rcases hR with rfl | rfl <;> rfl
  have hdata := hinv.data htracked
  refine ⟨hinv.blocks.unique, fun b hb => ?_, fun hc => ?_, fun p i hnext => ?_, fun p i hnext => ?_⟩
  · obtain ⟨i, hdev, rfl, hvalid⟩ := hinv.blocks.pinned b hb
    exact ⟨i, hdev, rfl, hdata.cached i hvalid, hinv.victim_ne_of_pending ⟨hdev, hb⟩⟩
  · rw [LogState.pending, hinv.log.installed hc, List.drop_zero]
  · obtain ⟨b, ht⟩ := (sections R E).pre_of_next (hwp p) hnext
    exact ⟨b, hinv.fill_eq_stored htracked ht⟩
  · obtain ⟨y, hy⟩ := Option.isSome_iff_exists.1 ((sections R E).pre_of_next (hwp p) hnext)
    exact hdata.cached i ((hinv.blocks.knows p).held i y hy).valid

/-- One process writes a block; another reads as many other blocks as there are buffers, and then the
block. -/
def writerAndReader (p : Fin NPROC) : Prog (Client (Fin NBUF) Sig.empty) Unit :=
  if p = 0 then writeOp [(100, fun _ => 7)]
  else if p = 1 then readBlocks (List.range' 200 NBUF ++ [100])
  else pure ()

theorem follows_writerAndReader (p : Fin NPROC) : Follows Rules.logged (writerAndReader p) := by
  unfold writerAndReader
  split_ifs
  · exact follows_writeOp rfl (Nat.le_add_left 1 9)
  · exact follows_readBlocks rfl
  · trivial

/-- Process 1 is to read block 100, which was written to disk. -/
def refills (c : Conf (Prim Sig.empty) (Fin NPROC) (Kernel (Fin NPROC) Unit)) : Bool :=
  match (c.prog 1).next with
  | some (.fill i) => decide ((c.st.cache.buf i).valid = false ∧
      c.st.cache.asked 1 = (ROOTDEV, 100) ∧ (c.st.cache.stored 100).get 0 = 7)
  | _ => false

/-- The reader of a block that was evicted since it was written. -/
theorem cache_transparent_evicted : ∃ c, BareRuns (fun _ => Block.zero) writerAndReader c ∧
    ∃ i, (c.prog 1).next = some (.fill i) ∧ (c.st.cache.buf i).valid = false ∧
      ((c.st.cache.fill i).buf i).data.get 0 = 7 := by
  obtain ⟨c, hruns, htest⟩ : ∃ c, BareRuns (fun _ => Block.zero) writerAndReader c ∧
      refills c = true :=
    exists_runs_free (List.replicate 18 0) (List.replicate 64 0 ++ List.replicate 152 1) _ (by decide +kernel)
  unfold refills at htest
  split at htest
  · rename_i i hnext
    obtain ⟨hvalid, hasked, hstored⟩ := of_decide_eq_true htest
    obtain ⟨b, hb, -, hdata⟩ := (cache_transparent (by decide) follows_writerAndReader
      hruns).2.2.2.1 1 i hnext
    cases hasked.symm.trans hb
    exact ⟨c, hruns, i, hnext, hvalid, hdata ▸ hstored⟩
  · cases htest

end Kernel

end Xv6
