import Xv6.Bio.Invariant

/-! The steps of `bio.c` keep the blocks and the contents of the cache. A step of one process changes
what it has; what the others know is about other buffers, because a locked buffer has one holder and a
buffer without references has none. -/

namespace Xv6

open Lib Function

namespace Cache

variable {P : Type} [Procs P] {c c' : Cache P} {pend : List Nat} {β : P → Bufs} {p : P} {i : Fin NBUF}
  {x : Held} {b : Nat} {pend' : List Nat}

/-! ### Blocks -/

section

omit [Procs P]

theorem lookup_some {dev b : Nat} (h : c.lookup dev b = some i) : (c.buf i).dev = dev ∧ (c.buf i).blockno = b := by
  simpa using List.find?_some h

theorem lookup_none {dev b : Nat} (hlru : ∀ j, j ∈ c.lru) (h : c.lookup dev b = none)
    (hdev : (c.buf i).dev = dev) : (c.buf i).blockno ≠ b := by
  have := List.find?_eq_none.1 h i (hlru i)
  simp only [decide_eq_true_eq] at this
  exact fun hb => this ⟨hdev, hb⟩

theorem Has.congr (h : c.Has i x) (hdisk : c'.disk x.blockno = c.disk x.blockno)
    (hbuf : (c'.buf i).dev = (c.buf i).dev ∧ (c'.buf i).blockno = (c.buf i).blockno ∧
      (c'.buf i).valid = (c.buf i).valid ∧ (c'.buf i).data = (c.buf i).data) : c'.Has i x := by
  obtain ⟨hdev, hblock, hvalid, hdata⟩ := hbuf
  refine ⟨hdev.trans h.dev, hblock.trans h.blockno, hvalid.trans h.valid, hdata.trans h.data, fun hs => ?_⟩
  rw [hdisk]
  exact h.synced hs

/-- What a process knows does not change with the buffers it does not have. -/
theorem Knows.congr {r : Bufs} (h : c.Knows p r) (hasked : c'.asked p = c.asked p)
    (hdisk : ∀ j x, r.held j = some x → c'.disk x.blockno = c.disk x.blockno)
    (hheld : ∀ j x, r.held j = some x → (c'.buf j).dev = (c.buf j).dev ∧
      (c'.buf j).blockno = (c.buf j).blockno ∧ (c'.buf j).valid = (c.buf j).valid ∧
      (c'.buf j).data = (c.buf j).data)
    (htransit : ∀ j b, r.transit.buf = some (j, b) → (c'.buf j).dev = (c.buf j).dev ∧
      (c'.buf j).blockno = (c.buf j).blockno) : c'.Knows p r := by
  refine ⟨fun j x hx => (h.held j x hx).congr (hdisk j x hx) (hheld j x hx), fun j b hb => ?_, h.fresh,
    fun j b hb => ?_⟩
  · obtain ⟨hdev, hblock⟩ := htransit j b hb
    rw [hdev, hblock]
    exact h.transit j b hb
  · rw [hasked]
    exact h.asked j b hb

end

namespace Blocks

section

variable (h : Blocks c pend β)
include h

/-- A step that changes no block and no content. -/
theorem frame {r : Bufs} (hdisk : c'.disk = c.disk)
    (hbuf : ∀ j, (c'.buf j).dev = (c.buf j).dev ∧ (c'.buf j).blockno = (c.buf j).blockno ∧
      (c'.buf j).valid = (c.buf j).valid ∧ (c'.buf j).data = (c.buf j).data)
    (hother : ∀ q, q ≠ p → c'.asked q = c.asked q) (hp : c'.Knows p r) :
    Blocks c' pend (update β p r) := by
  refine ⟨fun j => ?_, fun j k => ?_, fun b hb => ?_, forall_update hp fun q hq =>
    (h.knows q).congr (hother q hq) (fun _ _ _ => by rw [hdisk]) (fun j _ _ => hbuf j) fun j _ _ =>
      ⟨(hbuf j).1, (hbuf j).2.1⟩⟩
  · obtain ⟨hdev, -, hvalid, -⟩ := hbuf j
    rw [hdev, hvalid]
    exact h.assigned j
  · rw [(hbuf j).1, (hbuf k).1, (hbuf j).2.1, (hbuf k).2.1]
    exact h.unique j k
  · obtain ⟨j, hj⟩ := h.pinned b hb
    refine ⟨j, ?_⟩
    rwa [(hbuf j).1, (hbuf j).2.1, (hbuf j).2.2.1]

theorem hit (hfound : c.lookup ROOTDEV b = some i) (n : Nat) :
    Blocks ((c.setBuf i ((c.buf i).setRefcnt n)).took p ROOTDEV b i) pend (update β p ((β p).get i b)) := by
  refine h.frame rfl (fun j => by simp) (fun q hq => update_of_ne hq ..)
    ⟨fun j x hx => ((h.knows p).held j x hx).congr rfl (by simp), fun j b' hj => ?_,
      fun j b' hj => ?_, fun j b' hj => ?_⟩
  · cases hj
    simpa using lookup_some hfound
  · cases hj
  · rcases hj with hj | hj <;> cases hj
    simp [took]

theorem miss (hr : Refs c pend β) (hnone : c.lookup ROOTDEV b = none) (hfree : (c.buf i).refcnt = 0) :
    Blocks ((c.setBuf i ((c.buf i).recycle ROOTDEV b)).took p ROOTDEV b i) pend (update β p ((β p).get i b)) := by
  obtain ⟨hcount, hpin⟩ := hr.unused hfree
  have hother : ∀ j, (c.buf j).dev = ROOTDEV → (c.buf j).blockno ≠ b := fun j =>
    lookup_none hr.lru hnone
  -- nobody has the buffer that is recycled
  have hheld : ∀ q j x, (β q).held j = some x → j ≠ i := by
    rintro q j x hx rfl
    rw [Bufs.held_of_count_eq_zero (hcount q)] at hx
    cases hx
  have htransit : ∀ q j b', (β q).transit.buf = some (j, b') → j ≠ i := by
    rintro q j b' hb rfl
    exact Bufs.transit_of_count_eq_zero (hcount q) hb
  refine ⟨fun j => ?_, fun j k => ?_, fun b' hb => ?_, forall_update ?_ fun q hq => ?_⟩
  · by_cases hj : j = i
    · subst hj
      simp
    · simpa [hj] using h.assigned j
  · by_cases hj : j = i
    · by_cases hk : k = i
      · exact fun _ _ _ => hj.trans hk.symm
      · subst hj
        simp only [buf_took, buf_setBuf_self, buf_setBuf_of_ne _ _ _ hk]
        intro _ hdev heq
        exact absurd heq.symm (hother k hdev)
    · by_cases hk : k = i
      · subst hk
        simp only [buf_took, buf_setBuf_self, buf_setBuf_of_ne _ _ _ hj]
        intro hdev _ heq
        exact absurd heq (hother j hdev)
      · simpa [hj, hk] using h.unique j k
  · obtain ⟨j, hdev, hblock, hvalid⟩ := h.pinned b' hb
    have hj : j ≠ i := by
      rintro rfl
      exact hpin ⟨hdev, hblock ▸ hb⟩
    exact ⟨j, by simp [hj, hdev], by simp [hj, hblock], by simp [hj, hvalid]⟩
  · refine ⟨fun j x hx => ?_, fun j b' hb => ?_, fun j b' hb => ?_, fun j b' hb => ?_⟩
    · exact ((h.knows p).held j x hx).congr rfl (by simp [hheld p j x hx])
    · cases hb
      simp
    · cases hb
    · rcases hb with hb | hb <;> cases hb
      simp [took]
  · refine (h.knows q).congr (update_of_ne hq ..) (fun _ _ _ => rfl) (fun j x hx => ?_) fun j b' hb => ?_
    · simp [hheld q j x hx]
    · simp [htransit q j b' hb]

theorem bget (hr : Refs c pend β)
    (hexec : c.bget p ROOTDEV b = .ok i c') : Blocks c' pend (update β p ((β p).get i b)) := by
  rw [Cache.bget] at hexec
  split at hexec
  · rename_i hfound
    cases hexec
    exact h.hit hfound _
  · rename_i hnone
    split at hexec
    · rename_i hvictim
      cases hexec
      exact h.miss hr hnone (by simpa using List.find?_some hvictim)
    · cases hexec

end

omit [Procs P] in
theorem not_mem_of_lookup_none (h : Blocks c pend β) (hlru : ∀ j, j ∈ c.lru)
    (hnone : c.lookup ROOTDEV b = none) : b ∉ pend := by
  intro hb
  obtain ⟨j, hdev, hblock, -⟩ := h.pinned b hb
  exact lookup_none hlru hnone hdev hblock

theorem acquiresleep (h : Blocks c pend β) (hr : Refs c pend β)
    (ht : (β p).transit = .got i b) (hexec : c.acquiresleep p i = .ok () c') :
    Blocks c' pend (update β p ((β p).lock i b)) := by
  rw [Cache.acquiresleep] at hexec
  split at hexec
  · cases hexec
  · rename_i hfree
    cases hexec
    have hknows := h.knows p
    refine h.frame rfl (fun j => by simp) (fun _ _ => rfl)
      ⟨fun j x hx => (hknows.held j x hx).congr rfl (by simp), fun j b' hj => ?_, fun j b' hj => ?_, fun j b' hj => ?_⟩
    · have := hknows.transit j b' (by rw [ht]; exact hj)
      simpa using this
    · cases hj
      have hlocks : ¬(β p).Locks i := by
        rw [← hr.lock, hfree]
        simp
      cases hheld : (β p).held i with
      | none => exact hheld
      | some x => exact absurd (Or.inl (by rw [hheld]; rfl)) hlocks
    · rcases hj with hj | hj <;> cases hj
      exact hknows.asked i b (Or.inl ht)

theorem held_ne (hr : Refs c pend β) (hp : (β p).Locks i) {q : P} (hq : q ≠ p) {j : Fin NBUF}
    (hx : (β q).held j = some x) : j ≠ i := by
  rintro rfl
  exact hq (hr.lock_unique (Or.inl (by rw [hx]; rfl)) hp)

section

variable (h : Blocks c pend β)
include h

section

variable (hr : Refs c pend β)
include hr

/-- A step of the process that locks buffer `i`, on its content. -/
theorem content {r : Bufs} {y : Held} (hlocks : (β p).Locks i) (hasked : c'.asked = c.asked)
    (hident : ∀ j, (c'.buf j).dev = (c.buf j).dev ∧ (c'.buf j).blockno = (c.buf j).blockno)
    (hsame : ∀ j, j ≠ i → c'.buf j = c.buf j) (hdisk : ∀ b, b ≠ (c.buf i).blockno → c'.disk b = c.disk b)
    (hheld : r.held = update (β p).held i (some y)) (hy : c'.Has i y)
    (htransit : r.transit = .none) : Blocks c' pend (update β p r) := by
  have hblock : ∀ q j x, (β q).held j = some x → j ≠ i → x.blockno ≠ (c.buf i).blockno := by
    intro q j x hx hj heq
    have hhas := (h.knows q).held j x hx
    have hi : (c.buf i).dev = ROOTDEV := (hident i).1.symm.trans hy.dev
    exact hj (h.unique j i hhas.dev hi (hhas.blockno.trans heq))
  refine ⟨fun j hj => ?_, fun j k => ?_, fun b hb => ?_, forall_update ?_ fun q hq => ?_⟩
  · by_cases hji : j = i
    · exact hji ▸ hy.dev
    · rw [hsame j hji] at hj ⊢
      exact h.assigned j hj
  · rw [(hident j).1, (hident k).1, (hident j).2, (hident k).2]
    exact h.unique j k
  · obtain ⟨j, hdev, hblock, hvalid⟩ := h.pinned b hb
    refine ⟨j, (hident j).1.trans hdev, (hident j).2.trans hblock, ?_⟩
    by_cases hji : j = i
    · exact hji ▸ hy.valid
    · rw [hsame j hji]
      exact hvalid
  · refine ⟨fun j x hx => ?_, fun j b' hb => ?_, fun j b' hb => ?_, fun j b' hb => ?_⟩
    · rw [hheld] at hx
      by_cases hj : j = i
      · subst hj
        rw [update_self] at hx
        cases hx
        exact hy
      · rw [update_of_ne hj] at hx
        exact ((h.knows p).held j x hx).congr (hdisk _ (hblock p j x hx hj)) (by simp [hsame j hj])
    all_goals simp [htransit, Transit.buf] at hb
  · refine (h.knows q).congr (by rw [hasked]) (fun j x hx => ?_) (fun j x hx => ?_) fun j _ _ => hident j
    · exact hdisk _ (hblock q j x hx (held_ne hr hlocks hq hx))
    · rw [hsame j (held_ne hr hlocks hq hx)]
      exact ⟨rfl, rfl, rfl, rfl⟩

theorem fill (ht : (β p).transit = .locked i b) : Blocks (c.fill i) pend
      (update β p ((β p).hold i ⟨b, ((c.fill i).buf i).data, .safe⟩)) := by
  obtain ⟨hdev, hblock⟩ := (h.knows p).transit i b (by rw [ht]; rfl)
  have hident : ∀ j, ((c.fill i).buf j).dev = (c.buf j).dev ∧ ((c.fill i).buf j).blockno = (c.buf j).blockno := by
    intro j
    rw [Cache.fill]
    split <;> simp
  have hvalid : ((c.fill i).buf i).valid = true := by
    rw [Cache.fill]
    split
    · assumption
    · simp
  refine h.content hr (Or.inr ⟨b, ht⟩) ?_ hident (fun j hj => ?_) (fun _ _ => ?_) rfl
    ⟨(hident i).1.trans hdev, (hident i).2.trans hblock, hvalid, rfl, fun h => by cases h⟩ rfl
  all_goals rw [Cache.fill]; split <;> simp_all

variable (ht : (β p).transit = .none)
include ht

theorem store (hx : (β p).held i = some x) (d : Block) :
    Blocks (c.store i d) pend (update β p ((β p).set i ⟨x.blockno, d, .dirty⟩)) := by
  have hhas := (h.knows p).held i x hx
  have hlocks : (β p).Locks i := Or.inl (by rw [hx]; rfl)
  refine h.content hr hlocks rfl (fun j => by simp [Cache.store]) (fun j hj => by simp [Cache.store, hj])
    (fun _ _ => rfl) rfl ⟨?_, ?_, ?_, ?_, nofun⟩ ht
  · simp [Cache.store, hhas.dev]
  · simp [Cache.store, hhas.blockno]
  · simp [Cache.store, hhas.valid]
  · simp [Cache.store]

theorem bwrite (hx : (β p).held i = some x) (hexec : c.bwrite p i = .ok () c') :
    Blocks c' pend (update β p ((β p).set i { x with status := .synced })) := by
  have hhas := (h.knows p).held i x hx
  have hlocks : (β p).Locks i := Or.inl (by rw [hx]; rfl)
  rw [Cache.bwrite, if_pos ((hr.lock i p).2 hlocks)] at hexec
  cases hexec
  refine h.content hr hlocks rfl (fun j => ⟨rfl, rfl⟩) (fun _ _ => rfl) (fun b hb => update_of_ne hb ..) rfl
    ⟨hhas.dev, hhas.blockno, hhas.valid, hhas.data, fun _ => ?_⟩ ht
  change x.data = update c.disk (c.buf i).blockno (c.buf i).data x.blockno
  rw [← hhas.blockno, update_self, hhas.data]

/-- The holder forgets what it knew about the disk. -/
theorem relax (hx : (β p).held i = some x) : Blocks c pend (update β p ((β p).set i { x with status := .safe })) := by
  have hhas := (h.knows p).held i x hx
  exact h.content hr (Or.inl (by rw [hx]; rfl)) rfl (fun _ => ⟨rfl, rfl⟩) (fun _ _ => rfl)
    (fun _ _ => rfl) rfl ⟨hhas.dev, hhas.blockno, hhas.valid, hhas.data, nofun⟩ ht

end

theorem releasesleep (hx : (β p).held i = some x) (hexec : c.releasesleep p i = .ok () c') :
    Blocks c' pend (update β p ((β p).drop i x.blockno)) := by
  rw [Cache.releasesleep] at hexec
  split at hexec
  · cases hexec
    have hhas := (h.knows p).held i x hx
    refine h.frame rfl (fun j => by simp) (fun _ _ => rfl)
      ⟨fun j y hy => ?_, fun j b' hj => ?_, (fun _ _ hj => by cases hj), fun j b' hj => ?_⟩
    · by_cases hj : j = i
      · subst hj
        simp [Bufs.drop] at hy
      · simp only [Bufs.drop, update_of_ne hj] at hy
        exact ((h.knows p).held j y hy).congr rfl (by simp)
    · cases hj
      simpa using ⟨hhas.dev, hhas.blockno⟩
    · rcases hj with hj | hj <;> cases hj
  · cases hexec

theorem bput : Blocks (c.bput p i) pend (update β p (β p).put) := by
  refine h.frame rfl (fun j => by simp [Cache.bput]) (fun _ _ => rfl)
    ⟨fun j y hy => ((h.knows p).held j y hy).congr rfl (by simp [Cache.bput]), nofun, nofun, ?_⟩
  · rintro j b' (hj | hj) <;> cases hj

end

omit [Procs P] in
/-- A new reference count, and other pending blocks. -/
theorem repin {n : Nat} (h : Blocks c pend β)
    (hpend : ∀ b ∈ pend', b ∈ pend ∨ (c.buf i).dev = ROOTDEV ∧ (c.buf i).blockno = b ∧ (c.buf i).valid) :
    Blocks (c.setBuf i ((c.buf i).setRefcnt n)) pend' β := by
  refine ⟨fun j => ?_, fun j k => ?_, fun b hb => ?_, fun q => ?_⟩
  · simpa using h.assigned j
  · simpa using h.unique j k
  · rcases hpend b hb with hb | hi
    · obtain ⟨j, hj⟩ := h.pinned b hb
      exact ⟨j, by simpa using hj⟩
    · exact ⟨i, by simpa using hi⟩
  · exact (h.knows q).congr rfl (fun _ _ _ => rfl) (fun _ _ _ => by simp) fun _ _ _ => by simp

end Blocks

/-! ### Contents -/

namespace Data

omit [Procs P] in
/-- A step that changes no content, and leaves no changed buffer behind. -/
theorem frame {β' : P → Bufs} (h : Data c pend β) (hdisk : c'.disk = c.disk) (hstored : c'.stored = c.stored)
    (hbuf : ∀ j, (c'.buf j).valid = (c.buf j).valid ∧ (c'.buf j).blockno = (c.buf j).blockno ∧
      (c'.buf j).data = (c.buf j).data) (hpend : ∀ j, (c.buf j).valid → (c.buf j).blockno ∈ pend →
      (c.buf j).blockno ∈ pend' ∨ (c.buf j).data = c.disk (c.buf j).blockno)
    (hheld : ∀ j, (c.buf j).valid → (∀ q x, (β' q).held j = some x → x.status ≠ .dirty) →
      (∀ q x, (β q).held j = some x → x.status ≠ .dirty) ∨ (c.buf j).blockno ∈ pend') :
    Data c' pend' β' := by
  refine ⟨fun j hj => ?_, fun b hb => ?_, fun j hj hclean => ?_⟩
  · obtain ⟨hvalid, hblock, hdata⟩ := hbuf j
    rw [hdata, hblock, hstored]
    exact h.cached j (hvalid ▸ hj)
  · rw [hdisk, hstored]
    refine h.uncached b fun j hj => ?_
    rw [← (hbuf j).2.1]
    exact hb j ((hbuf j).1.trans hj)
  · obtain ⟨hvalid, hblock, hdata⟩ := hbuf j
    rw [hvalid] at hj
    rw [hblock, hdata, hdisk]
    rcases hheld j hj hclean with hclean | hmem
    · rcases h.clean j hj hclean with hmem | heq
      · exact hpend j hj hmem
      · exact Or.inr heq
    · exact Or.inl hmem

theorem bget (h : Data c pend β) (hr : Refs c pend β)
    (hassigned : ∀ j, (c.buf j).valid → (c.buf j).dev = ROOTDEV) (hexec : c.bget p ROOTDEV b = .ok i c') : Data c' pend (update β p ((β p).get i b)) := by
  have hheld : ∀ q, (update β p ((β p).get i b) q).held = (β q).held := fun q =>
    apply_update_eq (f := Bufs.held) (p := p) (r := (β p).get i b) rfl q
  rw [Cache.bget] at hexec
  split at hexec
  · cases hexec
    refine h.frame rfl rfl (fun j => by simp) (fun j _ hj => Or.inl hj) fun j _ hj => Or.inl ?_
    simpa only [hheld] using hj
  · split at hexec
    · rename_i hvictim
      cases hexec
      obtain ⟨hcount, hpin⟩ := hr.unused (i := i) (by simpa using List.find?_some hvictim)
      refine ⟨fun j hj => ?_, fun b' hb => ?_, fun j hj hclean => ?_⟩
      · by_cases hji : j = i
        · subst hji
          simp at hj
        · simp only [buf_took, buf_setBuf_of_ne _ _ _ hji] at hj ⊢
          exact h.cached j hj
      · by_cases hi : (c.buf i).valid ∧ (c.buf i).blockno = b'
        · -- the content of the recycled buffer is on the disk
          obtain ⟨hvalid, rfl⟩ := hi
          have hnone : ∀ q x, (β q).held i = some x → x.status ≠ .dirty := by
            intro q x hx
            rw [Bufs.held_of_count_eq_zero (hcount q)] at hx
            cases hx
          rcases h.clean i hvalid hnone with hmem | hdisk
          · exact absurd ⟨hassigned i hvalid, hmem⟩ hpin
          · exact hdisk.symm.trans (h.cached i hvalid)
        · refine h.uncached b' fun j hj heq => ?_
          have hji : j ≠ i := by
            rintro rfl
            exact hi ⟨hj, heq⟩
          refine hb j ?_ ?_ <;> simpa [hji]
      · by_cases hji : j = i
        · subst hji
          simp at hj
        · simp only [hheld, buf_took, buf_setBuf_of_ne _ _ _ hji] at hj hclean ⊢
          exact h.clean j hj hclean
    · cases hexec

theorem acquiresleep (h : Data c pend β) (hexec : c.acquiresleep p i = .ok () c') :
    Data c' pend (update β p ((β p).lock i b)) := by
  have hheld : ∀ q, (update β p ((β p).lock i b) q).held = (β q).held := fun q =>
    apply_update_eq (f := Bufs.held) (p := p) (r := (β p).lock i b) rfl q
  rw [Cache.acquiresleep] at hexec
  split at hexec
  · cases hexec
  · cases hexec
    refine h.frame rfl rfl (fun j => by simp) (fun j _ hj => Or.inl hj) fun j _ hj => Or.inl ?_
    simpa only [hheld] using hj

section

variable (hb : Blocks c pend β)
include hb

theorem fill (h : Data c pend β) (hr : Refs c pend β) (ht : (β p).transit = .locked i b) : Data (c.fill i) pend
      (update β p ((β p).hold i ⟨b, ((c.fill i).buf i).data, .safe⟩)) := by
  obtain ⟨hdev, hblock⟩ := (hb.knows p).transit i b (by rw [ht]; rfl)
  have hlocks : (β p).Locks i := Or.inr ⟨b, ht⟩
  have hnone : ∀ q x, (β q).held i ≠ some x := by
    intro q x hx
    obtain rfl : q = p := hr.lock_unique (Or.inl (by rw [hx]; rfl)) hlocks
    rw [(hb.knows q).fresh i b ht] at hx
    cases hx
  have hclean : ∀ j, j ≠ i → (∀ q x, (update β p
      ((β p).hold i ⟨b, ((c.fill i).buf i).data, .safe⟩) q).held j = some x → x.status ≠ .dirty) →
      ∀ q x, (β q).held j = some x → x.status ≠ .dirty := by
    intro j hj hold q x hx
    refine hold q x ?_
    by_cases hq : q = p
    · subst hq
      simpa [Bufs.hold, hj] using hx
    · rwa [update_of_ne hq]
  by_cases hvalid : (c.buf i).valid
  · have hfill : c.fill i = c := if_pos hvalid
    rw [hfill] at hclean ⊢
    refine h.frame rfl rfl (fun j => ⟨rfl, rfl, rfl⟩) (fun j _ hj => Or.inl hj) fun j _ hj => Or.inl ?_
    by_cases hji : j = i
    · subst hji
      exact fun q x hx => absurd hx (hnone q x)
    · exact hclean j hji hj
  · have hfill : c.fill i = c.setBuf i ((c.buf i).fill (c.disk (c.buf i).blockno)) := if_neg hvalid
    have hother : ∀ j, (c.buf j).valid → (c.buf j).blockno ≠ (c.buf i).blockno := by
      intro j hj heq
      obtain rfl := hb.unique j i (hb.assigned j hj) hdev heq
      exact hvalid hj
    rw [hfill] at hclean ⊢
    refine ⟨fun j hj => ?_, fun b' hb' => ?_, fun j hj hclean' => ?_⟩
    · by_cases hji : j = i
      · subst hji
        simpa using h.uncached _ hother
      · simp only [buf_setBuf_of_ne _ _ _ hji] at hj ⊢
        exact h.cached j hj
    · refine h.uncached b' fun j hj => ?_
      have hji : j ≠ i := by
        rintro rfl
        exact hvalid hj
      simpa [hji] using hb' j (by simpa [hji] using hj)
    · by_cases hji : j = i
      · subst hji
        exact Or.inr (by simp)
      · simp only [buf_setBuf_of_ne _ _ _ hji] at hj ⊢
        exact h.clean j hj (hclean j hji hclean')

theorem store (h : Data c pend β) (hx : (β p).held i = some x) (d : Block) :
    Data (c.store i d) pend (update β p ((β p).set i ⟨x.blockno, d, .dirty⟩)) := by
  have hhas := (hb.knows p).held i x hx
  have hother : ∀ j, (c.buf j).valid → j ≠ i → (c.buf j).blockno ≠ (c.buf i).blockno := fun j hj hji heq =>
    hji (hb.unique j i (hb.assigned j hj) hhas.dev heq)
  refine ⟨fun j hj => ?_, fun b hb' => ?_, fun j hj hclean => ?_⟩
  · by_cases hji : j = i
    · subst hji
      simp [Cache.store]
    · simp only [Cache.store, buf_setBuf_of_ne _ _ _ hji] at hj ⊢
      rw [update_of_ne (hother j hj hji)]
      exact h.cached j hj
  · have hne : b ≠ (c.buf i).blockno := by
      rintro rfl
      exact hb' i (by simp [Cache.store, hhas.valid]) (by simp [Cache.store])
    simp only [Cache.store, update_of_ne hne]
    exact h.uncached b fun j hj => by simpa [Cache.store] using hb' j (by simpa [Cache.store] using hj)
  · by_cases hji : j = i
    · subst hji
      exact absurd rfl (hclean p ⟨x.blockno, d, .dirty⟩ (by simp [Bufs.set]))
    · simp only [Cache.store, buf_setBuf_of_ne _ _ _ hji] at hj ⊢
      refine h.clean j hj fun q y hy => hclean q y ?_
      by_cases hq : q = p
      · subst hq
        simpa [Bufs.set, hji] using hy
      · rwa [update_of_ne hq]

/-- A step of the holder of buffer `i` that leaves it equal to the disk, or pending. -/
theorem settle {x y : Held} (h : Data c pend β)
    (hx : (β p).held i = some x) (hbuf : c'.buf = c.buf) (hstored : c'.stored = c.stored)
    (hdisk : ∀ b, b ≠ (c.buf i).blockno → c'.disk b = c.disk b) (hpend : ∀ b ∈ pend, b ∈ pend')
    (hi : (c.buf i).blockno ∈ pend' ∨ (c.buf i).data = c'.disk (c.buf i).blockno) :
    Data c' pend' (update β p ((β p).set i y)) := by
  have hhas := (hb.knows p).held i x hx
  have hother : ∀ j, (c.buf j).valid → j ≠ i → (c.buf j).blockno ≠ (c.buf i).blockno := fun j hj hji heq =>
    hji (hb.unique j i (hb.assigned j hj) hhas.dev heq)
  refine ⟨fun j hj => ?_, fun b hb' => ?_, fun j hj hclean => ?_⟩
  · rw [hbuf, hstored]
    exact h.cached j (hbuf ▸ hj)
  · rw [hbuf] at hb'
    have hne : b ≠ (c.buf i).blockno := fun heq => hb' i hhas.valid heq.symm
    rw [hdisk b hne, hstored]
    exact h.uncached b hb'
  · rw [hbuf] at hj ⊢
    by_cases hji : j = i
    · subst hji
      exact hi
    · rw [hdisk _ (hother j hj hji)]
      refine (h.clean j hj fun q z hz => hclean q z ?_).imp_left (hpend _)
      by_cases hq : q = p
      · subst hq
        simpa [Bufs.set, hji] using hz
      · rwa [update_of_ne hq]

theorem bwrite {x y : Held} (h : Data c pend β) (hx : (β p).held i = some x) (hexec : c.bwrite p i = .ok () c') :
    Data c' pend (update β p ((β p).set i y)) := by
  rw [Cache.bwrite] at hexec
  split at hexec
  · cases hexec
    refine h.settle hb hx rfl rfl (fun b hne => update_of_ne hne ..) (fun _ hm => hm) (Or.inr ?_)
    simp
  · cases hexec

end

theorem releasesleep (h : Data c pend β) (hx : (β p).held i = some x) (hclean : x.status ≠ .dirty)
    (hexec : c.releasesleep p i = .ok () c') :
    Data c' pend (update β p ((β p).drop i x.blockno)) := by
  rw [Cache.releasesleep] at hexec
  split at hexec
  · cases hexec
    refine h.frame rfl rfl (fun j => by simp) (fun j _ hj => Or.inl hj) fun j _ hj => Or.inl ?_
    intro q y hy
    by_cases hq : q = p
    · subst hq
      by_cases hji : j = i
      · subst hji
        rw [hx] at hy
        cases hy
        exact hclean
      · exact hj q y (by simpa [Bufs.drop, hji] using hy)
    · exact hj q y (by rwa [update_of_ne hq])
  · cases hexec

theorem bput (h : Data c pend β) : Data (c.bput p i) pend (update β p (β p).put) := by
  refine h.frame rfl rfl (fun j => by simp [Cache.bput]) (fun j _ hj => Or.inl hj) fun j _ hj => Or.inl ?_
  intro q y hy
  refine hj q y ?_
  rw [apply_update_eq (f := Bufs.held) (p := p) (r := (β p).put) rfl q]
  exact hy

omit [Procs P] in
theorem repin {n : Nat} (h : Data c pend β) (hpend : ∀ j, (c.buf j).valid → (c.buf j).blockno ∈ pend →
      (c.buf j).blockno ∈ pend' ∨ (c.buf j).data = c.disk (c.buf j).blockno) :
    Data (c.setBuf i ((c.buf i).setRefcnt n)) pend' β :=
  h.frame rfl rfl (fun j => by simp) hpend fun _ _ hj => Or.inl hj

end Data

end Cache

end Xv6
