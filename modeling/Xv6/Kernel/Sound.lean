import Xv6.Kernel.Logic

/-! Every section of `bio.c` and `log.c` keeps the invariant of the machine. The sections on the cache
and those on the log change one half each of what a process has; `log_write` and the end of an
installation change both. -/

namespace Xv6

open Lib Function Outcome Option

namespace Kernel

variable {P X : Type} [Procs P] {E : Sig} {R : Rules}
variable {s s' : Kernel P X} {ρ : P → Res} {p : P}

theorem bufs_update (ρ : P → Res) (p : P) (r : Res) :
    (fun q => (update ρ p r q).bufs) = update (fun q => (ρ q).bufs) p r.bufs :=
  funext fun q => apply_update (fun _ => Res.bufs) ρ p r q

theorem log_update (ρ : P → Res) (p : P) (r : Res) :
    (fun q => (update ρ p r q).log) = update (fun q => (ρ q).log) p r.log :=
  funext fun q => apply_update (fun _ => Res.log) ρ p r q

namespace Inv

theorem inOp_update {r : Res} (h : Inv R s ρ)
    (hr : R.inOp → r.log.op = none → r.log.role = .client → ∀ i, r.bufs.count i = 0) :
    R.inOp → ∀ q, (update ρ p r q).log.op = none →
      (update ρ p r q).log.role = .client → ∀ i, (update ρ p r q).bufs.count i = 0 :=
  fun hR => forall_update (A := fun _ (r : Res) => r.log.op = none → r.log.role = .client →
    ∀ i, r.bufs.count i = 0) (hr hR) fun q _ => h.inOp hR q

/-- A step of a process on the cache. -/
theorem onCache {c : Cache P} {r : Bufs} (h : Inv R s ρ)
    (hrefs : c.Refs s.log.pending (update (fun q => (ρ q).bufs) p r))
    (hblocks : c.Blocks s.log.pending (update (fun q => (ρ q).bufs) p r))
    (hdata : R.tracked → c.Data s.log.pending (update (fun q => (ρ q).bufs) p r))
    (hkeeps : R.tracked → ∀ b, R.keeps b (c.stored b))
    (hcount : R.inOp → (ρ p).log.op = none → (ρ p).log.role = .client → ∀ i, r.count i = 0) :
    Inv R { s with cache := c } (update ρ p { ρ p with bufs := r }) := by
  have hlog : (fun q => (update ρ p { ρ p with bufs := r } q).log) = fun q => (ρ q).log := by
    rw [log_update]
    exact update_eq_self ..
  refine ⟨?_, ?_, ?_, hkeeps, hlog ▸ h.log, h.history, h.inOp_update hcount⟩
  · rw [bufs_update]
    exact hrefs
  · rw [bufs_update]
    exact hblocks
  · rw [bufs_update]
    exact hdata

theorem count_of_eq {r : Bufs} (h : Inv R s ρ) (hr : ∀ i, r.count i = (ρ p).bufs.count i) :
    R.inOp → (ρ p).log.op = none → (ρ p).log.role = .client → ∀ i, r.count i = 0 :=
  fun hR hop hrole i => (hr i).trans (h.inOp hR p hop hrole i)

/-- A step of a process on the log. -/
theorem onLog {l : LogState P} {r : LogPart} (h : Inv R s ρ)
    (hlog : l.Inv R (update (fun q => (ρ q).log) p r)) (hhist : l.History) (hpend : l.pending = s.log.pending)
    (hcount : R.inOp → r.op = none → r.role = .client → ∀ i, (ρ p).bufs.count i = 0) :
    Inv R { s with log := l } (update ρ p { ρ p with log := r }) := by
  have hbufs : (fun q => (update ρ p { ρ p with log := r } q).bufs) = fun q => (ρ q).bufs := by
    rw [bufs_update]
    exact update_eq_self ..
  refine ⟨?_, ?_, ?_, h.keeps, ?_, hhist, h.inOp_update hcount⟩
  · rw [hbufs, hpend]
    exact h.refs
  · rw [hbufs, hpend]
    exact h.blocks
  · rw [hbufs, hpend]
    exact h.data
  · rw [log_update]
    exact hlog

variable {i : Fin NBUF}

variable (h : Inv R s ρ)
include h

theorem bget {dev b : Nat} (hpre : (sections R E).pre (ρ p) (.bget dev b))
    (hexec : s.onCache (Cache.bget p dev b) = .ok i s') :
    ∃ r, (sections R E).post (ρ p) (.bget dev b) i r ∧ Inv R s' (update ρ p r) := by
  obtain ⟨rfl, ht, hget⟩ := hpre
  obtain ⟨c, hc, rfl⟩ := mapState_eq_ok.1 hexec
  have hpend := h.blocks.not_mem_of_lookup_none (b := b) h.refs.lru
  refine ⟨_, rfl, h.onCache (h.refs.bget ht hpend hc) (h.blocks.bget h.refs hc)
    (fun hR => (h.data hR).bget h.refs h.blocks.assigned hc)
    (fun hR => Cache.stored_bget hc ▸ h.keeps hR) fun hR hop hrole => ?_⟩
  have hmay := hget hR
  rw [Res.MayGet, hrole, hop] at hmay
  cases hmay

theorem acquiresleep (hpre : (sections R E).pre (ρ p) (.acquiresleep i))
    (hexec : s.onCache (Cache.acquiresleep p i) = .ok () s') :
    ∃ r, (sections R E).post (ρ p) (.acquiresleep i) () r ∧ Inv R s' (update ρ p r) := by
  obtain ⟨b, ht⟩ := hpre
  obtain ⟨c, hc, rfl⟩ := mapState_eq_ok.1 hexec
  exact ⟨_, ⟨b, ht, rfl⟩, h.onCache (h.refs.acquiresleep ht hc) (h.blocks.acquiresleep h.refs ht hc)
    (fun hR => (h.data hR).acquiresleep hc) (fun hR => Cache.stored_acquiresleep hc ▸ h.keeps hR)
    (h.count_of_eq fun _ => Bufs.count_lock ht)⟩

theorem fill (hpre : (sections R E).pre (ρ p) (.fill i)) : ∃ r, (sections R E).post (ρ p) (.fill i) () r ∧
      Inv R { s with cache := s.cache.fill i } (update ρ p r) := by
  obtain ⟨b, ht⟩ := hpre
  have hknows := h.blocks.knows p
  have hfresh := hknows.fresh i b ht
  have hblocks := h.blocks.fill h.refs ht
  have hdata := fun hR => (h.data hR).fill h.blocks h.refs ht
  have hkeeps : R.tracked → ∀ b, R.keeps b ((s.cache.fill i).stored b) := fun hR =>
    Cache.stored_fill s.cache i ▸ h.keeps hR
  refine ⟨_, ⟨b, ((s.cache.fill i).buf i).data, ht, hfresh, fun hR => ?_, rfl⟩,
    h.onCache (h.refs.fill ht hfresh) hblocks hdata hkeeps (h.count_of_eq fun _ => Bufs.count_hold ht hfresh)⟩
  -- the content read is the content last stored
  have hhas := (hblocks.knows p).held i ⟨b, ((s.cache.fill i).buf i).data, .safe⟩ (by simp [Bufs.hold])
  rw [(hdata hR).cached i hhas.valid, hhas.blockno]
  exact hkeeps hR b

theorem readData (hpre : (sections R E).pre (ρ p) (.data i)) :
    (sections R E).post (ρ p) (.data i) (s.cache.buf i).data (ρ p) := by
  obtain ⟨x, hx⟩ := isSome_iff_exists.1 hpre
  exact ⟨rfl, x, hx, ((h.blocks.knows p).held i x hx).data⟩

theorem store {d : Block} {x : Held} (ht : (ρ p).bufs.transit = .none)
    (hx : (ρ p).bufs.held i = some x) (hkeeps : R.keeps x.blockno d) :
    Inv R { s with cache := s.cache.store i d }
      (update ρ p { ρ p with bufs := (ρ p).bufs.set i ⟨x.blockno, d, .dirty⟩ }) := by
  have hhas := (h.blocks.knows p).held i x hx
  have hsome : ((ρ p).bufs.held i).isSome := by rw [hx]; rfl
  refine h.onCache (h.refs.store hsome) (h.blocks.store h.refs ht hx d)
    (fun hR => (h.data hR).store h.blocks hx d) (fun hR b => ?_)
    (h.count_of_eq fun _ => Bufs.count_set hsome)
  by_cases hb : b = x.blockno
  · subst hb
    simpa [Cache.store, hhas.blockno] using hkeeps
  · simpa [Cache.store, hhas.blockno, hb] using h.keeps hR b

theorem store_self {x : Held} (hx : (ρ p).bufs.held i = some x) :
    Inv R { s with cache := s.cache.store i (s.cache.buf i).data } ρ := by
  have hhas := (h.blocks.knows p).held i x hx
  have hsame : R.tracked → update s.cache.stored (s.cache.buf i).blockno (s.cache.buf i).data =
      s.cache.stored := fun hR => by
    rw [(h.data hR).cached i hhas.valid, update_eq_self]
  rw [Cache.store_self]
  refine ⟨⟨h.refs.lru, h.refs.lock, h.refs.refs, h.refs.refcnt⟩, ⟨h.blocks.assigned, h.blocks.unique,
    h.blocks.pinned, fun q => ?_⟩, fun hR => ?_, fun hR => ?_, h.log, h.history, h.inOp⟩
  · exact (h.blocks.knows q).congr rfl (fun _ _ _ => rfl) (fun _ _ _ => ⟨rfl, rfl, rfl, rfl⟩) fun _ _ _ => ⟨rfl, rfl⟩
  · rw [hsame hR]
    exact h.data hR
  · simp only [hsame hR]
    exact h.keeps hR

theorem bwrite (hpre : (sections R E).pre (ρ p) (.bwrite i)) (hexec : s.onCache (Cache.bwrite p i) = .ok () s') :
    ∃ r, (sections R E).post (ρ p) (.bwrite i) () r ∧ Inv R s' (update ρ p r) := by
  obtain ⟨ht, hsome⟩ := hpre
  obtain ⟨x, hx⟩ := isSome_iff_exists.1 hsome
  obtain ⟨c, hc, rfl⟩ := mapState_eq_ok.1 hexec
  exact ⟨_, ⟨x, hx, rfl⟩, h.onCache (h.refs.bwrite hsome hc) (h.blocks.bwrite h.refs ht hx hc)
    (fun hR => (h.data hR).bwrite h.blocks hx hc) (fun hR => Cache.stored_bwrite hc ▸ h.keeps hR)
    (h.count_of_eq fun _ => Bufs.count_set hsome)⟩

theorem releasesleep (hpre : (sections R E).pre (ρ p) (.releasesleep i))
    (hexec : s.onCache (Cache.releasesleep p i) = .ok () s') :
    ∃ r, (sections R E).post (ρ p) (.releasesleep i) () r ∧ Inv R s' (update ρ p r) := by
  obtain ⟨ht, x, hx, hclean⟩ := hpre
  obtain ⟨c, hc, rfl⟩ := mapState_eq_ok.1 hexec
  have hsome : ((ρ p).bufs.held i).isSome := by rw [hx]; rfl
  exact ⟨_, ⟨x, hx, rfl⟩, h.onCache (h.refs.releasesleep ht hsome hc) (h.blocks.releasesleep hx hc)
    (fun hR => (h.data hR).releasesleep hx (hclean hR) hc)
    (fun hR => Cache.stored_releasesleep hc ▸ h.keeps hR)
    (h.count_of_eq fun _ => Bufs.count_drop ht hsome)⟩

theorem bput (hpre : (sections R E).pre (ρ p) (.bput i)) : Inv R { s with cache := s.cache.bput p i }
      (update ρ p { ρ p with bufs := (ρ p).bufs.put }) := by
  obtain ⟨b, ht⟩ := hpre
  refine h.onCache (h.refs.bput ht) h.blocks.bput (fun hR => (h.data hR).bput) h.keeps fun hR hop hrole j => ?_
  have hput := Bufs.count_put (j := j) ht
  have hzero := h.inOp hR p hop hrole j
  omega

theorem copyin {off n : Nat} {src : Src} {d : Block} (hpre : (sections R E).pre (ρ p) (.copyin i off src n))
    (hguard : R.guarded → s.Guard p (.copyin i off src n : PrimOp E))
    (hd : d = (s.cache.buf i).data.copy off (eitherCopyin src n).1) :
    ∃ r, (sections R E).post (ρ p) (.copyin i off src n) (eitherCopyin src n).2 r ∧
      Inv R { s with cache := s.cache.store i d } (update ρ p r) := by
  obtain ⟨ht, x, hx, hkeeps⟩ := hpre
  by_cases hfail : R.guarded ∧ (eitherCopyin src n).2 = false
  · refine ⟨ρ p, Or.inl ⟨hfail.1, hfail.2, rfl⟩, ?_⟩
    rw [update_eq_self, hd, hguard hfail.1 hfail.2]
    exact h.store_self hx
  · refine ⟨_, Or.inr ⟨fun hR => ?_, x, _, hx, rfl⟩, h.store ht hx (hkeeps _)⟩
    exact Bool.eq_true_of_not_eq_false fun hf => hfail ⟨hR, hf⟩

theorem bunpin (hpre : (sections R E).pre (ρ p) (.bunpin i)) : ∃ r, (sections R E).post (ρ p) (.bunpin i) () r ∧
      Inv R { s with cache := s.cache.bunpin i, log := s.log.unpin } (update ρ p r) := by
  obtain ⟨x, lh, k, hx, hsync, hlog, hget⟩ := hpre
  obtain ⟨hlt, hget⟩ := List.getElem?_eq_some_iff.1 hget
  have hhas := (h.blocks.knows p).held i x hx
  have hrole : (ρ p).log.role = .commit lh k := by rw [hlog]
  have hpend := h.log.pending_commit hrole
  have hinv := h.log.unpin hlog hlt
  have hpend' : s.log.unpin.pending = lh.drop (k + 1) :=
    hinv.pending_commit (p := p) (by rw [update_self])
  -- the block leaves the pending ones
  have hcons : s.log.pending = x.blockno :: s.log.unpin.pending := by
    rw [hpend, hpend', ← hget]
    exact List.drop_eq_getElem_cons hlt
  have hnot : x.blockno ∉ s.log.unpin.pending := by
    have hnodup : s.log.pending.Nodup := (List.drop_sublist ..).nodup h.log.nodup
    rw [hcons] at hnodup
    exact (List.nodup_cons.1 hnodup).1
  have huniq : ∀ j, (s.cache.buf j).dev = ROOTDEV → (s.cache.buf j).blockno = x.blockno → j = i :=
    fun j hdev hblock => h.blocks.unique j i hdev hhas.dev (hblock.trans hhas.blockno.symm)
  have hbufs : (fun q => (update ρ p
      { ρ p with log := ⟨none, none, .commit lh (k + 1)⟩ } q).bufs) = fun q => (ρ q).bufs := by
    rw [bufs_update]
    exact update_eq_self ..
  refine ⟨_, ⟨lh, k, hlog, rfl⟩, ?_, ?_, fun hR => ?_, h.keeps, ?_, h.history.congr rfl rfl rfl rfl rfl,
    h.inOp_update nofun⟩
  · rw [hbufs]
    exact Cache.Refs.bunpin hnot hhas.dev hhas.blockno huniq (hcons ▸ h.refs)
  · rw [hbufs]
    exact h.blocks.repin fun b hb => Or.inl (hcons ▸ List.mem_cons_of_mem _ hb)
  · rw [hbufs]
    refine (h.data hR).repin fun j hj hmem => ?_
    by_cases hji : j = i
    · subst hji
      right
      rw [hhas.data, hhas.blockno]
      exact hhas.synced hsync
    · left
      rw [hcons] at hmem
      refine (List.mem_cons.1 hmem).resolve_left fun heq => hji (huniq j ?_ heq)
      exact h.blocks.assigned j hj
  · rw [log_update]
    exact hinv

theorem logCheck {size : Nat} (hpre : (sections R E).pre (ρ p) (.logCheck i))
    (hguard : R.guarded → s.Guard p (.logCheck i : PrimOp E))
    (hexec : s.onLog (LogState.check size (s.cache.buf i).blockno) = .ok () s') :
    ∃ r, (sections R E).post (ρ p) (.logCheck i) () r ∧ Inv R s' (update ρ p r) := by
  obtain ⟨hsome, hop⟩ := hpre
  obtain ⟨x, hx⟩ := isSome_iff_exists.1 hsome
  obtain ⟨l, hl, rfl⟩ := mapState_eq_ok.1 hexec
  have hrun := (h.log.knows p).running
  obtain ⟨S, hS⟩ : ∃ S, (ρ p).log.op = some S := isSome_iff_exists.1 <| by
    rcases hop with hR | hop
    · exact hrun ▸ hguard hR
    · exact hop
  rw [((h.blocks.knows p).held i x hx).blockno] at hl
  have hpend : l.pending = s.log.pending := by
    obtain ⟨l', hl', rfl⟩ := mapState_eq_ok.1 hl
    rw [Log.check] at hl'
    split_ifs at hl'
    cases hl'
    rfl
  refine ⟨_, ⟨x, S, hx, hS, rfl⟩, h.onLog (h.log.check hS hl) (h.history.check hl) hpend fun hR hop => ?_⟩
  rw [LogPart.name, hS] at hop
  cases hop

theorem logAppend (hpre : (sections R E).pre (ρ p) (.logAppend i)) (hexec : s.logAppend p i = .ok () s') :
    ∃ r, (sections R E).post (ρ p) (.logAppend i) () r ∧ Inv R s' (update ρ p r) := by
  obtain ⟨ht, x, S, hx, hS, hchk, hsmall⟩ := hpre
  have hhas := (h.blocks.knows p).held i x hx
  have hsome : ((ρ p).bufs.held i).isSome := by rw [hx]; rfl
  rw [Kernel.logAppend, hhas.blockno] at hexec
  split at hexec
  · rename_i new l hl
    cases hexec
    have hpend := h.log.pending_append hS hl
    have hlog := h.log.append hS hchk hsmall hl
    have hrefs : s.cache.Refs s.log.pending (update (fun q => (ρ q).bufs) p
        ((ρ p).bufs.set i ⟨x.blockno, x.data, .safe⟩)) :=
      h.refs.congr rfl rfl (fun _ => ⟨rfl, rfl, rfl, rfl⟩) (fun _ => Bufs.locks_set hsome) fun _ =>
        Bufs.count_set hsome
    have hblocks := h.blocks.relax h.refs ht hx
    refine ⟨_, ⟨x, S, hx, hS, rfl⟩, ?_⟩
    have hinOp := h.inOp_update (p := p)
      (r := ⟨(ρ p).bufs.set i ⟨x.blockno, x.data, .safe⟩, (ρ p).log.log (insert x.blockno S)⟩) nofun
    cases new with
    | false =>
      obtain ⟨hmem, hsame⟩ := hpend
      refine ⟨?_, ?_, fun hR => ?_, h.keeps, ?_, h.history.append hl, hinOp⟩
      · rw [bufs_update]
        simp only [hsame, Bool.false_eq_true, if_false]
        exact hrefs
      · rw [bufs_update]
        simp only [hsame, Bool.false_eq_true, if_false]
        exact hblocks
      · rw [bufs_update]
        simp only [hsame]
        exact (h.data hR).settle h.blocks hx rfl rfl (fun _ _ => rfl) (fun _ hb => hb) (Or.inl (hhas.blockno ▸ hmem))
      · rw [log_update]
        exact hlog
    | true =>
      obtain ⟨hnot, hsame⟩ := hpend
      have huniq : ∀ j, (s.cache.buf j).dev = ROOTDEV → (s.cache.buf j).blockno = x.blockno → j = i :=
        fun j hdev hblock => h.blocks.unique j i hdev hhas.dev (hblock.trans hhas.blockno.symm)
      refine ⟨?_, ?_, fun hR => ?_, h.keeps, ?_, h.history.append hl, hinOp⟩
      · rw [bufs_update]
        simp only [hsame]
        exact hrefs.bpin hnot hhas.dev hhas.blockno huniq
      · rw [bufs_update]
        simp only [hsame]
        refine hblocks.repin fun b hb => ?_
        rcases List.mem_append.1 hb with hb | hb
        · exact Or.inl hb
        · exact Or.inr ⟨hhas.dev, hhas.blockno.trans (List.mem_singleton.1 hb).symm, hhas.valid⟩
      · rw [bufs_update]
        simp only [hsame]
        have hdata : s.cache.Data (s.log.pending ++ [x.blockno]) (update
            (fun q => (ρ q).bufs) p ((ρ p).bufs.set i ⟨x.blockno, x.data, .safe⟩)) :=
          (h.data hR).settle h.blocks hx rfl rfl (fun _ _ => rfl)
            (fun _ hb => List.mem_append_left _ hb) (Or.inl (by simp [hhas.blockno]))
        exact hdata.repin fun _ _ hmem => Or.inl hmem
      · rw [log_update]
        exact hlog
  · cases hexec
  · cases hexec

theorem logEnter (hpre : (sections R E).pre (ρ p) .logEnter) (hexec : s.onLog (LogState.enter p) = .ok () s') :
    Inv R s' (update ρ p { ρ p with log := ⟨some ∅, none, .client⟩ }) := by
  obtain ⟨hR, hidle⟩ := hpre
  obtain ⟨l, hl, rfl⟩ := mapState_eq_ok.1 hexec
  refine h.onLog (h.log.enter hidle hR hl) (h.history.enter hl) ?_ nofun
  obtain ⟨l', hl', rfl⟩ := mapState_eq_ok.1 hl
  rw [Log.enter] at hl'
  split_ifs at hl'
  cases hl'
  rfl

theorem logLeave {doCommit : Bool} (hpre : (sections R E).pre (ρ p) .logLeave)
    (hexec : s.onLog (LogState.leave p) = .ok doCommit s') :
    ∃ r, (sections R E).post (ρ p) .logLeave doCommit r ∧ Inv R s' (update ρ p r) := by
  obtain ⟨hop, hempty⟩ := hpre
  obtain ⟨S, hS⟩ := isSome_iff_exists.1 hop
  obtain ⟨l, hl, rfl⟩ := mapState_eq_ok.1 hexec
  obtain ⟨hlog, hhead, hinst⟩ := h.log.leave hS hl
  have hpend : l.pending = s.log.pending := by rw [LogState.pending, LogState.pending, hhead, hinst]
  have hhist := h.history.leave hl
  cases doCommit with
  | false => exact ⟨_, Or.inl ⟨rfl, rfl⟩, h.onLog hlog hhist hpend fun hR _ _ => hempty hR⟩
  | true => exact ⟨_, Or.inr ⟨rfl, s.log.log.head, h.log.length, rfl⟩, h.onLog hlog hhist hpend fun _ _ h => by cases h⟩

theorem logDone (hpre : (sections R E).pre (ρ p) .logDone) (hexec : s.onLog LogState.done = .ok () s') :
    Inv R s' (update ρ p { ρ p with log := LogPart.idle }) := by
  obtain ⟨hlog, hempty⟩ := hpre
  obtain ⟨l, hl, rfl⟩ := mapState_eq_ok.1 hexec
  refine h.onLog (h.log.done hlog hl) (h.history.done hl) ?_ fun hR _ _ => hempty hR
  obtain ⟨l', hl', rfl⟩ := mapState_eq_ok.1 hl
  cases hl'
  rfl

theorem getHead : (sections R E).post (ρ p) .getHead s.log.log.head (ρ p) :=
  ⟨rfl, fun lh k hk => ((h.log.knows p).commit lh k hk).2.1, fun hb => ((h.log.knows p).boot hb).2.2⟩

theorem setHead {blocks : List Nat} (hpre : (sections R E).pre (ρ p) (.setHead blocks))
    (hexec : s.onLog (LogState.setHead blocks) = .ok () s') :
    ∃ r, (sections R E).post (ρ p) (.setHead blocks) () r ∧ Inv R s' (update ρ p r) := by
  obtain ⟨rfl, hlog⟩ := hpre
  obtain ⟨l, hl, rfl⟩ := mapState_eq_ok.1 hexec
  have hrole : (ρ p).log.role ≠ .client := by
    rcases hlog with ⟨lh, hlog⟩ | hlog <;> rw [hlog] <;> simp
  have hnone : ∀ q, s.log.op q = none := by
    intro q
    have := (h.log.knows q).running
    rw [(h.log.owner p hrole q).1] at this
    exact not_isSome_iff_eq_none.1 (by simp [this])
  have hhist := h.history.setHead hnone hl
  have hempty : l.pending = [] := by
    obtain ⟨l', hl', rfl⟩ := mapState_eq_ok.1 hl
    rw [Log.setHead, if_pos (by simp)] at hl'
    cases hl'
    rfl
  refine ⟨_, rfl, ?_⟩
  rcases hlog with ⟨lh, hlog⟩ | hlog
  · have hpend : s.log.pending = lh.drop lh.length := h.log.pending_commit (p := p) (by rw [hlog])
    rw [List.drop_length] at hpend
    rw [hlog]
    exact h.onLog (h.log.setHead (Or.inl ⟨lh, hlog, rfl⟩) hl) hhist (hempty.trans hpend.symm) fun _ _ h => by cases h
  · have hpend := h.log.pending_boot (p := p) (by rw [hlog])
    rw [hlog]
    exact h.onLog (h.log.setHead (Or.inr ⟨hlog, rfl⟩) hl) hhist (hempty.trans hpend.symm) fun _ _ h => by cases h

theorem onExt {x : X} : Inv R { s with ext := x } ρ :=
  ⟨h.refs, h.blocks, h.data, h.keeps, h.log, h.history, h.inOp⟩

end Inv

/-- Every section that meets its precondition keeps the invariant. -/
theorem sound (size : Nat) (ext : P → (e : E.Op) → X → Outcome X (E.Ret e))
    {cond : Kernel P X → P → PrimOp E → Prop} (hcond : R.guarded → ∀ s p o, cond s p o → s.Guard p o) :
    (machine size ext).Sound (sections R E) cond (Inv R) := by
  intro s ρ p o r s' h hpre hc hexec
  have hguard := fun hR => hcond hR s p o hc
  cases o with
  | bget dev b => exact h.bget hpre hexec
  | acquiresleep i => exact h.acquiresleep hpre hexec
  | fill i =>
    cases hexec
    exact h.fill hpre
  | data i =>
    cases hexec
    exact ⟨ρ p, h.readData hpre, by rwa [update_eq_self]⟩
  | store i d =>
    cases hexec
    obtain ⟨ht, x, hx, hkeeps⟩ := hpre
    exact ⟨_, ⟨x, hx, rfl⟩, h.store ht hx hkeeps⟩
  | copyin i off src n =>
    cases hexec
    exact h.copyin hpre hguard rfl
  | bwrite i => exact h.bwrite hpre hexec
  | releasesleep i => exact h.releasesleep hpre hexec
  | bput i =>
    cases hexec
    exact ⟨_, rfl, h.bput hpre⟩
  | bunpin i =>
    cases hexec
    exact h.bunpin hpre
  | logCheck i => exact h.logCheck hpre hguard hexec
  | logAppend i => exact h.logAppend hpre hexec
  | logEnter => exact ⟨_, rfl, h.logEnter hpre hexec⟩
  | logLeave => exact h.logLeave hpre hexec
  | logDone => exact ⟨_, rfl, h.logDone hpre hexec⟩
  | getHead =>
    cases hexec
    exact ⟨ρ p, h.getHead, by rwa [update_eq_self]⟩
  | setHead blocks => exact h.setHead hpre hexec
  | ext e =>
    obtain ⟨x, hx, rfl⟩ := mapState_eq_ok.1 hexec
    exact ⟨ρ p, rfl, by rw [update_eq_self]; exact h.onExt⟩

end Kernel

end Xv6
