import Xv6.Fs.Tracked
import Xv6.Fs.Logical

/-! The kernel refines the file system on its logical disk, which has in every block the content last stored there; a block
belongs to the process that has locked its buffer. Every section of `bio.c` and `log.c` is a call on the logical disk,
with the same answer, or changes nothing there. The calls that `log.c` makes to commit are among them. -/

namespace Xv6

open Lib Function Outcome Relation

/-- What a buffer caches, and who has locked it. -/
def Buf.key {P : Type} (b : Buf P) : Nat × Nat × Option P := (b.dev, b.blockno, b.lock)

theorem Buf.key_setRefcnt {P : Type} (b : Buf P) (n : Nat) : (b.setRefcnt n).key = b.key := rfl

theorem Cache.key_setBuf {P : Type} {c : Cache P} {i : Fin NBUF} {b : Buf P} (h : b.key = (c.buf i).key) (j : Fin NBUF) :
    ((c.setBuf i b).buf j).key = (c.buf j).key := apply_update_eq h j

namespace Kernel

variable {P X : Type} {F : Sig} {more : P → (f : F.Op) → X → Outcome X (F.Ret f)} {R : Rules} {ρ : P → Res}
  {k k' : Kernel P (ICache P × X)} {s t : FsState P X} {p : P} {i : Fin NBUF}

/-- The logical disk of the kernel. -/
structure Shows (k : Kernel P (ICache P × X)) (s : FsState P X) : Prop where
  disk : s.disk = k.cache.stored
  owner : ∀ i, (k.cache.buf i).dev = ROOTDEV → s.owner (k.cache.buf i).blockno = (k.cache.buf i).lock
  free : ∀ b, (∀ i, (k.cache.buf i).dev = ROOTDEV → (k.cache.buf i).blockno ≠ b) → s.owner b = none
  op : ∀ p, s.op p = (k.log.op p).isSome
  ext : (s.icache, s.ext) = k.ext

/-- The call that a section is, with the answers of both. `bread` has its block when it has the sleep lock. -/
inductive Makes (c : Cache P) : (o : PrimOp (FsSig F)) → (Prim (FsSig F)).Ret o →
    (o' : ClientOp Nat (FsSig F)) → (Client Nat (FsSig F)).Ret o' → Prop where
  | bread (i : Fin NBUF) : Makes c (.acquiresleep i) () (.bread ROOTDEV (c.buf i).blockno) (c.buf i).blockno
  | bdata (i : Fin NBUF) (d : Block) : Makes c (.data i) d (.bdata (c.buf i).blockno) d
  | bstore (i : Fin NBUF) (d : Block) : Makes c (.store i d) () (.bstore (c.buf i).blockno d) ()
  | bcopyin (i : Fin NBUF) (off : Nat) (src : Src) (n : Nat) (ok : Bool) :
      Makes c (.copyin i off src n) ok (.bcopyin (c.buf i).blockno off src n) ok
  | bwrite (i : Fin NBUF) : Makes c (.bwrite i) () (.bwrite (c.buf i).blockno) ()
  | brelse (i : Fin NBUF) : Makes c (.releasesleep i) () (.brelse (c.buf i).blockno) ()
  | beginOp : Makes c .logEnter () .beginOp ()
  | endOp (doCommit : Bool) : Makes c .logLeave doCommit .endOp ()
  | logWrite (i : Fin NBUF) : Makes c (.logAppend i) () (.logWrite (c.buf i).blockno) ()
  | ext (e : (FsSig F).Op) (r : (FsSig F).Ret e) : Makes c (.ext e) r (.ext e) r

namespace Shows

variable (h : Shows k s)
include h

/-- Every buffer keeps its block and its lock. -/
theorem frame (hkey : ∀ i, (k'.cache.buf i).key = (k.cache.buf i).key) (hdisk : t.disk = k'.cache.stored)
    (howner : t.owner = s.owner) (hop : ∀ p, t.op p = (k'.log.op p).isSome) (hext : (t.icache, t.ext) = k'.ext) :
    Shows k' t := by
  simp only [Buf.key, Prod.mk.injEq] at hkey
  refine ⟨hdisk, fun i hdev => ?_, fun b hb => ?_, hop, hext⟩
  · rw [howner, (hkey i).2.1, (hkey i).2.2]
    exact h.owner i ((hkey i).1 ▸ hdev)
  · rw [howner]
    exact h.free b fun i hdev => (hkey i).2.1 ▸ hb i ((hkey i).1.trans hdev)

theorem op_update [DecidableEq P] (p : P) (v : Option Nat) (q : P) :
    update s.op p v.isSome q = (update k.log.op p v q).isSome := by
  by_cases hq : q = p
  · rw [hq, update_self, update_self]
  · rw [update_of_ne hq, update_of_ne hq, h.op]

theorem store (d : Block) : Shows { k with cache := k.cache.store i d } (s.setDisk (k.cache.buf i).blockno d) := by
  refine h.frame (fun j => Cache.key_setBuf (by rfl) j) ?_ rfl h.op h.ext
  show update s.disk _ d = update k.cache.stored _ d
  rw [h.disk]

variable [Procs P] (hinv : k.Inv R ρ)
include hinv

theorem setLock (hdev : (k.cache.buf i).dev = ROOTDEV) (l : Option P) :
    Shows { k with cache := k.cache.setBuf i ((k.cache.buf i).setLock l) } (s.setOwner (k.cache.buf i).blockno l) := by
  refine ⟨h.disk, fun j hj => ?_, fun b hb => ?_, h.op, h.ext⟩
  · rw [Cache.dev_setBuf j (by rfl)] at hj
    rw [Cache.blockno_setBuf j (by rfl)]
    show update s.owner _ l _ = _
    by_cases hji : j = i
    · rw [hji, update_self, Cache.buf_setBuf_self]
      rfl
    · rw [update_of_ne fun heq => hji (hinv.blocks.unique j i hj hdev heq), Cache.buf_setBuf_of_ne _ _ _ hji]
      exact h.owner j hj
  · have hb' : ∀ j, (k.cache.buf j).dev = ROOTDEV → (k.cache.buf j).blockno ≠ b := fun j hj => by
      rw [← Cache.blockno_setBuf (b := (k.cache.buf i).setLock l) j (by rfl)]
      exact hb j (by rw [Cache.dev_setBuf j (by rfl)]; exact hj)
    exact (update_of_ne (hb' i hdev).symm ..).trans (h.free b hb')

theorem bget {b : Nat} {c : Cache P} (hbget : k.cache.bget p ROOTDEV b = .ok i c) : Shows { k with cache := c } s := by
  have hstored := Cache.stored_bget hbget
  rw [Cache.bget] at hbget
  split at hbget
  · cases hbget
    exact h.frame (fun j => Cache.key_setBuf (by rfl) j) h.disk rfl h.op h.ext
  rename_i hmiss
  split at hbget <;> cases hbget
  rename_i hvictim
  -- nobody has the buffer that is recycled
  have hcount := (hinv.refs.unused (i := i) (by simpa using List.find?_some hvictim)).1
  have hnone : (k.cache.buf i).lock = none := by
    refine Option.eq_none_iff_forall_ne_some.2 fun q hq => ?_
    rcases (hinv.refs.lock i q).1 hq with hheld | ⟨b, htransit⟩
    · rw [Bufs.held_of_count_eq_zero (hcount q)] at hheld
      cases hheld
    · exact Bufs.transit_of_count_eq_zero (hcount q) (by rw [htransit]; rfl)
  have hfree := h.free b fun j => Cache.lookup_none hinv.refs.lru hmiss
  refine ⟨h.disk, fun j hj => ?_, fun b' hb => ?_, h.op, h.ext⟩
  · rw [Cache.buf_took] at hj ⊢
    by_cases hji : j = i
    · rw [hji, Cache.buf_setBuf_self]
      exact hfree.trans hnone.symm
    · rw [Cache.buf_setBuf_of_ne _ _ _ hji] at hj ⊢
      exact h.owner j hj
  · by_cases hold : (k.cache.buf i).dev = ROOTDEV ∧ (k.cache.buf i).blockno = b'
    · rw [← hold.2, h.owner i hold.1, hnone]
    · refine h.free b' fun j hj heq => ?_
      have hji : j ≠ i := by
        rintro rfl
        exact hold ⟨hj, heq⟩
      have hsame := hb j
      rw [Cache.buf_took, Cache.buf_setBuf_of_ne _ _ _ hji] at hsame
      exact hsame hj heq

/-- One section. -/
theorem step (hR : R.tracked) {size : Nat} {o : PrimOp (FsSig F)}
    (hpre : (sections R (FsSig F)).pre (ρ p) o) {r : (Prim (FsSig F)).Ret o}
    (hexec : exec size (FsOp.exec more) p o k = .ok r k') :
    Shows k' s ∨ ∃ o' r' t, Makes k.cache o r o' r' ∧ FsState.exec more p o' s = .ok r' t ∧ Shows k' t := by
  have hcached : ∀ {i x}, (ρ p).bufs.held i = some x → (k.cache.buf i).dev = ROOTDEV ∧
      s.disk (k.cache.buf i).blockno = (k.cache.buf i).data := by
    intro i x hx
    have hhas := (hinv.blocks.knows p).held i x hx
    rw [h.disk]
    exact ⟨hhas.dev, ((hinv.data hR).cached i hhas.valid).symm⟩
  cases o with
  | bget dev b =>
    obtain ⟨rfl, -⟩ := hpre
    obtain ⟨c, hbget, rfl⟩ := mapState_eq_ok.1 hexec
    exact Or.inl (h.bget hinv hbget)
  | acquiresleep i =>
    obtain ⟨b, hgot⟩ := hpre
    obtain ⟨c, hacquire, rfl⟩ := mapState_eq_ok.1 hexec
    obtain ⟨hdev, -⟩ := (hinv.blocks.knows p).transit i b (by rw [hgot]; rfl)
    rw [Cache.acquiresleep] at hacquire
    split at hacquire <;> cases hacquire
    rename_i hlock
    refine Or.inr ⟨_, _, _, .bread i, ?_, h.setLock hinv hdev (some p)⟩
    rw [FsState.exec, h.owner i hdev, hlock]
  | fill i =>
    cases hexec
    refine Or.inl (h.frame (fun j => ?_) (h.disk.trans (Cache.stored_fill ..).symm) rfl h.op h.ext)
    show ((k.cache.fill i).buf j).key = _
    rw [Cache.fill]
    split
    · rfl
    · exact Cache.key_setBuf (by rfl) j
  | data i =>
    obtain ⟨x, hx⟩ := Option.isSome_iff_exists.1 hpre
    cases hexec
    refine Or.inr ⟨_, _, s, .bdata i _, ?_, h⟩
    rw [FsState.exec, (hcached hx).2]
  | store i d =>
    cases hexec
    exact Or.inr ⟨_, _, _, .bstore i d, rfl, h.store d⟩
  | copyin i off src n =>
    obtain ⟨-, x, hx, -⟩ := hpre
    cases hexec
    refine Or.inr ⟨_, _, _, .bcopyin i off src n _, ?_, h.store _⟩
    rw [FsState.exec, (hcached hx).2]
  | bwrite i =>
    obtain ⟨c, hbwrite, rfl⟩ := mapState_eq_ok.1 hexec
    rw [Cache.bwrite] at hbwrite
    split at hbwrite <;> cases hbwrite
    exact Or.inr ⟨_, _, s, .bwrite i, rfl, h.frame (fun _ => rfl) h.disk rfl h.op h.ext⟩
  | releasesleep i =>
    obtain ⟨-, x, hx, -⟩ := hpre
    obtain ⟨c, hrelease, rfl⟩ := mapState_eq_ok.1 hexec
    rw [Cache.releasesleep] at hrelease
    split at hrelease <;> cases hrelease
    rename_i hlock
    refine Or.inr ⟨_, _, _, .brelse i, ?_, h.setLock hinv (hcached hx).1 none⟩
    rw [FsState.exec, if_pos ((h.owner i (hcached hx).1).trans hlock)]
  | bput i =>
    cases hexec
    exact Or.inl (h.frame (fun j => Cache.key_setBuf (Buf.key_setRefcnt ..) j) h.disk rfl h.op h.ext)
  | bunpin i =>
    cases hexec
    exact Or.inl (h.frame (fun j => Cache.key_setBuf (Buf.key_setRefcnt ..) j) h.disk rfl h.op h.ext)
  | logCheck i =>
    obtain ⟨l, hcheck, rfl⟩ := mapState_eq_ok.1 hexec
    obtain ⟨l', -, rfl⟩ := mapState_eq_ok.1 hcheck
    exact Or.inl (h.frame (fun _ => rfl) h.disk rfl h.op h.ext)
  | logAppend i =>
    obtain ⟨-, x, S, -, hop, -⟩ := hpre
    have hrun : s.op p = true := by rw [h.op, (hinv.log.knows p).running, hop]; rfl
    have hexec' : k.logAppend p i = .ok r k' := hexec
    rw [Kernel.logAppend] at hexec'
    split at hexec' <;> cases hexec'
    rename_i new l happend
    obtain ⟨l', -, rfl⟩ := mapState_eq_ok.1 happend
    refine Or.inr ⟨_, _, s, .logWrite i, by rw [FsState.exec, if_pos hrun], ?_⟩
    cases new
    · exact h.frame (fun _ => rfl) h.disk rfl h.op h.ext
    · exact h.frame (fun j => Cache.key_setBuf (Buf.key_setRefcnt ..) j) h.disk rfl h.op h.ext
  | logEnter =>
    obtain ⟨l, henter, rfl⟩ := mapState_eq_ok.1 hexec
    obtain ⟨l', -, rfl⟩ := mapState_eq_ok.1 henter
    exact Or.inr ⟨_, _, _, .beginOp, rfl, h.frame (fun _ => rfl) h.disk rfl (h.op_update p (some k.log.ops)) h.ext⟩
  | logLeave =>
    obtain ⟨l, hleave, rfl⟩ := mapState_eq_ok.1 hexec
    obtain ⟨l', -, rfl⟩ := mapState_eq_ok.1 hleave
    exact Or.inr ⟨_, _, _, .endOp _, rfl, h.frame (fun _ => rfl) h.disk rfl (h.op_update p none) h.ext⟩
  | logDone =>
    cases hexec
    exact Or.inl (h.frame (fun _ => rfl) h.disk rfl h.op h.ext)
  | setHead blocks =>
    obtain ⟨l, hlog, rfl⟩ := mapState_eq_ok.1 hexec
    obtain ⟨l', -, rfl⟩ := mapState_eq_ok.1 hlog
    exact Or.inl (h.frame (fun _ => rfl) h.disk rfl h.op h.ext)
  | getHead =>
    cases hexec
    exact Or.inl h
  | ext e =>
    obtain ⟨x, hext, rfl⟩ := mapState_eq_ok.1 hexec
    refine Or.inr ⟨_, _, { s with icache := x.1, ext := x.2 }, .ext e r, ?_, h.frame (fun _ => rfl) h.disk rfl h.op rfl⟩
    rw [FsState.exec, h.ext, hext]
    rfl

end Shows

theorem shows_init (disk : Nat → Block) (x : ICache P × X) :
    Shows (init disk x) ⟨disk, fun _ => none, fun _ => false, x.1, x.2⟩ :=
  ⟨rfl, fun _ _ => rfl, fun _ _ => rfl, fun _ => rfl, rfl⟩

variable [Procs P]

/-- A process makes a call on the logical disk. -/
def Calls (more : P → (f : F.Op) → X → Outcome X (F.Ret f)) (s t : FsState P X) : Prop :=
  ∃ p o r, FsState.exec more p o s = .ok r t

section Runs

variable {more : P → (f : FileSig.Op) → X → Outcome X (FileSig.Ret f)} {size start : Nat} {disk : Nat → Block}
  {x : ICache P × X} {p₀ : P} {sb : Superblock} {calls : P → List Syscall}
  {c c₀ : Conf (Prim (FsSig FileSig)) P (Kernel P (ICache P × X))} (hempty : headN (disk start) ≤ 0)
include hempty

/-- One step of a run. -/
theorem step_shows (hruns : Runs size (FsOp.exec more) Guard start disk x p₀ (fun p => Syscall.runAll sb (calls p)) c) (h : Shows c.st s)
    {o : PrimOp (FsSig FileSig)} {r : (Prim (FsSig FileSig)).Ret o} (hnext : (c.prog p).next = some o)
    (hexec : exec size (FsOp.exec more) p o c.st = .ok r k') :
    Shows k' s ∨ ∃ o' r' t, Makes c.st.cache o r o' r' ∧ FsState.exec more p o' s = .ok r' t ∧ Shows k' t := by
  obtain ⟨R, ρ, hR, hinv, hwp⟩ := hruns.inv (R := Rules.tracks) hempty (fun _ _ => trivial) (fun _ _ _ _ h => h)
    fun p => follows_runAll sb (calls p)
  have htracked : R.tracked := by
    rcases hR with rfl | rfl <;> rfl
  exact h.step hinv htracked ((sections R (FsSig FileSig)).pre_of_next (hwp p) hnext) hexec

theorem reach_shows (hruns : ∀ c, (machine size (FsOp.exec more)).Reach Guard c₀ c →
      Runs size (FsOp.exec more) Guard start disk x p₀ (fun p => Syscall.runAll sb (calls p)) c) (h : Shows c₀.st s)
    (hreach : (machine size (FsOp.exec more)).Reach Guard c₀ c) : ∃ t, ReflTransGen (Calls more) s t ∧ Shows c.st t := by
  induction hreach with
  | refl => exact ⟨s, .refl, h⟩
  | step hreach _ hstep ih =>
    obtain ⟨t, hcalls, ht⟩ := ih
    obtain ⟨hprog, hexec⟩ := hstep
    obtain hu | ⟨o', r', u, -, hcall, hu⟩ := step_shows hempty (hruns _ hreach) ht (Prog.next_eq_some.2 ⟨_, hprog⟩) hexec
    · exact ⟨t, hcalls, hu⟩
    · exact ⟨u, hcalls.tail ⟨_, o', r', hcall⟩, hu⟩

/-- **Refinement.** Whatever system calls the processes make: a run whose steps meet `Guard`, from a disk whose log is
empty, is a run on the logical disk, and so is its next step, with the same answer. -/
theorem syscalls_refine (hruns : Runs size (FsOp.exec more) Guard start disk x p₀ (fun p => Syscall.runAll sb (calls p)) c) :
    ∃ s, ReflTransGen (Calls more) ⟨disk, fun _ => none, fun _ => false, x.1, x.2⟩ s ∧ Shows c.st s ∧
      ∀ p o r k, (c.prog p).next = some o → exec size (FsOp.exec more) p o c.st = .ok r k → Shows k s ∨
        ∃ o' r' t, Makes c.st.cache o r o' r' ∧ FsState.exec more p o' s = .ok r' t ∧ Shows k t := by
  have hruns' : ∀ c, (machine size (FsOp.exec more)).Reach Guard (bootConf start disk x p₀) c →
      Runs size (FsOp.exec more) Guard start disk x p₀ (fun p => Syscall.runAll sb (calls p)) c := fun _ => .boot
  have hstart : ∃ s, ReflTransGen (Calls more) ⟨disk, fun _ => none, fun _ => false, x.1, x.2⟩ s ∧ Shows c.st s := by
    cases hruns with
    | boot hreach => exact reach_shows hempty hruns' (shows_init disk x) hreach
    | serve hboot hdone hreach =>
      obtain ⟨s, hcalls, hs⟩ := reach_shows hempty hruns' (shows_init disk x) hboot
      obtain ⟨t, hcalls', ht⟩ := reach_shows hempty (fun _ => .serve hboot hdone) hs hreach
      exact ⟨t, hcalls.trans hcalls', ht⟩
  obtain ⟨s, hcalls, hs⟩ := hstart
  exact ⟨s, hcalls, hs, fun p o r k => step_shows hempty hruns hs⟩

end Runs

end Kernel

end Xv6
