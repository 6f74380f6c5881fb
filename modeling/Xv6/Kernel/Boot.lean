import Xv6.Kernel.GroupCommit

/-! A run of the machine from the start: one process recovers the log, then the processes run their
programs. On a disk whose log is empty the recovery keeps the invariants; otherwise `install_trans`
drops references that nobody took. -/

namespace Xv6

open Lib Logic Function

/-- No promise. -/
def Rules.free : Rules := ⟨false, false, false, false, false, fun _ _ => True⟩

/-- The recovery of an empty log. -/
def Rules.boot (start : Nat) : Rules := ⟨false, false, true, false, true, fun b d => b = start → headN d ≤ 0⟩

/-- What the process that recovers the log has between two calls. -/
def Res.boot : Res := ⟨Bufs.empty, none, none, .boot⟩

namespace Kernel

variable {P X : Type} [Procs P] {E : Sig}

section Runs

variable (size : Nat) (ext : P → (e : E.Op) → X → Outcome X (E.Ret e))
  (cond : Kernel P X → P → PrimOp E → Prop) (start : Nat) (disk : Nat → Block) (x : X) (p₀ : P)
  (clients : P → Prog (Client (Fin NBUF) E) Unit)

/-- `binit` is done and process `p₀` is about to run `initlog`. -/
def bootConf : Conf (Prim E) P (Kernel P X) :=
  ⟨init disk x, update (fun _ => .ret ()) p₀ ((recoverFromLog start).interp bioC)⟩

/-- The states of a run: those of the recovery, then those of the processes. -/
inductive Runs : Conf (Prim E) P (Kernel P X) → Prop where
  | boot {c : Conf (Prim E) P (Kernel P X)}
      (hreach : (machine size ext).Reach cond (bootConf start disk x p₀) c) : Runs c
  | serve {c₁ c : Conf (Prim E) P (Kernel P X)}
      (hboot : (machine size ext).Reach cond (bootConf start disk x p₀) c₁)
      (hdone : ∀ p, c₁.prog p = .ret ())
      (hreach : (machine size ext).Reach cond (serve start c₁.st clients) c) : Runs c

end Runs

variable {size : Nat} {ext : P → (e : E.Op) → X → Outcome X (E.Ret e)}
  {cond : Kernel P X → P → PrimOp E → Prop} {start : Nat} {disk : Nat → Block} {x : X} {p₀ : P}
  {clients : P → Prog (Client (Fin NBUF) E) Unit} {c : Conf (Prim E) P (Kernel P X)} {R : Rules}

theorem bootConf_self : (bootConf start disk x p₀ : Conf (Prim E) P (Kernel P X)).prog p₀ =
    (recoverFromLog start).interp bioC := by
  simp only [bootConf, update_self]

theorem bootConf_of_ne {p : P} (hp : p ≠ p₀) :
    (bootConf start disk x p₀ : Conf (Prim E) P (Kernel P X)).prog p = .ret () := by
  simp only [bootConf, update_of_ne hp]

theorem bufs_boot (p : P) : (update (fun _ => Res.idle) p₀ Res.boot p).bufs = Bufs.empty :=
  apply_update_eq (f := Res.bufs) (p := p₀) (r := Res.boot) rfl p

theorem log_boot (hR : R.booting) : (LogState.init : LogState P).Inv R fun p =>
    (update (fun _ => Res.idle) p₀ Res.boot p).log := by
  have hop : ∀ p, (update (fun _ => Res.idle) p₀ Res.boot p).log.op = none :=
    fun p => apply_update_eq (f := fun r : Res => r.log.op) (p := p₀) (r := Res.boot) rfl p
  have hchk : ∀ p, (update (fun _ => Res.idle) p₀ Res.boot p).log.chk = none :=
    fun p => apply_update_eq (f := fun r : Res => r.log.chk) (p := p₀) (r := Res.boot) rfl p
  have hrole : ∀ p, (update (fun _ => Res.idle) p₀ Res.boot p).log.role = if p = p₀ then .boot else .client := by
    intro p
    split
    · rename_i h
      rw [h, update_self]
      rfl
    · rename_i h
      rw [update_of_ne h]
      rfl
  refine ⟨?_, List.nodup_nil, Nat.zero_le _, nofun, fun p hp q => ⟨hop q, fun hq => ?_⟩, nofun,
    fun _ => rfl, fun _ => ?_, fun p => ⟨?_, ?_, ?_, ?_, ?_, ?_⟩⟩
  · simp [LogState.init, LogPart.active, hop]
  · rw [hrole] at hp ⊢
    have hp₀ : p = p₀ := by
      by_contra hne
      rw [if_neg hne] at hp
      exact hp rfl
    rw [if_neg (hp₀ ▸ hq)]
  · simp [LogState.init, LogPart.room, hop]
  · rw [hop]
    rfl
  · simp [hop]
  · simp [hop]
  · simp [hchk]
  · intro lh k h
    rw [hrole] at h
    split at h <;> cases h
  · exact fun _ => ⟨hR, rfl, rfl⟩

theorem inv_boot (p₀ : P) (hempty : headN (disk start) ≤ 0) :
    (init disk x : Kernel P X).Inv (Rules.boot start) (update (fun _ => Res.idle) p₀ Res.boot) where
  refs := by
    simp only [bufs_boot]
    exact Cache.refs_binit disk
  blocks := by
    simp only [bufs_boot]
    exact Cache.blocks_binit disk
  data _ := by
    simp only [bufs_boot]
    exact Cache.data_binit disk
  keeps _ b hb := hb ▸ hempty
  log := log_boot rfl
  history := LogState.history_init
  inOp := nofun

theorem boot_inv (hempty : headN (disk start) ≤ 0)
    (hreach : (machine size ext).Reach cond (bootConf start disk x p₀) c) :
    ∃ ρ, c.st.Inv (Rules.boot start) ρ ∧
      ∀ p, (sections (Rules.boot start) E).wp (c.prog p) (fun _ r => r = Res.idle ∨ r = Res.boot) (ρ p) := by
  refine hreach.inv (sound size ext nofun) (inv_boot p₀ hempty) fun p => ?_
  by_cases hp : p = p₀
  · have hrec := wp_recoverFromLog (R := Rules.boot start) (E := E) (r := Bufs.empty) rfl
      (fun d => ⟨fun h => h rfl, fun h _ => h⟩) rfl
    have hbio := (calls _ E).wp_interp (e := id) (fun ρ o hpre =>
      wp_mono (fun r ρ' hr => ⟨ρ', hr, rfl⟩) (bioC_spec ρ o hpre)) hrec
    rw [hp, bootConf_self, update_self]
    refine wp_mono ?_ hbio
    rintro _ _ ⟨_, rfl, rfl⟩
    exact Or.inr rfl
  · rw [bootConf_of_ne hp, update_of_ne hp]
    exact Or.inl rfl

/-- Once the log is recovered, the processes start with nothing. -/
theorem Inv.served {s : Kernel P X} {ρ : P → Res} (h : s.Inv (Rules.boot start) ρ)
    (hρ : ∀ p, ρ p = Res.idle ∨ ρ p = Res.boot) (hK : ∀ b d, R.keeps b d) :
    s.Inv R fun _ => Res.idle := by
  have hbufs : (fun p => (ρ p).bufs) = fun _ => Bufs.empty := by
    funext p
    rcases hρ p with hp | hp <;> rw [hp] <;> rfl
  have hop : ∀ p, (ρ p).log.op = none := by
    intro p
    rcases hρ p with hp | hp <;> rw [hp] <;> rfl
  have hrefs := h.refs
  have hblocks := h.blocks
  have hdata := h.data rfl
  rw [hbufs] at hrefs hblocks hdata
  have hidle : s.log.log.committing = false := by
    cases hc : s.log.log.committing with
    | false => rfl
    | true =>
      obtain ⟨p, lh, k, hrole⟩ := h.log.committing hc
      rcases hρ p with hp | hp <;> rw [hp] at hrole <;> cases hrole
  have hout : s.log.log.outstanding = 0 := by
    rw [h.log.outstanding, Finset.sum_eq_zero fun p _ => LogPart.active_of_none (hop p)]
    rfl
  refine ⟨hrefs, hblocks, fun _ => hdata, fun _ b => hK b _, ⟨?_, h.log.nodup, h.log.length, h.log.named,
    fun _ hp => absurd rfl hp, fun hc => ?_, h.log.installed, fun _ => ?_,
    fun p => ⟨?_, nofun, nofun, nofun, nofun, nofun⟩⟩, h.history, fun _ _ _ _ _ => rfl⟩
  · simp [hout, Res.idle, LogPart.idle, LogPart.active]
  · rw [hidle] at hc
    cases hc
  · simpa [Res.idle, LogPart.idle, LogPart.room] using h.log.length
  · rw [(h.log.knows p).running, hop]
    rfl

/-- The invariant of every state of a run from a disk whose log is empty. -/
theorem Runs.inv (hempty : headN (disk start) ≤ 0) (hK : ∀ b d, R.keeps b d)
    (hcond : R.guarded → ∀ s p o, cond s p o → s.Guard p o) (hclients : ∀ p, Follows R (clients p))
    (hruns : Runs size ext cond start disk x p₀ clients c) :
    ∃ R' ρ, (R' = R ∨ R' = Rules.boot start) ∧ c.st.Inv R' ρ ∧
      ∀ p, (sections R' E).wp (c.prog p) (fun _ _ => True) (ρ p) := by
  cases hruns with
  | boot hreach =>
    obtain ⟨ρ, hinv, hwp⟩ := boot_inv hempty hreach
    exact ⟨_, ρ, Or.inr rfl, hinv, fun p => wp_mono (fun _ _ _ => trivial) (hwp p)⟩
  | serve hboot hdone hreach =>
    obtain ⟨ρ₁, hinv₁, hwp₁⟩ := boot_inv hempty hboot
    have hs := hinv₁.served (R := R) (fun p => by simpa [hdone p] using hwp₁ p) hK
    obtain ⟨ρ, hinv, hwp⟩ := reach_inv hK hcond hs hclients hreach
    exact ⟨R, ρ, Or.inl rfl, hinv, hwp⟩

theorem exists_runs (ok : Kernel P X → P → PrimOp E → Bool) (hok : ∀ s p o, ok s p o → cond s p o)
    (ps₁ ps₂ : List P) (test : Conf (Prim E) P (Kernel P X) → Prop) [DecidablePred test]
    (h : ((machine size ext).sched ok ps₁ (bootConf start disk x p₀)).any fun c₁ => decide ((∀ p, (c₁.prog p).next.isNone) ∧
      ((machine size ext).sched ok ps₂ (serve start c₁.st clients)).any fun c => decide (test c))) :
    ∃ c, Runs size ext cond start disk x p₀ clients c ∧ test c := by
  obtain ⟨c₁, hboot, htest⟩ := Machine.exists_reach _ hok _ _ _ h
  obtain ⟨c, hreach, hc⟩ := Machine.exists_reach _ hok _ _ _ htest.2
  refine ⟨c, .serve hboot (fun p => ?_) hreach, hc⟩
  cases hp : c₁.prog p with
  | ret a => rfl
  | call o k =>
    have := htest.1 p
    rw [hp] at this
    cases this

theorem exists_runs_free (ps₁ ps₂ : List P) (test : Conf (Prim E) P (Kernel P X) → Prop) [DecidablePred test]
    (h : ((machine size ext).sched (fun _ _ _ => true) ps₁ (bootConf start disk x p₀)).any fun c₁ =>
      decide ((∀ p, (c₁.prog p).next.isNone) ∧
        ((machine size ext).sched (fun _ _ _ => true) ps₂ (serve start c₁.st clients)).any fun c => decide (test c))) :
    ∃ c, Runs size ext (fun _ _ _ => True) start disk x p₀ clients c ∧ test c :=
  exists_runs _ (fun _ _ _ _ => trivial) ps₁ ps₂ test h

/-- **Reference counts.** In every state of a run from a disk whose log is empty, the reference count of
a buffer is the number of references that `bread` gave out, and one for a pending block. It does not
pass zero, and `bget` does not recycle a buffer that somebody has. -/
theorem refcnt_eq_refs (hempty : headN (disk start) ≤ 0) (hclients : ∀ p, Follows Rules.free (clients p))
    (hruns : Runs size ext (fun _ _ _ => True) start disk x p₀ clients c) :
    (∀ i, (c.st.cache.buf i).refcnt =
      ∑ p, (c.st.cache.refs p).count i + c.st.cache.pin i c.st.log.pending) ∧
    (c.st.log.log.committing = false → c.st.log.pending = c.st.log.log.head) ∧
    (∀ p i, (c.prog p).next = some (.bput i) ∨ (c.prog p).next = some (.bunpin i) →
      0 < (c.st.cache.buf i).refcnt) ∧ (∀ p i, i ∈ c.st.cache.refs p → c.st.cache.victim ≠ some i) := by
  obtain ⟨R, ρ, -, hinv, hwp⟩ := hruns.inv hempty (fun _ _ => trivial) nofun hclients
  have hpos : ∀ p i, 0 < (ρ p).bufs.count i → 0 < (c.st.cache.buf i).refcnt := by
    intro p i hp
    have hle := le_sum (fun r : Res => r.bufs.count i) ρ p
    have heq := hinv.refs.refcnt i
    omega
  refine ⟨fun i => ?_, fun hc => ?_, fun p i hnext => hpos p i ?_, fun p i hi hvictim => ?_⟩
  · rw [hinv.refs.refcnt i]
    simp only [hinv.refs.refs]
  · rw [LogState.pending, hinv.log.installed hc, List.drop_zero]
  · rcases hnext with hnext | hnext
    · obtain ⟨b, hput⟩ := (sections R E).pre_of_next (hwp p) hnext
      simp [Bufs.count, Bufs.transitCount, hput, Transit.buf]
    · obtain ⟨x, -, -, hheld, -⟩ := (sections R E).pre_of_next (hwp p) hnext
      simp [Bufs.count, Bufs.heldCount, hheld]
  · have hzero : (c.st.cache.buf i).refcnt = 0 := by
      simpa using List.find?_some hvictim
    have hcount : 0 < (c.st.cache.refs p).count i := List.count_pos_iff.2 hi
    rw [hinv.refs.refs] at hcount
    exact absurd hzero (hpos p i hcount).ne'

/-- The states of a run on a disk whose log starts at block 2, without a further part. -/
abbrev BareRuns (disk : Nat → Block) (clients : Fin NPROC → Prog (Client (Fin NBUF) Sig.empty) Unit) :
    Conf (Prim Sig.empty) (Fin NPROC) (Kernel (Fin NPROC) Unit) → Prop :=
  Runs LOGSIZE noExt (fun _ _ _ => True) 2 disk () 0 clients

/-- A logged block counts its pin and the reference of the process that logs it. -/
theorem refcnt_eq_refs_two :
    ∃ c, BareRuns (fun _ => Block.zero) (fun _ => writeOp [(100, Block.zero)]) c ∧
      ∃ i, (c.st.cache.buf i).refcnt = 2 ∧
        2 = ∑ p, (c.st.cache.refs p).count i + c.st.cache.pin i c.st.log.pending := by
  obtain ⟨c, hruns, i, hi⟩ : ∃ c, BareRuns (fun _ => Block.zero) (fun _ => writeOp [(100, Block.zero)]) c ∧
      ∃ i, (c.st.cache.buf i).refcnt = 2 :=
    exists_runs_free (List.replicate 18 0) (List.replicate 7 0) _ (by decide)
  have hfollows : Follows Rules.free (writeOp [(100, Block.zero)] : Prog (Client _ Sig.empty) _) :=
    follows_writeOp rfl (Nat.le_add_left 1 9)
  have hcount := (refcnt_eq_refs (by decide) (fun _ => hfollows) hruns).1 i
  exact ⟨c, hruns, i, hi, hi.symm.trans hcount⟩

/-- A disk with one block in its log. -/
def fullLog (b : Nat) : Block := if b = 2 then putHead Block.zero [50] else Block.zero

/-- Two processes that read a block each. -/
def readers (p : Fin NPROC) : Prog (Client (Fin NBUF) Sig.empty) Unit :=
  if p.val < 2 then Client.bread ROOTDEV (50 + p.val) >>= Client.brelse else pure ()

/-- The recovery of a log with one block leaves its buffer with a reference count of `2 ^ 32 - 1`, although
nobody refers to it. When a process then reads the block, the count is zero, and the `bget` of another
process recycles the buffer under its holder. -/
theorem recovery_drops_reference :
    (∃ c, BareRuns fullLog readers c ∧ ∃ i, (c.st.cache.buf i).refcnt = 2 ^ 32 - 1 ∧
      (∀ p, c.st.cache.refs p = []) ∧ c.st.log.pending = []) ∧
    ∃ c, BareRuns fullLog readers c ∧ ∃ i, i ∈ c.st.cache.refs 0 ∧ (c.st.cache.buf i).lock = some 0 ∧
      c.st.cache.asked 0 = (ROOTDEV, 50) ∧ (c.st.cache.buf i).blockno = 51 :=
  ⟨exists_runs_free (List.replicate 34 0) [] _ (by decide),
    exists_runs_free (List.replicate 34 0) [0, 0, 0, 1] _ (by decide)⟩

end Kernel

end Xv6
