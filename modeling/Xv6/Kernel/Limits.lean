import Xv6.Kernel.GroupCommit

/-! The three limits: `begin_op` admits `LOGSIZE` blocks, `log_write` refuses a block once `LOGSIZE - 1`
are logged when `mkfs` made a log of `LOGSIZE` blocks, and there are `NBUF` buffers for the logged blocks
and for the ones a commit reads. The first two do not agree: an admitted transaction can panic. Below
the smaller limit nothing panics. -/

namespace Xv6

open Lib Machine Finset Outcome

/-- Moreover buffers are held inside operations only. -/
def Rules.inside : Rules := ⟨true, true, false, false, false, fun _ _ => True⟩

namespace Kernel

variable {P X : Type} [Procs P] {E : Sig}

/-- When a `log_write` starts, the ones before it in the pending transaction named at most
`LOGSIZE - 2` blocks. -/
def Slack (s : Kernel P X) (_ : P) : PrimOp E → Prop
  | .logCheck _ => s.log.named.card + 2 ≤ LOGSIZE
  | _ => True

instance (s : Kernel P X) (p : P) : (o : PrimOp E) → Decidable (s.Slack p o)
  | .logCheck _ => inferInstanceAs (Decidable (_ ≤ _))
  | .bget _ _ | .acquiresleep _ | .fill _ | .data _ | .store _ _ | .copyin _ _ _ _ | .bwrite _
  | .releasesleep _ | .bput _ | .bunpin _ | .logAppend _ | .logEnter | .logLeave | .logDone
  | .getHead | .setHead _ | .ext _ => inferInstanceAs (Decidable True)

variable {size start : Nat} {ext : P → (e : E.Op) → X → Outcome X (E.Ret e)}

/-- Only `log_write` names blocks. -/
theorem named_exec {p : P} {o : PrimOp E} {s s' : Kernel P X} {r : (Prim E).Ret o}
    (h : exec size ext p o s = .ok r s') :
    s'.log.named = s.log.named ∨ s'.log.named = ∅ ∨ ∃ i b, o = .logCheck i ∧ s'.log.named = insert b s.log.named := by
  cases o with
  | logCheck i =>
    obtain ⟨l, hl, rfl⟩ := mapState_eq_ok.1 h
    obtain ⟨l', -, rfl⟩ := mapState_eq_ok.1 hl
    exact Or.inr (Or.inr ⟨i, _, rfl, rfl⟩)
  | setHead blocks =>
    obtain ⟨l, hl, rfl⟩ := mapState_eq_ok.1 h
    obtain ⟨l', -, rfl⟩ := mapState_eq_ok.1 hl
    exact Or.inr (Or.inl rfl)
  | logAppend i =>
    refine Or.inl ?_
    change s.logAppend p i = _ at h
    rw [logAppend] at h
    split at h
    · rename_i new l hl
      obtain ⟨l', -, rfl⟩ := mapState_eq_ok.1 hl
      cases h
      rfl
    · cases h
    · cases h
  | logEnter | logLeave =>
    obtain ⟨l, hl, rfl⟩ := mapState_eq_ok.1 h
    obtain ⟨l', -, rfl⟩ := mapState_eq_ok.1 hl
    exact Or.inl rfl
  | bget | acquiresleep | bwrite | releasesleep | ext =>
    obtain ⟨l, hl, rfl⟩ := mapState_eq_ok.1 h
    exact Or.inl rfl
  | fill | data | store | copyin | bput | bunpin | logDone | getHead =>
    cases h
    exact Or.inl rfl

theorem named_le {c₀ c : Conf (Prim E) P (Kernel P X)} (h₀ : c₀.st.log.named = ∅)
    (hreach : (machine size ext).Reach Slack c₀ c) : c.st.log.named.card + 1 ≤ LOGSIZE := by
  induction hreach with
  | refl =>
    rw [h₀]
    decide
  | step hreach hcond hstep ih =>
    obtain ⟨hprog, hexec⟩ := hstep
    rcases named_exec hexec with hsame | hempty | ⟨i, b, rfl, hinsert⟩
    · exact hsame ▸ ih
    · exact hempty ▸ Nat.le_of_ble_eq_true rfl
    · have hle := hinsert ▸ card_insert_le b _
      exact le_trans (Nat.add_le_add_right hle 1) hcond

variable {R : Rules} {s : Kernel P X} {ρ : P → Res}

section

variable (h : s.Inv R ρ)
include h

theorem Inv.head_le_named : s.log.log.head.length ≤ s.log.named.card := by
  rw [← List.toFinset_card_of_nodup h.log.nodup]
  exact card_le_card fun b hb => h.log.named b (List.mem_toFinset.1 hb)

theorem Inv.count_of_committing (hR : R.inOp) {p q : P} {lh : List Nat} {k : Nat}
    (hrole : (ρ p).log.role = .commit lh k) (hq : q ≠ p) (i : Fin NBUF) : (ρ q).bufs.count i = 0 := by
  obtain ⟨hop, hclient⟩ := h.log.owner p (by rw [hrole]; nofun) q
  exact h.inOp hR q hop (hclient hq) i

theorem Inv.nbuf_le_pending (hcount : ∀ p i, (ρ p).bufs.count i = 0)
    (hfull : ∀ i, (s.cache.buf i).refcnt ≠ 0) : NBUF ≤ s.log.pending.length := by
  have hholds : ∀ i, s.cache.Holds i s.log.pending := by
    intro i
    by_contra hnot
    refine hfull i ?_
    rw [h.refs.refcnt i, sum_eq_zero fun p _ => hcount p i, Cache.pin, if_neg hnot]
  have hinj : Function.Injective fun i => (s.cache.buf i).blockno :=
    fun i j hij => h.blocks.unique i j (hholds i).1 (hholds j).1 hij
  calc NBUF = (Finset.univ.image fun i => (s.cache.buf i).blockno).card := by
        rw [card_image_of_injective _ hinj, card_univ, Fintype.card_fin]
    _ ≤ s.log.pending.toFinset.card := by
        refine card_le_card fun b hb => ?_
        obtain ⟨i, -, rfl⟩ := mem_image.1 hb
        exact List.mem_toFinset.2 (hholds i).2
    _ ≤ s.log.pending.length := List.toFinset_card_le _

theorem Inv.bget_of_commit (hR : R.inOp) (hlen : s.log.log.head.length < NBUF) {p : P}
    {lh : List Nat} {k b : Nat} (hrole : (ρ p).log.role = .commit lh k)
    (hget : (ρ p).MayGet b) : (s.cache.bget p ROOTDEV b) ≠ .panic "bget: no buffers" := by
  intro hpanic
  rw [Cache.bget] at hpanic
  split at hpanic
  · cases hpanic
  · rename_i hlookup
    split at hpanic
    · cases hpanic
    rename_i hvictim
    rw [Res.MayGet, hrole] at hget
    obtain ⟨-, hhead, hinst, -⟩ := (h.log.knows p).commit lh k hrole
    rcases hget with hnone | hpend
    · -- every buffer is pinned, but there are fewer pending blocks
      have hfull : ∀ i, (s.cache.buf i).refcnt ≠ 0 := by
        intro i hi
        have := List.find?_eq_none.1 hvictim i (List.mem_reverse.2 (h.refs.lru i))
        simp [hi] at this
      have hle := h.nbuf_le_pending (fun q i => ?_) hfull
      · have : s.log.pending.length ≤ s.log.log.head.length := by
          rw [LogState.pending, List.length_drop]
          omega
        omega
      · by_cases hq : q = p
        · exact hq ▸ hnone i
        · exact h.count_of_committing hR hrole hq i
    · -- the block is pending, so that it is cached
      rw [← hhead, ← hinst] at hpend
      obtain ⟨i, hdev, hblock, -⟩ := h.blocks.pinned b hpend
      have := List.find?_eq_none.1 hlookup i (h.refs.lru i)
      simp [hdev, hblock] at this

/-- The section of `log_write` before its lock does not panic below the limits. -/
theorem Inv.check_of_op {p : P} {S : Finset Nat} (hop : (ρ p).log.op = some S)
    (hslack : s.log.named.card + 2 ≤ LOGSIZE) (b : Nat) (msg : String) :
    s.log.check LOGSIZE b ≠ .panic msg := by
  have hlen := h.head_le_named
  have hout : 1 ≤ s.log.log.outstanding := by
    rw [h.log.outstanding]
    have := le_sum (fun r : Res => r.log.active) ρ p
    rw [LogPart.active_of_op hop] at this
    exact_mod_cast this
  intro hpanic
  have hlog : LOGSIZE = 30 := rfl
  rw [LogState.check, Log.check, if_neg (by omega), if_neg (by omega)] at hpanic
  cases hpanic

theorem Inv.append_of_op (hnamed : s.log.named.card + 1 ≤ LOGSIZE) (p : P) (b : Nat)
    (msg : String) : s.log.append p b ≠ .panic msg := by
  have hlen := h.head_le_named
  intro hpanic
  rw [LogState.append, Log.append] at hpanic
  split_ifs at hpanic with h1 h2
  · cases hpanic
  · cases hpanic
  · omega

end

/-- Operations of three processes, on ten blocks each. -/
def fullOps (p : Fin NPROC) : Prog (Client (Fin NBUF) Sig.empty) Unit :=
  if p.val < 3 then writeOp ((List.range MAXOPBLOCKS).map fun j => (100 + 10 * p.val + j, Block.zero))
  else pure ()

theorem follows_fullOps (p : Fin NPROC) : Follows Rules.inside (fullOps p) := by
  unfold fullOps
  split
  · exact follows_writeOp rfl (by simp [MAXOPBLOCKS])
  · trivial

/-- **No admitted transaction below the limit panics**, in a log of the size that `mkfs` gives it: no
`log_write` does, and no `bread` of a commit. -/
theorem no_panic_of_slack {disk : Nat → Block} {x : X} {clients : P → Prog (Client (Fin NBUF) E) Unit}
    {c : Conf (Prim E) P (Kernel P X)} (hclients : ∀ p, Follows Rules.inside (clients p))
    (hreach : (machine LOGSIZE ext).Reach Slack (serve start (init disk x) clients) c) :
    (∀ p o, (c.prog p).next = some o → o.ofLogWrite → c.st.Slack p o →
      ∀ msg, ¬ (machine LOGSIZE ext).Panics c p msg) ∧
    (c.st.log.log.committing = true → ∀ p dev b, (c.prog p).next = some (.bget dev b) →
      ¬ (machine LOGSIZE ext).Panics c p "bget: no buffers") := by
  obtain ⟨ρ, hinv, hwp⟩ := reach_inv (R := Rules.inside) (fun _ _ => trivial) nofun
    (inv_init disk x nofun) hclients hreach
  have hnamed := named_le rfl hreach
  refine ⟨fun p o hnext ho hslack msg hp => ?_, fun hc p dev b hnext hp => ?_⟩
  · have hpre := (sections _ E).pre_of_next (hwp p) hnext
    obtain ⟨S, hop⟩ := op_of_ofLogWrite rfl ho hpre
    have hexec := exec_of_panics hp hnext
    cases o with
    | logCheck i => exact hinv.check_of_op hop hslack _ msg (mapState_eq_panic.1 hexec)
    | logAppend i =>
        change c.st.logAppend p i = _ at hexec
        rw [logAppend] at hexec
        split at hexec <;> cases hexec
        rename_i hpanic
        exact hinv.append_of_op hnamed p _ _ hpanic
    | _ => cases ho
  · obtain ⟨rfl, -, hget⟩ := (sections _ E).pre_of_next (hwp p) hnext
    have hop := (hinv.log.outstanding_of_committing hc).2 p
    cases hrole : (ρ p).log.role with
    | client =>
        have := hget rfl
        rw [Res.MayGet, hrole, hop] at this
        cases this
    | commit lh k =>
        have hlen : c.st.log.log.head.length < NBUF := hinv.head_le_named.trans_lt hnamed
        exact hinv.bget_of_commit rfl hlen hrole (hget rfl)
          (mapState_eq_panic.1 (exec_of_panics hp hnext))
    | boot => cases ((hinv.log.knows p).boot hrole).1

/-- Two of them commit twenty blocks. -/
theorem no_panic_of_slack_twenty : ∃ c,
    (bare (Fin NPROC) LOGSIZE).Reach Slack (serve 2 (init (fun _ => Block.zero) ()) fullOps) c ∧
    (c.st.log.log.committing = true ∧ c.st.log.log.head.length = 20) ∧
    ∀ p dev b, (c.prog p).next = some (.bget dev b) →
      ¬ (bare (Fin NPROC) LOGSIZE).Panics c p "bget: no buffers" := by
  obtain ⟨c, hreach, htest⟩ := exists_reach (M := bare (Fin NPROC) LOGSIZE)
    (fun s p (o : PrimOp Sig.empty) => decide (s.Slack p o)) (fun _ _ (_ : PrimOp Sig.empty) h => of_decide_eq_true h)
    (List.replicate 81 0 ++ List.replicate 82 1 ++ List.replicate 3 0)
    (serve 2 (init (fun _ => Block.zero) ()) fullOps)
    (fun c => c.st.log.log.committing = true ∧ c.st.log.log.head.length = 20) (by decide +kernel)
  exact ⟨c, hreach, htest, (no_panic_of_slack follows_fullOps hreach).2 htest.1⟩

/-- Three processes whose operations, all admitted, log ten blocks each: the thirtieth `log_write`
panics. -/
theorem admitted_transaction_panics :
    (∀ p, Follows Rules.inside (fullOps p)) ∧ ∃ c, (bare (Fin NPROC) LOGSIZE).Reach (fun _ _ _ => True)
        (serve 2 (init (fun _ => Block.zero) ()) fullOps) c ∧
      ∃ p o, (c.prog p).next = some o ∧ o.ofLogWrite ∧
        (bare (Fin NPROC) LOGSIZE).Panics c p "too big a transaction" := by
  refine ⟨follows_fullOps, ?_⟩
  obtain ⟨c, hreach, htest⟩ := exists_reach (M := bare (Fin NPROC) LOGSIZE)
    (fun _ _ _ => true) (fun _ _ _ _ => trivial)
    (0 :: 1 :: 2 :: (List.replicate 80 0 ++ List.replicate 80 1 ++ List.replicate 76 2))
    (serve 2 (init (fun _ => Block.zero) ()) fullOps)
    (fun c => (bare (Fin NPROC) LOGSIZE).panicsAt PrimOp.ofLogWrite 2 "too big a transaction" c) (by decide +kernel)
  obtain ⟨o, hnext, ho, hpanics⟩ := panics_of_panicsAt htest
  exact ⟨c, hreach, 2, o, hnext, ho, hpanics⟩

end Kernel

end Xv6
