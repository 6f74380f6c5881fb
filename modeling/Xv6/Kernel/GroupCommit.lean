import Xv6.Kernel.Client

/-! Group commit: what holds of the log in every state that processes reach whose operations log at most
`MAXOPBLOCKS` blocks each. -/

namespace Xv6

open Lib

/-- An operation logs at most `MAXOPBLOCKS` distinct blocks. -/
def Rules.small : Rules := ⟨true, false, false, false, false, fun _ _ => True⟩

/-- The sections that only `commit` and its end run. -/
def PrimOp.ofCommit {E : Sig} : PrimOp E → Bool
  | .getHead | .setHead _ | .bunpin _ | .logDone => true
  | _ => false

/-- The sections of `log_write`. -/
def PrimOp.ofLogWrite {E : Sig} : PrimOp E → Bool
  | .logCheck _ | .logAppend _ => true
  | _ => false

section Roles

variable {E : Sig} {R : Rules} {ρ : Res} {o : PrimOp E}

theorem role_of_ofCommit (ho : o.ofCommit) (hpre : (sections R E).pre ρ o) : ρ.log.role ≠ .client := by
  cases o with
  | getHead => exact hpre
  | setHead blocks =>
    obtain ⟨-, ⟨lh, hlog⟩ | hlog⟩ := hpre <;> rw [hlog] <;> nofun
  | bunpin i =>
    obtain ⟨x, lh, k, -, -, hlog, -⟩ := hpre
    rw [hlog]
    nofun
  | logDone =>
    rw [hpre.1]
    nofun
  | _ => cases ho

theorem op_of_ofLogWrite (hR : R.guarded = false) (ho : o.ofLogWrite) (hpre : (sections R E).pre ρ o) :
    ∃ S, ρ.log.op = some S := by
  cases o with
  | logCheck i =>
    obtain ⟨-, hguard | hop⟩ := hpre
    · rw [hR] at hguard
      cases hguard
    · exact Option.isSome_iff_exists.1 hop
  | logAppend i =>
    obtain ⟨-, x, S, -, hop, -⟩ := hpre
    exact ⟨S, hop⟩
  | _ => cases ho

end Roles

theorem LogState.Inv.committing_of_role {P : Type} [Procs P] {R : Rules} {s : LogState P}
    {μ : P → LogPart} {p : P} (h : s.Inv R μ) (hR : R.booting = false) (hrole : (μ p).role ≠ .client) :
    s.log.committing = true := by
  cases hp : (μ p).role with
  | client => exact absurd hp hrole
  | commit lh k => exact ((h.knows p).commit lh k hp).1
  | boot =>
    have hboot := ((h.knows p).boot hp).1
    rw [hR] at hboot
    cases hboot

namespace Kernel

variable {P X : Type} [Procs P] {E : Sig} {size start : Nat} {ext : P → (e : E.Op) → X → Outcome X (E.Ret e)}

/-- **Group commit.** In every reachable state the logged blocks fit the log and are distinct, and `log_write`
does not store past them; a commit runs alone: no operation is outstanding and no `log_write` runs; `end_op`
does not find a commit; and the `log_write`s of one operation belong to one transaction, which contains their
blocks once it is committed and is the pending one before. -/
theorem group_commit {disk : Nat → Block} {x : X} {clients : P → Prog (Client (Fin NBUF) E) Unit}
    {c : Conf (Prim E) P (Kernel P X)} (hclients : ∀ p, Follows Rules.small (clients p))
    (hreach : (machine size ext).Reach (fun _ _ _ => True) (serve start (init disk x) clients) c) :
    c.st.log.log.head.length ≤ LOGSIZE ∧ c.st.log.log.head.Nodup ∧
    (∀ p i msg, (c.prog p).next = some (.logAppend i) → ¬ (machine size ext).Panics c p msg) ∧
    (∀ p o, (c.prog p).next = some o → o.ofCommit → c.st.log.log.committing = true) ∧
    (c.st.log.log.committing = true → c.st.log.log.outstanding = 0) ∧
    (∀ p o, (c.prog p).next = some o → o.ofLogWrite → c.st.log.log.committing = false) ∧
    (∀ p msg, (c.prog p).next = some .logLeave → ¬ (machine size ext).Panics c p msg) ∧
    (∀ u ∈ c.st.log.calls, ∀ v ∈ c.st.log.calls, u.op = v.op → u.txn = v.txn) ∧ (∀ u ∈ c.st.log.calls,
      (∃ blocks, c.st.log.committed[u.txn]? = some blocks ∧ u.block ∈ blocks) ∨
        u.txn = c.st.log.committed.length ∧ u.block ∈ c.st.log.log.head) := by
  obtain ⟨ρ, hinv, hwp⟩ := reach_inv (R := Rules.small) (fun _ _ => trivial) nofun
    (inv_init disk x nofun) hclients hreach
  refine ⟨hinv.log.length, hinv.log.nodup, fun p i msg hnext hp => ?_, fun p o hnext ho => ?_,
    fun hc => (hinv.log.outstanding_of_committing hc).1, fun p o hnext ho => ?_, fun p msg hnext hp => ?_,
    hinv.history.same, hinv.history.logged⟩
  · obtain ⟨-, x, S, hx, hop, -, hsmall⟩ := (sections _ E).pre_of_next (hwp p) hnext
    have hexec := Machine.exec_of_panics hp hnext
    change c.st.logAppend p i = _ at hexec
    rw [logAppend, ((hinv.blocks.knows p).held i x hx).blockno] at hexec
    split at hexec <;> cases hexec
    rename_i hpanic
    have happend := Outcome.mapState_eq_panic.1 hpanic
    rw [Log.append] at happend
    split_ifs at happend with hmem hfull
    exact hfull (hinv.log.length_lt (p := p) hop rfl (hsmall rfl) hmem)
  · have hrole := role_of_ofCommit ho ((sections _ E).pre_of_next (hwp p) hnext)
    exact hinv.log.committing_of_role (p := p) rfl hrole
  · obtain ⟨S, hop⟩ := op_of_ofLogWrite rfl ho ((sections _ E).pre_of_next (hwp p) hnext)
    exact hinv.log.committing_of_op (p := p) hop
  · -- the process of an `end_op` has an operation, so nobody commits
    obtain ⟨S, hop⟩ := Option.isSome_iff_exists.1 ((sections _ E).pre_of_next (hwp p) hnext).1
    have hfree := hinv.log.committing_of_op (p := p) hop
    have hexec := Machine.exec_of_panics hp hnext
    change (c.st.log.leave p).mapState _ = _ at hexec
    simp only [LogState.leave, Log.leave, hfree, Bool.false_eq_true, if_false] at hexec
    split_ifs at hexec <;> cases hexec

/-- Two operations that overlap are committed in one transaction. -/
theorem group_commit_two : ∃ c, (bare (Fin NPROC) LOGSIZE).Reach (fun _ _ _ => True)
      (serve 2 (init (fun _ => Block.zero) ()) fun p =>
        if p.val < 2 then writeOp [(100 + p.val, Block.zero)] else pure ()) c ∧
    c.st.log.committed = [[100, 101]] ∧ c.st.log.calls.map Call.txn = [0, 0] ∧
    ∀ u ∈ c.st.log.calls, ∀ v ∈ c.st.log.calls, u.op = v.op → u.txn = v.txn := by
  obtain ⟨c, hreach, htest⟩ := Machine.exists_reach (M := bare (Fin NPROC) LOGSIZE)
    (fun _ _ _ => true) (fun _ _ _ _ => trivial)
    (List.replicate 9 0 ++ List.replicate 10 1 ++ List.replicate 86 0)
    (serve 2 (init (fun _ => Block.zero) ()) fun p =>
      if p.val < 2 then writeOp [(100 + p.val, Block.zero)] else pure ())
    (fun c => c.st.log.committed = [[100, 101]] ∧ c.st.log.calls.map Call.txn = [0, 0])
    (by decide)
  refine ⟨c, hreach, htest.1, htest.2, ?_⟩
  refine (group_commit (fun p => ?_) hreach).2.2.2.2.2.2.2.1
  split
  · exact follows_writeOp rfl (Nat.le_add_left 1 9)
  · trivial

end Kernel

end Xv6
