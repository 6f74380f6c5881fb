import Xv6.Lib.Prog

/-! Threads running programs over one shared state. One step executes the next operation of one thread;
an operation may also block (the thread waits) or panic (the machine stops). The invariant rule is
thread-modular: an invariant of the shared state and of the resources of all threads holds in every
reachable state once every operation, run from resources that meet its precondition, keeps it. -/

namespace Xv6.Lib

open Function

/-- What executing one operation gives. -/
inductive Outcome (σ α : Type) where
  | ok (a : α) (s : σ)
  | block
  | panic (msg : String)

/-- The outcome seen in a larger state. -/
def Outcome.mapState {σ τ α : Type} (f : σ → τ) : Outcome σ α → Outcome τ α
  | ok a s => ok a (f s)
  | block => block
  | panic msg => panic msg

theorem Outcome.mapState_eq_ok {σ τ α : Type} {f : σ → τ} {o : Outcome σ α} {a : α} {t : τ} :
    o.mapState f = ok a t ↔ ∃ s, o = ok a s ∧ f s = t := by
  cases o with
  | ok b s =>
    simp only [mapState, ok.injEq]
    exact ⟨fun h => ⟨s, ⟨h.1, rfl⟩, h.2⟩, fun ⟨s', h, h'⟩ => ⟨h.1, h.2 ▸ h'⟩⟩
  | block => simp [mapState]
  | panic msg => simp [mapState]

theorem Outcome.mapState_eq_panic {σ τ α : Type} {f : σ → τ} {o : Outcome σ α} {msg : String} :
    o.mapState f = panic msg ↔ o = panic msg := by
  cases o <;> simp [mapState]

/-- There is a result, and it passes a test. -/
def Outcome.passes {σ α : Type} (test : α → σ → Bool) : Outcome σ α → Bool
  | ok a s => test a s
  | _ => false

theorem Outcome.exists_of_passes {σ α : Type} {o : Outcome σ α} {test : α → σ → Bool} (h : o.passes test = true) :
    ∃ a s, o = ok a s ∧ test a s = true := by
  cases o with
  | ok a s => exact ⟨a, s, rfl, h⟩
  | block | panic => cases h

/-- The meaning of every operation, for every thread. -/
structure Machine (S : Sig) (P σ : Type) where
  exec : P → (o : S.Op) → σ → Outcome σ (S.Ret o)

/-- A shared state and what is left of the program of every thread. -/
structure Conf (S : Sig) (P σ : Type) where
  st : σ
  prog : P → Prog S Unit

namespace Machine

variable {S : Sig} {P σ R α β : Type} [DecidableEq P] (M : Machine S P σ)

/-- Thread `p` executes operation `o`. -/
inductive Step (p : P) (o : S.Op) : Conf S P σ → Conf S P σ → Prop where
  | mk {c : Conf S P σ} {k : S.Ret o → Prog S Unit} {r : S.Ret o} {s : σ}
      (hprog : c.prog p = .call o k) (hexec : M.exec p o c.st = .ok r s) :
      Step p o c ⟨s, update c.prog p (k r)⟩

/-- Reachability by steps that all meet a condition on the state before the step. -/
inductive Reach (cond : σ → P → S.Op → Prop) (c₀ : Conf S P σ) : Conf S P σ → Prop where
  | refl : Reach cond c₀ c₀
  | step {c c' : Conf S P σ} {p : P} {o : S.Op} (hreach : Reach cond c₀ c) (hcond : cond c.st p o)
      (hstep : M.Step p o c c') : Reach cond c₀ c'

/-- The next operation of thread `p` panics. -/
def Panics (c : Conf S P σ) (p : P) (msg : String) : Prop :=
  ∃ o k, c.prog p = .call o k ∧ M.exec p o c.st = .panic msg

omit [DecidableEq P] in
theorem exec_of_panics {M : Machine S P σ} {c : Conf S P σ} {p : P} {msg : String} {o : S.Op}
    (h : M.Panics c p msg) (hnext : (c.prog p).next = some o) : M.exec p o c.st = .panic msg := by
  obtain ⟨o', k, hprog, hexec⟩ := h
  rw [hprog] at hnext
  cases hnext
  exact hexec

/-- Every operation that meets its precondition keeps the invariant, under the step condition. -/
def Sound (L : Logic S R) (cond : σ → P → S.Op → Prop) (Inv : σ → (P → R) → Prop) : Prop :=
  ∀ s ρ p o r s', Inv s ρ → L.pre (ρ p) o → cond s p o → M.exec p o s = .ok r s' →
    ∃ ρ', L.post (ρ p) o r ρ' ∧ Inv s' (update ρ p ρ')

variable {M} {L : Logic S R} {cond : σ → P → S.Op → Prop} {Inv : σ → (P → R) → Prop}

/-- A run under a condition is one under every weaker condition. -/
theorem Reach.mono {cond' : σ → P → S.Op → Prop} {c₀ c : Conf S P σ} (hcond : ∀ s p o, cond s p o → cond' s p o)
    (hreach : M.Reach cond c₀ c) : M.Reach cond' c₀ c := by
  induction hreach with
  | refl => exact .refl
  | step _ hstepcond hstep ih => exact ih.step (hcond _ _ _ hstepcond) hstep

/-- **The thread-modular invariant rule.** -/
theorem Reach.inv {Q : R → Prop} {c₀ c : Conf S P σ} (hsound : M.Sound L cond Inv) {ρ₀ : P → R}
    (hinit : Inv c₀.st ρ₀) (hprog : ∀ p, L.wp (c₀.prog p) (fun _ => Q) (ρ₀ p)) (hreach : M.Reach cond c₀ c) :
    ∃ ρ, Inv c.st ρ ∧ ∀ p, L.wp (c.prog p) (fun _ => Q) (ρ p) := by
  induction hreach with
  | refl => exact ⟨ρ₀, hinit, hprog⟩
  | step hreach hcond hstep ih =>
    obtain ⟨ρ, hinv, hwp⟩ := ih
    obtain ⟨hcall, hexec⟩ := hstep
    rename_i p o _ _ _
    have hp := hwp p
    rw [hcall, Logic.wp_call] at hp
    obtain ⟨ρ', hpost, hinv'⟩ := hsound _ ρ p o _ _ hinv hp.1 hcond hexec
    refine ⟨update ρ p ρ', hinv', fun q => ?_⟩
    by_cases hq : q = p
    · subst hq
      simp only [update_self]
      exact hp.2 _ _ hpost
    · simp only [update_of_ne hq]
      exact hwp q

/-! ### Given schedules -/

section Sched

variable (M)

/-- The threads take one step each in the given order, as long as every step meets the test. -/
def sched (ok : σ → P → S.Op → Bool) : List P → Conf S P σ → Option (Conf S P σ)
  | [], c => some c
  | p :: ps, c => match c.prog p with
    | .ret _ => none
    | .call o k => match M.exec p o c.st with
      | .ok r s => if ok c.st p o then sched ok ps ⟨s, update c.prog p (k r)⟩ else none
      | _ => none

/-- The next operation of thread `p` meets the test and panics. -/
def panicsAt (test : S.Op → Bool) (p : P) (msg : String) (c : Conf S P σ) : Bool :=
  match c.prog p with
  | .ret _ => false
  | .call o _ => test o && match M.exec p o c.st with
    | .panic msg' => msg' == msg
    | _ => false

variable {M}

theorem reach_of_sched {ok : σ → P → S.Op → Bool} (hok : ∀ s p o, ok s p o → cond s p o)
    {ps : List P} {c₀ c c' : Conf S P σ} (hreach : M.Reach cond c₀ c) (h : M.sched ok ps c = some c') :
    M.Reach cond c₀ c' := by
  induction ps generalizing c with
  | nil =>
    cases h
    exact hreach
  | cons p ps ih =>
    rw [sched] at h
    split at h
    · cases h
    · rename_i o k hprog
      split at h
      · rename_i r s hexec
        split at h
        · rename_i hstep
          exact ih (hreach.step (hok _ _ _ hstep) ⟨hprog, hexec⟩) h
        · cases h
      · cases h

omit [DecidableEq P] in
theorem panics_of_panicsAt {test : S.Op → Bool} {p : P} {msg : String} {c : Conf S P σ}
    (h : M.panicsAt test p msg c) : ∃ o, (c.prog p).next = some o ∧ test o ∧ M.Panics c p msg := by
  unfold panicsAt at h
  split at h
  · cases h
  · rename_i o k hprog
    rw [Bool.and_eq_true] at h
    obtain ⟨htest, hexec⟩ := h
    split at hexec
    · rename_i msg' hpanic
      rw [eq_of_beq hexec] at hpanic
      exact ⟨o, Prog.next_eq_some.2 ⟨k, hprog⟩, htest, o, k, hprog, hpanic⟩
    · cases hexec

theorem exists_reach (ok : σ → P → S.Op → Bool) (hok : ∀ s p o, ok s p o → cond s p o) (ps : List P)
    (c₀ : Conf S P σ) (test : Conf S P σ → Prop) [DecidablePred test] (h : (M.sched ok ps c₀).any fun c => decide (test c)) :
    ∃ c, M.Reach cond c₀ c ∧ test c := by
  obtain ⟨c, hc, htest⟩ := (Option.any_eq_true ..).1 h
  exact ⟨c, reach_of_sched hok .refl hc, of_decide_eq_true htest⟩

end Sched

variable (M)

/-- One thread running alone to the end of a program. -/
def run (p : P) : Prog S α → σ → Outcome σ α
  | .ret a, s => .ok a s
  | .call o k, s => match M.exec p o s with
    | .ok r s' => run p (k r) s'
    | .block => .block
    | .panic msg => .panic msg

variable {M}

omit [DecidableEq P]

theorem run_call_ok {p : P} {o : S.Op} {k : S.Ret o → Prog S α} {s s' : σ} {r : S.Ret o}
    (h : M.exec p o s = .ok r s') : M.run p (.call o k) s = M.run p (k r) s' := by
  rw [run, h]

theorem run_bind (p : P) (m : Prog S α) (f : α → Prog S β) (s : σ) : M.run p (m >>= f) s = match M.run p m s with
      | .ok a s' => M.run p (f a) s'
      | .block => .block
      | .panic msg => .panic msg := by
  induction m generalizing s with
  | ret a => rfl
  | call o k ih =>
    rw [Prog.call_bind, run, run]
    cases M.exec p o s with
    | ok r s' => exact ih r s'
    | block => rfl
    | panic msg => rfl

theorem run_bind_ok {p : P} {m : Prog S α} {f : α → Prog S β} {s s' : σ} {a : α}
    (h : M.run p m s = .ok a s') : M.run p (m >>= f) s = M.run p (f a) s' := by
  rw [run_bind, h]

theorem run_bind_eq_ok {p : P} {m : Prog S α} {f : α → Prog S β} {s s' : σ} {b : β} :
    M.run p (m >>= f) s = .ok b s' ↔ ∃ a t, M.run p m s = .ok a t ∧ M.run p (f a) t = .ok b s' := by
  rw [run_bind]
  cases M.run p m s with
  | ok a t =>
    constructor
    · intro h
      exact ⟨a, t, rfl, h⟩
    · rintro ⟨a', t', h, h'⟩
      cases h
      exact h'
  | block | panic =>
    constructor
    · intro h
      cases h
    · rintro ⟨_, _, h, -⟩
      cases h

theorem run_op (p : P) (o : S.Op) (s : σ) : M.run p (Prog.op o) s = M.exec p o s := by
  rw [Prog.op, run]
  cases M.exec p o s <;> rfl

end Machine

end Xv6.Lib
