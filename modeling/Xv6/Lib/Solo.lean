import Xv6.Lib.Machine

/-! One thread that runs alone. The outcome of its run is described by a predicate on the answer and on the
state it ends in, and by the messages that a panic may have; a run that waits would wait for ever and meets
no description. Where only the answers matter, panics and waits are left aside. The operations of a run can be
listed. -/

namespace Xv6.Lib

namespace Outcome

variable {σ α : Type} {may may' : String → Prop} {Q Q' : α → σ → Prop} {o : Outcome σ α}

/-- The outcome is an answer in `Q`, or a panic with a message that is allowed. -/
def Holds (may : String → Prop) (Q : α → σ → Prop) : Outcome σ α → Prop
  | ok a s => Q a s
  | block => False
  | panic msg => may msg

@[simp] theorem holds_ok {a : α} {s : σ} : (ok a s).Holds may Q = Q a s := rfl

theorem Holds.mono (h : o.Holds may Q) (hQ : ∀ a s, Q a s → Q' a s) : o.Holds may Q' := by
  cases o with
  | ok a s => exact hQ a s h
  | block => exact h
  | panic msg => exact h

theorem Holds.mono_may (h : o.Holds may Q) (hmay : ∀ msg, may msg → may' msg) : o.Holds may' Q := by
  cases o with
  | ok a s => exact h
  | block => exact h
  | panic msg => exact hmay msg h

theorem Holds.of_ok {a : α} {s : σ} (h : o.Holds may Q) (ho : o = ok a s) : Q a s := by
  rw [ho] at h
  exact h

theorem Holds.exists_ok (h : o.Holds (fun _ => False) Q) : ∃ a s, o = ok a s ∧ Q a s := by
  cases o with
  | ok a s => exact ⟨a, s, rfl, h⟩
  | block => exact h.elim
  | panic msg => exact h.elim

theorem Holds.cases (h : o.Holds may Q) : (∃ a s, o = ok a s ∧ Q a s) ∨ ∃ msg, o = panic msg ∧ may msg := by
  cases o with
  | ok a s => exact Or.inl ⟨a, s, rfl, h⟩
  | block => exact h.elim
  | panic msg => exact Or.inr ⟨msg, rfl, h⟩

/-- The outcome is an answer in `Q`, if it is an answer. -/
def Ensures (Q : α → σ → Prop) : Outcome σ α → Prop
  | ok a s => Q a s
  | _ => True

theorem Holds.ensures (h : o.Holds may Q) : o.Ensures Q := by
  cases o with
  | ok a s => exact h
  | block => trivial
  | panic msg => trivial

theorem Ensures.mono (h : o.Ensures Q) (hQ : ∀ a s, Q a s → Q' a s) : o.Ensures Q' := by
  cases o with
  | ok a s => exact hQ a s h
  | block => trivial
  | panic msg => trivial

theorem Ensures.of_ok {a : α} {s : σ} (h : o.Ensures Q) (ho : o = ok a s) : Q a s := by
  rw [ho] at h
  exact h

theorem holds_mapState {τ : Type} {g : σ → τ} {Q : α → τ → Prop} :
    (o.mapState g).Holds may Q ↔ o.Holds may fun a s => Q a (g s) := by
  cases o <;> exact Iff.rfl

end Outcome

namespace Machine

variable {S : Sig} {P σ α β : Type} {M : Machine S P σ} {p : P} {may : String → Prop} {s : σ}
  {Q : β → σ → Prop} {f : α → Prog S β} {m : Prog S α}

theorem holds_bind : (M.run p (m >>= f) s).Holds may Q ↔
      (M.run p m s).Holds may fun a t => (M.run p (f a) t).Holds may Q := by
  rw [run_bind]
  cases M.run p m s <;> exact Iff.rfl

theorem holds_seq {A : α → σ → Prop}
    (hm : (M.run p m s).Holds may A) (hf : ∀ a t, A a t → (M.run p (f a) t).Holds may Q) :
    (M.run p (m >>= f) s).Holds may Q :=
  holds_bind.2 (hm.mono hf)

theorem ensures_seq {A : α → σ → Prop}
    (hm : (M.run p m s).Ensures A) (hf : ∀ a t, A a t → (M.run p (f a) t).Ensures Q) :
    (M.run p (m >>= f) s).Ensures Q := by
  rw [run_bind]
  cases hrun : M.run p m s with
  | ok a t => exact hf a t (hm.of_ok hrun)
  | block => trivial
  | panic msg => trivial

theorem ensures_any (hf : ∀ a t, (M.run p (f a) t).Ensures Q) : (M.run p (m >>= f) s).Ensures Q := by
  rw [run_bind]
  cases M.run p m s with
  | ok a t => exact hf a t
  | block => trivial
  | panic msg => trivial

theorem run_call_panic {o : S.Op} {k : S.Ret o → Prog S α} {msg : String} (h : M.exec p o s = .panic msg) :
    M.run p (.call o k) s = .panic msg := by
  rw [run, h]

theorem run_call_block {o : S.Op} {k : S.Ret o → Prog S α} (h : M.exec p o s = .block) :
    M.run p (.call o k) s = .block := by
  rw [run, h]

/-! ### The operations of a run -/

variable (M p) in
/-- The operations that a run executes, the one that it panics or waits in included. -/
def trace : Prog S α → σ → List S.Op
  | .ret _, _ => []
  | .call o k, s => o :: match M.exec p o s with
    | .ok r t => trace (k r) t
    | _ => []

end Machine

/-! ### Computations on a state -/

/-- A computation on a state: sequential code that nobody interrupts. -/
def Run (σ α : Type) := σ → Outcome σ α

namespace Run

variable {σ α β : Type} {x : Run σ α} {f : α → Run σ β} {s t : σ} {a : α} {b : β}

instance : Monad (Run σ) where
  pure a := fun s => .ok a s
  bind x f := fun s => match x s with
    | .ok a t => f a t
    | .block => .block
    | .panic msg => .panic msg

def panic (msg : String) : Run σ α := fun _ => .panic msg

theorem bind_ok (h : x s = .ok a t) : (x >>= f) s = f a t := by
  show (match x s with | .ok a t => f a t | .block => .block | .panic msg => .panic msg) = f a t
  rw [h]

theorem bind_panic {msg : String} (h : x s = .panic msg) : (x >>= f) s = .panic msg := by
  show (match x s with | .ok a t => f a t | .block => .block | .panic msg => .panic msg) = .panic msg
  rw [h]

theorem bind_block (h : x s = .block) : (x >>= f) s = .block := by
  show (match x s with | .ok a t => f a t | .block => .block | .panic msg => .panic msg) = .block
  rw [h]

theorem bind_eq_ok {u : σ} : (x >>= f) s = .ok b u ↔ ∃ a t, x s = .ok a t ∧ f a t = .ok b u := by
  constructor
  · intro h
    cases hx : x s with
    | ok a t =>
      rw [bind_ok hx] at h
      exact ⟨a, t, rfl, h⟩
    | block =>
      rw [bind_block hx] at h
      cases h
    | panic msg =>
      rw [bind_panic hx] at h
      cases h
  · rintro ⟨a, t, hx, hf⟩
    rw [bind_ok hx]
    exact hf

end Run

end Xv6.Lib
