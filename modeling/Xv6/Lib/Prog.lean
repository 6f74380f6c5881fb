import Mathlib.Logic.Function.Basic

/-! Programs as finite trees of calls to an interface, and a logic for them. A program either returns
or calls one operation and continues with its answer. A handler replaces every operation by a program
over a lower interface, so that a system is written as layers. The logic tracks a resource: what the
running thread owns and knows. It is given by what one call needs and what it may leave. -/

namespace Xv6.Lib

/-- An interface: operations and the type of the answer of each. -/
structure Sig where
  Op : Type
  Ret : Op → Type

def Sig.empty : Sig := ⟨Empty, fun _ => Unit⟩

/-- A program over an interface. -/
inductive Prog (S : Sig) (α : Type) where
  | ret (a : α) : Prog S α
  | call (o : S.Op) (k : S.Ret o → Prog S α) : Prog S α

namespace Prog

variable {S T : Sig} {α β γ : Type}

/-- The program that calls one operation and returns its answer. -/
def op (o : S.Op) : Prog S (S.Ret o) := call o ret

def bind : Prog S α → (α → Prog S β) → Prog S β
  | ret a, f => f a
  | call o k, f => call o fun r => (k r).bind f

instance : Monad (Prog S) where
  pure := ret
  bind := bind

@[simp] theorem pure_eq (a : α) : (pure a : Prog S α) = ret a := rfl

@[simp] theorem ret_bind (a : α) (f : α → Prog S β) : (ret a >>= f) = f a := rfl

@[simp] theorem call_bind (o : S.Op) (k : S.Ret o → Prog S α) (f : α → Prog S β) :
    (call o k >>= f) = call o fun r => k r >>= f := rfl

@[simp] theorem op_bind (o : S.Op) (f : S.Ret o → Prog S β) : (op o >>= f) = call o f := rfl

theorem bind_ret (m : Prog S α) : m >>= ret = m := by
  induction m with
  | ret a => rfl
  | call o k ih =>
    rw [call_bind]
    congr 1
    funext r
    exact ih r

theorem bind_assoc (m : Prog S α) (f : α → Prog S β) (g : β → Prog S γ) : m >>= f >>= g = m >>= fun a => f a >>= g := by
  induction m with
  | ret a => rfl
  | call o k ih =>
    simp only [call_bind]
    congr 1
    funext r
    exact ih r

instance : LawfulMonad (Prog S) :=
  LawfulMonad.mk' (Prog S) bind_ret (fun _ _ => rfl) bind_assoc

def next : Prog S α → Option S.Op
  | ret _ => none
  | call o _ => some o

theorem next_eq_some {m : Prog S α} {o : S.Op} : m.next = some o ↔ ∃ k, m = call o k := by
  cases m with
  | ret a => simp [next]
  | call o' k =>
    rw [next, Option.some.injEq]
    constructor
    · rintro rfl
      exact ⟨k, rfl⟩
    · rintro ⟨k', h⟩
      cases h
      rfl

/-- Every operation replaced by a program over a lower interface. -/
def interp (h : ∀ o, Prog T (S.Ret o)) : Prog S α → Prog T α
  | ret a => ret a
  | call o k => h o >>= fun r => (k r).interp h

end Prog

/-- A logic of resources `R` over an interface: what a call needs, and the answers and resources it
may leave. -/
structure Logic (S : Sig) (R : Type) where
  pre : R → S.Op → Prop
  post : R → (o : S.Op) → S.Ret o → R → Prop

namespace Logic

variable {S T : Sig} {R α β : Type} (L : Logic S R)

/-- The weakest resource from which a program is safe and ends in `Q`. -/
def wp : Prog S α → (α → R → Prop) → R → Prop
  | .ret a, Q, ρ => Q a ρ
  | .call o k, Q, ρ => L.pre ρ o ∧ ∀ r ρ', L.post ρ o r ρ' → wp (k r) Q ρ'

@[simp] theorem wp_ret (a : α) (Q : α → R → Prop) (ρ : R) : L.wp (.ret a) Q ρ = Q a ρ := rfl

theorem wp_call (o : S.Op) (k : S.Ret o → Prog S α) (Q : α → R → Prop) (ρ : R) :
    L.wp (.call o k) Q ρ = (L.pre ρ o ∧ ∀ r ρ', L.post ρ o r ρ' → L.wp (k r) Q ρ') := rfl

variable {Q : α → R → Prop}

theorem pre_of_next {m : Prog S α} {ρ : R} {o : S.Op} (h : L.wp m Q ρ) (hnext : m.next = some o) : L.pre ρ o := by
  obtain ⟨k, rfl⟩ := Prog.next_eq_some.1 hnext
  exact h.1

variable {L} in
theorem wp_mono {m : Prog S α} {Q Q' : α → R → Prop} (hQ : ∀ a ρ, Q a ρ → Q' a ρ) :
    ∀ {ρ : R}, L.wp m Q ρ → L.wp m Q' ρ := by
  induction m with
  | ret a => exact fun h => hQ a _ h
  | call o k ih => exact fun h => ⟨h.1, fun r ρ' hr => ih r (h.2 r ρ' hr)⟩

variable {L} in
theorem wp_bind {m : Prog S α} {f : α → Prog S β} {Q : β → R → Prop} :
    ∀ {ρ : R}, L.wp (m >>= f) Q ρ ↔ L.wp m (fun a ρ' => L.wp (f a) Q ρ') ρ := by
  induction m with
  | ret a => exact Iff.rfl
  | call o k ih =>
    intro ρ
    rw [Prog.call_bind, wp_call, wp_call]
    exact and_congr_right fun _ => forall_congr' fun r => forall_congr' fun ρ' =>
      imp_congr_right fun _ => ih r

variable {L} in
theorem wp_seq {m : Prog S α} {f : α → Prog S β} {Q : β → R → Prop} {A : α → R → Prop} {ρ : R}
    (hm : L.wp m A ρ) (hf : ∀ a ρ', A a ρ' → L.wp (f a) Q ρ') : L.wp (m >>= f) Q ρ :=
  wp_bind.2 (wp_mono hf hm)

variable {L} in
theorem wp_step {o : S.Op} {k : S.Ret o → Prog S α} {ρ : R} (hpre : L.pre ρ o)
    (hk : ∀ r ρ', L.post ρ o r ρ' → L.wp (k r) Q ρ') : L.wp (Prog.op o >>= k) Q ρ := ⟨hpre, hk⟩

/-- A program safe in the upper logic stays safe when every operation is replaced by a program that
meets the operation's specification in the lower logic, where the resources of the upper logic are
some of the lower one's. -/
theorem wp_interp {R' : Type} {K : Logic T R'} {e : R → R'} {h : ∀ o, Prog T (S.Ret o)}
    (hspec : ∀ ρ o, L.pre ρ o → K.wp (h o) (fun r ρ' => ∃ ρ₁, L.post ρ o r ρ₁ ∧ ρ' = e ρ₁) (e ρ))
    {m : Prog S α} :
    ∀ {ρ : R}, L.wp m Q ρ → K.wp (m.interp h) (fun a ρ' => ∃ ρ₁, Q a ρ₁ ∧ ρ' = e ρ₁) (e ρ) := by
  induction m with
  | ret a => exact fun hm => ⟨_, hm, rfl⟩
  | call o k ih =>
    intro ρ hm
    refine wp_seq (hspec ρ o hm.1) fun r ρ' hr => ?_
    obtain ⟨ρ₁, hpost, rfl⟩ := hr
    exact ih r (hm.2 r ρ₁ hpost)

end Logic

end Xv6.Lib
