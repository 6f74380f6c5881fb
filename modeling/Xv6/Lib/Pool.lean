import Xv6.Lib.Solo
import Mathlib.Logic.Hydra
import Mathlib.Data.Fintype.Basic

/-! Threads that run to a result over one shared state. The run of one thread can be followed operation by
operation, so that what holds along it is known at every point where another thread may come in. As a
program is a finite tree, finitely many threads cannot step for ever. -/

namespace Xv6.Lib

open Function Finset

namespace Prog

variable {S : Sig} {α β : Type} {A B : S.Op → Prop}

/-- All operations that a program can call. -/
def All (A : S.Op → Prop) : Prog S α → Prop
  | .ret _ => True
  | .call o k => A o ∧ ∀ r, All A (k r)

@[simp] theorem all_op (o : S.Op) : All A (op o) ↔ A o := ⟨fun h => h.1, fun h => ⟨h, fun _ => trivial⟩⟩

theorem All.bind {m : Prog S α} {f : α → Prog S β} (hm : m.All A) (hf : ∀ a, (f a).All A) : (m >>= f).All A := by
  induction m with
  | ret a => exact hf a
  | call o k ih => exact ⟨hm.1, fun r => ih r (hm.2 r)⟩

theorem All.op_bind {o : S.Op} {f : S.Ret o → Prog S β} (ho : A o) (hf : ∀ r, (f r).All A) : (op o >>= f).All A :=
  ⟨ho, hf⟩

/-- What a program becomes by one call. -/
def Child (m' m : Prog S α) : Prop := ∃ o k r, m = .call o k ∧ m' = k r

theorem child_wellFounded : WellFounded (Child : Prog S α → Prog S α → Prop) := by
  refine ⟨fun m => ?_⟩
  induction m with
  | ret a =>
    refine ⟨_, fun m' h => ?_⟩
    obtain ⟨o, k, r, hm, -⟩ := h
    cases hm
  | call o k ih =>
    refine ⟨_, fun m' h => ?_⟩
    obtain ⟨o', k', r, hm, rfl⟩ := h
    cases hm
    exact ih r

end Prog

/-- A shared state and what is left of the program of every thread. -/
structure Pool (S : Sig) (P σ α : Type) where
  st : σ
  prog : P → Prog S α

namespace Machine

variable {S : Sig} {P σ α β : Type} (M : Machine S P σ)

/-- The states of a run of thread `p` alone meet `I`, and its operations meet `A`. -/
def Along (p : P) (A : S.Op → Prop) (I : σ → Prop) : Prog S α → σ → Prop
  | .ret _, s => I s
  | .call o k, s => I s ∧ A o ∧ ∀ r t, M.exec p o s = .ok r t → Along p A I (k r) t

section Along

variable {M} {p : P} {A B : S.Op → Prop} {I : σ → Prop} {s : σ}

theorem Along.start {m : Prog S α} (h : M.Along p A I m s) : I s := by
  cases m with
  | ret a => exact h
  | call o k => exact h.1

theorem Along.bind {m : Prog S α} {f : α → Prog S β} (hm : M.Along p A I m s)
    (hf : ∀ a t, M.run p m s = .ok a t → I t → M.Along p A I (f a) t) : M.Along p A I (m >>= f) s := by
  induction m generalizing s with
  | ret a => exact hf a s rfl hm
  | call o k ih =>
    refine ⟨hm.1, hm.2.1, fun r t hexec => ih r (hm.2.2 r t hexec) fun a u hrun hu => hf a u ?_ hu⟩
    rw [run_call_ok hexec, hrun]

theorem along_of_all {m : Prog S α} (hm : m.All B)
    (hkeep : ∀ o, B o → A o ∧ ∀ s r t, I s → M.exec p o s = .ok r t → I t) (hs : I s) : M.Along p A I m s := by
  induction m generalizing s with
  | ret a => exact hs
  | call o k ih =>
    obtain ⟨ho, hexec⟩ := hkeep o hm.1
    exact ⟨hs, ho, fun r t hok => ih r (hm.2 r) (hexec s r t hs hok)⟩

end Along

variable [DecidableEq P]

/-- Thread `p` executes operation `o`. -/
inductive Moves (p : P) (o : S.Op) : Pool S P σ α → Pool S P σ α → Prop where
  | mk {c : Pool S P σ α} {k : S.Ret o → Prog S α} {r : S.Ret o} {s : σ} (hprog : c.prog p = .call o k)
      (hexec : M.exec p o c.st = .ok r s) : Moves p o c ⟨s, update c.prog p (k r)⟩

/-- The threads have made the calls in the list, in this order. -/
inductive Runs (c₀ : Pool S P σ α) : List (P × S.Op) → Pool S P σ α → Prop where
  | refl : Runs c₀ [] c₀
  | step {l : List (P × S.Op)} {c c' : Pool S P σ α} {p : P} {o : S.Op} (hrun : Runs c₀ l c)
      (hmove : M.Moves p o c c') : Runs c₀ (l ++ [(p, o)]) c'

theorem moves_wellFounded [Fintype P] : WellFounded fun c' c : Pool S P σ α => ∃ p o, M.Moves p o c c' := by
  refine Subrelation.wf ?_ (InvImage.wf (fun c : Pool S P σ α => Finset.univ.val.map c.prog)
    Prog.child_wellFounded.cutExpand)
  rintro _ _ ⟨p, o, ⟨hprog, hexec⟩⟩
  rename_i c k r s
  refine ⟨{k r}, c.prog p, fun m hm => ?_, ?_⟩
  · rw [Multiset.mem_singleton.1 hm]
    exact ⟨o, k, r, hprog, rfl⟩
  · have huniv : (Finset.univ : Finset P).val = p ::ₘ (Finset.univ.erase p).val := by
      rw [← insert_val_of_notMem (notMem_erase p _), insert_erase (mem_univ p)]
    have hrest : (Finset.univ.erase p).val.map (update c.prog p (k r)) = (Finset.univ.erase p).val.map c.prog := by
      refine Multiset.map_congr rfl fun q hq => ?_
      rw [update_of_ne (ne_of_mem_erase hq)]
    simp only [huniv, Multiset.map_cons, hrest, update_self]
    rw [Multiset.add_comm, Multiset.singleton_add, Multiset.add_comm _ {k r}, Multiset.singleton_add, Multiset.cons_swap]

end Machine

end Xv6.Lib
