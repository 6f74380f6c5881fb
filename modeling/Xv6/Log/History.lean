import Mathlib.Data.List.Induction
import Xv6.Log.Crash

/-! Transactions that are committed one after the other, with a crash in the last one. -/

namespace Xv6

open Lib List

namespace Store

/-- Transactions in the order of their commits, from disk `disk` on: each starts on what those before it have written. -/
structure History (start size : Nat) where
  disk : Nat → Block
  done : List (Txn start size)
  last : Txn start size
  chain : ∀ us t vs, done ++ [last] = us ++ t :: vs → t.disk = applyWrites disk (us.flatMap Txn.writes)

variable {start size : Nat}

/-- What the transactions make of the blocks of `d`, one after the other. -/
def replay (d : Nat → Block) (ts : List (Txn start size)) : Nat → Block :=
  ts.foldl (fun d t b => if b ∈ t.blocks then t.view b else d b) d

/-- A `commit` that has returned leaves the blocks of the transaction. -/
theorem Txn.idle_commit (t : Txn start size) : Idle start size t.post (applyWrites t.disk t.writes) := by
  obtain ⟨s, -, -, hdisk, hidle⟩ := t.committed
  exact hdisk ▸ hidle

namespace History

/-- A first transaction. -/
def single (t : Txn start size) : History start size where
  disk := t.disk
  done := []
  last := t
  chain us u vs heq := by
    rcases us with - | ⟨v, us⟩
    · obtain rfl : t = u := (cons.inj heq).1
      rfl
    · simp at heq

/-- The last transaction is committed, and another one begins. -/
def next (h : History start size) (t : Txn start size) (ht : t.disk = applyWrites h.last.disk h.last.writes) :
    History start size where
  disk := h.disk
  done := h.done ++ [h.last]
  last := t
  chain us u vs heq := by
    rcases vs.eq_nil_or_concat with rfl | ⟨vs, v, rfl⟩
    · obtain ⟨rfl, htu⟩ := append_inj' heq rfl
      obtain rfl : t = u := (cons.inj htu).1
      have hlast : h.last.disk = _ := h.chain h.done h.last [] rfl
      rw [ht, hlast, flatMap_append, flatMap_singleton, applyWrites_append]
    · rw [concat_eq_append, ← cons_append, ← append_assoc] at heq
      exact h.chain us u vs (append_inj' heq rfl).1

end History

theorem History.replayed (h : History start size) {b : Nat} (hb : ¬InLog start size b) {ts : List (Txn start size)} :
    ts <+: h.done → applyWrites h.disk (ts.flatMap Txn.writes) b = replay h.disk ts b := by
  induction ts using reverseRecOn with
  | nil => exact fun _ => rfl
  | append_singleton ts t ih =>
    rintro ⟨vs, hdone⟩
    have hdisk : t.disk = _ := h.chain ts t (vs ++ [h.last]) (by simp [← hdone])
    rw [flatMap_append, flatMap_singleton, applyWrites_append, ← hdisk, t.idle_commit.2 b hb, replay, foldl_concat,
      Txn.post, hdisk, ih ⟨t :: vs, by simp [← hdone]⟩]
    rfl

/-- **Committed transactions survive.** The machine crashes after any number of disk writes of the last transaction of
a history, and any number of times in recovery. The recovery that completes leaves an empty log and, outside of it,
all transactions before, in order, and the last one if its header had been written. -/
theorem history_durable (h : History start size) (k : Nat) (crashes : List Nat) : ∃ s,
    (machine size).run () (recoverFromLog start) (boot (Txn.afterCrashes start size
      (applyWrites h.disk (h.done.flatMap Txn.writes ++ h.last.writes.take k)) crashes)) = .ok () s ∧
    headN (s.disk start) = 0 ∧ ∀ b, ¬InLog start size b → s.disk b = replay h.disk
      (if ∃ w ∈ h.last.writes.take k, w.1 = start then h.done ++ [h.last] else h.done) b := by
  have hdisk : h.last.disk = _ := h.chain h.done h.last [] rfl
  have hsettles := h.last.settles_commit ⟨h.last.writes.drop k, take_append_drop ..⟩
  obtain ⟨s, hrun, hidle, -⟩ := Txn.Settles.recover _ (Txn.Settles.afterCrashes _ crashes hsettles)
  rw [applyWrites_append, ← hdisk]
  refine ⟨s, hrun, hidle.1, fun b hb => ?_⟩
  have hbefore : h.last.disk b = replay h.disk h.done b := by
    rw [hdisk]
    exact h.replayed hb prefix_rfl
  rw [hidle.2 b hb]
  split
  · rw [replay, foldl_concat, Txn.post, hbefore]
    rfl
  · exact hbefore

/-- Block 101 is written once more, with eights. -/
def Txn.again : Txn 2 30 where
  disk := applyWrites two.disk two.writes
  view _ _ := 8
  blocks := [101]
  empty := two.idle_commit.1
  fits := by decide
  fitsLog := by decide
  nodup := by decide
  outside := by simp [InLog]
  range := by simp

/-- Whatever happens in the second transaction, the first is there; block 101 is new just if the header, the second
write, reached the disk. -/
theorem history_durable_again : Txn.again.writes.map Prod.fst = [3, 2, 101, 2] ∧ ∀ k crashes, ∃ s,
    (machine 30).run () (recoverFromLog 2) (boot (Txn.afterCrashes 2 30
      (applyWrites (fun _ => Block.zero) (Txn.two.writes ++ Txn.again.writes.take k)) crashes)) = .ok () s ∧
    s.disk 100 = (fun _ => 7) ∧ (k = 1 → s.disk 101 = fun _ => 7) ∧ (k = 2 → s.disk 101 = fun _ => 8) := by
  refine ⟨by decide, fun k crashes => ?_⟩
  obtain ⟨s, hrun, -, hs⟩ := history_durable ((History.single Txn.two).next Txn.again rfl) k crashes
  have hlast := hs 101 (by simp [InLog])
  refine ⟨s, hrun, ?_, ?_, ?_⟩
  · rw [hs 100 (by simp [InLog])]
    split <;> rfl
  · rintro rfl
    rw [if_neg (by decide)] at hlast
    exact hlast
  · rintro rfl
    rw [if_pos (by decide)] at hlast
    exact hlast

end Store

end Xv6
