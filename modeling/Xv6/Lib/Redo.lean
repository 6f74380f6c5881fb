import Mathlib.Logic.Function.Basic
import Mathlib.Data.List.Basic

/-! Lists of writes to a store of cells. A redo log rests on two facts: a cell ends with the last value
written to it, whatever it held before, and so replaying all writes over any part of them gives what
replaying them once gives. -/

namespace Xv6.Lib

variable {κ β : Type} [DecidableEq κ]

/-- The store after the writes, in order. -/
def applyWrites (d : κ → β) : List (κ × β) → κ → β
  | [] => d
  | w :: ws => applyWrites (Function.update d w.1 w.2) ws

theorem applyWrites_append (d : κ → β) (us ws : List (κ × β)) :
    applyWrites d (us ++ ws) = applyWrites (applyWrites d us) ws := by
  induction us generalizing d with
  | nil => rfl
  | cons u us ih => exact ih _

theorem applyWrites_of_not_mem {d : κ → β} {ws : List (κ × β)} {x : κ} (hx : ∀ w ∈ ws, w.1 ≠ x) :
    applyWrites d ws x = d x := by
  induction ws generalizing d with
  | nil => rfl
  | cons w ws ih =>
    rw [applyWrites, ih fun v hv => hx v (List.mem_cons_of_mem _ hv)]
    exact Function.update_of_ne (hx w List.mem_cons_self).symm _ _

theorem applyWrites_of_mem {d : κ → β} {ws : List (κ × β)} (hnodup : (ws.map Prod.fst).Nodup)
    {w : κ × β} (hw : w ∈ ws) : applyWrites d ws w.1 = w.2 := by
  induction ws generalizing d with
  | nil => cases hw
  | cons v ws ih =>
    rw [List.map_cons, List.nodup_cons] at hnodup
    rw [applyWrites]
    rcases List.mem_cons.1 hw with rfl | hmem
    · rw [applyWrites_of_not_mem, Function.update_self]
      intro u hu heq
      exact hnodup.1 (heq ▸ List.mem_map_of_mem hu)
    · exact ih hnodup.2 hmem

end Xv6.Lib
