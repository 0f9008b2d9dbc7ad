/-
  Xv6.Lib.Writes — sequences of atomic writes to a store.

  A program that writes a store cell by cell is the list of its writes; if it
  stops half-way, a prefix of the list has been applied.
-/
import Mathlib.Logic.Function.Basic

namespace Xv6.Lib

variable {α β : Type} [DecidableEq α]

/-- Apply writes from the left. -/
def applyWrites (d : α → β) : List (α × β) → α → β
  | [] => d
  | w :: ws => applyWrites (Function.update d w.1 w.2) ws

theorem applyWrites_append (d : α → β) (ws vs : List (α × β)) :
    applyWrites d (ws ++ vs) = applyWrites (applyWrites d ws) vs := by
  induction ws generalizing d with
  | nil => rfl
  | cons w ws ih => exact ih _

/-- A cell that is not written keeps its value. -/
theorem applyWrites_frame {d : α → β} {ws : List (α × β)} {x : α} (h : ∀ w ∈ ws, w.1 ≠ x) : applyWrites d ws x = d x := by
  induction ws generalizing d with
  | nil => rfl
  | cons w ws ih =>
    show applyWrites (Function.update d w.1 w.2) ws x = d x
    rw [ih fun w' hw' => h w' (List.mem_cons_of_mem w hw'),
      Function.update_of_ne (Ne.symm (h w List.mem_cons_self))]

end Xv6.Lib
