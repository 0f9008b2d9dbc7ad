/-
  Xv6.Lib.Ring — the contents of a circular buffer.

  A circular buffer of `N` cells is an array together with a position `s`
  and a number `k` of live cells.  Its contents are the `k` cells from `s`
  on, read round the end of the array: `window data N s k`.

  Positions are free-running: only `s % N` matters, so the
  same lemmas serve buffers with reduced indices and buffers with counters
  that are never reset.

  Main results:
    * `window_push` — storing at the cell after the live ones appends,
    * `window_pop`  — the first live cell, and the window without it,
    * `window_append` — a window is its first cells and then the others.
-/
import Mathlib.Data.List.Range
import Mathlib.Logic.Function.Basic

namespace Xv6.Lib

variable {α : Type}

/-- The `k` live cells from position `s` on. -/
def window (data : Nat → α) (N s k : Nat) : List α :=
  (List.range k).map fun j => data ((s + j) % N)

@[simp] theorem window_length (data : Nat → α) (N s k : Nat) : (window data N s k).length = k := by
  simp [window]

/-- Only the position modulo the size matters. -/
theorem window_congr (data : Nat → α) {N s t : Nat} (k : Nat) (h : s % N = t % N) :
    window data N s k = window data N t k := by
  apply List.map_congr_left
  intro j _
  rw [Nat.add_mod s, Nat.add_mod t, h]

/-- **Taking**: the first live cell and the rest. -/
theorem window_pop (data : Nat → α) (N s k : Nat) :
    window data N s (k + 1) = data (s % N) :: window data N (s + 1) k := by
  simp only [window, List.range_succ_eq_map, List.map_cons, List.map_map, Nat.add_zero]
  congr 1
  apply List.map_congr_left
  intro j _
  show data ((s + (j + 1)) % N) = data ((s + 1 + j) % N)
  congr 2
  omega

/-- The first `k` cells and the `l` cells after them. -/
theorem window_append (data : Nat → α) (N s k l : Nat) :
    window data N s (k + l) = window data N s k ++ window data N (s + k) l := by
  simp only [window, List.range_add, List.map_append, List.map_map]
  congr 1
  apply List.map_congr_left
  intro j _
  show data ((s + (k + j)) % N) = data ((s + k + j) % N)
  rw [Nat.add_assoc]

/-- Two positions less than `N` apart are different cells. -/
theorem mod_ne_of_lt {N s j k : Nat} (hjk : j < k) (hk : k < N) : (s + j) % N ≠ (s + k) % N := by
  intro h
  have hdvd : (s + k - (s + j)) % N = 0 := Nat.sub_mod_eq_zero_of_mod_eq h.symm
  have heq : s + k - (s + j) = k - j := by omega
  rw [heq, Nat.mod_eq_of_lt (by omega)] at hdvd
  omega

/-- **Storing** at the cell after the live ones appends, as long as there is
room. -/
theorem window_push (data : Nat → α) {N s k : Nat} (x : α) (hk : k < N) :
    window (Function.update data ((s + k) % N) x) N s (k + 1) = window data N s k ++ [x] := by
  simp only [window, List.range_succ, List.map_append, List.map_cons, List.map_nil,
    Function.update_self]
  congr 1
  apply List.map_congr_left
  intro j hj
  rw [List.mem_range] at hj
  exact Function.update_of_ne (mod_ne_of_lt hj hk) ..

/-- **Storing** at the cell before the live ones. -/
theorem window_pushfront (data : Nat → α) {N s k : Nat} (x : α) (hk : k < N) :
    window (Function.update data (s % N) x) N s (k + 1) = x :: window data N (s + 1) k := by
  rw [window_pop, Function.update_self]
  congr 1
  apply List.map_congr_left
  intro j hj
  rw [List.mem_range] at hj
  rw [Nat.add_assoc, Nat.add_comm 1 j]
  exact Function.update_of_ne (mod_ne_of_lt (Nat.succ_pos j) (by omega)).symm ..

end Xv6.Lib
