/-
  Xv6.Lib.Holders — how many cells of a finite table hold a value.

  A reference count is right when it is the number of cells that point to
  what it counts.  `holders_update` says what writing one cell does to that
  number; everything else follows by arithmetic.

  `Exact mark t`: the marked values are held, each by one cell, as the blocks
  that an allocation bitmap marks are held by the structures on disk.
-/
import Mathlib.Data.Fintype.Card
import Mathlib.Data.Finset.Card

namespace Xv6.Lib

open Function (update update_of_ne update_self)

variable {ι α : Type} [Fintype ι] [DecidableEq α]

/-- The number of cells of `t` that hold `a`. -/
def holders (t : ι → Option α) (a : α) : Nat := (Finset.univ.filter fun i => t i = some a).card

variable {t : ι → Option α} {a : α}

theorem holders_eq_zero : holders t a = 0 ↔ ∀ i, t i ≠ some a := by
  unfold holders
  rw [Finset.card_eq_zero, Finset.filter_eq_empty_iff]
  exact ⟨fun h i => h (Finset.mem_univ i), fun h i _ => h i⟩

theorem holders_none (a : α) : holders (fun _ : ι => (none : Option α)) a = 0 :=
  holders_eq_zero.mpr fun _ => (Option.some_ne_none a).symm

variable {i : ι}

theorem holders_pos (h : t i = some a) : 0 < holders t a :=
  Nat.pos_of_ne_zero fun h0 => holders_eq_zero.mp h0 i h

/-- A value that is held at most once is held by one cell. -/
theorem holders_unique (h : holders t a ≤ 1) {j : ι} (hi : t i = some a) (hj : t j = some a) : i = j := by
  exact Finset.card_le_one.mp h i (Finset.mem_filter.mpr ⟨Finset.mem_univ i, hi⟩) j
    (Finset.mem_filter.mpr ⟨Finset.mem_univ j, hj⟩)

variable [DecidableEq ι]

/-- The cells other than `i` that hold `a`. -/
theorem holders_split (t : ι → Option α) (i : ι) (a : α) :
    holders t a = ((Finset.univ.erase i).filter fun j => t j = some a).card
      + if t i = some a then 1 else 0 := by
  unfold holders
  have hsplit : Finset.univ = insert i (Finset.univ.erase i) :=
    (Finset.insert_erase (Finset.mem_univ i)).symm
  rw [hsplit, Finset.filter_insert, Finset.erase_insert_eq_erase]
  split
  · rw [Finset.card_insert_of_notMem (by simp), Finset.erase_idem]
  · rw [Finset.erase_idem, Nat.add_zero]

/-- **Writing one cell** adds the new contents and takes away the old. -/
theorem holders_update (t : ι → Option α) (i : ι) (x : Option α) (a : α) :
    holders (update t i x) a + (if t i = some a then 1 else 0)
      = holders t a + if x = some a then 1 else 0 := by
  have hrest : ((Finset.univ.erase i).filter fun j => update t i x j = some a)
      = (Finset.univ.erase i).filter fun j => t j = some a := by
    refine Finset.filter_congr fun j hj => ?_
    rw [update_of_ne (Finset.ne_of_mem_erase hj)]
  rw [holders_split (update t i x) i a, holders_split t i a, hrest, update_self]
  omega

/-- Writing an empty cell. -/
theorem holders_fill (hi : t i = none) (a b : α) :
    holders (update t i (some a)) b = holders t b + if b = a then 1 else 0 := by
  have hup := holders_update t i (some a) b
  simpa [hi, eq_comm (a := a)] using hup

/-- Clearing a cell. -/
theorem holders_clear (hi : t i = some a) (b : α) :
    holders (update t i none) b + (if b = a then 1 else 0) = holders t b := by
  have hup := holders_update t i none b
  simpa [hi, eq_comm (a := a)] using hup

/-- The same for signed counts. -/
theorem holders_update_int (t : ι → Option α) (i : ι) (x : Option α) (a : α) :
    (holders (update t i x) a : Int)
      = holders t a - (if t i = some a then 1 else 0) + if x = some a then 1 else 0 := by
  have hup := holders_update t i x a
  split_ifs at hup ⊢ <;> omega

/-! ## Marks: a value is marked when one cell holds it. -/

/-- Every marked value is held once and no other is held. -/
def Exact (mark : α → Bool) (t : ι → Option α) : Prop :=
  ∀ a, holders t a = if mark a then 1 else 0

variable {mark : α → Bool}

omit [DecidableEq ι] in
theorem Exact.marked (h : Exact mark t) (hi : t i = some a) : mark a = true := by
  by_contra hno
  have ha := h a
  rw [if_neg hno] at ha
  exact holders_eq_zero.mp ha i hi

omit [DecidableEq ι] in
theorem Exact.unique (h : Exact mark t) {j : ι} (hi : t i = some a) (hj : t j = some a) : i = j := by
  refine holders_unique ?_ hi hj
  rw [h a]
  split <;> omega

omit [DecidableEq ι] in
theorem Exact.unheld (h : Exact mark t) (ha : mark a = false) (i : ι) : t i ≠ some a := by
  intro hi
  rw [h.marked hi] at ha
  cases ha

/-- A held value is given up and its mark removed. -/
theorem Exact.free (h : Exact mark t) (hi : t i = some a) : Exact (update mark a false) (update t i none) := by
  intro b
  have hb := h b
  have hup := holders_update t i none b
  rw [hi] at hup
  by_cases hba : b = a
  · subst hba
    rw [update_self]
    simp only [if_true, reduceCtorEq, if_false] at hup ⊢
    rw [h.marked hi] at hb
    simp only [if_true] at hb
    omega
  · rw [update_of_ne hba]
    simp only [Option.some.injEq, Ne.symm hba, if_false, reduceCtorEq] at hup
    omega

/-- An unmarked value is marked and given to an empty cell. -/
theorem Exact.take (h : Exact mark t)
    (ha : mark a = false) (hi : t i = none) : Exact (update mark a true) (update t i (some a)) := by
  intro b
  have hb := h b
  have hup := holders_update t i (some a) b
  rw [hi] at hup
  by_cases hba : b = a
  · subst hba
    rw [update_self]
    rw [ha] at hb
    simp only [if_true, reduceCtorEq, if_false, Bool.false_eq_true] at hup hb ⊢
    omega
  · rw [update_of_ne hba]
    simp only [Option.some.injEq, Ne.symm hba, if_false, reduceCtorEq] at hup
    omega

end Xv6.Lib
