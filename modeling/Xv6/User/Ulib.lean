/-
  Xv6.User.Ulib — the two versions of `memmove`.

  The kernel copies backwards only if the destination starts inside the
  source, the user library whenever it does not start below it.  A loop may
  overwrite the source: `copyUp_eq` and `copyDown_eq` say when each byte is
  read before that.

  Main result: `memmove_exact`.
-/
import Mathlib.Logic.Function.Basic

namespace Xv6

open Function (update update_apply)

/-! ## §1. The loops. -/

/-- `while(n-- > 0) *d++ = *s++;` -/
def copyUp : Nat → (Nat → UInt8) → Nat → Nat → Nat → UInt8
  | 0, mem, _, _ => mem
  | n + 1, mem, d, s => copyUp n (update mem d (mem s)) (d + 1) (s + 1)

/-- `while(n-- > 0) *--d = *--s;` -/
def copyDown : Nat → (Nat → UInt8) → Nat → Nat → Nat → UInt8
  | 0, mem, _, _ => mem
  | n + 1, mem, d, s => copyDown n (update mem (d - 1) (mem (s - 1))) (d - 1) (s - 1)

/-- `memmove` of `kernel/string.c`. -/
def memmove (mem : Nat → UInt8) (dst src n : Nat) : (Nat → UInt8) × Nat :=
  if n = 0 then (mem, dst)
  else if src < dst ∧ src + n > dst then (copyDown n mem (dst + n) (src + n), dst)
  else (copyUp n mem dst src, dst)

/-- `memmove` of `user/ulib.c`; `n` is an `int`. -/
def Ulib.memmove (mem : Nat → UInt8) (dst src : Nat) (n : Int) : (Nat → UInt8) × Nat :=
  if src > dst then (copyUp n.toNat mem dst src, dst)
  else (copyDown n.toNat mem (dst + n).toNat (src + n).toNat, dst)

/-! ## §2. What they leave in memory. -/

/-- The `n` bytes at `src` are at `dst`, and the rest of the memory is as before. -/
def moved (mem : Nat → UInt8) (dst src n a : Nat) : UInt8 :=
  if dst ≤ a ∧ a < dst + n then mem (src + (a - dst)) else mem a

variable (mem : Nat → UInt8) (dst src n : Nat)

theorem moved_zero : moved mem dst src 0 = mem := by
  funext a
  exact if_neg (by omega)

/-- Forwards, if no byte of the source is above a destination inside it. -/
theorem copyUp_eq (n : Nat) : ∀ (mem : Nat → UInt8) (d s : Nat), ¬ (s < d ∧ d < s + n) →
    copyUp n mem d s = moved mem d s n := by
  induction n with
  | zero => exact fun mem d s _ => (moved_zero mem d s).symm
  | succ n ih =>
    intro mem d s hds
    rw [copyUp, ih _ _ _ (by omega)]
    funext a
    unfold moved
    by_cases ha : a = d
    · rw [if_neg (by omega), if_pos (by omega), ha, Nat.sub_self, update_apply, if_pos rfl, Nat.add_zero]
    by_cases hin : d ≤ a ∧ a < d + (n + 1)
    · -- the byte read here has not been written yet
      have hs : s + 1 + (a - (d + 1)) = s + (a - d) := by omega
      rw [if_pos (by omega), if_pos hin, hs, update_apply, if_neg (by omega)]
    · rw [if_neg (by omega), if_neg hin, update_apply, if_neg ha]

/-- Backwards, if no byte of the source is below a destination that ends inside it. -/
theorem copyDown_eq (n : Nat) : ∀ (mem : Nat → UInt8) (d s : Nat), ¬ (d < s ∧ s < d + n) →
    copyDown n mem (d + n) (s + n) = moved mem d s n := by
  induction n with
  | zero => exact fun mem d s _ => (moved_zero mem d s).symm
  | succ n ih =>
    intro mem d s hds
    have hstep := ih (update mem (d + n) (mem (s + n))) d s (by omega)
    refine Eq.trans hstep ?_
    funext a
    unfold moved
    by_cases ha : a = d + n
    · have hs : s + (a - d) = s + n := by omega
      rw [if_neg (by omega), if_pos (by omega), hs, ha, update_apply, if_pos rfl]
    by_cases hin : d ≤ a ∧ a < d + (n + 1)
    · rw [if_pos (by omega), if_pos hin, update_apply, if_neg (by omega)]
    · rw [if_neg (by omega), if_neg hin, update_apply, if_neg ha]

theorem memmove_eq : memmove mem dst src n = (moved mem dst src n, dst) := by
  unfold memmove
  split
  · rename_i hn
    rw [hn, moved_zero]
  split
  · rw [copyDown_eq n mem dst src (by omega)]
  · rw [copyUp_eq n mem dst src (by omega)]

theorem Ulib.memmove_eq : Ulib.memmove mem dst src n = (moved mem dst src n, dst) := by
  unfold Ulib.memmove
  split
  · rw [Int.toNat_natCast, copyUp_eq n mem dst src (by omega)]
  · have hn : ∀ a : Nat, ((a : Int) + n).toNat = a + n := by omega
    rw [Int.toNat_natCast, hn, hn, copyDown_eq n mem dst src (by omega)]

/-- **Overlapping copies**: both versions put the `n` bytes that were at the source
at the destination and change no other byte. -/
theorem memmove_exact (mem : Nat → UInt8) (dst src n : Nat) :
    (∀ i < n, (memmove mem dst src n).1 (dst + i) = mem (src + i))
      ∧ (∀ a, a < dst ∨ dst + n ≤ a → (memmove mem dst src n).1 a = mem a)
      ∧ Ulib.memmove mem dst src n = memmove mem dst src n := by
  rw [Ulib.memmove_eq, memmove_eq]
  refine ⟨fun i hi => ?_, fun a ha => if_neg (by omega), rfl⟩
  show moved mem dst src n (dst + i) = _
  rw [moved, if_pos (by omega), Nat.add_sub_cancel_left]

end Xv6
