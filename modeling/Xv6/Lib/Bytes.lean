/-
  Xv6.Lib.Bytes — little-endian numbers in memory.

  `leNat data o n` reads an `n`-byte number at offset `o`; `leByte v j` is
  byte `j` of a number.  Writing the bytes of a number and reading them back
  gives the number modulo `256 ^ n` (`leNat_of_bytes`).
-/
import Mathlib.Data.Nat.ModEq
import Mathlib.Data.Nat.Bitwise

namespace Xv6.Lib

/-- Byte `j` of a number. -/
def leByte (v j : Nat) : UInt8 := UInt8.ofNat (v / 256 ^ j)

/-- The `n`-byte number at offset `o`. -/
def leNat (data : Nat → UInt8) (o : Nat) : Nat → Nat
  | 0 => 0
  | n + 1 => leNat data o n + (data (o + n)).toNat * 256 ^ n

variable {data : Nat → UInt8} {o : Nat}

/-- A number depends on its bytes only. -/
theorem leNat_congr {data' : Nat → UInt8} {o' : Nat} (n : Nat) (h : ∀ j < n, data' (o' + j) = data (o + j)) :
    leNat data' o' n = leNat data o n := by
  induction n with
  | zero => rfl
  | succ n ih =>
    have hlow := ih fun j hj => h j (Nat.lt_succ_of_lt hj)
    rw [leNat, leNat, hlow, h n (Nat.lt_succ_self n)]

/-- **The bytes of a number read back.** -/
theorem leNat_of_bytes {v : Nat} (n : Nat) (h : ∀ j < n, data (o + j) = leByte v j) : leNat data o n = v % 256 ^ n := by
  induction n with
  | zero => rw [Nat.pow_zero, Nat.mod_one, leNat]
  | succ n ih =>
    have hlow := ih fun j hj => h j (Nat.lt_succ_of_lt hj)
    have hbyte : (data (o + n)).toNat = v / 256 ^ n % 256 := by
      rw [h n (Nat.lt_succ_self n), leByte, UInt8.toNat_ofNat']
    rw [leNat, hlow, hbyte, Nat.mod_pow_succ, Nat.mul_comm (256 ^ n)]

theorem leNat_lt (data : Nat → UInt8) (o n : Nat) : leNat data o n < 256 ^ n := by
  induction n with
  | zero => exact Nat.one_pos
  | succ n ih =>
    have hbyte : (data (o + n)).toNat ≤ 255 := Nat.le_of_lt_succ (data (o + n)).toNat_lt
    have hmul := Nat.mul_le_mul_right (256 ^ n) hbyte
    rw [leNat, Nat.pow_succ]
    omega

/-- **The bytes of a number that was read** are those it was read from. -/
theorem leByte_leNat (data : Nat → UInt8) (o n : Nat) {j : Nat} (hj : j < n) : leByte (leNat data o n) j = data (o + j) := by
  have hbyte : leNat data o n / 256 ^ j % 256 = (data (o + j)).toNat := by
    induction n with
    | zero => omega
    | succ n ih =>
      rw [leNat]
      rcases Nat.lt_succ_iff_lt_or_eq.mp hj with hlt | rfl
      · obtain ⟨d, rfl⟩ : ∃ d, n = j + 1 + d := ⟨n - (j + 1), by omega⟩
        rw [← ih hlt, show (data (o + (j + 1 + d))).toNat * 256 ^ (j + 1 + d) = 256 ^ j * (256 * ((data (o + (j + 1 + d))).toNat * 256 ^ d))
          by rw [Nat.pow_add, Nat.pow_succ]; ac_rfl, Nat.add_mul_div_left _ _ (Nat.pow_pos (by decide)), Nat.add_mul_mod_self_left]
      · rw [Nat.mul_comm, Nat.add_mul_div_left _ _ (Nat.pow_pos (by decide)), Nat.div_eq_of_lt (leNat_lt data o j), Nat.zero_add,
          Nat.mod_eq_of_lt (data (o + j)).toNat_lt]
  unfold leByte
  apply UInt8.toNat_inj.mp
  rw [UInt8.toNat_ofNat']
  exact hbyte

theorem leNat_zero (n : Nat) (h : ∀ j < n, data (o + j) = 0) : leNat data o n = 0 := by
  induction n with
  | zero => rfl
  | succ n ih =>
    have hlow := ih fun j hj => h j (Nat.lt_succ_of_lt hj)
    rw [leNat, hlow, h n (Nat.lt_succ_self n), UInt8.toNat_zero, Nat.zero_mul]

end Xv6.Lib
