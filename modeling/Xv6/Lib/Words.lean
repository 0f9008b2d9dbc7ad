/-
  Xv6.Lib.Words — 64-bit words in a block of bytes.

  A block is its bytes by offset.  Word `k` is the bytes `8k .. 8k+7`, the
  lowest first.  Writing is always "some of the words": `setWords data P f`
  gives the words chosen by `P` the values `f`.

  Main results:
    * `word_setWords`  — the words written, and the others,
    * `word_copyWords` — copying the first words of another block.
-/
import Mathlib.Data.UInt
import Mathlib.Tactic.NormNum

namespace Xv6.Lib

/-- Byte `j` of a word. -/
def byteOf (v : UInt64) (j : Nat) : UInt8 := UInt8.ofNat (v.toNat / 256 ^ j)

/-- Word `k` of a block. -/
def word (data : Nat → UInt8) (k : Nat) : UInt64 :=
  UInt64.ofNat ((data (8 * k)).toNat + (data (8 * k + 1)).toNat * 256 + (data (8 * k + 2)).toNat * 256 ^ 2
    + (data (8 * k + 3)).toNat * 256 ^ 3 + (data (8 * k + 4)).toNat * 256 ^ 4 + (data (8 * k + 5)).toNat * 256 ^ 5
    + (data (8 * k + 6)).toNat * 256 ^ 6 + (data (8 * k + 7)).toNat * 256 ^ 7)

/-- Write the words that `P` chooses. -/
def setWords (data : Nat → UInt8) (P : Nat → Bool) (f : Nat → UInt64) : Nat → UInt8 := fun o =>
  if P (o / 8) then byteOf (f (o / 8)) (o % 8) else data o

/-- Copy the first `n` words. -/
def copyWords (dst src : Nat → UInt8) (n : Nat) : Nat → UInt8 := fun o =>
  if o < 8 * n then src o else dst o

/-- A word is made of its bytes. -/
theorem word_byteOf {data : Nat → UInt8} {k : Nat} {v : UInt64}
    (h : ∀ j < 8, data (8 * k + j) = byteOf v j) : word data k = v := by
  have h0 := h 0 (by decide)
  rw [Nat.add_zero] at h0
  rw [word, h0, h 1 (by decide), h 2 (by decide), h 3 (by decide), h 4 (by decide), h 5 (by decide), h 6 (by decide),
    h 7 (by decide)]
  apply UInt64.toNat_inj.mp
  have hv := v.toNat_lt
  simp only [byteOf, UInt8.toNat_ofNat', UInt64.toNat_ofNat']
  norm_num
  omega

/-- Words depend on their bytes only. -/
theorem word_congr {data data' : Nat → UInt8} {k : Nat} (h : ∀ j < 8, data' (8 * k + j) = data (8 * k + j)) :
    word data' k = word data k := by
  have h0 := h 0 (by decide)
  rw [Nat.add_zero] at h0
  rw [word, h0, h 1 (by decide), h 2 (by decide), h 3 (by decide), h 4 (by decide), h 5 (by decide), h 6 (by decide),
    h 7 (by decide)]
  rfl

/-- **The words written, and the others.** -/
theorem word_setWords (data : Nat → UInt8) (P : Nat → Bool) (f : Nat → UInt64) (k : Nat) :
    word (setWords data P f) k = if P k then f k else word data k := by
  have hdiv : ∀ j < 8, (8 * k + j) / 8 = k ∧ (8 * k + j) % 8 = j := by
    intro j hj
    omega
  by_cases hP : P k
  · rw [if_pos hP]
    apply word_byteOf
    intro j hj
    obtain ⟨hd, hm⟩ := hdiv j hj
    rw [setWords, hd, hm, if_pos hP]
  · rw [if_neg hP]
    apply word_congr
    intro j hj
    rw [setWords, (hdiv j hj).1, if_neg hP]

/-- **The words copied, and the others.** -/
theorem word_copyWords (dst src : Nat → UInt8) (n k : Nat) :
    word (copyWords dst src n) k = if k < n then word src k else word dst k := by
  by_cases hk : k < n
  · rw [if_pos hk]
    apply word_congr
    intro j hj
    rw [copyWords, if_pos (by omega)]
  · rw [if_neg hk]
    apply word_congr
    intro j hj
    rw [copyWords, if_neg (by omega)]

end Xv6.Lib
