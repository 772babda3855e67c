import WhisperAndroid.Native.Arithmetic
import WhisperAndroid.Support.Rounding

/-!
# `float`

The operations of the WAV reader on 32-bit floats: each result is rounded to 24 binary
digits. None of them leaves the range of the exponents but a division by zero, whose result
no `size_t` represents.
-/

namespace WhisperAndroid

open Rounding

/-- A `float` that is finite. -/
structure Binary32 where
  val : ℚ

/-- A rounded value -/
def Binary32.round (q : ℚ) : Binary32 := ⟨roundTo 24 q⟩

instance : FloatArith Binary32 where
  ofInt n := .round n
  add x y := .round (x.val + y.val)
  div x y := .round (x.val / y.val)
  quotToSize n x := if x.val = 0 then none else truncToSize (roundTo 24 (roundTo 24 n / x.val))
  prodToSize n x := truncToSize (roundTo 24 (roundTo 24 n * x.val))

/-- `static_cast<float>(sample_rate) / 16000.0f` -/
def ratio32 (rate : ℤ) : ℚ := roundTo 24 (roundTo 24 rate / 16000)

theorem ratio32_eq (rate : ℤ) :
    (FloatArith.div (FloatArith.ofInt rate) (FloatArith.ofInt 16000) : Binary32) =
      ⟨ratio32 rate⟩ := by
  have hexact : roundTo 24 (16000 : ℚ) = 16000 := roundTo_natCast (p := 24) (n := 16000) (by decide)
  simp [FloatArith.div, FloatArith.ofInt, Binary32.round, ratio32, hexact]

@[simp] theorem ratio32_zero : ratio32 0 = 0 := by simp [ratio32]

theorem ratio32_neg (rate : ℤ) : ratio32 (-rate) = -ratio32 rate := by
  rw [ratio32, Int.cast_neg, roundTo_neg, neg_div, roundTo_neg, ratio32]

/-- At 16 kHz the ratio is exact. -/
theorem ratio32_same : ratio32 16000 = 1 := by
  have hexact : roundTo 24 (16000 : ℚ) = 16000 := roundTo_natCast (p := 24) (n := 16000) (by decide)
  have hone : roundTo 24 (1 : ℚ) = 1 := by
    simpa using roundTo_natCast (p := 24) (n := 1) (by decide)
  simp [ratio32, hexact, hone]

/-! ### Conversions to `size_t` -/

theorem truncToSize_of_nonneg {q : ℚ} (hq : 0 ≤ q) : truncToSize q = some ⌊q⌋.toNat :=
  if_neg (by linarith)

theorem toNat_floor_eq_zero_iff {q : ℚ} : ⌊q⌋.toNat = 0 ↔ q < 1 := by
  have hfloor : ⌊q⌋ < 1 ↔ q < (1 : ℤ) := Int.floor_lt
  rw [Int.cast_one] at hfloor
  rw [← hfloor]
  omega

section Positive

variable {rate : ℤ} (hrate : 0 < rate)

include hrate

theorem ratio32_pos : 0 < ratio32 rate := by
  have hpos : (0 : ℚ) < rate := by exact_mod_cast hrate
  exact roundTo_pos (by decide) (div_pos (roundTo_pos (by decide) hpos) (by norm_num))

theorem prodToSize_ratio32 (i : ℕ) : FloatArith.prodToSize i (⟨ratio32 rate⟩ : Binary32) =
    some ⌊roundTo 24 (roundTo 24 i * ratio32 rate)⌋.toNat := by
  refine truncToSize_of_nonneg (roundTo_nonneg (by decide) (mul_nonneg ?_ (ratio32_pos hrate).le))
  exact roundTo_nonneg (by decide) (Nat.cast_nonneg i)

theorem quotToSize_ratio32 (n : ℕ) : FloatArith.quotToSize n (⟨ratio32 rate⟩ : Binary32) =
    some ⌊roundTo 24 (roundTo 24 n / ratio32 rate)⌋.toNat := by
  have hpos := ratio32_pos hrate
  refine (if_neg hpos.ne').trans (truncToSize_of_nonneg (roundTo_nonneg (by decide) ?_))
  exact div_nonneg (roundTo_nonneg (by decide) (Nat.cast_nonneg n)) hpos.le

/-- The quotient reaches one just if the number of samples reaches the ratio. -/
theorem one_le_quot_iff (hmax : rate ≤ 2 ^ 31) (n : ℕ) :
    1 ≤ roundTo 24 (roundTo 24 n / ratio32 rate) ↔ ratio32 rate ≤ n := by
  have hpos : (0 : ℚ) < rate := by exact_mod_cast hrate
  have hround : roundTo 24 (rate : ℚ) ≤ 2 ^ (32 : ℤ) := by
    refine roundTo_le_zpow (by decide) hpos ?_
    have hmax' : (rate : ℚ) ≤ 2 ^ 31 := by exact_mod_cast hmax
    norm_num at hmax' ⊢
    linarith
  refine one_le_roundTo_natCast_div_iff (by decide) n
    (div_pos (roundTo_pos (by decide) hpos) (by norm_num)) ?_
  norm_num at hround ⊢
  linarith

end Positive

end WhisperAndroid
