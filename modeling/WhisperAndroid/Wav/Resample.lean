import Mathlib.Tactic.FieldSimp
import Mathlib.Tactic.Linarith
import WhisperAndroid.Wav.ReadWav

/-!
# Resampling in exact arithmetic

Both conversions of the resampling loop are floors of rationals. With a positive
rate they are integer divisions, so that `resample` is a map over indices. With a
negative rate the new size is zero or undefined, and with rate zero undefined.
-/

namespace WhisperAndroid

/-- The new length `n / (rate / 16000)`, truncated. -/
def newSize (n rate : ℕ) : ℕ := n * 16000 / rate

/-- The source index `i * (rate / 16000)`, truncated. -/
def srcIndex (rate i : ℕ) : ℕ := i * rate / 16000

theorem truncToSize_natCast_div (m k : ℕ) : truncToSize (m / k : ℚ) = some (m / k) := by
  have hnonneg : (0 : ℚ) ≤ m / k := by positivity
  rw [truncToSize, if_neg (by linarith), Rat.floor_natCast_div_natCast, ← Int.natCast_ediv,
    Int.toNat_natCast]

/-- The exact ratio between a rate and 16 kHz. -/
theorem ratio_eq (rate : ℤ) :
    (FloatArith.div (FloatArith.ofInt rate) (FloatArith.ofInt 16000) : ℚ) = rate / 16000 := by
  simp [FloatArith.div, FloatArith.ofInt]

theorem quotToSize_ratio {rate : ℕ} (hrate : 0 < rate) (n : ℕ) :
    FloatArith.quotToSize n ((rate : ℤ) / 16000 : ℚ) = some (newSize n rate) := by
  have hpos : (0 : ℚ) < rate := by exact_mod_cast hrate
  have hne : (rate : ℚ) / 16000 ≠ 0 := by positivity
  -- one division of natural numbers instead of two of rationals
  have hquot : (n : ℚ) / (rate / 16000) = ((n * 16000 : ℕ) : ℚ) / rate := by
    push_cast
    field_simp
  simp only [FloatArith.quotToSize, Int.cast_natCast, if_neg hne, hquot, truncToSize_natCast_div,
    newSize]

theorem prodToSize_ratio (rate i : ℕ) :
    FloatArith.prodToSize i ((rate : ℤ) / 16000 : ℚ) = some (srcIndex rate i) := by
  have hprod : (i : ℚ) * (rate / 16000) = ((i * rate : ℕ) : ℚ) / (16000 : ℕ) := by
    push_cast
    ring
  simp only [FloatArith.prodToSize, Int.cast_natCast, hprod, truncToSize_natCast_div, srcIndex]

/-- With a positive rate, resampling picks a source index for every new one. -/
theorem resample_of_pos {rate : ℕ} (hrate : 0 < rate) (audio : List ℚ) :
    resample audio rate =
      .ok ((List.range (newSize audio.length rate)).map
        fun i => audio.getD (srcIndex rate i) 0) := by
  have hzero : (FloatArith.ofInt 0 : ℚ) = 0 := by simp [FloatArith.ofInt]
  simp only [resample, ratio_eq, quotToSize_ratio hrate, prodToSize_ratio, sizeCast, hzero]
  exact List.mapM_pure

/-- Rate zero has no finite quotient to convert. -/
theorem resample_zero (audio : List ℚ) : resample audio 0 = .error .sizeConversion := by
  have hquot : FloatArith.quotToSize audio.length (((0 : ℤ) : ℚ) / 16000) = none := by
    simp [FloatArith.quotToSize]
  simp only [resample, ratio_eq, hquot, sizeCast]
  rfl

/-- With a negative rate, the quotient is converted only if it truncates to zero. -/
theorem resample_of_neg {rate : ℤ} (hrate : rate < 0) (audio : List ℚ) :
    resample audio rate =
      if audio.length * 16000 < -rate then .ok [] else .error .sizeConversion := by
  have hneg : (rate : ℚ) < 0 := by exact_mod_cast hrate
  have hne : (rate : ℚ) / 16000 ≠ 0 := by
    simp [hneg.ne]
  have hquot : (audio.length : ℚ) / (rate / 16000) =
      -((audio.length * 16000 : ℤ) / (-rate : ℤ)) := by
    push_cast
    field_simp
  -- the quotient is not positive: above -1 it truncates to zero, from there down it is undefined
  have hsize : FloatArith.quotToSize audio.length ((rate : ℚ) / 16000) =
      if audio.length * 16000 < -rate then some 0 else none := by
    have hpos : (0 : ℚ) < (-rate : ℤ) := by exact_mod_cast neg_pos.mpr hrate
    have hle : -((audio.length * 16000 : ℤ) / (-rate : ℤ) : ℚ) ≤ -1 ↔
        -rate ≤ audio.length * 16000 := by
      rw [neg_le_neg_iff, one_le_div hpos]
      exact_mod_cast Iff.rfl
    have hfloor : ⌊-((audio.length * 16000 : ℤ) / (-rate : ℤ) : ℚ)⌋.toNat = 0 := by
      rw [Int.toNat_eq_zero, ← Int.cast_le (R := ℚ)]
      have hquotient : (0 : ℚ) ≤ (audio.length * 16000 : ℤ) / (-rate : ℤ) :=
        div_nonneg (by positivity) hpos.le
      exact (Int.floor_le _).trans (by simpa using hquotient)
    simp only [FloatArith.quotToSize, if_neg hne, hquot, truncToSize, hle, hfloor]
    by_cases hsmall : audio.length * 16000 < -rate
    · rw [if_neg (not_le.mpr hsmall), if_pos hsmall]
    · rw [if_pos (not_lt.mp hsmall), if_neg hsmall]
  simp only [resample, ratio_eq, hsize]
  split_ifs <;> rfl

end WhisperAndroid
