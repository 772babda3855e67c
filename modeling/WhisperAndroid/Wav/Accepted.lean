import WhisperAndroid.Native.Binary32
import WhisperAndroid.Wav.DefinedArithmetic

/-!
# What is decoded

`read_wav` never tests the declared format: it decodes whatever its `data` branch
gets through. `decodes_only_supported_iff` says on which files a vector that is
not empty still comes from 16-bit PCM alone. Whether the vector is empty depends on
rounding, so that the results are about 32-bit floats.
-/

namespace WhisperAndroid

variable {stale : Stale} {bytes : List UInt8} {d : DataPoint}

/-- Integer PCM, plain or extensible, of 16 bits, with a channel and a positive rate. -/
structure Supported (format : Format) : Prop where
  pcm : format.audioFormat.toNat = 1 ∨ format.audioFormat.toNat = 0xfffe
  sixteenBit : format.bitsPerSample.toInt = 16
  channels : 1 ≤ format.numChannels.toInt
  rate : 0 < format.sampleRate.toInt

instance (format : Format) : Decidable (Supported format) :=
  decidable_of_iff (_ ∧ _ ∧ _ ∧ _)
    ⟨fun h => ⟨h.1, h.2.1, h.2.2.1, h.2.2.2⟩, fun h => ⟨h.1, h.2, h.3, h.4⟩⟩

/-- The scan comes to a `data` chunk, and the last `fmt ` chunk before it declares a
supported format. -/
def FindsSupportedData (stale : Stale) (bytes : List UInt8) : Prop :=
  ∃ round p q, walk bytes round = some (p, some q) ∧ headerId stale bytes round p = dataTag ∧
    Supported (formatAt bytes q)

/-- Header fields, and a number of bytes behind them, for which the `data` branch
leaves with a vector, and with the empty one if the format is not supported. -/
structure SafelyDecoded (format : Format) (chunkSize : ℤ) (bytesLeft : ℕ) : Prop
    extends SoundCounts format chunkSize where
  /-- The read stays inside the sample vector. -/
  holds : chunkSize ≤ 0 ∨ format.bitsPerSample.toInt.tdiv 8 = 1 ∨
    (format.bitsPerSample.toInt.tdiv 8 = 2 ∧ Even chunkSize) ∨
    (bytesLeft : ℤ) ≤ 2 * chunkSize.tdiv (format.bitsPerSample.toInt.tdiv 8)
  /-- An unsupported format declares less samples than the ratio of the rates, as a `float`. -/
  supported_or_short : Supported format ∨
    ((chunkSize.tdiv (format.bitsPerSample.toInt.tdiv 8)).tdiv format.numChannels.toInt : ℚ) <
      |ratio32 format.sampleRate.toInt|

/-! ### The last step of the data branch -/

theorem resample32_of_pos {rate : ℤ} (hrate : 0 < rate) (audio : List Binary32) :
    resample audio rate =
      .ok ((List.range ⌊Rounding.roundTo 24
          (Rounding.roundTo 24 audio.length / ratio32 rate)⌋.toNat).map fun (i : ℕ) =>
        audio.getD ⌊Rounding.roundTo 24 (Rounding.roundTo 24 i * ratio32 rate)⌋.toNat
          (FloatArith.ofInt 0)) := by
  simp only [resample, ratio32_eq, quotToSize_ratio32 hrate, prodToSize_ratio32 hrate, sizeCast]
  exact List.mapM_pure

/-- With a positive rate resampling leaves with a vector, which is empty just if the audio is
shorter than the ratio of the rates. -/
theorem exists_resample_of_pos {rate : ℤ} (hrate : 0 < rate) (hmax : rate ≤ 2 ^ 31)
    (audio : List Binary32) :
    ∃ v, resample audio rate = .ok v ∧ (v = [] ↔ (audio.length : ℚ) < ratio32 rate) := by
  refine ⟨_, resample32_of_pos hrate audio, ?_⟩
  rw [List.map_eq_nil_iff, List.range_eq_nil, toNat_floor_eq_zero_iff, ← not_le,
    one_le_quot_iff hrate hmax, not_le]

theorem resample32_zero (audio : List Binary32) : resample audio 0 = .error .sizeConversion := by
  have hquot : FloatArith.quotToSize audio.length (⟨ratio32 0⟩ : Binary32) = none :=
    if_pos ratio32_zero
  simp only [resample, ratio32_eq, hquot, sizeCast]
  rfl

/-- With a negative rate the quotient is converted only if it is above `-1`. -/
theorem resample32_of_neg {rate : ℤ} (hrate : rate < 0) (hmin : -2 ^ 31 ≤ rate)
    (audio : List Binary32) :
    resample audio rate =
      if (audio.length : ℚ) < |ratio32 rate| then .ok [] else .error .sizeConversion := by
  obtain ⟨rate, rfl⟩ : ∃ pos, rate = -pos := ⟨-rate, (neg_neg rate).symm⟩
  have hpos : 0 < rate := by omega
  have hone := one_le_quot_iff hpos (by omega) audio.length
  have hquot : FloatArith.quotToSize audio.length (⟨ratio32 (-rate)⟩ : Binary32) =
      truncToSize (-Rounding.roundTo 24 (Rounding.roundTo 24 audio.length / ratio32 rate)) := by
    rw [ratio32_neg, ← Rounding.roundTo_neg, ← div_neg]
    exact if_neg (neg_ne_zero.mpr (ratio32_pos hpos).ne')
  have hnonneg : 0 ≤ Rounding.roundTo 24 (Rounding.roundTo 24 audio.length / ratio32 rate) :=
    Rounding.roundTo_nonneg (by decide) (div_nonneg
      (Rounding.roundTo_nonneg (by decide) (Nat.cast_nonneg _)) (ratio32_pos hpos).le)
  rw [ratio32_neg, abs_neg, abs_of_pos (ratio32_pos hpos)]
  simp only [resample, ratio32_eq, hquot, truncToSize, neg_le_neg_iff, hone, sizeCast]
  by_cases hshort : (audio.length : ℚ) < ratio32 rate
  · have hfloor : ⌊-Rounding.roundTo 24 (Rounding.roundTo 24 audio.length / ratio32 rate)⌋.toNat =
        0 := by
      rw [toNat_floor_eq_zero_iff]
      linarith
    rw [if_neg (not_le.mpr hshort), if_pos hshort, hfloor]
    rfl
  · rw [if_pos (not_lt.mp hshort), if_neg hshort]
    rfl

/-- What follows the mix leaves with a vector, and with the empty one unless `P`,
just if `P` holds or the audio is shorter than the ratio of the rates. -/
theorem resampled_iff {P : Prop} {rate : ℤ} (audio : List Binary32) (hP : P → 0 < rate)
    (hmin : -2 ^ 31 ≤ rate) (hmax : rate ≤ 2 ^ 31) :
    (∃ v, (if rate ≠ 16000 then resample audio rate else .ok audio) = .ok v ∧ (v ≠ [] → P)) ↔
      P ∨ (audio.length : ℚ) < |ratio32 rate| := by
  rcases lt_trichotomy rate 0 with hneg | rfl | hpos
  -- resampling leaves with the empty vector, or not at all
  · rw [if_pos (by omega), resample32_of_neg hneg hmin]
    split_ifs with hshort
    · simp [hshort]
    · have hnot : ¬ P := fun h => absurd (hP h) (by omega)
      simp [hnot, hshort]
  -- no length is short for rate zero, and resampling never leaves with a vector
  · have hnot : ¬ P := fun h => absurd (hP h) (lt_irrefl 0)
    have hnonneg : ¬ (audio.length : ℚ) < 0 := not_lt.mpr (Nat.cast_nonneg _)
    simp [resample32_zero, hnot, hnonneg]
  -- it leaves with a vector, at 16 kHz or not, that is empty just for short audio
  · rw [abs_of_pos (ratio32_pos hpos)]
    have hleaves : ∀ w : List Binary32, (w = [] ↔ (audio.length : ℚ) < ratio32 rate) →
        ((∃ v, (.ok w : Except Fault (List Binary32)) = .ok v ∧ (v ≠ [] → P)) ↔
          P ∨ (audio.length : ℚ) < ratio32 rate) := by
      intro w hw
      rw [← hw, or_comm, or_iff_not_imp_left]
      simp
    split_ifs with hrate
    · obtain ⟨v, hv, hempty⟩ := exists_resample_of_pos hpos hmax audio
      rw [hv]
      exact hleaves v hempty
    · obtain rfl : rate = 16000 := by omega
      refine hleaves audio ?_
      rw [ratio32_same, ← List.length_eq_zero_iff]
      exact_mod_cast Nat.lt_one_iff.symm

theorem DataPoint.run_safely_iff {P : Prop} (hreach : ReachesData Binary32 stale bytes d)
    (hP : P → 0 < d.format.sampleRate.toInt) :
    (∃ v, d.run Binary32 = .ok v ∧ (v ≠ [] → P)) ↔
      SoundCounts d.format d.chunkSize ∧ (d.stored : ℤ) ≤ 2 * d.numSamples ∧
        (P ∨ (d.frames : ℚ) < |ratio32 d.format.sampleRate.toInt|) := by
  rw [soundCounts_iff hreach]
  -- with defined counts it is left to the read and to the last step
  by_cases hcounts : d.CountsDefined
  · have hstored : (d.stored : ℤ) ≤ 2 * d.numSamples ↔ ¬ 2 * d.numSamples.toNat < d.stored := by
      have := hcounts.numSamples_nonneg
      omega
    have hlength : ((d.audio Binary32).length : ℚ) = d.frames := by
      rw [length_audio]
      exact_mod_cast Int.toNat_of_nonneg hcounts.frames_nonneg
    have hmin := Buffer.neg_le_toInt d.format.sampleRate
    have hmax := Buffer.toInt_lt d.format.sampleRate
    rw [hcounts.run_eq, ← hlength, ← resampled_iff _ hP (by omega) (by omega), hstored]
    split_ifs with hover <;> simp [hcounts, hover]
  · constructor
    · rintro ⟨v, hrun, -⟩
      exact absurd (countsDefined_of_run_eq_ok hrun) hcounts
    · rintro ⟨hcounts', -⟩
      exact absurd hcounts' hcounts

theorem safelyDecoded_iff (hreach : ReachesData Binary32 stale bytes d) :
    SafelyDecoded d.format d.chunkSize d.bytesLeft ↔
      ∃ v, d.run Binary32 = .ok v ∧ (v ≠ [] → Supported d.format) := by
  rw [d.run_safely_iff hreach Supported.rate]
  constructor
  · rintro ⟨hcounts, hholds, hshort⟩
    have hnonneg := ((soundCounts_iff hreach).mp hcounts).numSamples_nonneg
    exact ⟨hcounts, (hreach.stored_le_iff hnonneg).mpr hholds, hshort⟩
  · rintro ⟨hcounts, hholds, hshort⟩
    have hnonneg := ((soundCounts_iff hreach).mp hcounts).numSamples_nonneg
    exact ⟨hcounts, (hreach.stored_le_iff hnonneg).mp hholds, hshort⟩

/-! ### Whole files -/

/-- Without a `fmt ` chunk the format has no bits. -/
theorem not_supported_initial : ¬ Supported .initial := by
  decide

theorem findsSupportedData_iff {round p : ℕ} {fmt : Option ℕ}
    (hwalk : walk bytes round = some (p, fmt)) (hid : headerId stale bytes round p = dataTag) :
    FindsSupportedData stale bytes ↔ Supported (declaredFormat bytes fmt) := by
  constructor
  · rintro ⟨round', p', q, hwalk', hid', hformat⟩
    obtain ⟨-, -, rfl⟩ := walk_stop_unique hwalk (nextOffset_eq_none_of_data hid) hwalk'
      (nextOffset_eq_none_of_data hid')
    exact hformat
  · intro hformat
    cases fmt with
    | none => exact absurd hformat not_supported_initial
    | some q => exact ⟨round, p, q, hwalk, hid, hformat⟩

/-- Where the walk ends inside a `data` chunk, the branch decides, since there is only one. -/
theorem safelyDecoded_stop_iff {round p : ℕ} {fmt : Option ℕ} (hriff : HasRiffHeader bytes)
    (hwalk : walk bytes round = some (p, fmt)) (hid : headerId stale bytes round p = dataTag) :
    SafelyDecoded (declaredFormat bytes fmt) (headerSize stale bytes round p)
        (bytes.length - (p + 8)) ↔
      ∃ v, stopOutcome Binary32 stale bytes round p fmt = .ok v ∧
        (v ≠ [] → FindsSupportedData stale bytes) := by
  have hreach : ReachesData Binary32 stale bytes (dataPointAt stale bytes round p fmt) :=
    reachesData_iff.mpr ⟨hriff, round, p, fmt, hwalk, hid, rfl⟩
  rw [findsSupportedData_iff hwalk hid, stopOutcome_of_data hid, ← length_rest_behindHeader]
  exact safelyDecoded_iff hreach

/-- `read_wav` returns a vector that is empty or of a supported format exactly when the
scan of a RIFF file ends, its `fmt ` chunk not declaring one of the sixteen smallest
sizes, and a `data` chunk there is decoded safely. -/
theorem decodes_only_supported_iff (stale : Stale) (bytes : List UInt8) :
    (∃ v, ReadsTo Binary32 stale (some bytes) (.ok v) ∧ (v ≠ [] → FindsSupportedData stale bytes)) ↔
      (HasRiffHeader bytes → ∃ round p fmt, walk bytes round = some (p, fmt) ∧
        nextOffset bytes p = none ∧
        (headerId stale bytes round p = fmtTag → intMin + 16 ≤ headerSize stale bytes round p) ∧
        (headerId stale bytes round p = dataTag →
          SafelyDecoded (declaredFormat bytes fmt) (headerSize stale bytes round p)
            (bytes.length - (p + 8)))) := by
  by_cases hriff : HasRiffHeader bytes
  swap
  · simp [hriff, readsTo_of_not_hasRiffHeader hriff]
  simp only [hriff, true_imp_iff, readsTo_iff hriff]
  constructor
  · rintro ⟨v, ⟨round, p, fmt, hwalk, hstop, hend⟩, hv⟩
    refine ⟨round, p, fmt, hwalk, hstop, fun hid => ?_, fun hid => ?_⟩
    · exact ((stopOutcome_of_fmt_iff hid).mp hend.symm).1
    · exact (safelyDecoded_stop_iff hriff hwalk hid).mpr ⟨v, hend.symm, hv⟩
  · rintro ⟨round, p, fmt, hwalk, hstop, hfmt, hdata⟩
    by_cases hid : headerId stale bytes round p = dataTag
    · obtain ⟨v, hend, hv⟩ := (safelyDecoded_stop_iff hriff hwalk hid).mp (hdata hid)
      exact ⟨v, ⟨round, p, fmt, hwalk, hstop, hend.symm⟩, hv⟩
    -- any other chunk leaves with the empty vector, which needs no format
    · have hempty : stopOutcome Binary32 stale bytes round p fmt = .ok [] := by
        by_cases hid' : headerId stale bytes round p = fmtTag
        · exact (stopOutcome_of_fmt_iff hid').mpr ⟨hfmt hid', rfl⟩
        · rw [stopOutcome, if_neg hid', if_neg hid]
      exact ⟨[], ⟨round, p, fmt, hwalk, hstop, hempty.symm⟩, fun h => absurd rfl h⟩

/-- A mono file with two 8-bit samples at 16 kHz. -/
def pcm8 : List UInt8 :=
  [0x52, 0x49, 0x46, 0x46, 38, 0, 0, 0, 0x57, 0x41, 0x56, 0x45,
    0x66, 0x6d, 0x74, 0x20, 16, 0, 0, 0, 1, 0, 1, 0, 0x80, 0x3e, 0, 0, 0x80, 0x3e, 0, 0, 1, 0, 8, 0,
    0x64, 0x61, 0x74, 0x61, 2, 0, 0, 0, 0x80, 0x81]

/-- Its two bytes are decoded as a vector of two samples. -/
theorem pcm8_decoded : (∃ v, ReadsTo Binary32 .zero (some pcm8) (.ok v) ∧ v.length = 2) ∧
    ¬ ∃ v, ReadsTo Binary32 .zero (some pcm8) (.ok v) ∧ (v ≠ [] → FindsSupportedData .zero pcm8) := by
  have hwalk : walk pcm8 1 = some (36, some 12) := by decide
  have hid : headerId .zero pcm8 1 36 = dataTag := by decide
  have hreads : ReadsTo Binary32 .zero (some pcm8) (.ok (DataPoint.audio Binary32
      ⟨declaredFormat pcm8 (some 12), headerSize .zero pcm8 1 36, behindHeader pcm8 36⟩)) :=
    (readsTo_iff (by decide)).mpr ⟨1, 36, some 12, hwalk, by decide, rfl⟩
  have hlength : (DataPoint.audio Binary32 ⟨declaredFormat pcm8 (some 12), headerSize .zero pcm8 1 36,
      behindHeader pcm8 36⟩).length = 2 := by
    rw [DataPoint.length_audio]
    decide
  refine ⟨⟨_, hreads, hlength⟩, ?_⟩
  rintro ⟨v, hreads', hv⟩
  obtain rfl := Except.ok.inj (hreads.unique hreads')
  have hsupported := (findsSupportedData_iff hwalk hid).mp (hv (by
    intro hnil
    rw [hnil] at hlength
    cases hlength))
  exact absurd hsupported.sixteenBit (by decide)

end WhisperAndroid
