import WhisperAndroid.Wav.DataBranch
import WhisperAndroid.Wav.Resample

/-!
# Undefined arithmetic

`read_wav` divides by header fields and sizes vectors with the quotients, without
a test on any of them. `arithmeticDefined_iff` gives the fields, at every chunk
the scan comes to, for which this is defined throughout; only the read into the
sample vector can then still go wrong.
-/

namespace WhisperAndroid

variable {F : Type} [FloatArith F] {stale : Stale} {bytes : List UInt8} {d : DataPoint}

variable (F) in
/-- No arithmetic of a run of `read_wav` is undefined: not the subtraction of the
`fmt ` branch, nor a division, an element count or the size conversion of the
`data` branch. -/
structure ArithmeticDefined (stale : Stale) (bytes : List UInt8) : Prop where
  restOfFmt : ∀ s, ReachesRound F stale bytes s → (readHeader stale s).1 = fmtTag →
    intMin ≤ (readHeader stale s).2.1 - 16 ∧ (readHeader stale s).2.1 - 16 ≤ intMax
  counts : ∀ d, ReachesData F stale bytes d → d.CountsDefined
  ratio_pos : ∀ d, ReachesData F stale bytes d → d.format.sampleRate.toInt ≠ 16000 →
    (0 : ℚ) < d.format.sampleRate.toInt / 16000

/-- Header fields for which both element counts of the `data` branch are defined. -/
structure SoundCounts (format : Format) (chunkSize : ℤ) : Prop where
  /-- The sample count is defined and not negative. -/
  size : 8 ≤ format.bitsPerSample.toInt ∧ -(format.bitsPerSample.toInt.tdiv 8) < chunkSize ∨
    format.bitsPerSample.toInt ≤ -8 ∧ chunkSize < -(format.bitsPerSample.toInt.tdiv 8) ∧
      (format.bitsPerSample.toInt ≤ -16 ∨ intMin < chunkSize)
  /-- The frame count is defined and not negative. -/
  channels : 0 < format.numChannels.toInt ∨
    format.numChannels.toInt < 0 ∧
      chunkSize.tdiv (format.bitsPerSample.toInt.tdiv 8) < -format.numChannels.toInt

/-- Header fields for which the `data` branch computes nothing undefined. -/
structure SoundHeader (format : Format) (chunkSize : ℤ) : Prop
    extends SoundCounts format chunkSize where
  rate : 0 < format.sampleRate.toInt

/-! ### The fields of one data chunk -/

theorem tdiv_eight_pos_iff {bits : ℤ} : 0 < bits.tdiv 8 ↔ 8 ≤ bits := by
  grind

theorem tdiv_eight_neg_iff {bits : ℤ} : bits.tdiv 8 < 0 ↔ bits ≤ -8 := by
  grind

theorem tdiv_eight_eq_neg_one_iff {bits : ℤ} : bits.tdiv 8 = -1 ↔ bits ≤ -8 ∧ -16 < bits := by
  grind

theorem ratio_pos_iff {rate : ℤ} : (0 : ℚ) < rate / 16000 ↔ 0 < rate := by
  rw [div_pos_iff_of_pos_right (by norm_num)]
  exact Int.cast_pos

/-- The sample count is defined and not negative just under the first condition on
the header fields. -/
theorem numSamples_defined_iff {bits size : ℤ} (hmin : intMin ≤ size) (hmax : size ≤ intMax) :
    bits.tdiv 8 ≠ 0 ∧ 0 ≤ size.tdiv (bits.tdiv 8) ∧ size.tdiv (bits.tdiv 8) ≤ intMax ↔
      8 ≤ bits ∧ -(bits.tdiv 8) < size ∨
        bits ≤ -8 ∧ size < -(bits.tdiv 8) ∧ (bits ≤ -16 ∨ intMin < size) := by
  have hone : bits.tdiv 8 = -1 ↔ _ := tdiv_eight_eq_neg_one_iff
  have hneg : bits.tdiv 8 < 0 ↔ _ := tdiv_eight_neg_iff
  rw [tdiv_le_intMax_iff hmin hmax, ← tdiv_eight_pos_iff, ← tdiv_eight_neg_iff]
  -- the sign of the divisor decides on which side the size has to lie
  rcases lt_trichotomy (bits.tdiv 8) 0 with hneg | hzero | hpos
  · rw [tdiv_nonneg_iff_of_neg hneg]
    omega
  · omega
  · rw [tdiv_nonneg_iff_of_pos hpos]
    omega

/-- The frame count is defined and not negative just under the second. -/
theorem frames_defined_iff {count channels : ℤ} (hcount : 0 ≤ count) :
    channels ≠ 0 ∧ 0 ≤ count.tdiv channels ↔
      0 < channels ∨ channels < 0 ∧ count < -channels := by
  rcases lt_trichotomy channels 0 with hneg | hzero | hpos
  · rw [tdiv_nonneg_iff_of_neg hneg]
    omega
  · omega
  · rw [tdiv_nonneg_iff_of_pos hpos]
    omega

theorem intMin_le_headerSize (stale : Stale) (bytes : List UInt8) (round p : ℕ) :
    intMin ≤ headerSize stale bytes round p := by
  have hlow := Buffer.neg_le_toInt ((stale.chunkSize round).slice bytes (p + 4))
  unfold intMin headerSize
  omega

theorem headerSize_le_intMax (stale : Stale) (bytes : List UInt8) (round p : ℕ) :
    headerSize stale bytes round p ≤ intMax := by
  have hhigh := Buffer.toInt_lt ((stale.chunkSize round).slice bytes (p + 4))
  unfold intMax headerSize
  omega

/-- What is left of a `fmt ` chunk can be computed unless its size is one of the sixteen
smallest. -/
theorem intSub_headerSize_eq_ok_iff {round p : ℕ} {restOfFmt : ℤ} :
    intSub (headerSize stale bytes round p) 16 = .ok restOfFmt ↔
      intMin + 16 ≤ headerSize stale bytes round p ∧
        restOfFmt = headerSize stale bytes round p - 16 := by
  have hmax := headerSize_le_intMax stale bytes round p
  rw [intSub_eq_ok_iff]
  omega

/-- Only then does a `fmt ` chunk that ends the walk leave with a vector, the empty one. -/
theorem stopOutcome_of_fmt_iff {round p : ℕ} {fmt : Option ℕ} {v : List F}
    (hid : headerId stale bytes round p = fmtTag) :
    stopOutcome F stale bytes round p fmt = .ok v ↔
      intMin + 16 ≤ headerSize stale bytes round p ∧ v = [] := by
  rw [stopOutcome, if_pos hid]
  cases hsub : intSub (headerSize stale bytes round p) 16 with
  | ok restOfFmt =>
    have hmin := (intSub_headerSize_eq_ok_iff.mp hsub).1
    simp [Except.map, hmin, eq_comm]
  | error fault =>
    have hsmall : ¬ intMin + 16 ≤ headerSize stale bytes round p := by
      intro hmin
      rw [intSub_headerSize_eq_ok_iff.mpr ⟨hmin, rfl⟩] at hsub
      cases hsub
    simp [Except.map, hsmall]

/-- The size that a `data` chunk declares is an `int`. -/
theorem ReachesData.chunkSize_bounds (hreach : ReachesData F stale bytes d) :
    intMin ≤ d.chunkSize ∧ d.chunkSize ≤ intMax := by
  obtain ⟨-, round, p, fmt, -, -, rfl⟩ := reachesData_iff.mp hreach
  simp only [dataPointAt]
  exact ⟨intMin_le_headerSize stale bytes round p, headerSize_le_intMax stale bytes round p⟩

theorem soundCounts_iff (hreach : ReachesData F stale bytes d) :
    SoundCounts d.format d.chunkSize ↔ d.CountsDefined := by
  obtain ⟨hmin, hmax⟩ := hreach.chunkSize_bounds
  constructor
  · rintro ⟨hsize, hchannels⟩
    obtain ⟨hbytes, hnonneg, hle⟩ := (numSamples_defined_iff hmin hmax).mpr hsize
    obtain ⟨hne, hframes⟩ := (frames_defined_iff hnonneg).mpr hchannels
    exact ⟨hbytes, hnonneg, hle, hne, hframes⟩
  · rintro ⟨hbytes, hnonneg, hle, hne, hframes⟩
    exact ⟨(numSamples_defined_iff hmin hmax).mp ⟨hbytes, hnonneg, hle⟩,
      (frames_defined_iff hnonneg).mp ⟨hne, hframes⟩⟩

theorem soundHeader_iff (hreach : ReachesData F stale bytes d) :
    SoundHeader d.format d.chunkSize ↔ d.CountsDefined ∧
      (d.format.sampleRate.toInt ≠ 16000 → (0 : ℚ) < d.format.sampleRate.toInt / 16000) := by
  have hrate : (d.format.sampleRate.toInt ≠ 16000 → 0 < d.format.sampleRate.toInt) ↔
      0 < d.format.sampleRate.toInt := by omega
  rw [ratio_pos_iff, hrate, ← soundCounts_iff hreach]
  exact ⟨fun h => ⟨h.toSoundCounts, h.rate⟩, fun h => ⟨h.1, h.2⟩⟩

/-! ### Whole runs -/

theorem ArithmeticDefined.soundHeader (hdefined : ArithmeticDefined F stale bytes)
    (hreach : ReachesData F stale bytes d) : SoundHeader d.format d.chunkSize :=
  (soundHeader_iff hreach).mpr ⟨hdefined.counts d hreach, hdefined.ratio_pos d hreach⟩

/-- The arithmetic of `read_wav` is defined throughout exactly when it is at every
chunk that the scan of a RIFF file comes to: a `fmt ` chunk does not declare one of
the sixteen smallest sizes, and a `data` chunk is met with a sound header. -/
theorem arithmeticDefined_iff (stale : Stale) (bytes : List UInt8) :
    ArithmeticDefined F stale bytes ↔
      (HasRiffHeader bytes → ∀ round p fmt, walk bytes round = some (p, fmt) →
        (headerId stale bytes round p = fmtTag → intMin + 16 ≤ headerSize stale bytes round p) ∧
        (headerId stale bytes round p = dataTag →
          SoundHeader (declaredFormat bytes fmt) (headerSize stale bytes round p))) := by
  constructor
  · intro hdefined hriff round p fmt hwalk
    have hround : ReachesRound F stale bytes (stateAt bytes round p fmt) :=
      reachesRound_iff.mpr ⟨hriff, round, p, fmt, hwalk, rfl⟩
    refine ⟨fun hid => ?_, fun hid => ?_⟩
    · have hsub := hdefined.restOfFmt _ hround
      simp only [readHeader_stateAt] at hsub
      exact le_sub_iff_add_le.mp (hsub hid).1
    · have hdata : ReachesData F stale bytes (dataPointAt stale bytes round p fmt) :=
        reachesData_iff.mpr ⟨hriff, round, p, fmt, hwalk, hid, rfl⟩
      simpa only [dataPointAt] using hdefined.soundHeader hdata
  -- the rounds and `data` branches that a run comes to are those of the walk
  · intro hchunks
    have hsound : ∀ d, ReachesData F stale bytes d → d.CountsDefined ∧
        (d.format.sampleRate.toInt ≠ 16000 → (0 : ℚ) < d.format.sampleRate.toInt / 16000) := by
      intro d hd
      rw [← soundHeader_iff hd]
      obtain ⟨hriff, round, p, fmt, hwalk, hid, rfl⟩ := reachesData_iff.mp hd
      simpa only [dataPointAt] using (hchunks hriff round p fmt hwalk).2 hid
    refine ⟨fun s hs hid => ?_, fun d hd => (hsound d hd).1, fun d hd => (hsound d hd).2⟩
    obtain ⟨hriff, round, p, fmt, hwalk, rfl⟩ := reachesRound_iff.mp hs
    simp only [readHeader_stateAt] at hid ⊢
    have hlow := (hchunks hriff round p fmt hwalk).1 hid
    have hhigh := headerSize_le_intMax stale bytes round p
    omega

/-- A `data` chunk of one sample, without a `fmt ` chunk before it. -/
def bareData : List UInt8 :=
  [0x52, 0x49, 0x46, 0x46, 14, 0, 0, 0, 0x57, 0x41, 0x56, 0x45,
    0x64, 0x61, 0x74, 0x61, 2, 0, 0, 0, 1, 0]

/-- Without a `fmt ` chunk the sample width is zero and divides the chunk size. -/
theorem bareData_divides_by_zero : ¬ ArithmeticDefined ℚ .zero bareData ∧
    ReadsTo ℚ .zero (some bareData) (.error .divisionByZero) := by
  refine ⟨fun hdefined => ?_, ?_⟩
  · have hdata : ReachesData ℚ .zero bareData
        ⟨.initial, headerSize .zero bareData 0 12, behindHeader bareData 12⟩ :=
      reachesData_iff.mpr ⟨by decide, 0, 12, none, rfl, by decide, rfl⟩
    exact (hdefined.counts _ hdata).bytesPerSample_ne_zero (by decide)
  · exact ⟨1, rfl⟩

/-- A data branch with defined counts and a positive rate fails only in its read. -/
theorem DataPoint.CountsDefined.fault_eq (hcounts : d.CountsDefined)
    (hrate : 0 < d.format.sampleRate.toInt) {fault : Fault} (hrun : d.run ℚ = .error fault) :
    fault = .heapOverrun := by
  rw [hcounts.run_eq] at hrun
  obtain ⟨rate, hcast⟩ := Int.eq_ofNat_of_zero_le hrate.le
  split_ifs at hrun
  · exact (Except.error.inj hrun).symm
  · rw [hcast, resample_of_pos (by omega)] at hrun
    cases hrun

/-- With defined arithmetic, the one fault left is a read behind the sample vector. -/
theorem ArithmeticDefined.fault_eq (hdefined : ArithmeticDefined ℚ stale bytes) {fault : Fault}
    (hreads : ReadsTo ℚ stale (some bytes) (.error fault)) : fault = .heapOverrun := by
  by_cases hriff : HasRiffHeader bytes
  · obtain ⟨round, p, fmt, hwalk, -, hend⟩ := (readsTo_iff hriff).mp hreads
    -- what is left of the branches once their arithmetic is defined
    unfold stopOutcome at hend
    split_ifs at hend with hid hid'
    · have hround : ReachesRound ℚ stale bytes (stateAt bytes round p fmt) :=
        reachesRound_iff.mpr ⟨hriff, round, p, fmt, hwalk, rfl⟩
      have hsub := hdefined.restOfFmt _ hround
      simp only [readHeader_stateAt] at hsub
      rw [intSub_eq_ok_iff.mpr ⟨(hsub hid).1, (hsub hid).2, rfl⟩] at hend
      cases hend
    · have hreach : ReachesData ℚ stale bytes (dataPointAt stale bytes round p fmt) :=
        reachesData_iff.mpr ⟨hriff, round, p, fmt, hwalk, hid', rfl⟩
      have hrun : (dataPointAt stale bytes round p fmt).run ℚ = .error fault := hend.symm
      exact (hdefined.counts _ hreach).fault_eq (hdefined.soundHeader hreach).rate hrun
  · cases (readsTo_of_not_hasRiffHeader hriff).mp hreads

end WhisperAndroid
