import WhisperAndroid.Wav.ChunkWalk

/-!
# The data branch

Where a run of `read_wav` enters its `data` branch, and what the branch does
there: which bytes its read stores, and when it leaves with a vector.

The vector is sized in units of one header field and the read in units of
another. `buffer_holds_read_iff` says for which values of the two they agree.
-/

namespace WhisperAndroid

variable {F : Type} [FloatArith F] {stale : Stale} {bytes : List UInt8}

/-! ### Rounds that a run reaches -/

variable (F) in
/-- A run of `read_wav` enters the body of the chunk loop in state `s`. -/
def ReachesRound (stale : Stale) (bytes : List UInt8) (s : ScanState) : Prop :=
  ∃ file, readRiff stale bytes = some file ∧
    Loop.Reaches (scanStep F stale) ⟨file, .initial, 0⟩ s ∧ s.file.good = true

theorem reachesRound_iff {s : ScanState} :
    ReachesRound F stale bytes s ↔ HasRiffHeader bytes ∧
      ∃ round p fmt, walk bytes round = some (p, fmt) ∧ s = stateAt bytes round p fmt := by
  constructor
  · rintro ⟨file, hread, hreach, hgood⟩
    by_cases hriff : HasRiffHeader bytes
    · rw [readRiff_eq_some hriff, Option.some_inj] at hread
      subst hread
      exact ⟨hriff, reaches_and_good_iff.mp ⟨hreach, hgood⟩⟩
    -- on a failed stream the loop body is never entered
    · have hfail := failbit_of_readRiff hriff hread
      obtain heq | ⟨u, hu, -⟩ := hreach.cases_head
      · rw [← heq, InputStream.good_eq_false_of_failbit hfail] at hgood
        cases hgood
      · have hstart := good_of_next hu
        rw [InputStream.good_eq_false_of_failbit hfail] at hstart
        cases hstart
  · rintro ⟨hriff, round, p, fmt, hwalk, rfl⟩
    exact ⟨_, readRiff_eq_some hriff, reaches_of_walk hwalk, rfl⟩

/-- What the `data` branch works on: the format, the declared size and the stream. -/
structure DataPoint where
  format : Format
  chunkSize : ℤ
  file : InputStream

namespace DataPoint

variable (d : DataPoint)

def numChannels : ℤ := d.format.numChannels.toInt

/-- The divisor `bits_per_sample / 8`. -/
def bytesPerSample : ℤ := d.format.bitsPerSample.toInt.tdiv 8

/-- The element count of the sample vector, each element being two bytes. -/
def numSamples : ℤ := d.chunkSize.tdiv d.bytesPerSample

/-- The element count of the mono vector. -/
def frames : ℤ := d.numSamples.tdiv d.numChannels

/-- How many bytes `file.read` stores. -/
def stored : ℕ := (d.file.read d.chunkSize).1.length

/-- How many bytes there are behind the chunk header. -/
def bytesLeft : ℕ := d.file.rest.length

end DataPoint

variable (F) in
/-- A run of `read_wav` enters its `data` branch at `d`. -/
def ReachesData (stale : Stale) (bytes : List UInt8) (d : DataPoint) : Prop :=
  ∃ s, ReachesRound F stale bytes s ∧ s.format = d.format ∧
    readHeader stale s = (dataTag, d.chunkSize, d.file)

/-- What the `data` branch works on if a round enters it at offset `p`. -/
def dataPointAt (stale : Stale) (bytes : List UInt8) (round p : ℕ) (fmt : Option ℕ) : DataPoint :=
  ⟨declaredFormat bytes fmt, headerSize stale bytes round p, behindHeader bytes p⟩

theorem reachesData_iff {d : DataPoint} :
    ReachesData F stale bytes d ↔ HasRiffHeader bytes ∧
      ∃ round p fmt, walk bytes round = some (p, fmt) ∧ headerId stale bytes round p = dataTag ∧
        d = dataPointAt stale bytes round p fmt := by
  obtain ⟨format, chunkSize, file⟩ := d
  constructor
  · rintro ⟨s, hreach, hformat, hheader⟩
    obtain ⟨hriff, round, p, fmt, hwalk, rfl⟩ := reachesRound_iff.mp hreach
    simp only [readHeader_stateAt, Prod.mk.injEq] at hheader
    obtain ⟨hid, rfl, rfl⟩ := hheader
    exact ⟨hriff, round, p, fmt, hwalk, hid, by simpa [dataPointAt] using hformat.symm⟩
  · rintro ⟨hriff, round, p, fmt, hwalk, hid, hd⟩
    obtain ⟨rfl, rfl, rfl⟩ := DataPoint.mk.inj hd
    exact ⟨_, reachesRound_iff.mpr ⟨hriff, round, p, fmt, hwalk, rfl⟩, rfl, by
      rw [readHeader_stateAt, hid]⟩

/-! ### How the branch leaves -/

namespace DataPoint

/-- Every division and element count of the branch is defined. -/
structure CountsDefined (d : DataPoint) : Prop where
  bytesPerSample_ne_zero : d.bytesPerSample ≠ 0
  numSamples_nonneg : 0 ≤ d.numSamples
  numSamples_le : d.numSamples ≤ intMax
  numChannels_ne_zero : d.numChannels ≠ 0
  frames_nonneg : 0 ≤ d.frames

variable (F) in
/-- The mono vector before resampling. -/
def audio (d : DataPoint) : List F :=
  (List.range d.frames.toNat).map
    (mixFrame F (samplesOf d.numSamples.toNat (d.file.read d.chunkSize).1) d.numChannels)

@[simp] theorem length_audio (d : DataPoint) : (d.audio F).length = d.frames.toNat := by
  simp [audio]

variable (F) in
/-- The `data` branch at `d`. -/
def run (d : DataPoint) : Except Fault (List F) := readData F d.format d.chunkSize d.file

variable {d : DataPoint} {v : List F}

/-- The branch sees nothing of the stream but what it reads. -/
theorem readData_congr {format : Format} {chunkSize : ℤ} {file file' : InputStream}
    (hread : (file.read chunkSize).1 = (file'.read chunkSize).1) :
    readData F format chunkSize file = readData F format chunkSize file' := by
  simp only [readData, hread]

/-- With defined counts, only the read and the resampling can still go wrong. -/
theorem CountsDefined.run_eq (h : d.CountsDefined) :
    d.run F = if 2 * d.numSamples.toNat < d.stored then .error .heapOverrun
      else if d.format.sampleRate.toInt ≠ 16000 then
        resample (d.audio F) d.format.sampleRate.toInt
      else .ok (d.audio F) := by
  have hcount : intDiv d.chunkSize (d.format.bitsPerSample.toInt.tdiv 8) = .ok d.numSamples :=
    intDiv_eq_ok_iff.mpr ⟨h.bytesPerSample_ne_zero, h.numSamples_le, rfl⟩
  have hsize : vectorSize d.numSamples = .ok d.numSamples.toNat :=
    vectorSize_eq_ok_iff.mpr ⟨h.numSamples_nonneg, rfl⟩
  have hframes : intDiv d.numSamples d.format.numChannels.toInt = .ok d.frames :=
    intDiv_eq_ok_iff.mpr ⟨h.numChannels_ne_zero,
      (Int.tdiv_le_self _ h.numSamples_nonneg).trans h.numSamples_le, rfl⟩
  have hlength : vectorSize d.frames = .ok d.frames.toNat :=
    vectorSize_eq_ok_iff.mpr ⟨h.frames_nonneg, rfl⟩
  simp only [run, readData, hcount, hsize, hframes, hlength, bind, Except.bind]
  -- the two sides still differ in `throw` and `return` only
  change (if 2 * d.numSamples.toNat < d.stored then _ else _) = _
  rcases lt_or_ge (2 * d.numSamples.toNat) d.stored with hover | hfits
  · rw [if_pos hover, if_pos hover]
    rfl
  · rw [if_neg hfits.not_gt, if_neg hfits.not_gt]
    rfl

/-- A branch that leaves with a vector has passed every division and element count. -/
theorem countsDefined_of_run_eq_ok (hrun : d.run F = .ok v) : d.CountsDefined := by
  -- each step of the branch is peeled off with what its success says
  obtain ⟨numSamples, hcount, hrun⟩ := bind_eq_ok_iff.mp hrun
  obtain ⟨count, hsize, hrun⟩ := bind_eq_ok_iff.mp hrun
  obtain ⟨hbytes, hmax, rfl⟩ := intDiv_eq_ok_iff.mp hcount
  obtain ⟨hnonneg, rfl⟩ := vectorSize_eq_ok_iff.mp hsize
  obtain ⟨-, hrun⟩ := ite_throw_eq_ok_iff.mp hrun
  obtain ⟨frames, hframes, hrun⟩ := bind_eq_ok_iff.mp hrun
  obtain ⟨length, hlength, -⟩ := bind_eq_ok_iff.mp hrun
  obtain ⟨hchannels, -, rfl⟩ := intDiv_eq_ok_iff.mp hframes
  exact ⟨hbytes, hnonneg, hmax, hchannels, (vectorSize_eq_ok_iff.mp hlength).1⟩

end DataPoint

/-- A scan that ends at a `data` chunk ends with the outcome of the branch. -/
theorem stopOutcome_of_data {round p : ℕ} {fmt : Option ℕ}
    (hid : headerId stale bytes round p = dataTag) :
    stopOutcome F stale bytes round p fmt = (dataPointAt stale bytes round p fmt).run F := by
  rw [stopOutcome, hid, if_neg (by decide), if_pos rfl]
  rfl

/-! ### What the read stores -/

/-- The read stores the smaller of the declared size and what the file still has. -/
theorem ReachesData.stored_eq {d : DataPoint} (h : ReachesData F stale bytes d) :
    d.stored = min d.chunkSize.toNat d.bytesLeft := by
  obtain ⟨-, round, p, fmt, -, -, rfl⟩ := reachesData_iff.mp h
  rw [DataPoint.stored, InputStream.length_read_fst, DataPoint.bytesLeft]
  simp only [dataPointAt, behindHeader]
  split_ifs <;> simp_all

/-- Every index of the mixing loop is an index of the sample vector. -/
theorem DataPoint.mix_index_lt {d : DataPoint} (hcount : 0 ≤ d.numSamples) {i ch : ℕ}
    (hi : i < d.frames) (hch : ch < d.numChannels) : i * d.numChannels + ch < d.numSamples := by
  have hchannels : 0 < d.numChannels := by omega
  -- frame `i` ends before the last frame does, and the frames are at most the samples
  have hframe : (i + 1) * d.numChannels ≤ d.frames * d.numChannels :=
    mul_le_mul_of_nonneg_right (by omega) hchannels.le
  have hsplit := Int.tdiv_mul_add_tmod d.numSamples d.numChannels
  have hrem := Int.tmod_nonneg d.numChannels hcount
  rw [add_mul, one_mul] at hframe
  rw [DataPoint.frames] at hframe
  omega

theorem ReachesData.stored_le_iff {d : DataPoint} (hreach : ReachesData F stale bytes d)
    (hcount : 0 ≤ d.numSamples) :
    (d.stored : ℤ) ≤ 2 * d.numSamples ↔
      d.chunkSize ≤ 0 ∨ d.bytesPerSample = 1 ∨ (d.bytesPerSample = 2 ∧ Even d.chunkSize) ∨
        (d.bytesLeft : ℤ) ≤ 2 * d.chunkSize.tdiv d.bytesPerSample := by
  rw [hreach.stored_eq]
  unfold DataPoint.numSamples at hcount ⊢
  -- a size that is not positive reads nothing at all
  rcases le_or_gt d.chunkSize 0 with hempty | hpos
  · simp only [Int.toNat_of_nonpos hempty, Nat.zero_min, hempty, true_or, iff_true]
    omega
  · rw [← or_assoc (a := d.bytesPerSample = 1), ← le_two_mul_tdiv_iff hpos hcount]
    push_cast [Int.toNat_of_nonneg hpos.le]
    rw [min_le_iff, or_iff_right (not_le.mpr hpos)]

/-- The read stays inside the sample vector exactly when it is empty, or the format
has one byte a sample, or two and an even size, or the file ends soon enough. Without
a negative count the vector exists; the divisors need no hypothesis. -/
theorem buffer_holds_read_iff {d : DataPoint} (hreach : ReachesData F stale bytes d)
    (hcount : 0 ≤ d.numSamples) :
    ((d.stored : ℤ) ≤ 2 * d.numSamples ∧
        ∀ i ch : ℕ, i < d.frames → ch < d.numChannels → i * d.numChannels + ch < d.numSamples) ↔
      d.chunkSize ≤ 0 ∨ d.bytesPerSample = 1 ∨ (d.bytesPerSample = 2 ∧ Even d.chunkSize) ∨
        (d.bytesLeft : ℤ) ≤ 2 * d.chunkSize.tdiv d.bytesPerSample := by
  have hindex : ∀ i ch : ℕ, i < d.frames → ch < d.numChannels →
      i * d.numChannels + ch < d.numSamples := fun _ _ => DataPoint.mix_index_lt hcount
  rw [and_iff_left hindex, hreach.stored_le_iff hcount]

/-- A mono file with two 24-bit samples. -/
def pcm24 : List UInt8 :=
  [0x52, 0x49, 0x46, 0x46, 42, 0, 0, 0, 0x57, 0x41, 0x56, 0x45,
    0x66, 0x6d, 0x74, 0x20, 16, 0, 0, 0,
    1, 0, 1, 0, 0x80, 0x3e, 0, 0, 0x80, 0xbb, 0, 0, 3, 0, 24, 0,
    0x64, 0x61, 0x74, 0x61, 6, 0, 0, 0, 1, 2, 3, 4, 5, 6]

/-- Where the run on this file enters its `data` branch. -/
def pcm24Data : DataPoint :=
  ⟨declaredFormat pcm24 (some 12), headerSize .zero pcm24 1 36, behindHeader pcm24 36⟩

theorem reachesData_pcm24 : ReachesData ℚ .zero pcm24 pcm24Data :=
  reachesData_iff.mpr ⟨by decide, 1, 36, some 12, by decide, by decide, rfl⟩

theorem buffer_holds_read_iff_pcm24 :
    ((pcm24Data.stored : ℤ) ≤ 2 * pcm24Data.numSamples ∧
        ∀ i ch : ℕ, i < pcm24Data.frames → ch < pcm24Data.numChannels →
          i * pcm24Data.numChannels + ch < pcm24Data.numSamples) ↔
      pcm24Data.chunkSize ≤ 0 ∨ pcm24Data.bytesPerSample = 1 ∨
        (pcm24Data.bytesPerSample = 2 ∧ Even pcm24Data.chunkSize) ∨
        (pcm24Data.bytesLeft : ℤ) ≤ 2 * pcm24Data.chunkSize.tdiv pcm24Data.bytesPerSample :=
  buffer_holds_read_iff reachesData_pcm24 (by decide)

/-- Its six bytes are read into a vector of two 16-bit elements. -/
theorem pcm24_overruns : ReachesData ℚ .zero pcm24 pcm24Data ∧ pcm24Data.bytesPerSample ≠ 0 ∧
    pcm24Data.numChannels ≠ 0 ∧ 0 ≤ pcm24Data.numSamples ∧
    ¬ (pcm24Data.stored : ℤ) ≤ 2 * pcm24Data.numSamples :=
  ⟨reachesData_pcm24, by decide, by decide, by decide, by decide⟩

end WhisperAndroid
