import WhisperAndroid.Wav.Layout
import Mathlib.Algebra.BigOperators.Group.Finset.Basic
import Mathlib.Data.Finset.Range
import Mathlib.Data.List.GetD

/-!
# Decoding undoes encoding

On a 16-bit file at 16 kHz whose chunks before the data have even sizes, `read_wav`
returns the mean of every complete frame, in exact arithmetic, and nothing else.
-/

namespace WhisperAndroid

open Finset

variable {F : Type} [FloatArith F] {stale : Stale} {w : WavFile}

/-- The body of a `data` chunk with the given samples. -/
def encodeSamples (samples : List Int16) : List UInt8 :=
  samples.flatMap fun s => List.ofFn (Buffer.ofInt s.toInt : Buffer 2)

theorem length_encodeSamples (samples : List Int16) :
    (encodeSamples samples).length = 2 * samples.length := by
  simp [encodeSamples, List.length_flatMap, mul_comm]

/-- The mean of frame `i`, scaled to `[-1, 1)`. -/
def frameMean (samples : List Int16) (c i : ℕ) : ℚ :=
  (∑ ch ∈ range c, ((samples.getD (i * c + ch) 0).toInt : ℚ)) / (32768 * c)

/-! ### Samples -/

theorem samplesOf_succ (b : Buffer 2) (rest : List UInt8) (count : ℕ) :
    samplesOf (count + 1) (List.ofFn b ++ rest) = b.toInt :: samplesOf count rest := by
  have hlength : (List.ofFn b).length = 2 := List.length_ofFn
  rw [samplesOf, List.range_succ_eq_map, List.map_cons, List.map_map, mul_zero,
    Buffer.slice_ofFn_append, samplesOf]
  refine congrArg (List.cons _) (List.map_congr_left fun j _ => ?_)
  rw [Function.comp_apply, Buffer.slice_append_of_le _ (by omega), hlength, Nat.mul_succ,
    Nat.add_sub_cancel]

theorem samplesOf_encodeSamples (samples : List Int16) :
    samplesOf samples.length (encodeSamples samples) = samples.map Int16.toInt := by
  induction samples with
  | nil => rfl
  | cons s samples ih =>
    have hread : (Buffer.ofInt s.toInt : Buffer 2).toInt = s.toInt :=
      Buffer.toInt_ofInt (by have := s.le_toInt; norm_num; omega)
        (by have := s.toInt_lt; norm_num; omega)
    rw [encodeSamples, List.flatMap_cons, ← encodeSamples, List.length_cons, samplesOf_succ, ih,
      hread, List.map_cons]

/-! ### Frames -/

/-- The mixing loop as a sum. -/
theorem mixFrame_rat (samples : List ℤ) (c i : ℕ) :
    mixFrame ℚ samples c i = (∑ ch ∈ range c, (samples.getD (i * c + ch) 0 : ℚ)) / (32768 * c) := by
  -- the loop adds scaled samples where the sum is scaled once
  have hsum : ∀ n : ℕ, (List.range n).foldl (fun sum ch => FloatArith.add sum (FloatArith.div
      (FloatArith.ofInt (samples.getD (i * c + ch) 0)) (FloatArith.ofInt 32768)))
      (FloatArith.ofInt 0 : ℚ) = (∑ ch ∈ range n, (samples.getD (i * c + ch) 0 : ℚ)) / 32768 := by
    intro n
    induction n with
    | zero => simp [FloatArith.ofInt]
    | succ n ih =>
      rw [List.range_succ, List.foldl_append, ih, sum_range_succ, add_div]
      rfl
  simp only [mixFrame, Int.toNat_natCast, hsum]
  simp [FloatArith.div, FloatArith.ofInt, div_div]

/-- What `read_wav` returns on a well-formed file: the mean of every complete frame,
whatever the auxiliary chunks, the RIFF size and the trailing bytes are. -/
theorem decode_encode (stale : Stale) (w : WavFile) (samples : List Int16)
    (hdata : w.data = encodeSamples samples) (heven : w.EvenSizes)
    (hrate : w.fmt.sampleRate = 16000) :
    ReadsTo ℚ stale (some w.encode) (.ok ((List.range (samples.length / w.fmt.numChannels)).map
      (frameMean samples w.fmt.numChannels))) := by
  have hlength : w.data.length = 2 * samples.length := by rw [hdata, length_encodeSamples]
  have hhalf : w.data.length / 2 = samples.length := by omega
  have heven' : Even w.data.length := ⟨samples.length, by omega⟩
  rw [WavFile.encode, WavFile.readsTo_iff heven, WavFile.run_dataPoint_of_rate hrate heven', hhalf,
    List.take_left, hdata, samplesOf_encodeSamples]
  refine congrArg Except.ok (List.map_congr_left fun i _ => ?_)
  have hsample : ∀ j, (samples.map Int16.toInt).getD j 0 = (samples.getD j 0).toInt := fun j =>
    List.getD_map samples 0 Int16.toInt
  rw [mixFrame_rat, frameMean]
  simp only [hsample]

/-- A stereo file with an extended `fmt ` chunk, a tag chunk, two frames and a half, and
bytes behind the data. -/
def stereo : WavFile where
  riffSize := .zero
  before := []
  fmt := ⟨.ofNat 1, 2, 16000, .zero, [0, 0], 0, by decide, by decide, by decide, by decide⟩
  after := [listChunk [0x64, 0x61, 0x74, 0x61] (by decide)]
  data := encodeSamples [1, -1, 3, 4, 5]
  trailing := [0x64]
  data_lt := by rw [length_encodeSamples]; decide

theorem stereo_evenSizes : stereo.EvenSizes where
  before := by decide
  fmt := by decide
  fmt_lt := by decide
  after := by decide

theorem decode_encode_stereo : ReadsTo ℚ .zero (some stereo.encode)
    (.ok ((List.range (5 / 2)).map (frameMean [1, -1, 3, 4, 5] 2))) :=
  decode_encode .zero stereo [1, -1, 3, 4, 5] rfl stereo_evenSizes rfl

/-- A mono file with one sample and a given extension of its `fmt ` chunk. -/
def mono (extension : List UInt8) : WavFile where
  riffSize := .zero
  before := []
  fmt := ⟨.ofNat 1, 1, 16000, .zero, extension, 0, by decide, by decide, by decide, by decide⟩
  after := []
  data := encodeSamples [1]
  trailing := []
  data_lt := by rw [length_encodeSamples]; decide

theorem mono_evenSizes : (mono []).EvenSizes where
  before := by decide
  fmt := by decide
  fmt_lt := by decide
  after := by decide

/-- A `fmt ` size behind `2 ^ 31` is read as a negative one, and the scan fails on a seek
to a negative offset. -/
theorem mono_reads_nil {extension : List UInt8} (hlength : extension.length = 2 ^ 31) :
    ReadsTo F stale (some (mono extension).encode) (.ok []) := by
  set w := mono extension with hw
  have hsize : w.fmt.size = 2 ^ 31 + 16 := by simp [hw, mono, FmtChunk.size, hlength]
  have hsplit : w.encode = w.riffHeader ++ (chunkHeader fmtTag w.fmt.size ++ (w.fmt.fields ++
      (extension ++ padding w.fmt.size 0 ++ (chunkHeader dataTag w.data.length ++ w.data)))) := by
    simp [hw, WavFile.encode, WavFile.headers, WavFile.upToData, WavFile.upToFmt, FmtChunk.encode,
      mono]
  have hid : chunkIdAt w.encode 12 = fmtTag := by
    rw [hsplit, ← w.length_riffHeader]
    exact chunkIdAt_chunkHeader
  -- the size has its top bit set
  have hnegative : chunkSizeAt w.encode 12 = -2 ^ 31 + 16 := by
    rw [hsplit, ← w.length_riffHeader, chunkSizeAt_chunkHeader, hsize,
      Buffer.toInt_ofNat (by norm_num)]
    norm_num
  have hheader : 12 + 8 ≤ w.encode.length := by
    rw [hsplit, List.length_append, List.length_append, w.length_riffHeader, length_chunkHeader]
    omega
  have hstop : nextOffset w.encode 12 = none := by
    rw [nextOffset, if_pos]
    rw [hnegative]
    norm_num
  refine (readsTo_iff (by rw [hsplit]; exact w.hasRiffHeader _)).mpr ⟨0, 12, none, rfl, hstop, ?_⟩
  rw [stopOutcome, headerId_eq hheader, hid, if_pos rfl, headerSize_eq hheader, hnegative]
  rfl

theorem mono_loses_sample {extension : List UInt8} (hlength : extension.length = 2 ^ 31) :
    Even (mono extension).fmt.size ∧ (mono extension).data = encodeSamples [1] ∧
    ¬ ReadsTo ℚ .zero (some (mono extension).encode)
      (.ok ((List.range (1 / 1)).map (frameMean [1] 1))) := by
  refine ⟨?_, rfl, fun hreads => ?_⟩
  · have hsize : (mono extension).fmt.size = 2 ^ 31 + 16 := by simp [mono, FmtChunk.size, hlength]
    rw [hsize]
    exact ⟨2 ^ 30 + 8, by norm_num⟩
  · have hnil := Except.ok.inj (hreads.unique (mono_reads_nil hlength))
    simp at hnil

/-- The bound on the size of the `fmt ` chunk is needed. -/
theorem mono_not_decoded :
    Even (mono (List.replicate (2 ^ 31) 0)).fmt.size ∧
    (mono (List.replicate (2 ^ 31) 0)).data = encodeSamples [1] ∧
    ¬ ReadsTo ℚ .zero (some (mono (List.replicate (2 ^ 31) 0)).encode)
      (.ok ((List.range (1 / 1)).map (frameMean [1] 1))) :=
  mono_loses_sample List.length_replicate

end WhisperAndroid
