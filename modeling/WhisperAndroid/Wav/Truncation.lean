import WhisperAndroid.Wav.Decode

/-!
# Truncated files

The sample vector has the size that the `data` chunk declares, not that of what the
file still holds: the frames behind a cut are mixed from the zeros of the vector.
-/

namespace WhisperAndroid

variable {F : Type} [FloatArith F] {stale : Stale} {w : WavFile}

/-- A file cut off after `t` bytes of its `data` body. -/
def WavFile.truncate (w : WavFile) (t : ℕ) : List UInt8 := w.encode.take (w.headers.length + t)

theorem WavFile.truncate_eq {t : ℕ} (ht : t ≤ w.data.length) :
    w.truncate t = w.headers ++ w.data.take t := by
  rw [truncate, encode, List.take_length_add_append, List.take_append_of_le_length ht]

/-! ### What is left of a frame -/

/-- A sample in front of the cut is read as it is. -/
theorem samplesOf_take {data : List UInt8} {count t j : ℕ} (hj : j < count) (ht : 2 * j + 2 ≤ t) :
    (samplesOf count (data.take t)).getD j 0 = (samplesOf count data).getD j 0 := by
  have hslice : (.zero : Buffer 2).slice (data.take t) (2 * j) =
      (.zero : Buffer 2).slice data (2 * j) :=
    Buffer.slice_take _ _ ht
  simp [samplesOf, hj, hslice]

theorem mixFrame_congr {samples samples' : List ℤ} {c i : ℕ}
    (hsamples : ∀ ch < c, samples.getD (i * c + ch) 0 = samples'.getD (i * c + ch) 0) :
    mixFrame F samples c i = mixFrame F samples' c i := by
  simp only [mixFrame, Int.toNat_natCast]
  congr 1
  refine List.foldl_ext _ _ _ fun sum ch hch => ?_
  rw [hsamples ch (List.mem_range.mp hch)]

/-- The frames in front of the cut are mixed as in the whole file. -/
theorem mixFrame_take {data : List UInt8} {count c t i : ℕ} (hi : i < count / c)
    (ht : 2 * c * (count / c) ≤ t) :
    mixFrame F (samplesOf count (data.take t)) c i = mixFrame F (samplesOf count data) c i := by
  refine mixFrame_congr fun ch hch => ?_
  -- the channels of the frame end in front of the cut
  have hframe : i * c + ch + 1 ≤ count / c * c := by
    calc i * c + ch + 1 ≤ i * c + c := by omega
      _ = (i + 1) * c := by ring
      _ ≤ count / c * c := Nat.mul_le_mul_right c hi
  have hcount : count / c * c ≤ count := Nat.div_mul_le_self count c
  refine samplesOf_take (by omega) ?_
  calc 2 * (i * c + ch) + 2 ≤ 2 * (count / c * c) := by omega
    _ = 2 * c * (count / c) := by ring
    _ ≤ t := ht

/-! ### The file -/

/-- A cut after `t` bytes of the `data` body leaves exactly the complete frames in front
of it just if it cuts off no complete frame. -/
theorem truncate_reads_prefix_iff (stale stale' : Stale) (w : WavFile) (t : ℕ)
    (heven : w.EvenSizes) (hrate : w.fmt.sampleRate = 16000) (hdata : Even w.data.length)
    (ht : t < w.data.length) :
    ∃ v : List F, ReadsTo F stale (some w.encode) (.ok v) ∧
      (ReadsTo F stale' (some (w.truncate t)) (.ok (v.take (t / (2 * w.fmt.numChannels)))) ↔
        2 * w.fmt.numChannels * (w.data.length / 2 / w.fmt.numChannels) ≤ t) := by
  have hchannels : 0 < 2 * w.fmt.numChannels := by
    have := w.fmt.numChannels_pos
    omega
  -- the complete frames in front of the cut are all there are
  have hcomplete : 2 * w.fmt.numChannels * (w.data.length / 2 / w.fmt.numChannels) ≤ t ↔
      w.data.length / 2 / w.fmt.numChannels ≤ t / (2 * w.fmt.numChannels) := by
    rw [Nat.le_div_iff_mul_le hchannels, mul_comm]
  have htake : (w.data.take t).take w.data.length = w.data.take t := by
    rw [List.take_take, min_eq_right ht.le]
  refine ⟨_, (WavFile.readsTo_iff heven _).mpr
    (WavFile.run_dataPoint_of_rate hrate hdata _).symm, ?_⟩
  rw [w.truncate_eq ht.le, WavFile.readsTo_iff heven, WavFile.run_dataPoint_of_rate hrate hdata,
    Except.ok.injEq, List.take_left, htake]
  constructor
  · intro hbegins
    have hlength := congrArg List.length hbegins
    simp only [List.length_take, List.length_map, List.length_range] at hlength
    exact hcomplete.mpr (by omega)
  · intro hframes
    rw [List.take_of_length_le (by simpa using hcomplete.mp hframes)]
    exact List.map_congr_left fun i hi => (mixFrame_take (List.mem_range.mp hi) hframes).symm

theorem truncate_reads_prefix_iff_stereo : ∃ v : List ℚ,
    ReadsTo ℚ .zero (some stereo.encode) (.ok v) ∧
      (ReadsTo ℚ .zero (some (stereo.truncate 9)) (.ok (v.take (9 / (2 * 2)))) ↔
        2 * 2 * (10 / 2 / 2) ≤ 9) :=
  truncate_reads_prefix_iff .zero .zero stereo 9 stereo_evenSizes rfl (by decide) (by decide)

/-- Cut off behind its first frame, the stereo file is still read as two frames. -/
theorem stereo_cut_reads_two_frames :
    (∃ v : List ℚ, ReadsTo ℚ .zero (some stereo.encode) (.ok v) ∧
      ¬ ReadsTo ℚ .zero (some (stereo.truncate 4)) (.ok (v.take (4 / (2 * 2))))) ∧
    ∃ v : List ℚ, ReadsTo ℚ .zero (some (stereo.truncate 4)) (.ok v) ∧ v.length = 2 := by
  have hdata : Even stereo.data.length := by decide
  have hwhole : ReadsTo ℚ .zero (some stereo.encode) _ :=
    (WavFile.readsTo_iff stereo_evenSizes _).mpr (WavFile.run_dataPoint_of_rate rfl hdata _).symm
  have hcut : ReadsTo ℚ .zero (some (stereo.headers ++ stereo.data.take 4)) _ :=
    (WavFile.readsTo_iff stereo_evenSizes _).mpr (WavFile.run_dataPoint_of_rate rfl hdata _).symm
  rw [← stereo.truncate_eq (by decide)] at hcut
  refine ⟨⟨_, hwhole, fun hreads => ?_⟩, _, hcut, ?_⟩
  · have hlength := congrArg List.length (Except.ok.inj (hreads.unique hcut))
    rw [List.length_take, List.length_map, List.length_map, List.length_range] at hlength
    exact absurd hlength (by decide)
  · rw [List.length_map, List.length_range]
    decide

end WhisperAndroid
