import WhisperAndroid.Support.Rescale
import WhisperAndroid.Wav.DataBranch
import WhisperAndroid.Wav.Resample

/-!
# Which samples resampling keeps

The new size and the source indices come from two divisions that are made separately. They
agree at the end of the vector, so that the test of the source index never fails, and on
both sides of 16 kHz they take the samples in order.
-/

namespace WhisperAndroid

/-- The samples of `v` are those of `audio`, each taken at the nearest lower index for a
rate of `rate` instead of 16000. -/
structure NearestLower {F : Type} (audio : List F) (rate : ℕ) (v : List F) : Prop where
  length_eq : v.length = newSize audio.length rate
  index_lt : ∀ i < v.length, srcIndex rate i < audio.length
  sample_eq : ∀ i < v.length, v[i]? = audio[srcIndex rate i]?
  /-- From a higher rate no sample is taken twice. -/
  strictMono : 16000 < rate → StrictMono (srcIndex rate)
  /-- From a lower one they are taken in order, -/
  monotone : rate < 16000 → Monotone (srcIndex rate)
  /-- and none but possibly the last is left out. -/
  covers : rate < 16000 → ∀ k, k + 2 ≤ audio.length → ∃ i < v.length, srcIndex rate i = k

theorem srcIndex_lt {n rate i : ℕ} (hi : i < newSize n rate) : srcIndex rate i < n :=
  Rescale.index_lt hi

/-- The vector that the resampling loop fills. -/
theorem nearestLower_map {F : Type} (audio : List F) {rate : ℕ} (hrate : 0 < rate) (zero : F) :
    NearestLower audio rate ((List.range (newSize audio.length rate)).map
      fun i => audio.getD (srcIndex rate i) zero) where
  length_eq := by simp
  index_lt i hi := srcIndex_lt (by simpa using hi)
  sample_eq i hi := by
    have hnew : i < newSize audio.length rate := by simpa using hi
    have hsrc := srcIndex_lt hnew
    simp [hnew, hsrc]
  strictMono hhigh := Rescale.strictMono (by decide) hhigh.le
  monotone _ := Rescale.monotone rate 16000
  covers hlow k hk := by
    obtain ⟨i, hi, hsrc⟩ := Rescale.exists_index_eq hrate hlow.le hk
    exact ⟨i, by simpa [newSize] using hi, hsrc⟩

/-- At 16 kHz the loop would copy the vector. -/
theorem map_of_sameRate {F : Type} (audio : List F) (zero : F) :
    (List.range (newSize audio.length 16000)).map
      (fun i => audio.getD (srcIndex 16000 i) zero) = audio := by
  refine List.ext_getElem (by simp [newSize]) fun i hi _ => ?_
  have hlt : i < audio.length := by simpa [newSize] using hi
  simp [srcIndex, hlt]

/-- What the `data` branch of a run returns, if its counts are defined and its read fits. -/
theorem DataPoint.CountsDefined.run_nearestLower {d : DataPoint} (hcounts : d.CountsDefined)
    (hfits : d.stored ≤ 2 * d.numSamples.toNat) {rate : ℕ} (hrate : 0 < rate)
    (hformat : d.format.sampleRate.toInt = rate) :
    ∃ v, d.run ℚ = .ok v ∧ NearestLower (d.audio ℚ) rate v := by
  refine ⟨_, ?_, nearestLower_map (d.audio ℚ) hrate 0⟩
  rw [hcounts.run_eq, if_neg (not_lt.mpr hfits), hformat]
  split_ifs with hsame
  · exact resample_of_pos hrate _
  · obtain rfl : rate = 16000 := by omega
    rw [map_of_sameRate]

/-- For every positive rate, what is returned of the mixed audio has the floor of
`n * 16000 / rate` samples, each of them from the floor of `i * rate / 16000`. At 16 kHz the
loop that is left out would return the audio as it is. This is what the `data` branch returns,
where its counts are defined and its read fits. -/
theorem resample_nearestLower (audio : List ℚ) {rate : ℕ} (hrate : 0 < rate) :
    (∃ v, (if (rate : ℤ) ≠ 16000 then resample audio rate else .ok audio) = .ok v ∧
        NearestLower audio rate v) ∧
      (rate = 16000 → resample audio rate = .ok audio ∧
        newSize audio.length rate = audio.length ∧ ∀ i, srcIndex rate i = i) ∧
      ∀ d : DataPoint, d.CountsDefined → d.stored ≤ 2 * d.numSamples.toNat →
        d.format.sampleRate.toInt = rate →
          ∃ v, d.run ℚ = .ok v ∧ NearestLower (d.audio ℚ) rate v := by
  have hloop := resample_of_pos hrate audio
  refine ⟨⟨_, ?_, nearestLower_map audio hrate 0⟩, ?_, ?_⟩
  -- at 16 kHz the loop is left out, and would copy
  · split_ifs with hsame
    · exact hloop
    · obtain rfl : rate = 16000 := by omega
      rw [map_of_sameRate]
  · rintro rfl
    rw [hloop, map_of_sameRate]
    exact ⟨rfl, by simp [newSize], fun i => by simp [srcIndex]⟩
  · intro d hcounts hfits hformat
    exact hcounts.run_nearestLower hfits hrate hformat

theorem resample_nearestLower_cd :
    (∃ v : List ℚ, (if ((44100 : ℕ) : ℤ) ≠ 16000 then resample [1, 2, 3] (44100 : ℕ)
          else .ok [1, 2, 3]) = .ok v ∧ NearestLower [1, 2, 3] 44100 v) ∧
      ∀ d : DataPoint, d.CountsDefined → d.stored ≤ 2 * d.numSamples.toNat →
        d.format.sampleRate.toInt = (44100 : ℕ) →
          ∃ v, d.run ℚ = .ok v ∧ NearestLower (d.audio ℚ) 44100 v :=
  ⟨(resample_nearestLower [1, 2, 3] (by decide)).1,
    (resample_nearestLower [1, 2, 3] (by decide)).2.2⟩

end WhisperAndroid
