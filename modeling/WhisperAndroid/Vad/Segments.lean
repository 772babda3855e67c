import Mathlib.Tactic.Linarith
import WhisperAndroid.Vad.Speeches

/-!
# Segments of speech

The second half of `whisper_vad_segments_from_probs`: speeches with a small gap between them
are merged, short ones dropped, the others padded and converted to hundredths of a second.

## Main results

* `segments_in_order` — the segments follow each other in the audio
* `padSpeeches_inside` — padding takes nothing from a speech
-/

namespace WhisperAndroid.Vad

open Span

/-- `samples_to_cs`: the nearest hundredth of a second, in floating point. How a sample in the
middle is rounded is left open. -/
structure SampleClock where
  samplesToCs : ℤ → ℤ
  mono : Monotone samplesToCs
  near : ∀ samples, 0 ≤ samples → |160 * samplesToCs samples - samples| ≤ 80

/-- `cs_to_samples`; the product is exact, as the rounding is within half a sample. -/
def csToSamples (cs : ℤ) : ℤ := 160 * cs

/-- Without rounding a middle goes up. -/
def SampleClock.exact : SampleClock where
  samplesToCs samples := (samples + 80) / 160
  mono _ _ h := Int.ediv_le_ediv (by decide) (Int.add_le_add_right h 80)
  near samples _ := by
    rw [abs_le]
    omega

def maxMergeGapSamples : ℤ := (sampleRate * 200).tdiv 1000

/-- Speeches with a small gap between them become one. -/
def mergeFrom (cur : Span ℤ) : List (Span ℤ) → List (Span ℤ)
  | [] => [cur]
  | next :: rest =>
    if next.start - cur.stop < maxMergeGapSamples then mergeFrom { cur with stop := next.stop } rest
    else cur :: mergeFrom next rest

def mergeClose : List (Span ℤ) → List (Span ℤ)
  | [] => []
  | cur :: rest => mergeFrom cur rest

/-- The silence between two speeches with the padding taken off. -/
def padGap (pad audio : ℤ) (gap : Span ℤ) : Span ℤ :=
  let silence := gap.stop - gap.start
  if silence < 2 * pad then
    ⟨gap.start + silence.tdiv 2,
      if silence.tdiv 2 < gap.stop then gap.stop - silence.tdiv 2 else 0⟩
  else
    ⟨if gap.start + pad < audio then gap.start + pad else audio,
      if pad < gap.stop then gap.stop - pad else 0⟩

/-- The start of `cur` has its padding already. -/
def padFrom (pad audio : ℤ) (cur : Span ℤ) : List (Span ℤ) → List (Span ℤ)
  | [] => [{ cur with stop := if cur.stop + pad < audio then cur.stop + pad else audio }]
  | next :: rest =>
    let gap := padGap pad audio ⟨cur.stop, next.start⟩
    { cur with stop := gap.start } :: padFrom pad audio { next with start := gap.stop } rest

def padStart (pad start : ℤ) : ℤ := if pad < start then start - pad else 0

/-- The ends with the padding behind them that are computed. -/
def padSums (pad : ℤ) : List (Span ℤ) → List ℤ
  | [] => []
  | [cur] => [cur.stop + pad]
  | cur :: next :: rest =>
    if next.start - cur.stop < 2 * pad then padSums pad (next :: rest)
    else (cur.stop + pad) :: padSums pad (next :: rest)

def padSpeeches (pad audio : ℤ) : List (Span ℤ) → List (Span ℤ)
  | [] => []
  | cur :: rest =>
    padFrom pad audio { cur with start := padStart pad cur.start } rest

section Probs

variable {F : Type} [ProbScalar F] (p : VadParams F) (nWindow : ℕ)

def longEnough (speech : Span ℤ) : Bool := ¬ speech.stop - speech.start < p.minSpeechSamples

/-- The speeches of the result, in samples and without padding. -/
def finalSpeeches (probs : List F) : List (Span ℤ) :=
  (mergeClose (speeches p nWindow probs)).filter (longEnough p)

/-- The segments of the result, in samples. -/
def paddedSpeeches (probs : List F) : List (Span ℤ) :=
  padSpeeches p.speechPadSamples (audioLength nWindow probs) (finalSpeeches p nWindow probs)

/-- The segments of the result, where no `int` overflows. -/
def segmentSpans (clock : SampleClock) (probs : List F) : List (Span ℤ) :=
  (paddedSpeeches p nWindow probs).map (Span.map clock.samplesToCs)

/-- `whisper_vad_segments_from_probs` -/
def segmentsFromProbs (clock : SampleClock) (probs : List F) : Except Fault (List (Span ℤ)) := do
  let _ ← intResult (sampleRate * p.minSilenceDurationMs)
  let _ ← intResult (audioLength nWindow probs)
  let _ ← intResult (sampleRate * p.minSpeechDurationMs)
  let _ ← intResult (sampleRate * p.speechPadMs)
  let _ ← (padSums p.speechPadSamples (finalSpeeches p nWindow probs)).mapM intResult
  return segmentSpans p nWindow clock probs

end Probs

variable {lo hi pad audio : ℤ} {cur : Span ℤ} {l : List (Span ℤ)}

/-! ### Merging -/

theorem laid_mergeFrom (h : Laid lo hi (cur :: l)) : Laid lo hi (mergeFrom cur l) := by
  induction l generalizing lo cur with
  | nil => exact h
  | cons next l ih =>
    rw [mergeFrom]
    split
    · exact ih h.merge
    · obtain ⟨hstart, hstop, hrest⟩ := laid_cons.mp h
      exact laid_cons.mpr ⟨hstart, hstop, ih hrest⟩

theorem laid_mergeClose (h : Laid lo hi l) : Laid lo hi (mergeClose l) := by
  cases l with
  | nil => exact h
  | cons cur l => exact laid_mergeFrom h

theorem widens_mergeFrom (h : Laid lo hi (cur :: l)) : Widens (mergeFrom cur l) (cur :: l) := by
  induction l generalizing lo cur with
  | nil => exact .refl _
  | cons next l ih =>
    rw [mergeFrom]
    split
    · exact (ih h.merge).trans (.merge h)
    · exact .cons le_rfl le_rfl (ih (laid_cons.mp h).2.2)

theorem widens_mergeClose (h : Laid lo hi l) : Widens (mergeClose l) l := by
  cases l with
  | nil => exact .refl _
  | cons cur l => exact widens_mergeFrom h

/-! ### Padding -/

/-- Padding makes a gap smaller, from both sides. -/
theorem padGap_bounds (gap : Span ℤ) (hpad : 0 ≤ pad) (hstart : 0 ≤ gap.start)
    (hgap : gap.start ≤ gap.stop) (haudio : gap.stop ≤ audio) :
    gap.start ≤ (padGap pad audio gap).start ∧
      (padGap pad audio gap).start ≤ (padGap pad audio gap).stop ∧
        (padGap pad audio gap).stop ≤ gap.stop := by
  have hhalf : (gap.stop - gap.start).tdiv 2 = (gap.stop - gap.start) / 2 :=
    Int.tdiv_eq_ediv_of_nonneg (Int.sub_nonneg_of_le hgap)
  unfold padGap
  dsimp only
  rw [hhalf]
  split_ifs <;> dsimp only <;> omega

theorem padStart_bounds {start : ℤ} (hpad : 0 ≤ pad) (hstart : 0 ≤ start) :
    0 ≤ padStart pad start ∧ padStart pad start ≤ start := by
  unfold padStart
  split_ifs <;> omega

theorem laid_padFrom (hpad : 0 ≤ pad) (hlo : 0 ≤ lo) (h : Laid lo audio (cur :: l)) :
    Laid lo audio (padFrom pad audio cur l) := by
  induction l generalizing lo cur with
  | nil =>
    obtain ⟨hstart, hstop, hrest⟩ := laid_cons.mp h
    refine laid_cons.mpr ⟨hstart, ?_, laid_nil.mpr ?_⟩ <;> dsimp only <;>
      have := laid_nil.mp hrest <;> split_ifs <;> omega
  | cons next l ih =>
    obtain ⟨hstart, hstop, hrest⟩ := laid_cons.mp h
    obtain ⟨hgap, hnext, hrest'⟩ := laid_cons.mp hrest
    have hnonneg : 0 ≤ cur.stop := hlo.trans (hstart.trans hstop)
    obtain ⟨hle, hle', hle''⟩ := padGap_bounds ⟨cur.stop, next.start⟩ hpad hnonneg hgap
      (hnext.trans hrest'.lo_le_hi)
    exact laid_cons.mpr ⟨hstart, hstop.trans hle, ih (hnonneg.trans hle) (hrest.earlier hle' hle'')⟩

/-- The segments behind the padding are in the audio. -/
theorem laid_padSpeeches (hpad : 0 ≤ pad) (h : Laid 0 audio l) :
    Laid 0 audio (padSpeeches pad audio l) := by
  cases l with
  | nil => exact h
  | cons cur l =>
    obtain ⟨hnonneg, hle⟩ := padStart_bounds hpad (laid_cons.mp h).1
    exact laid_padFrom hpad le_rfl (h.earlier hnonneg hle)

theorem padFrom_inside (hpad : 0 ≤ pad) (hlo : 0 ≤ lo) (h : Laid lo audio (cur :: l)) :
    List.Forall₂ Inside (cur :: l) (padFrom pad audio cur l) := by
  induction l generalizing lo cur with
  | nil =>
    refine .cons ⟨le_rfl, ?_⟩ .nil
    have := laid_nil.mp (laid_cons.mp h).2.2
    dsimp only
    split_ifs <;> omega
  | cons next l ih =>
    obtain ⟨hstart, hstop, hrest⟩ := laid_cons.mp h
    obtain ⟨hgap, hnext, hrest'⟩ := laid_cons.mp hrest
    have hnonneg : 0 ≤ cur.stop := hlo.trans (hstart.trans hstop)
    obtain ⟨hle, hle', hle''⟩ := padGap_bounds ⟨cur.stop, next.start⟩ hpad hnonneg hgap
      (hnext.trans hrest'.lo_le_hi)
    obtain ⟨t, ts, hinside, hforall, heq⟩ :=
      List.forall₂_cons_left_iff.mp (ih (hnonneg.trans hle) (hrest.earlier hle' hle''))
    rw [padFrom, heq]
    exact .cons ⟨le_rfl, hle⟩ (.cons ⟨hinside.1.trans hle'', hinside.2⟩ hforall)

/-- Padding takes nothing from a speech. -/
theorem padSpeeches_inside (hpad : 0 ≤ pad) (h : Laid 0 audio l) :
    List.Forall₂ Inside l (padSpeeches pad audio l) := by
  cases l with
  | nil => exact .nil
  | cons cur l =>
    obtain ⟨hnonneg, hle⟩ := padStart_bounds hpad (laid_cons.mp h).1
    obtain ⟨t, ts, hinside, hforall, heq⟩ :=
      List.forall₂_cons_left_iff.mp (padFrom_inside hpad le_rfl (h.earlier hnonneg hle))
    rw [padSpeeches, heq]
    exact .cons ⟨hinside.1.trans hle, hinside.2⟩ hforall

/-! ### The segments -/

section Order

variable {F : Type} [ProbScalar F] {p : VadParams F} {nWindow : ℕ}

theorem finalSpeeches_laid (probs : List F) :
    Laid 0 (audioLength nWindow probs : ℤ) (finalSpeeches p nWindow probs) :=
  (laid_mergeClose (speeches_laid probs)).sublist List.filter_sublist

theorem paddedSpeeches_laid (hpad : 0 ≤ p.speechPadSamples) (probs : List F) :
    Laid 0 (audioLength nWindow probs : ℤ) (paddedSpeeches p nWindow probs) :=
  laid_padSpeeches hpad (finalSpeeches_laid probs)

theorem minSpeech_le_of_mem_padded (hpad : 0 ≤ p.speechPadSamples) {probs : List F} {s : Span ℤ}
    (hs : s ∈ paddedSpeeches p nWindow probs) : p.minSpeechSamples ≤ s.stop - s.start := by
  obtain ⟨t, ht, hle, hle'⟩ :=
    exists_mem_of_forall₂ (padSpeeches_inside hpad (finalSpeeches_laid probs)) hs
  have hlong : ¬ t.stop - t.start < p.minSpeechSamples := by
    simpa [longEnough] using (List.mem_filter.mp ht).2
  omega

theorem segmentSpans_laid (hpad : 0 ≤ p.speechPadSamples) (clock : SampleClock)
    (probs : List F) :
    Laid (clock.samplesToCs 0) (clock.samplesToCs (audioLength nWindow probs))
      (segmentSpans p nWindow clock probs) :=
  (paddedSpeeches_laid hpad probs).map clock.mono

theorem mem_padSums {sum : ℤ} (h : sum ∈ padSums pad l) : ∃ s ∈ l, sum = s.stop + pad := by
  fun_induction padSums pad l with
  | case1 => cases h
  | case2 cur => exact ⟨cur, List.mem_cons_self, List.mem_singleton.mp h⟩
  | case3 cur next rest hclose ih =>
    obtain ⟨s, hs, hsum⟩ := ih h
    exact ⟨s, List.mem_cons_of_mem _ hs, hsum⟩
  | case4 cur next rest hclose ih =>
    rcases List.mem_cons.mp h with rfl | h
    · exact ⟨cur, List.mem_cons_self, rfl⟩
    · obtain ⟨s, hs, hsum⟩ := ih h
      exact ⟨s, List.mem_cons_of_mem _ hs, hsum⟩

omit [ProbScalar F] in
theorem VadParams.speechPadSamples_nonneg (hpad : 0 ≤ p.speechPadMs) : 0 ≤ p.speechPadSamples :=
  Int.tdiv_nonneg (Int.mul_nonneg (by decide) hpad) (by decide)

theorem segmentsFromProbs_eq {clock : SampleClock} {probs : List F} {segments : List (Span ℤ)}
    (h : segmentsFromProbs p nWindow clock probs = .ok segments) :
    segments = segmentSpans p nWindow clock probs := by
  simp only [segmentsFromProbs, bind_eq_ok_iff] at h
  obtain ⟨-, -, -, -, -, -, -, -, -, -, h⟩ := h
  exact (Except.ok.inj h).symm

/-- With products that fit, and room for the padding behind the audio, nothing overflows. -/
theorem segmentsFromProbs_eq_ok (hpad : 0 ≤ p.speechPadMs) (hproducts : p.ProductsFit)
    (clock : SampleClock) {probs : List F}
    (haudio : audioLength nWindow probs + p.speechPadSamples ≤ intMax) :
    segmentsFromProbs p nWindow clock probs = .ok (segmentSpans p nWindow clock probs) := by
  have hnonneg := VadParams.speechPadSamples_nonneg hpad
  have hsums : ∀ sum ∈ padSums p.speechPadSamples (finalSpeeches p nWindow probs),
      ∃ n, intResult sum = .ok n := by
    intro sum hsum
    obtain ⟨s, hs, rfl⟩ := mem_padSums hsum
    obtain ⟨hstart, hstop, hle⟩ := (finalSpeeches_laid probs).bounds s hs
    refine exists_intResult_iff.mpr ⟨?_, ?_⟩
    · rw [intMin]
      omega
    · omega
  obtain ⟨sums, hsums⟩ := exists_mapM_eq_ok_iff.mpr hsums
  have hlength : IntFits (audioLength nWindow probs) := by
    simp only [IntFits, intMin] at haudio ⊢
    omega
  simp only [segmentsFromProbs, bind_eq_ok_iff, intResult_eq_ok_iff]
  exact ⟨_, ⟨hproducts.minSilence, rfl⟩, _, ⟨hlength, rfl⟩, _, ⟨hproducts.minSpeech, rfl⟩, _,
    ⟨hproducts.speechPad, rfl⟩, sums, hsums, rfl⟩

/-- Whatever the probabilities are, the segments follow each other in the audio. -/
theorem segments_in_order (hpad : 0 ≤ p.speechPadMs) (hproducts : p.ProductsFit)
    (clock : SampleClock) {probs : List F}
    (haudio : audioLength nWindow probs + p.speechPadSamples ≤ intMax) :
    ∃ segments, segmentsFromProbs p nWindow clock probs = .ok segments ∧
      Laid (clock.samplesToCs 0) (clock.samplesToCs (audioLength nWindow probs)) segments :=
  ⟨_, segmentsFromProbs_eq_ok hpad hproducts clock haudio,
    segmentSpans_laid (VadParams.speechPadSamples_nonneg hpad) clock probs⟩

theorem vadDefaultParams_productsFit : vadDefaultParams.ProductsFit :=
  ⟨by decide, by decide, by decide⟩

/-- Two bursts with a silence between them. -/
def twoBursts : List ℚ := List.replicate 20 1 ++ List.replicate 20 0 ++ List.replicate 20 1

theorem segmentSpans_twoBursts :
    segmentSpans vadDefaultParams 512 .exact twoBursts = [⟨0, 67⟩, ⟨125, 192⟩] := by
  decide +kernel

theorem segments_in_order_defaults : ∃ segments,
    segmentsFromProbs vadDefaultParams 512 .exact twoBursts = .ok segments ∧
      segments = [⟨0, 67⟩, ⟨125, 192⟩] ∧ Laid 0 192 segments := by
  obtain ⟨segments, hsegments, hlaid⟩ : ∃ segments,
      segmentsFromProbs vadDefaultParams 512 .exact twoBursts = .ok segments ∧ Laid _ _ segments :=
    segments_in_order (by decide) vadDefaultParams_productsFit .exact (by decide)
  exact ⟨segments, hsegments, (segmentsFromProbs_eq hsegments).trans segmentSpans_twoBursts,
    hlaid⟩

end Order

end WhisperAndroid.Vad
