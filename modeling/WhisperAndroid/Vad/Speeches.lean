import Mathlib.Algebra.Order.Ring.Int
import Mathlib.Data.Int.ConditionallyCompleteOrder
import Mathlib.Algebra.Order.Field.Rat
import Mathlib.Tactic.NormNum
import WhisperAndroid.Native.Arithmetic
import WhisperAndroid.Support.Spans

/-!
# Speeches

The first half of `whisper_vad_segments_from_probs`: one probability for each window of
samples, read from the first to the last, and the speeches that are heard in them. The
comparisons of the probabilities are parameters, so that nothing is assumed of a value that
is no number.

## Main results

* `Listening.step` — what a window leaves of the loop's invariant
* `speeches_laid` — the speeches follow each other in the audio
-/

namespace WhisperAndroid.Vad

open Span

/-- The probabilities and the constants they are compared with. -/
class ProbScalar (F : Type) extends LE F, LT F, Sub F where
  decidableLE : DecidableLE F
  decidableLT : DecidableLT F
  /-- `0.15f` -/
  hysteresis : F
  /-- `0.01f` -/
  leastThreshold : F

instance ProbScalar.instDecidableLE {F : Type} [ProbScalar F] : DecidableLE F :=
  ProbScalar.decidableLE

instance ProbScalar.instDecidableLT {F : Type} [ProbScalar F] : DecidableLT F :=
  ProbScalar.decidableLT

def sampleRate : ℤ := 16000

/-- `whisper_vad_params`, with the product of `samples_overlap` and the sample rate. -/
structure VadParams (F : Type) where
  threshold : F
  minSpeechDurationMs : ℤ
  minSilenceDurationMs : ℤ
  maxSpeechDurationS : ℚ
  speechPadMs : ℤ
  overlapSamples : ℤ

namespace VadParams

variable {F : Type} [ProbScalar F] (p : VadParams F)

/-- The products by the sample rate are values of an `int`. -/
structure ProductsFit : Prop where
  minSilence : IntFits (sampleRate * p.minSilenceDurationMs)
  minSpeech : IntFits (sampleRate * p.minSpeechDurationMs)
  speechPad : IntFits (sampleRate * p.speechPadMs)

/-- `min_silence_samples`, like the two below from a product that `ProductsFit` bounds. -/
def minSilenceSamples : ℤ := (sampleRate * p.minSilenceDurationMs).tdiv 1000

def minSpeechSamples : ℤ := (sampleRate * p.minSpeechDurationMs).tdiv 1000

def speechPadSamples : ℤ := (sampleRate * p.speechPadMs).tdiv 1000

/-- A long speech is cut behind so many samples. -/
def maxSpeechSamples (nWindow : ℕ) : ℤ :=
  if 100000 < p.maxSpeechDurationS then intMax / 2
  else
    let temp := sampleRate * p.maxSpeechDurationS.num.tdiv p.maxSpeechDurationS.den -
      nWindow - 2 * p.speechPadSamples
    let samples := if intMax < temp then intMax / 2 else temp.bmod (2 ^ 32)
    if samples < 0 then intMax / 2 else samples

/-- Below it a speech ends. -/
def negThreshold : F :=
  let t := p.threshold - ProbScalar.hysteresis
  if t < ProbScalar.leastThreshold then ProbScalar.leastThreshold else t

def loud (prob : F) : Bool := p.threshold ≤ prob

def quiet (prob : F) : Bool := prob < p.negThreshold

end VadParams

/-- Exact probabilities. -/
instance ProbScalar.instRat : ProbScalar ℚ where
  decidableLE := inferInstance
  decidableLT := inferInstance
  hysteresis := 3 / 20
  leastThreshold := 1 / 100

/-- `whisper_vad_default_params` -/
def vadDefaultParams : VadParams ℚ where
  threshold := 1 / 2
  minSpeechDurationMs := 250
  minSilenceDurationMs := 100
  maxSpeechDurationS := (2 ^ 24 - 1) * 2 ^ 104
  speechPadMs := 30
  overlapSamples := 1600

theorem vadDefaultParams_maxSpeechSamples (nWindow : ℕ) :
    vadDefaultParams.maxSpeechSamples nWindow = intMax / 2 :=
  if_pos (by norm_num [vadDefaultParams])

/-- With the defaults no probability is both loud and quiet. -/
theorem vadDefaultParams_not_quiet (prob : ℚ) (h : vadDefaultParams.loud prob) :
    ¬ vadDefaultParams.quiet prob := by
  have hneg : vadDefaultParams.negThreshold = 7 / 20 := by
    norm_num [VadParams.negThreshold, vadDefaultParams, ProbScalar.hysteresis,
      ProbScalar.leastThreshold]
  have hloud : (1 / 2 : ℚ) ≤ prob := of_decide_eq_true h
  simp only [VadParams.quiet, hneg, decide_eq_true_eq, not_lt]
  exact le_trans (by norm_num) hloud

/-- The silence in samples that marks where a long speech may be cut. -/
def minSilenceAtMaxSpeech : ℤ := (sampleRate * 98).tdiv 1000

/-- The variables of the loop over the probabilities. Where a sample stands for no sample, it
is `0`. -/
structure SpeechState where
  isSpeech : Bool
  tempEnd : ℤ
  prevEnd : ℤ
  nextStart : ℤ
  currStart : ℤ
  hasCurr : Bool
  speeches : List (Span ℤ)

namespace SpeechState

def initial : SpeechState := ⟨false, 0, 0, 0, 0, false, []⟩

/-- The speech is over. -/
def leave (s : SpeechState) : SpeechState :=
  { s with prevEnd := 0, nextStart := 0, tempEnd := 0, isSpeech := false, hasCurr := false }

/-- The silence within a speech is over. -/
def resume (cur : ℤ) (loud : Bool) (s : SpeechState) : SpeechState :=
  if loud ∧ s.tempEnd ≠ 0 then
    { s with
      tempEnd := 0
      nextStart := if s.nextStart < s.prevEnd then cur else s.nextStart }
  else s

@[simp]
theorem resume_isSpeech (cur : ℤ) (loud : Bool) (s : SpeechState) :
    (s.resume cur loud).isSpeech = s.isSpeech := by
  unfold resume
  split <;> rfl

@[simp]
theorem resume_currStart (cur : ℤ) (loud : Bool) (s : SpeechState) :
    (s.resume cur loud).currStart = s.currStart := by
  unfold resume
  split <;> rfl

@[simp]
theorem resume_speeches (cur : ℤ) (loud : Bool) (s : SpeechState) :
    (s.resume cur loud).speeches = s.speeches := by
  unfold resume
  split <;> rfl

theorem resume_of_tempEnd (cur : ℤ) (loud : Bool) {s : SpeechState} (h : s.tempEnd = 0) :
    s.resume cur loud = s :=
  if_neg fun hne => hne.2 h

theorem resume_tempEnd (cur : ℤ) (s : SpeechState) : (s.resume cur true).tempEnd = 0 := by
  by_cases h : s.tempEnd = 0
  · rw [resume_of_tempEnd cur true h, h]
  · rw [resume, if_pos ⟨rfl, h⟩]

/-- The speech has become too long, and there was a silence in it. -/
def cutAtSilence (s : SpeechState) : SpeechState :=
  let speeches := s.speeches ++ [⟨s.currStart, s.prevEnd⟩]
  -- no speech since the silence
  if s.nextStart < s.prevEnd then { s.leave with speeches := speeches }
  else
    { s with
      speeches := speeches, hasCurr := true, currStart := s.nextStart
      prevEnd := 0, nextStart := 0, tempEnd := 0 }

/-- The silence at a quiet window goes on, or ends the speech. -/
def hush (minSilence minSpeech cur : ℤ) (quiet : Bool) (s : SpeechState) : SpeechState :=
  if quiet ∧ s.isSpeech then
    let tempEnd := if s.tempEnd = 0 then cur else s.tempEnd
    let prevEnd := if minSilenceAtMaxSpeech < cur - tempEnd then tempEnd else s.prevEnd
    if cur - tempEnd < minSilence then { s with tempEnd := tempEnd, prevEnd := prevEnd }
    else
      { s.leave with
        speeches := if minSpeech < tempEnd - s.currStart
          then s.speeches ++ [⟨s.currStart, tempEnd⟩] else s.speeches }
  else s

end SpeechState

section Listen

variable {F : Type} [ProbScalar F] (p : VadParams F) (nWindow : ℕ)

/-- One round of the loop, for the window at the sample `cur`. -/
def step (cur : ℤ) (prob : F) (s : SpeechState) : SpeechState :=
  let s := s.resume cur (p.loud prob)
  if p.loud prob ∧ s.isSpeech = false then
    { s with isSpeech := true, currStart := cur, hasCurr := true }
  else if s.isSpeech ∧ p.maxSpeechSamples nWindow < cur - s.currStart then
    if s.prevEnd ≠ 0 then
      s.cutAtSilence.hush p.minSilenceSamples p.minSpeechSamples cur (p.quiet prob)
    else { s.leave with speeches := s.speeches ++ [⟨s.currStart, cur⟩] }
  else s.hush p.minSilenceSamples p.minSpeechSamples cur (p.quiet prob)

/-- The first sample of the window `i`. -/
def currSample (i : ℕ) : ℤ := nWindow * i

/-- The loop over the probabilities of the windows from `i` on. -/
def listen : ℕ → List F → SpeechState → SpeechState
  | _, [], s => s
  | i, prob :: probs, s => listen (i + 1) probs (step p nWindow (currSample nWindow i) prob s)

/-- The number of samples in all windows. -/
def audioLength (probs : List F) : ℕ := probs.length * nWindow

/-- The speeches behind the loop, with the one that the audio ends in. -/
def speeches (probs : List F) : List (Span ℤ) :=
  let s := listen p nWindow 0 probs .initial
  if s.hasCurr ∧ p.minSpeechSamples < audioLength nWindow probs - s.currStart then
    s.speeches ++ [⟨s.currStart, audioLength nWindow probs⟩]
  else s.speeches

end Listen

/-! ### The invariant -/

/-- What holds when all windows up to the sample `cur` have been read. -/
structure Listening (cur : ℤ) (s : SpeechState) : Prop where
  hasCurr : s.hasCurr = s.isSpeech
  idle : s.isSpeech = false → s.tempEnd = 0 ∧ s.prevEnd = 0 ∧ s.nextStart = 0
  laid : Laid 0 (if s.isSpeech then s.currStart else cur) s.speeches
  currStart : s.currStart ≤ cur
  tempEnd : s.tempEnd = 0 ∨ s.currStart ≤ s.tempEnd ∧ s.tempEnd ≤ cur
  prevEnd : s.prevEnd = 0 ∨ s.currStart ≤ s.prevEnd ∧ s.prevEnd ≤ cur
  nextStart : s.nextStart ≤ cur

namespace Listening

variable {F : Type} [ProbScalar F] {p : VadParams F} {nWindow : ℕ} {cur cur' : ℤ}
  {s : SpeechState} {prob : F}

theorem initial : Listening 0 .initial where
  hasCurr := rfl
  idle _ := ⟨rfl, rfl, rfl⟩
  laid := laid_nil.mpr le_rfl
  currStart := le_rfl
  tempEnd := .inl rfl
  prevEnd := .inl rfl
  nextStart := le_rfl

theorem mono (h : Listening cur s) (hcur : cur ≤ cur') : Listening cur' s where
  hasCurr := h.hasCurr
  idle := h.idle
  laid := by
    refine h.laid.mono le_rfl ?_
    split
    · exact le_rfl
    · exact hcur
  currStart := h.currStart.trans hcur
  tempEnd := h.tempEnd.imp_right fun h => ⟨h.1, h.2.trans hcur⟩
  prevEnd := h.prevEnd.imp_right fun h => ⟨h.1, h.2.trans hcur⟩
  nextStart := h.nextStart.trans hcur

/-- The speeches end before the present one and before the present sample. -/
theorem laid_cur (h : Listening cur s) : Laid 0 cur s.speeches := by
  refine h.laid.mono le_rfl ?_
  split
  · exact h.currStart
  · exact le_rfl

theorem leave (h : Listening cur s) {speeches : List (Span ℤ)} (hlaid : Laid 0 cur speeches) :
    Listening cur { s.leave with speeches := speeches } where
  hasCurr := rfl
  idle _ := ⟨rfl, rfl, rfl⟩
  laid := hlaid
  currStart := h.currStart
  tempEnd := .inl rfl
  prevEnd := .inl rfl
  nextStart := hlaid.lo_le_hi

/-- The present speech ends at `stop`. -/
theorem laid_concat (h : Listening cur s) (hspeech : s.isSpeech) {stop : ℤ}
    (hstart : s.currStart ≤ stop) (hstop : stop ≤ cur) :
    Laid 0 cur (s.speeches ++ [⟨s.currStart, stop⟩]) := by
  have hlaid := h.laid
  rw [if_pos hspeech] at hlaid
  exact Laid.concat hlaid hstart hstop

theorem resume (h : Listening cur s) (loud : Bool) : Listening cur (s.resume cur loud) := by
  unfold SpeechState.resume
  split
  case isTrue hresume =>
    have hspeech : s.isSpeech = true := by
      by_contra hidle
      exact hresume.2 (h.idle (Bool.eq_false_of_not_eq_true hidle)).1
    refine { h with
      idle := fun hidle => Bool.noConfusion (hspeech.symm.trans hidle)
      tempEnd := .inl rfl
      nextStart := ?_ }
    dsimp only
    split
    · exact le_rfl
    · exact h.nextStart
  case isFalse => exact h

theorem cutAtSilence (h : Listening cur s) (hspeech : s.isSpeech) (hprev : s.prevEnd ≠ 0) :
    Listening cur s.cutAtSilence := by
  obtain ⟨hstart, hstop⟩ := h.prevEnd.resolve_left hprev
  have hlaid := h.laid_concat hspeech hstart hstop
  unfold SpeechState.cutAtSilence
  split
  case isTrue => exact h.leave hlaid
  case isFalse hnext =>
    have hlaid' := h.laid
    rw [if_pos hspeech] at hlaid'
    have hle := not_lt.mp hnext
    exact {
      hasCurr := hspeech.symm
      idle := fun hidle => Bool.noConfusion (hspeech.symm.trans hidle)
      laid := by
        rw [if_pos hspeech]
        exact Laid.concat hlaid' hstart hle
      currStart := h.nextStart
      tempEnd := .inl rfl
      prevEnd := .inl rfl
      nextStart := hlaid.lo_le_hi }

theorem hush (h : Listening cur s) (minSilence minSpeech : ℤ) (quiet : Bool) :
    Listening cur (s.hush minSilence minSpeech cur quiet) := by
  unfold SpeechState.hush
  split
  case isTrue hquiet =>
    have hspeech : s.isSpeech = true := hquiet.2
    -- where the silence begins
    generalize htemp : (if s.tempEnd = 0 then cur else s.tempEnd) = tempEnd
    have htempEnd : s.currStart ≤ tempEnd ∧ tempEnd ≤ cur := by
      rw [← htemp]
      split
      case isTrue => exact ⟨h.currStart, le_rfl⟩
      case isFalse hne => exact h.tempEnd.resolve_left hne
    dsimp only
    split
    · refine { h with
        idle := fun hidle => Bool.noConfusion (hspeech.symm.trans hidle)
        tempEnd := .inr htempEnd
        prevEnd := ?_ }
      dsimp only
      split
      · exact .inr htempEnd
      · exact h.prevEnd
    · refine h.leave ?_
      split
      · exact h.laid_concat hspeech htempEnd.1 htempEnd.2
      · exact h.laid_cur
  case isFalse => exact h

/-- A window leaves the invariant. -/
theorem step (h : Listening cur s) : Listening cur (Vad.step p nWindow cur prob s) := by
  unfold Vad.step
  have hresume := h.resume (p.loud prob)
  generalize s.resume cur (p.loud prob) = s at hresume
  dsimp only
  split_ifs with hloud hlong hprev
  · obtain ⟨htemp, hprev, hnext⟩ := hresume.idle hloud.2
    have hlaid := hresume.laid_cur
    exact {
      hasCurr := rfl
      idle := nofun
      laid := hlaid
      currStart := le_rfl
      tempEnd := .inl htemp
      prevEnd := .inl hprev
      nextStart := hresume.nextStart }
  · exact (hresume.cutAtSilence hlong.1 hprev).hush _ _ _
  · exact hresume.leave (hresume.laid_concat hlong.1 hresume.currStart le_rfl)
  · exact hresume.hush _ _ _

end Listening

section Laid

variable {F : Type} [ProbScalar F] {p : VadParams F} {nWindow : ℕ}

theorem currSample_strictMono (h : 0 < nWindow) : StrictMono (currSample nWindow) :=
  fun _ _ hij => mul_lt_mul_of_pos_left (by exact_mod_cast hij) (by exact_mod_cast h)

theorem currSample_mono (nWindow : ℕ) : Monotone (currSample nWindow) :=
  fun _ _ hij => mul_le_mul_of_nonneg_left (by exact_mod_cast hij) (Int.natCast_nonneg _)

theorem currSample_nonneg (nWindow i : ℕ) : 0 ≤ currSample nWindow i :=
  Int.mul_nonneg (Int.natCast_nonneg _) (Int.natCast_nonneg _)

omit [ProbScalar F] in
theorem currSample_length (probs : List F) :
    currSample nWindow probs.length = audioLength nWindow probs := by
  rw [currSample, audioLength, mul_comm, Nat.cast_mul]

theorem listening_listen (probs : List F) {i : ℕ} {s : SpeechState}
    (h : Listening (currSample nWindow i) s) :
    Listening (currSample nWindow (i + probs.length)) (listen p nWindow i probs s) := by
  induction probs generalizing i s with
  | nil => exact h
  | cons prob probs ih =>
    rw [List.length_cons, ← Nat.add_assoc, Nat.add_right_comm]
    exact ih (h.step.mono (currSample_mono nWindow (Nat.le_succ i)))

/-- The speeches follow each other in the audio. -/
theorem speeches_laid (probs : List F) :
    Laid 0 (audioLength nWindow probs : ℤ) (speeches p nWindow probs) := by
  have hinitial : Listening (currSample nWindow 0) .initial := by
    rw [currSample, Nat.cast_zero, mul_zero]
    exact .initial
  have h : Listening _ (listen p nWindow 0 probs .initial) := listening_listen probs hinitial
  rw [Nat.zero_add, currSample_length] at h
  unfold speeches
  dsimp only
  split
  case isTrue hcurr => exact h.laid_concat (h.hasCurr ▸ hcurr.1) h.currStart le_rfl
  case isFalse => exact h.laid_cur

end Laid

end WhisperAndroid.Vad
