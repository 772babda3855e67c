import WhisperAndroid.Vad.Segments

/-!
# Loud windows

A window whose probability reaches the threshold is in a segment, or it belongs to a burst that
is too short for a speech. This needs two things that the defaults have: that no probability is
both above the threshold and below the one for the end of a speech, and that no speech becomes
so long that it is cut.

## Main results

* `Heeding.step` — every loud window that has been read is accounted for
* `loud_window_heard` — a loud window is in a segment or in a short burst
-/

namespace WhisperAndroid.Vad

open Span

variable {F : Type} [ProbScalar F] {p : VadParams F} {nWindow : ℕ} {probs : List F} {i j : ℕ}
  {s : SpeechState}

/-- The window `j` is loud. -/
def LoudAt (p : VadParams F) (probs : List F) (j : ℕ) : Prop := ∃ prob ∈ probs[j]?, p.loud prob

/-- In front of the window `first` nothing was loud, or there was a silence long enough to end
a speech. -/
def SilentBefore (p : VadParams F) (nWindow : ℕ) (probs : List F) (first : ℕ) : Prop :=
  (∀ k < first, ¬ LoudAt p probs k) ∨ ∃ stop last,
    p.minSilenceSamples ≤ currSample nWindow last - currSample nWindow stop ∧ last < first ∧
      ∀ k, stop ≤ k → k < first → ¬ LoudAt p probs k

/-- The audio ends in front of the window `stop`, or a silence long enough to end a speech
begins there. -/
def SilentFrom (p : VadParams F) (nWindow : ℕ) (probs : List F) (stop : ℕ) : Prop :=
  stop = probs.length ∨ ∃ last,
    p.minSilenceSamples ≤ currSample nWindow last - currSample nWindow stop ∧
      ∀ k, stop ≤ k → k ≤ last → ¬ LoudAt p probs k

/-- The window `j` belongs to a burst not longer than what a speech needs: a loud window behind
a silence or the begin of the audio, and all up to the next silence or the end. -/
def Brief (p : VadParams F) (nWindow : ℕ) (probs : List F) (j : ℕ) : Prop :=
  ∃ first stop, first ≤ j ∧ j < stop ∧
    (LoudAt p probs first ∧ SilentBefore p nWindow probs first) ∧
      currSample nWindow stop - currSample nWindow first ≤ p.minSpeechSamples ∧
        SilentFrom p nWindow probs stop

theorem SilentBefore.succ (h : SilentBefore p nWindow probs i) (hloud : ¬ LoudAt p probs i) :
    SilentBefore p nWindow probs (i + 1) := by
  rcases h with h | ⟨stop, last, hlong, hlast, hsilent⟩
  · refine .inl fun k hk => ?_
    rcases Nat.lt_succ_iff_lt_or_eq.mp hk with hk | rfl
    · exact h k hk
    · exact hloud
  · refine .inr ⟨stop, last, hlong, hlast.trans (Nat.lt_succ_self i), fun k hk hk' => ?_⟩
    rcases Nat.lt_succ_iff_lt_or_eq.mp hk' with hk' | rfl
    · exact hsilent k hk hk'
    · exact hloud

/-- The window `j` is in the present speech, in front of its last silence. -/
structure Pending (nWindow : ℕ) (j : ℕ) (s : SpeechState) : Prop where
  isSpeech : s.isSpeech
  start_le : s.currStart ≤ currSample nWindow j
  le_tempEnd : s.tempEnd = 0 ∨ currSample nWindow (j + 1) ≤ s.tempEnd

/-- All loud windows in front of the window `i` are accounted for, and the speeches are as long
as they have to be. -/
structure Heeding (p : VadParams F) (nWindow : ℕ) (probs : List F) (i : ℕ) (s : SpeechState) :
    Prop where
  listening : Listening (currSample nWindow i) s
  heard : ∀ j < i, LoudAt p probs j →
    Covered s.speeches (currSample nWindow j) (currSample nWindow (j + 1)) ∨
      Brief p nWindow probs j ∨ Pending nWindow j s
  long : ∀ t ∈ s.speeches, p.minSpeechSamples < t.stop - t.start
  start_eq : ∃ first, s.currStart = currSample nWindow first ∧
    (s.isSpeech → LoudAt p probs first ∧ SilentBefore p nWindow probs first)
  idle : s.isSpeech = false → SilentBefore p nWindow probs i
  silent : s.tempEnd ≠ 0 → ∃ stop, s.tempEnd = currSample nWindow stop ∧
    ∀ k, stop ≤ k → k < i → ¬ LoudAt p probs k

namespace Heeding

theorem initial : Heeding p nWindow probs 0 .initial where
  listening := by
    rw [currSample, Nat.cast_zero, mul_zero]
    exact .initial
  heard _ hj := absurd hj (Nat.not_lt_zero _)
  long := nofun
  start_eq := ⟨0, by simp [SpeechState.initial, currSample], nofun⟩
  idle _ := .inl nofun
  silent h := absurd rfl h

/-- The window at the silence's begin, which is the present one if there was none before. -/
theorem silence (h : Heeding p nWindow probs i s) (hloud : ¬ LoudAt p probs i) :
    ∃ stop, (if s.tempEnd = 0 then currSample nWindow i else s.tempEnd) = currSample nWindow stop ∧
      (∀ k, stop ≤ k → k ≤ i → ¬ LoudAt p probs k) ∧ s.currStart ≤ currSample nWindow stop ∧
        currSample nWindow stop ≤ currSample nWindow i ∧
          ∀ j < i, Pending nWindow j s → currSample nWindow (j + 1) ≤ currSample nWindow stop := by
  by_cases htemp : s.tempEnd = 0
  · refine ⟨i, if_pos htemp, ?_, h.listening.currStart, le_rfl, ?_⟩
    · intro k hk hk'
      rwa [Nat.le_antisymm hk' hk]
    · intro j hj _
      exact currSample_mono nWindow hj
  · obtain ⟨stop, hstop, hquiet⟩ := h.silent htemp
    obtain ⟨hstart, hle⟩ := h.listening.tempEnd.resolve_left htemp
    refine ⟨stop, (if_neg htemp).trans hstop, ?_, hstop ▸ hstart, hstop ▸ hle, ?_⟩
    · intro k hk hk'
      rcases Nat.lt_or_eq_of_le hk' with hk' | rfl
      · exact hquiet k hk hk'
      · exact hloud
    · intro j _ hpending
      exact hstop ▸ hpending.le_tempEnd.resolve_left htemp

/-- A window that is not loud takes nothing from what was heard. -/
theorem pass (h : Heeding p nWindow probs i s) (hloud : ¬ LoudAt p probs i) :
    Heeding p nWindow probs (i + 1) s where
  listening := h.listening.mono (currSample_mono nWindow (Nat.le_succ i))
  heard j hj hloud' := by
    rcases Nat.lt_succ_iff_lt_or_eq.mp hj with hj | rfl
    · exact h.heard j hj hloud'
    · exact absurd hloud' hloud
  long := h.long
  start_eq := h.start_eq
  idle hidle := (h.idle hidle).succ hloud
  silent htemp := by
    obtain ⟨stop, hstop, hquiet⟩ := h.silent htemp
    refine ⟨stop, hstop, fun k hk hk' => ?_⟩
    rcases Nat.lt_succ_iff_lt_or_eq.mp hk' with hk' | rfl
    · exact hquiet k hk hk'
    · exact hloud

/-- A speech that is too short when its silence ends it is a burst. -/
theorem brief_of_pending (hwindow : 0 < nWindow) (h : Heeding p nWindow probs i s)
    (hpend : Pending nWindow j s) {stop : ℕ} (hstop : currSample nWindow (j + 1) ≤
      currSample nWindow stop)
    (hshort : ¬ p.minSpeechSamples < currSample nWindow stop - s.currStart)
    (hsilence : ¬ currSample nWindow i - currSample nWindow stop < p.minSilenceSamples)
    (hsilent : ∀ k, stop ≤ k → k ≤ i → ¬ LoudAt p probs k) : Brief p nWindow probs j := by
  have hmono := currSample_strictMono hwindow
  obtain ⟨first, hfirst, hbegun⟩ := h.start_eq
  refine ⟨first, stop, hmono.le_iff_le.mp (hfirst ▸ hpend.start_le), hmono.le_iff_le.mp hstop,
    hbegun hpend.isSpeech, ?_, .inr ⟨i, not_lt.mp hsilence, hsilent⟩⟩
  rw [← hfirst]
  exact not_lt.mp hshort

/-- A silence begins, goes on, or ends the speech. -/
theorem hush (hwindow : 0 < nWindow) (h : Heeding p nWindow probs i s)
    (hloud : ¬ LoudAt p probs i) (quiet : Bool) :
    Heeding p nWindow probs (i + 1)
      (s.hush p.minSilenceSamples p.minSpeechSamples (currSample nWindow i) quiet) := by
  have hpass := h.pass hloud
  have hlistening := (h.listening.hush p.minSilenceSamples p.minSpeechSamples quiet).mono
    (currSample_mono nWindow (Nat.le_succ i))
  revert hlistening
  unfold SpeechState.hush
  split
  case isFalse => exact fun _ => hpass
  case isTrue hquiet =>
    obtain ⟨stop, htemp, hsilent, hstart, hle, hpending⟩ := h.silence hloud
    have hfront : ∀ j < i + 1, LoudAt p probs j → j < i := fun j hj hloud' =>
      Nat.lt_of_le_of_ne (Nat.le_of_lt_succ hj) fun heq => hloud (heq ▸ hloud')
    rw [htemp]
    dsimp only
    split
    -- the speech may go on
    case isTrue =>
      intro hlistening
      refine ⟨hlistening, fun j hj hloud' => ?_, h.long, h.start_eq, fun hidle => ?_,
        fun _ => ?_⟩
      · refine (hpass.heard j hj hloud').imp_right fun hor => hor.imp_right fun hpend => ?_
        exact ⟨hpend.isSpeech, hpend.start_le, .inr (hpending j (hfront j hj hloud') hpend)⟩
      · exact absurd hquiet.2 (by simp [show s.isSpeech = false from hidle])
      · exact ⟨stop, rfl, fun k hk hk' => hsilent k hk (Nat.le_of_lt_succ hk')⟩
    -- it is over
    case isFalse hsilence =>
      intro hlistening
      obtain ⟨first, hfirst, -⟩ := h.start_eq
      refine ⟨hlistening, fun j hj hloud' => ?_, ?_, ⟨first, hfirst, nofun⟩, fun _ => ?_,
        fun htemp => absurd rfl htemp⟩
      · rcases hpass.heard j hj hloud' with hcovered | hbrief | hpend
        · refine .inl ?_
          split
          · obtain ⟨t, ht, hcovered⟩ := hcovered
            exact ⟨t, List.mem_append_left _ ht, hcovered⟩
          · exact hcovered
        · exact .inr (.inl hbrief)
        · have hstop := hpending j (hfront j hj hloud') hpend
          split
          case isTrue => exact .inl ⟨_, List.mem_concat_self, hpend.start_le, hstop⟩
          case isFalse hshort =>
            exact .inr (.inl (h.brief_of_pending hwindow hpend hstop hshort hsilence hsilent))
      · split
        case isTrue hlong =>
          intro t ht
          rcases List.mem_append.mp ht with ht | ht
          · exact h.long t ht
          · obtain rfl := List.mem_singleton.mp ht
            exact hlong
        case isFalse => exact h.long
      · exact .inr ⟨stop, i, not_lt.mp hsilence, Nat.lt_succ_self i, fun k hk hk' =>
          hsilent k hk (Nat.le_of_lt_succ hk')⟩

/-- A loud window belongs to the present speech. -/
theorem resume (h : Heeding p nWindow probs i s) (hspeech : s.isSpeech) :
    Heeding p nWindow probs (i + 1) (s.resume (currSample nWindow i) true) := by
  have hpend : ∀ j ≤ i, s.currStart ≤ currSample nWindow j →
      Pending nWindow j (s.resume (currSample nWindow i) true) := fun j _ hstart =>
    ⟨by simpa using hspeech, by simpa using hstart, .inl (s.resume_tempEnd _)⟩
  refine ⟨?_, fun j hj hloud => ?_, by simpa using h.long, by simpa using h.start_eq,
    fun hidle => absurd hspeech (by simpa using hidle),
    fun htemp => absurd (s.resume_tempEnd _) htemp⟩
  · exact (h.listening.resume true).mono (currSample_mono nWindow (Nat.le_succ i))
  · rw [SpeechState.resume_speeches]
    rcases Nat.lt_succ_iff_lt_or_eq.mp hj with hj | rfl
    · exact (h.heard j hj hloud).imp_right fun hor =>
        hor.imp_right fun hpending => hpend j hj.le hpending.start_le
    · exact .inr (.inr (hpend j le_rfl h.listening.currStart))

/-- A loud window begins a speech. -/
theorem begin (h : Heeding p nWindow probs i s) (hloud : LoudAt p probs i)
    (hidle : s.isSpeech = false) :
    Heeding p nWindow probs (i + 1)
      { s with isSpeech := true, currStart := currSample nWindow i, hasCurr := true } := by
  obtain ⟨htemp, hprev, hnext⟩ := h.listening.idle hidle
  have hlaid := h.listening.laid_cur
  have hcur := currSample_mono nWindow (Nat.le_succ i)
  refine ⟨?_, fun j hj hloud => ?_, h.long, ⟨i, rfl, fun _ => ⟨hloud, h.idle hidle⟩⟩, nofun,
    fun hne => absurd htemp hne⟩
  · exact ⟨rfl, nofun, hlaid, hcur, .inl htemp, .inl hprev, h.listening.nextStart.trans hcur⟩
  · rcases Nat.lt_succ_iff_lt_or_eq.mp hj with hj | rfl
    · refine (h.heard j hj hloud).imp_right fun hor => .inl (hor.resolve_right fun hpending => ?_)
      exact Bool.noConfusion (hidle.symm.trans hpending.isSpeech)
    · exact .inr (.inr ⟨rfl, le_rfl, .inl htemp⟩)

/-- A window that does not make a speech too long leaves all loud windows accounted for. -/
theorem step (hwindow : 0 < nWindow) (hquiet : ∀ prob, p.loud prob → ¬ p.quiet prob)
    {prob : F} (hprob : probs[i]? = some prob)
    (hcut : currSample nWindow i ≤ p.maxSpeechSamples nWindow)
    (h : Heeding p nWindow probs i s) :
    Heeding p nWindow probs (i + 1) (Vad.step p nWindow (currSample nWindow i) prob s) := by
  obtain ⟨first, hfirst, -⟩ := h.start_eq
  have hpos : 0 ≤ currSample nWindow first := currSample_nonneg nWindow first
  have hloudAt : LoudAt p probs i ↔ p.loud prob := by
    rw [LoudAt, hprob]
    simp
  unfold Vad.step
  dsimp only
  rw [SpeechState.resume_isSpeech, SpeechState.resume_currStart,
    if_neg (show ¬ (s.isSpeech = true ∧ _) from fun hlong => by have := hlong.2; omega)]
  by_cases hloud : p.loud prob
  · rw [hloud]
    by_cases hspeech : s.isSpeech
    · rw [if_neg (by simp [hspeech]), SpeechState.hush, if_neg (by simp [hquiet prob hloud])]
      exact h.resume hspeech
    · have hidle : s.isSpeech = false := Bool.eq_false_of_not_eq_true hspeech
      rw [SpeechState.resume_of_tempEnd _ _ (h.listening.idle hidle).1, if_pos ⟨rfl, hidle⟩]
      exact h.begin (hloudAt.mpr hloud) hidle
  · have hresume : s.resume (currSample nWindow i) (p.loud prob) = s :=
      if_neg fun hne => hloud hne.1
    rw [hresume, if_neg fun hne => hloud hne.1]
    exact h.hush hwindow (fun hat => hloud (hloudAt.mp hat)) (p.quiet prob)

end Heeding

section Heard

variable (hwindow : 0 < nWindow) (hquiet : ∀ prob, p.loud prob → ¬ p.quiet prob)
  (hcut : audioLength nWindow probs ≤ p.maxSpeechSamples nWindow)

include hwindow hquiet hcut

theorem heeding_listen {rest : List F} (hrest : probs.drop i = rest)
    (h : Heeding p nWindow probs i s) :
    Heeding p nWindow probs (i + rest.length) (listen p nWindow i rest s) := by
  induction rest generalizing i s with
  | nil => exact h
  | cons prob rest ih =>
    have hprob : probs[i]? = some prob := by
      rw [← List.head?_drop, hrest, List.head?_cons]
    have hi : i ≤ probs.length := (List.getElem?_eq_some_iff.mp hprob).1.le
    have hle : currSample nWindow i ≤ p.maxSpeechSamples nWindow :=
      (currSample_mono nWindow hi).trans (currSample_length probs ▸ hcut)
    have hrest' : probs.drop (i + 1) = rest := by
      rw [← List.tail_drop, hrest, List.tail_cons]
    rw [List.length_cons, ← Nat.add_assoc, Nat.add_right_comm]
    exact ih hrest' (h.step hwindow hquiet hprob hle)

/-- A loud window is in a speech or in a short burst, and the speeches are as long as they have
to be. -/
theorem speeches_heard :
    (∀ t ∈ speeches p nWindow probs, p.minSpeechSamples < t.stop - t.start) ∧
      ∀ j, LoudAt p probs j →
        Covered (speeches p nWindow probs) (currSample nWindow j) (currSample nWindow (j + 1)) ∨
          Brief p nWindow probs j := by
  have h : Heeding p nWindow probs _ (listen p nWindow 0 probs .initial) :=
    heeding_listen hwindow hquiet hcut List.drop_zero .initial
  rw [Nat.zero_add] at h
  unfold speeches
  generalize listen p nWindow 0 probs .initial = s at h
  rw [← currSample_length]
  have hlt : ∀ j, LoudAt p probs j → j < probs.length := fun j ⟨prob, hprob, _⟩ =>
    (List.getElem?_eq_some_iff.mp hprob).1
  dsimp only
  split
  -- the audio ends in a speech
  case isTrue hlast =>
    refine ⟨fun t ht => ?_, fun j hloud => ?_⟩
    · rcases List.mem_append.mp ht with ht | ht
      · exact h.long t ht
      · obtain rfl := List.mem_singleton.mp ht
        exact hlast.2
    · have hj := hlt j hloud
      rcases h.heard j hj hloud with ⟨t, ht, hcovered⟩ | hbrief | hpending
      · exact .inl ⟨t, List.mem_append_left _ ht, hcovered⟩
      · exact .inr hbrief
      · exact .inl ⟨_, List.mem_concat_self, hpending.start_le, currSample_mono nWindow hj⟩
  case isFalse hlast =>
    refine ⟨h.long, fun j hloud => ?_⟩
    have hj := hlt j hloud
    refine (h.heard j hj hloud).imp_right fun hor => hor.elim id fun hpending => ?_
    obtain ⟨first, hfirst, hbegun⟩ := h.start_eq
    have hshort : ¬ p.minSpeechSamples < currSample nWindow probs.length - s.currStart :=
      fun hlong => hlast ⟨h.listening.hasCurr.trans hpending.isSpeech, hlong⟩
    refine ⟨first, probs.length, ?_, hj, hbegun hpending.isSpeech, ?_, .inl rfl⟩
    · exact (currSample_strictMono hwindow).le_iff_le.mp (hfirst ▸ hpending.start_le)
    · rw [← hfirst]
      exact not_lt.mp hshort

/-- A loud window is in a segment or in a short burst. -/
theorem loud_window_heard (hpad : 0 ≤ p.speechPadMs) (hproducts : p.ProductsFit)
    (haudio : audioLength nWindow probs + p.speechPadSamples ≤ intMax) (clock : SampleClock)
    (hloud : LoudAt p probs j) :
    ∃ segments, segmentsFromProbs p nWindow clock probs = .ok segments ∧
      (Covered segments (clock.samplesToCs (currSample nWindow j))
        (clock.samplesToCs (currSample nWindow (j + 1))) ∨ Brief p nWindow probs j) := by
  refine ⟨_, segmentsFromProbs_eq_ok hpad hproducts clock haudio, ?_⟩
  have hpad := VadParams.speechPadSamples_nonneg hpad
  obtain ⟨hlong, hheard⟩ := speeches_heard hwindow hquiet hcut
  refine (hheard j hloud).imp_left fun hcovered => ?_
  have hmerged : Widens (mergeClose (speeches p nWindow probs)) (speeches p nWindow probs) :=
    widens_mergeClose (speeches_laid probs)
  have hfinal : Widens (finalSpeeches p nWindow probs) (speeches p nWindow probs) := by
    intro t ht
    obtain ⟨m, hm, hstart, hstop⟩ := hmerged t ht
    refine ⟨m, List.mem_filter.mpr ⟨hm, ?_⟩, hstart, hstop⟩
    have := hlong t ht
    simp only [longEnough, decide_eq_true_eq]
    omega
  have hpadded : Widens (paddedSpeeches p nWindow probs) (finalSpeeches p nWindow probs) :=
    .of_forall₂ (padSpeeches_inside hpad (finalSpeeches_laid probs))
  exact ((hcovered.of_widens hfinal).of_widens hpadded).map clock.mono

end Heard

theorem loud_window_heard_defaults : ∃ segments,
    segmentsFromProbs vadDefaultParams 512 .exact twoBursts = .ok segments ∧
      (Covered segments (SampleClock.exact.samplesToCs (currSample 512 42))
        (SampleClock.exact.samplesToCs (currSample 512 43)) ∨
          Brief vadDefaultParams 512 twoBursts 42) :=
  loud_window_heard (by decide) vadDefaultParams_not_quiet
    (by rw [vadDefaultParams_maxSpeechSamples]; decide) (by decide) vadDefaultParams_productsFit
    (by decide) .exact ⟨1, rfl, decide_eq_true (by norm_num [vadDefaultParams])⟩

end WhisperAndroid.Vad
