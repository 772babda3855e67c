import WhisperAndroid.Context.Transcribe

/-!
# What one call leaves for the next

A context keeps the spectrogram of the last samples it was given. A call without
samples, for example on a file that `read_wav` cannot decode, is answered from it.

## Main results

* `Session.mel_eq` — the spectrogram that a session leaves is that of the last samples
* `last_outcome_independent_iff` — which last calls have an outcome of their own
-/

namespace WhisperAndroid

variable {F D : Type} [FloatArith F] {model : Model F D} {noData : D}

/-! ### One call -/

/-- The outcome of a call, from what the native library recognises. -/
def outcomeOf (recognised : ℤ × List CString) : Except KotlinException CString :=
  if recognised.1 ≠ 0 then
    .error (.runtime ("Transcription failed with code: " ++ toString recognised.1))
  else
    .ok (joinSegments recognised.2)

omit [FloatArith F] in
/-- With samples or without, a call has the outcome of the spectrogram it works on. -/
theorem transcribe_ok (s : WhisperState D) (audioData : List F) :
    transcribe model s (.ok audioData) =
      (outcomeOf (recognise model (melFor model s audioData)),
        some ⟨melFor model s audioData, (recognise model (melFor model s audioData)).2⟩) := by
  simp only [transcribe, transcribeAudio, fullTranscribe, whisperFull_eq, outcomeOf,
    getTranscriptionText]
  split_ifs <;> rfl

omit [FloatArith F] in
/-- Whether or not it throws, a call leaves the context open. -/
theorem transcribe_leaves_context (model : Model F D) (s : WhisperState D)
    (fetched : Except KotlinException (List F)) :
    ∃ outcome t, transcribe model s fetched = (outcome, some t) := by
  cases fetched with
  | error e => exact ⟨_, s, rfl⟩
  | ok audioData => exact ⟨_, _, transcribe_ok s audioData⟩

/-! ### Sessions -/

/-- The last samples after one more call: its own, if it has any. -/
def lastAudio (last : List F) : Except KotlinException (List F) → List F
  | .error _ => last
  | .ok [] => last
  | .ok (x :: audioData) => x :: audioData

/-- The spectrogram of the last samples, the empty one if there were none. -/
def lastMel (model : Model F D) (noData : D) : List F → Mel D
  | [] => ⟨0, noData⟩
  | x :: audioData => logMelSpectrogram model (x :: audioData)

omit [FloatArith F] in
theorem nLenOrg_le_ten_iff {n : ℕ} : nLenOrg n ≤ 10 ↔ n < 1800 := by
  unfold nLenOrg
  grind

omit [FloatArith F] in
/-- Last samples of ten frames at most, or none, are not processed. -/
theorem lastMel_le_ten_iff {audio : List F} :
    (lastMel model noData audio).nLenOrg ≤ 10 ↔ audio.length < 1800 := by
  cases audio with
  | nil => simp [lastMel]
  | cons x audio => exact nLenOrg_le_ten_iff

omit [FloatArith F] in
/-- A call stores the spectrogram of the last samples, its own included. -/
theorem transcribe_mel {s t : WhisperState D} {audio : List F}
    {fetched : Except KotlinException (List F)} {outcome : Except KotlinException CString}
    (hmel : s.mel = lastMel model noData audio)
    (hcall : transcribe model s fetched = (outcome, some t)) :
    t.mel = lastMel model noData (lastAudio audio fetched) := by
  cases fetched with
  | error e =>
    obtain ⟨-, hstate⟩ := Prod.mk.inj hcall
    rw [← Option.some.inj hstate, hmel, lastAudio]
  | ok audioData =>
    rw [transcribe_ok] at hcall
    obtain ⟨-, hstate⟩ := Prod.mk.inj hcall
    rw [← Option.some.inj hstate]
    -- samples replace the spectrogram, and without any it stays
    cases audioData with
    | nil => simp [melFor, lastAudio, hmel]
    | cons x audioData => simp [melFor, lastAudio, lastMel]

/-- The calls have fetched what they need, or thrown. -/
abbrev AllFetch (invocations : List (Invocation F))
    (fetched : List (Except KotlinException (List F))) : Prop :=
  List.Forall₂ Invocation.Fetches invocations fetched

/-- The spectrogram that a session leaves is that of the last samples. -/
theorem Session.mel_eq {s t : WhisperState D} {audio : List F} {calls : List (Completed F)}
    {fetched : List (Except KotlinException (List F))} (hsession : Session model s calls t)
    (hfetch : AllFetch (calls.map Completed.invocation) fetched)
    (hmel : s.mel = lastMel model noData audio) :
    t.mel = lastMel model noData (fetched.foldl lastAudio audio) := by
  -- induction on the session, with the last samples so far as accumulator
  induction hsession generalizing audio fetched with
  | nil s =>
    cases hfetch
    exact hmel
  | @cons s u t c calls hstep _ ih =>
    obtain ⟨f, fs, hf, hfs, rfl⟩ := List.forall₂_cons_left_iff.mp hfetch
    obtain ⟨f', hf', hcall⟩ := hstep
    rw [hf'.unique hf] at hcall
    rw [List.foldl_cons]
    exact ih hfs (transcribe_mel hmel hcall)

/-- Calls that fetch what they need complete, one after the other, from any state. -/
theorem exists_session (model : Model F D) (s : WhisperState D) {invocations : List (Invocation F)}
    {fetched : List (Except KotlinException (List F))} (hfetch : AllFetch invocations fetched) :
    ∃ calls t, calls.map Completed.invocation = invocations ∧ Session model s calls t := by
  induction hfetch generalizing s with
  | nil => exact ⟨[], s, rfl, .nil s⟩
  | @cons i f is fs hf _ ih =>
    obtain ⟨outcome, u, hcall⟩ := transcribe_leaves_context model s f
    obtain ⟨calls, t, hcalls, hsession⟩ := ih u
    exact ⟨⟨i, outcome⟩ :: calls, t, by rw [List.map_cons, hcalls],
      .cons ⟨f, hf, hcall⟩ hsession⟩

/-! ### The last call of a session -/

section

omit [FloatArith F]

/-- A spectrogram of ten frames at most is recognised as silence. -/
theorem recognise_of_le {mel : Mel D} (hshort : mel.nLenOrg ≤ 10) :
    recognise model mel = (0, []) :=
  if_pos hshort

theorem recognise_of_gt {mel : Mel D} (hlong : ¬ mel.nLenOrg ≤ 10) :
    recognise model mel = model.decode mel :=
  if_neg hlong

/-- With samples of its own, a call does not see the state of the context. -/
theorem melFor_of_ne_nil {audioData : List F} (hne : audioData ≠ []) (s s' : WhisperState D) :
    melFor model s audioData = melFor model s' audioData := by
  rw [melFor, melFor, if_pos (List.length_pos_of_ne_nil hne),
    if_pos (List.length_pos_of_ne_nil hne)]

/-- Without samples, it works on the stored spectrogram. -/
theorem melFor_nil (s : WhisperState D) : melFor model s [] = s.mel := rfl

/-- A call with samples, or behind short ones only, recognises what it would on a fresh
context. -/
theorem recognise_eq_fresh {s : WhisperState D} {audio audioData : List F}
    (hmel : s.mel = lastMel model noData audio) (hfresh : audioData ≠ [] ∨ audio.length < 1800) :
    recognise model (melFor model s audioData) =
      recognise model (melFor model (.fresh noData) audioData) := by
  by_cases hne : audioData = []
  -- answered from the stored spectrogram, which is too short to be processed
  · subst hne
    have hshort : s.mel.nLenOrg ≤ 10 := by
      rw [hmel, lastMel_le_ten_iff]
      exact hfresh.resolve_left fun h => h rfl
    rw [melFor_nil, melFor_nil, recognise_of_le hshort]
    rfl
  · rw [melFor_of_ne_nil hne s (.fresh noData)]

/-- A model whose decoder hears the same word in everything. -/
def constantModel (F : Type) : Model F Unit := ⟨fun _ => (), fun _ => (0, [[0x78]])⟩

theorem transcribe_constantModel {s : WhisperState Unit} {audioData : List F}
    (hlong : ¬ (melFor (constantModel F) s audioData).nLenOrg ≤ 10) :
    transcribe (constantModel F) s (.ok audioData) =
      (.ok [0x78], some ⟨melFor (constantModel F) s audioData, [[0x78]]⟩) := by
  rw [transcribe_ok, recognise_of_gt hlong]
  rfl

end

/-- The spectrogram that long samples have stored answers a last call without samples, which
a fresh context would answer with nothing. -/
theorem exists_repeated {earlier : List (Invocation F)} {last : Invocation F}
    {fetched : List (Except KotlinException (List F))} (hearlier : AllFetch earlier fetched)
    (hlast : last.Fetches (.ok [])) (hlong : 1800 ≤ (fetched.foldl lastAudio []).length) :
    ∃ (calls : List (Completed F)) (t t' : WhisperState Unit),
      calls.map Completed.invocation = earlier ∧
      Session (constantModel F) (.fresh ()) (calls ++ [⟨last, .ok [0x78]⟩]) t ∧
      Session (constantModel F) (.fresh ()) [⟨last, .ok []⟩] t' := by
  obtain ⟨calls, u, hcalls, hsession⟩ := exists_session (constantModel F) (.fresh ()) hearlier
  have hmel : u.mel = lastMel (constantModel F) () (fetched.foldl lastAudio []) :=
    hsession.mel_eq (by rwa [hcalls]) rfl
  have hstored : ¬ u.mel.nLenOrg ≤ 10 := by
    rw [hmel, lastMel_le_ten_iff]
    exact not_lt.mpr hlong
  -- the decoder is run on the stored spectrogram, but not on that of a fresh context
  have hafter : transcribe (constantModel F) u (.ok []) = _ := transcribe_constantModel hstored
  have halone : transcribe (constantModel F) (.fresh ()) (.ok []) =
      (.ok [], some ⟨⟨0, ()⟩, []⟩) := rfl
  exact ⟨calls, _, _, hcalls, Transition.Run.concat_iff.mpr ⟨u, hsession, .ok [], hlast, hafter⟩,
    Transition.Run.singleton_iff.mpr ⟨.ok [], hlast, halone⟩⟩

/-- The outcome of the last call of every session is its outcome on a fresh context, for
every model, exactly when the last call throws before it reaches the native library, or
brings samples, or follows only calls whose last samples are of ten frames at most. -/
theorem last_outcome_independent_iff {earlier : List (Invocation F)} {last : Invocation F}
    {fetchedEarlier : List (Except KotlinException (List F))}
    {fetchedLast : Except KotlinException (List F)} (hearlier : AllFetch earlier fetchedEarlier)
    (hlast : last.Fetches fetchedLast) :
    (∀ (D : Type) (model : Model F D) (noData : D) (calls : List (Completed F))
        (outcome outcome' : Except KotlinException CString) (t t' : WhisperState D),
        calls.map Completed.invocation = earlier →
        Session model (.fresh noData) (calls ++ [⟨last, outcome⟩]) t →
        Session model (.fresh noData) [⟨last, outcome'⟩] t' → outcome = outcome') ↔
      fetchedLast ≠ .ok [] ∨ (fetchedEarlier.foldl lastAudio []).length < 1800 := by
  constructor
  · intro hindependent
    by_contra hleak
    push Not at hleak
    obtain ⟨rfl, hlong⟩ := hleak
    obtain ⟨calls, t, t', hcalls, hsession, halone⟩ := exists_repeated hearlier hlast hlong
    have hsame := hindependent Unit (constantModel F) () calls (.ok [0x78]) (.ok []) t t' hcalls
      hsession halone
    cases hsame
  · intro hcondition D model noData calls outcome outcome' t t' hcalls hsession halone
    obtain ⟨u, hrun, f, hf, hcall⟩ := Transition.Run.concat_iff.mp hsession
    obtain ⟨f', hf', hcall'⟩ := Transition.Run.singleton_iff.mp halone
    -- both calls have fetched the same
    obtain rfl := hf.unique hlast
    obtain rfl := hf'.unique hf
    cases f' with
    | error e => exact (Prod.mk.inj hcall).1.symm.trans (Prod.mk.inj hcall').1
    | ok audioData =>
      have hmel : u.mel = lastMel model noData (fetchedEarlier.foldl lastAudio []) :=
        Session.mel_eq hrun (by rwa [hcalls]) rfl
      have hfresh : audioData ≠ [] ∨ (fetchedEarlier.foldl lastAudio []).length < 1800 :=
        hcondition.imp_left fun h hnil => h (by rw [hnil])
      rw [transcribe_ok, recognise_eq_fresh hmel hfresh] at hcall
      rw [transcribe_ok] at hcall'
      exact (Prod.mk.inj hcall).1.symm.trans (Prod.mk.inj hcall').1

/-- A call on an empty file. -/
def emptyFile : Invocation ℚ := ⟨.file ⟨true, "/sdcard/empty.wav", "empty.wav", some []⟩, .zero⟩

theorem emptyFile_fetches : emptyFile.Fetches (.ok []) :=
  (fetches_file_iff rfl (by decide)).mpr ⟨[], ⟨0, rfl⟩, rfl⟩

theorem last_outcome_independent_iff_emptyFile :
    (∀ (D : Type) (model : Model ℚ D) (noData : D) (calls : List (Completed ℚ))
        (outcome outcome' : Except KotlinException CString) (t t' : WhisperState D),
        calls.map Completed.invocation = [⟨.samples [1], .zero⟩] →
        Session model (.fresh noData) (calls ++ [⟨emptyFile, outcome⟩]) t →
        Session model (.fresh noData) [⟨emptyFile, outcome'⟩] t' → outcome = outcome') ↔
      (.ok [] : Except KotlinException (List ℚ)) ≠ .ok [] ∨
        ([.ok [1]].foldl lastAudio ([] : List ℚ)).length < 1800 :=
  last_outcome_independent_iff (.cons (fetches_samples_iff.mpr rfl) .nil) emptyFile_fetches

/-- A call with samples. -/
def silence (audio : List ℚ) : Invocation ℚ := ⟨.samples audio, .zero⟩

theorem emptyFile_after_samples {audio : List ℚ} (hlong : 1800 ≤ audio.length) :
    (∃ t, Session (constantModel ℚ) (.fresh ())
      [⟨silence audio, .ok [0x78]⟩, ⟨emptyFile, .ok [0x78]⟩] t) ∧
    ∃ t, Session (constantModel ℚ) (.fresh ()) [⟨emptyFile, .ok []⟩] t := by
  have hne : audio ≠ [] := by
    intro hnil
    rw [hnil] at hlong
    exact absurd hlong (by simp)
  have hmel : ∀ s, melFor (constantModel ℚ) s audio = logMelSpectrogram (constantModel ℚ) audio :=
    fun s => if_pos (List.length_pos_of_ne_nil hne)
  have hstored : ¬ (logMelSpectrogram (constantModel ℚ) audio).nLenOrg ≤ 10 :=
    fun hshort => absurd (nLenOrg_le_ten_iff.mp hshort) (not_lt.mpr hlong)
  have hfirst := transcribe_constantModel (s := .fresh ()) (by rwa [hmel])
  rw [hmel] at hfirst
  refine ⟨⟨_, .cons ⟨_, fetches_samples_iff.mpr rfl, hfirst⟩
    (.cons ⟨_, emptyFile_fetches, transcribe_constantModel hstored⟩ (.nil _))⟩, _,
    .cons ⟨_, emptyFile_fetches, rfl⟩ (.nil _)⟩

/-- After that call, the empty file is answered with the text of the call before, where a
fresh context answers with the empty text. -/
theorem emptyFile_repeats_transcript :
    (∃ t, Session (constantModel ℚ) (.fresh ())
      [⟨silence (List.replicate 1800 0), .ok [0x78]⟩, ⟨emptyFile, .ok [0x78]⟩] t) ∧
    ∃ t, Session (constantModel ℚ) (.fresh ()) [⟨emptyFile, .ok []⟩] t :=
  emptyFile_after_samples (by rw [List.length_replicate])

end WhisperAndroid
