import Mathlib.Data.List.Induction
import Mathlib.Logic.Function.Basic
import WhisperAndroid.Context.Isolation

/-!
# Concurrent transcriptions

A call of `transcribe` changes the result list of the context in one native call and
reads it in another. Between the two, another call can replace the list.

The steps are stated over any context type with the two native calls on it, and then on
the context of the native library, which also keeps the spectrogram that a call without
samples works on.

## Main results

* `native_returned` — a call returns the texts of the last samples before its read
* `texts_own_iff` — the schedules in which every call returns the texts of its own audio
-/

namespace WhisperAndroid

/-! ### Calls on a shared context -/

/-- Where a call stands: before `fullTranscribe`, behind it with its result, or behind
`getTranscriptionText` with the text that it returns. -/
inductive TextPhase
  | started
  | transcribed (result : ℤ)
  | returned (text : CString)
  deriving DecidableEq, Repr

structure SharedState (C : Type) where
  ctx : C
  call : ℕ → TextPhase

/-- The native calls of call `i`, each of them one step. -/
inductive SharedEvent
  | fullTranscribe (i : ℕ)
  | getTranscriptionText (i : ℕ)
  deriving DecidableEq, Repr

namespace SharedState

variable {C : Type}

/-- Calls that have all been started, on one context. -/
def start (ctx : C) : SharedState C := ⟨ctx, fun _ => .started⟩

/-- Call `i` comes to a new phase and leaves the given context. -/
def advance (s : SharedState C) (ctx : C) (i : ℕ) (phase : TextPhase) : SharedState C :=
  ⟨ctx, Function.update s.call i phase⟩

variable {s : SharedState C} {ctx : C} {i j : ℕ} {phase : TextPhase}

@[simp] theorem advance_ctx : (s.advance ctx i phase).ctx = ctx := rfl

@[simp] theorem advance_call_self : (s.advance ctx i phase).call i = phase :=
  Function.update_self ..

theorem advance_call_of_ne (hne : j ≠ i) : (s.advance ctx i phase).call j = s.call j :=
  Function.update_of_ne hne ..

end SharedState

section

variable {A C : Type} (full : A → C → ℤ × C) (getText : C → CString) (audio : ℕ → A)

/-- One native call. A call with a result other than 0 throws and makes no second one. -/
def SharedState.step (s : SharedState C) : SharedEvent → Option (SharedState C)
  | .fullTranscribe i =>
    if s.call i = .started then
      let (result, ctx) := full (audio i) s.ctx
      some (s.advance ctx i (.transcribed result))
    else
      none
  | .getTranscriptionText i =>
    if s.call i = .transcribed 0 then
      some (s.advance s.ctx i (.returned (getText s.ctx)))
    else
      none

/-- Runs of the calls on one context, in any order of their native calls. -/
abbrev SharedRun : SharedState C → List SharedEvent → SharedState C → Prop :=
  Transition.Run fun s e t => s.step full getText audio e = some t

variable {full getText audio} {s t : SharedState C} {i : ℕ}

theorem step_fullTranscribe_iff :
    s.step full getText audio (.fullTranscribe i) = some t ↔ s.call i = .started ∧
      t = s.advance (full (audio i) s.ctx).2 i (.transcribed (full (audio i) s.ctx).1) := by
  simp [SharedState.step, eq_comm]

theorem step_getTranscriptionText_iff :
    s.step full getText audio (.getTranscriptionText i) = some t ↔ s.call i = .transcribed 0 ∧
      t = s.advance s.ctx i (.returned (getText s.ctx)) := by
  simp [SharedState.step, eq_comm]

/-- A call that has returned takes no more steps. -/
theorem returned_stable {text : CString} {events : List SharedEvent}
    (hrun : SharedRun full getText audio s events t) (hreturned : s.call i = .returned text) :
    t.call i = .returned text := by
  -- what a step changes belongs to a call that has not returned
  refine hrun.invariant (P := fun s => s.call i = .returned text) ?_ hreturned
  intro s e t hcall hstep
  cases e with
  | fullTranscribe j =>
    obtain ⟨hstarted, rfl⟩ := step_fullTranscribe_iff.mp hstep
    have hne : i ≠ j := by
      intro heq
      rw [heq, hstarted] at hcall
      cases hcall
    rwa [SharedState.advance_call_of_ne hne]
  | getTranscriptionText j =>
    obtain ⟨htranscribed, rfl⟩ := step_getTranscriptionText_iff.mp hstep
    have hne : i ≠ j := by
      intro heq
      rw [heq, htranscribed] at hcall
      cases hcall
    rwa [SharedState.advance_call_of_ne hne]

end

/-! ### Schedules -/

/-- The call that an event belongs to. -/
def SharedEvent.callOf : SharedEvent → ℕ
  | .fullTranscribe i => i
  | .getTranscriptionText i => i

/-- An interleaving of calls: each of them makes its native calls once, in order, as far
as it has come. -/
def Interleaving (events : List SharedEvent) : Prop :=
  ∀ i, events.filter (fun e => e.callOf = i) <+: [.fullTranscribe i, .getTranscriptionText i]

theorem filter_callOf_concat (events : List SharedEvent) (e : SharedEvent) (i : ℕ) :
    (events ++ [e]).filter (fun e => e.callOf = i) =
      events.filter (fun e => e.callOf = i) ++ if e.callOf = i then [e] else [] := by
  rw [List.filter_append]
  split_ifs with hcall <;> simp [hcall]

theorem Interleaving.of_concat {events : List SharedEvent} {e : SharedEvent}
    (h : Interleaving (events ++ [e])) : Interleaving events := by
  intro i
  have hbegins := h i
  rw [filter_callOf_concat] at hbegins
  exact (List.prefix_append _ _).trans hbegins

/-- The last event of an interleaving is the next native call of its call. -/
theorem Interleaving.last_event {events : List SharedEvent} {e : SharedEvent}
    (h : Interleaving (events ++ [e])) :
    events.filter (fun e' => e'.callOf = e.callOf) = [] ∧ e = .fullTranscribe e.callOf ∨
      events.filter (fun e' => e'.callOf = e.callOf) = [.fullTranscribe e.callOf] ∧
        e = .getTranscriptionText e.callOf := by
  -- the events of this call, with `e` at their end, begin its two native calls
  obtain ⟨rest, hrest⟩ := h e.callOf
  rw [filter_callOf_concat, if_pos rfl] at hrest
  generalize events.filter (fun e' => e'.callOf = e.callOf) = own at hrest ⊢
  match own with
  | [] => exact .inl ⟨rfl, by simpa using (List.cons.inj hrest).1⟩
  | [first] =>
    obtain ⟨hfirst, hrest⟩ := List.cons.inj hrest
    exact .inr ⟨by rw [hfirst], (List.cons.inj hrest).1⟩
  | first :: second :: own =>
    have hlength := congrArg List.length hrest
    simp at hlength

/-- A call transcribes as its first event. -/
theorem Interleaving.before_full {events : List SharedEvent} {k : ℕ}
    (h : Interleaving (events ++ [.fullTranscribe k])) :
    events.filter (fun e => e.callOf = k) = [] := by
  obtain ⟨hnone, -⟩ | ⟨-, hevent⟩ := h.last_event
  · exact hnone
  · cases hevent

/-- A call reads after it has transcribed. -/
theorem Interleaving.before_get {events : List SharedEvent} {k : ℕ}
    (h : Interleaving (events ++ [.getTranscriptionText k])) :
    events.filter (fun e => e.callOf = k) = [.fullTranscribe k] := by
  obtain ⟨-, hevent⟩ | ⟨hone, -⟩ := h.last_event
  · cases hevent
  · exact hone

/-! ### Runs of a schedule -/

section

variable {A C : Type} {full : A → C → ℤ × C} {getText : C → CString} {audio : ℕ → A} {ctx : C}
  {s : SharedState C} {events : List SharedEvent} {i : ℕ}

/-- A call that has returned has read the result list at some point. -/
theorem exists_read_of_returned {text : CString}
    (hrun : SharedRun full getText audio (.start ctx) events s)
    (hreturned : s.call i = .returned text) :
    ∃ before after, events = before ++ .getTranscriptionText i :: after := by
  -- from the end of the run: the last event is the read itself, or comes behind it
  induction events using List.reverseRecOn generalizing s with
  | nil =>
    obtain rfl := Transition.Run.nil_iff.mp hrun
    cases hreturned
  | append_singleton events e ih =>
    obtain ⟨t, hbegins, hstep⟩ := Transition.Run.concat_iff.mp hrun
    have hearlier : t.call i = .returned text → ∃ before after,
        events ++ [e] = before ++ .getTranscriptionText i :: after := by
      intro hcall
      obtain ⟨before, after, hevents⟩ := ih hbegins hcall
      exact ⟨before, after ++ [e], by simp [hevents]⟩
    cases e with
    | fullTranscribe k =>
      obtain ⟨-, rfl⟩ := step_fullTranscribe_iff.mp hstep
      rcases eq_or_ne i k with rfl | hne
      · rw [SharedState.advance_call_self] at hreturned
        cases hreturned
      · exact hearlier (by rwa [SharedState.advance_call_of_ne hne] at hreturned)
    | getTranscriptionText k =>
      obtain ⟨-, rfl⟩ := step_getTranscriptionText_iff.mp hstep
      rcases eq_or_ne i k with rfl | hne
      · exact ⟨events, [], rfl⟩
      · exact hearlier (by rwa [SharedState.advance_call_of_ne hne] at hreturned)

/-- The schedule of an interleaving can be run if every call succeeds, and each call is
then where its events have brought it. -/
theorem exists_run_of_interleaving (hsucceeds : ∀ a ctx, (full a ctx).1 = 0)
    (hevents : Interleaving events) :
    ∃ s, SharedRun full getText audio (.start ctx) events s ∧
      ∀ i, (events.filter (fun e => e.callOf = i) = [] → s.call i = .started) ∧
        (events.filter (fun e => e.callOf = i) = [.fullTranscribe i] →
          s.call i = .transcribed 0) := by
  -- induction from the end of the schedule: its last event is due in its call
  induction events using List.reverseRecOn with
  | nil => exact ⟨.start ctx, .nil _, fun i => ⟨fun _ => rfl, by simp⟩⟩
  | append_singleton events e ih =>
    obtain ⟨t, hrun, hphase⟩ := ih hevents.of_concat
    cases e with
    | fullTranscribe k =>
      have hnone := hevents.before_full
      refine ⟨t.advance (full (audio k) t.ctx).2 k (.transcribed (full (audio k) t.ctx).1),
        Transition.Run.concat_iff.mpr ⟨t, hrun,
          step_fullTranscribe_iff.mpr ⟨(hphase k).1 hnone, rfl⟩⟩, fun i => ?_⟩
      rw [filter_callOf_concat]
      rcases eq_or_ne k i with rfl | hne
      · rw [hnone, SharedEvent.callOf, if_pos rfl, SharedState.advance_call_self, hsucceeds]
        exact ⟨fun h => by simp at h, fun _ => rfl⟩
      · rw [if_neg (by exact hne), List.append_nil, SharedState.advance_call_of_ne hne.symm]
        exact hphase i
    | getTranscriptionText k =>
      have hone := hevents.before_get
      refine ⟨t.advance t.ctx k (.returned (getText t.ctx)),
        Transition.Run.concat_iff.mpr ⟨t, hrun,
          step_getTranscriptionText_iff.mpr ⟨(hphase k).2 hone, rfl⟩⟩, fun i => ?_⟩
      rw [filter_callOf_concat]
      rcases eq_or_ne k i with rfl | hne
      · rw [hone, SharedEvent.callOf, if_pos rfl]
        exact ⟨fun h => by simp at h, fun h => by simp at h⟩
      · rw [if_neg (by exact hne), List.append_nil, SharedState.advance_call_of_ne hne.symm]
        exact hphase i

end

/-! ### The context of the native library -/

section

variable {F D : Type} {model : Model F D} {noData : D} {audio : ℕ → List F} {earlier : List F}
  {ctx : WhisperState D} {s t : SharedState (WhisperState D)} {events : List SharedEvent} {i : ℕ}

/-- Runs on an open context of the native library. -/
abbrev NativeRun (model : Model F D) (audio : ℕ → List F) :
    SharedState (WhisperState D) → List SharedEvent → SharedState (WhisperState D) → Prop :=
  SharedRun (fun audioData s => whisperFull model s audioData) (fun s => joinSegments s.resultAll)
    audio

/-- The last samples that the context was given, by the calls or before them. -/
def heard (audio : ℕ → List F) (earlier : List F) (events : List SharedEvent) : List F :=
  events.foldl (fun last e => match e with
    | .fullTranscribe i => lastAudio last (.ok (audio i))
    | .getTranscriptionText _ => last) earlier

@[simp] theorem heard_concat_full (events : List SharedEvent) (i : ℕ) :
    heard audio earlier (events ++ [.fullTranscribe i]) =
      lastAudio (heard audio earlier events) (.ok (audio i)) := by
  simp [heard]

@[simp] theorem heard_concat_get (events : List SharedEvent) (i : ℕ) :
    heard audio earlier (events ++ [.getTranscriptionText i]) = heard audio earlier events := by
  simp [heard]

/-- A call works on the spectrogram of the last samples, its own included. -/
theorem melFor_eq_lastMel {last : List F} (hmel : ctx.mel = lastMel model noData last)
    (audioData : List F) :
    melFor model ctx audioData = lastMel model noData (lastAudio last (.ok audioData)) := by
  cases audioData with
  | nil => exact hmel
  | cons x audioData => rfl

/-- The context keeps the spectrogram of the last samples, and once a call has transcribed,
what is recognised in it. -/
theorem native_ctx (hmel : ctx.mel = lastMel model noData earlier)
    (hrun : NativeRun model audio (.start ctx) events t) :
    t.ctx.mel = lastMel model noData (heard audio earlier events) ∧
      ∀ i, t.call i ≠ .started → t.ctx.resultAll = (recognise model t.ctx.mel).2 := by
  -- from the end of the run: the last event replaces both, or leaves both
  induction events using List.reverseRecOn generalizing t with
  | nil =>
    obtain rfl := Transition.Run.nil_iff.mp hrun
    exact ⟨hmel, fun i hcall => absurd rfl hcall⟩
  | append_singleton events e ih =>
    obtain ⟨s, hbegins, hstep⟩ := Transition.Run.concat_iff.mp hrun
    obtain ⟨hstored, hresult⟩ := ih hbegins
    cases e with
    | fullTranscribe k =>
      obtain ⟨-, rfl⟩ := step_fullTranscribe_iff.mp hstep
      rw [SharedState.advance_ctx, whisperFull_eq, heard_concat_full]
      exact ⟨melFor_eq_lastMel hstored (audio k), fun _ _ => rfl⟩
    | getTranscriptionText k =>
      obtain ⟨htranscribed, rfl⟩ := step_getTranscriptionText_iff.mp hstep
      rw [SharedState.advance_ctx, heard_concat_get]
      exact ⟨hstored, fun _ _ => hresult k (by rw [htranscribed]; exact TextPhase.noConfusion)⟩

/-- The joined segment texts of some audio. -/
def ownText (model : Model F D) (audioData : List F) : CString :=
  joinSegments (recognise model (logMelSpectrogram model audioData)).2

theorem ownText_of_short {audioData : List F} (hshort : audioData.length < 1800) :
    ownText model audioData = [] := by
  have hmel : (logMelSpectrogram model audioData).nLenOrg ≤ 10 := nLenOrg_le_ten_iff.mpr hshort
  rw [ownText, recognise_of_le hmel]
  rfl

theorem ownText_of_long {audioData : List F} (hlong : 1800 ≤ audioData.length) :
    ownText model audioData =
      joinSegments (model.decode (logMelSpectrogram model audioData)).2 := by
  have hmel : ¬ (logMelSpectrogram model audioData).nLenOrg ≤ 10 :=
    fun h => absurd (nLenOrg_le_ten_iff.mp h) (not_lt.mpr hlong)
  rw [ownText, recognise_of_gt hmel]

/-- No samples have the text of the empty spectrogram of a fresh context. -/
theorem ownText_eq (noData : D) (audioData : List F) :
    joinSegments (recognise model (lastMel model noData audioData)).2 =
      ownText model audioData := by
  cases audioData with
  | nil =>
    rw [ownText_of_short (Nat.lt_of_lt_of_le zero_lt_one (by decide))]
    rfl
  | cons x audioData => rfl

/-- A call returns the texts of the last samples that the context was given before it reads. -/
theorem native_returned (hmel : ctx.mel = lastMel model noData earlier)
    (hrun : NativeRun model audio (.start ctx) events t) {before after : List SharedEvent}
    (hevents : events = before ++ .getTranscriptionText i :: after) :
    t.call i = .returned (ownText model (heard audio earlier before)) := by
  rw [hevents] at hrun
  -- the run splits at the read, and nothing behind it changes what the call has returned
  obtain ⟨s, hbefore, hrest⟩ := Transition.Run.append_iff.mp hrun
  obtain ⟨u, hstep, hafter⟩ := Transition.Run.cons_iff.mp hrest
  obtain ⟨htranscribed, rfl⟩ := step_getTranscriptionText_iff.mp hstep
  obtain ⟨hstored, hresult⟩ := native_ctx hmel hbefore
  refine returned_stable hafter ?_
  rw [SharedState.advance_call_self, hresult i (by rw [htranscribed]; exact TextPhase.noConfusion),
    hstored, ownText_eq]

/-- The two native calls of a call, with no other between them, are its `transcribe`. -/
theorem transcribeAudio_ok_iff {text : CString} {ctx : WhisperState D}
    (hstarted : s.call i = .started) :
    transcribeAudio model (some s.ctx) (audio i) = (.ok text, some ctx) ↔
      ∃ t, NativeRun model audio s [.fullTranscribe i, .getTranscriptionText i] t ∧
        t.ctx = ctx ∧ t.call i = .returned text := by
  simp only [Transition.Run.cons_iff, Transition.Run.nil_iff, step_fullTranscribe_iff,
    step_getTranscriptionText_iff]
  -- the code of `fullTranscribe` decides whether either side comes to the read
  by_cases hcode : (whisperFull model s.ctx (audio i)).1 = 0
  · constructor
    · intro h
      simp only [transcribeAudio, fullTranscribe, getTranscriptionText, hcode, ne_eq,
        not_true_eq_false, if_false, Prod.mk.injEq, Except.ok.injEq, Option.some_inj] at h
      obtain ⟨rfl, rfl⟩ := h
      exact ⟨_, ⟨_, ⟨hstarted, rfl⟩, _, ⟨by simp [hcode], rfl⟩, rfl⟩, rfl, by simp⟩
    · rintro ⟨t, ⟨u, ⟨-, rfl⟩, v, ⟨-, rfl⟩, rfl⟩, hctx, htext⟩
      simp at hctx htext
      simp [transcribeAudio, fullTranscribe, getTranscriptionText, hcode, hctx, ← htext]
  · constructor
    · intro h
      simp [transcribeAudio, fullTranscribe, hcode] at h
    · rintro ⟨t, ⟨u, ⟨-, rfl⟩, v, ⟨hsucceeded, -⟩, -⟩, -⟩
      simp [hcode] at hsucceeded

end

/-! ### Whose text a call returns -/

section

variable {F : Type}

/-- A model that tells one audio from all others. -/
def tellingModel [DecidableEq F] (audioData : List F) : Model F (List F) :=
  ⟨id, fun mel => (0, [if mel.data = audioData then [0x78] else [0x79]])⟩

theorem ownText_tellingModel [DecidableEq F] {audioData other : List F} (hne : other ≠ audioData)
    (hlong : ¬ (other.length < 1800 ∧ audioData.length < 1800)) :
    ownText (tellingModel audioData) other ≠ ownText (tellingModel audioData) audioData := by
  have htexts (a : List F) (ha : 1800 ≤ a.length) :
      ownText (tellingModel audioData) a = [0x78] ∧ a = audioData ∨
        ownText (tellingModel audioData) a = [0x79] ∧ a ≠ audioData := by
    rw [ownText_of_long ha]
    by_cases heq : a = audioData
    · exact .inl ⟨by simp [tellingModel, logMelSpectrogram, heq, joinSegments], heq⟩
    · exact .inr ⟨by simp [tellingModel, logMelSpectrogram, heq, joinSegments], heq⟩
  rcases lt_or_ge other.length 1800 with hother | hother
  · rcases htexts audioData (by omega) with ⟨htext, -⟩ | ⟨-, h⟩
    · rw [ownText_of_short hother, htext]
      exact (List.cons_ne_nil _ _).symm
    · exact absurd rfl h
  · rcases htexts other hother with ⟨-, h⟩ | ⟨htext, -⟩
    · exact absurd h hne
    · rw [htext]
      rcases lt_or_ge audioData.length 1800 with hown | hown
      · rw [ownText_of_short hown]
        exact List.cons_ne_nil _ _
      · rcases htexts audioData hown with ⟨hown, -⟩ | ⟨-, h⟩
        · rw [hown]
          decide
        · exact absurd rfl h

theorem tellingModel_succeeds [DecidableEq F] (audioData a : List F)
    (ctx : WhisperState (List F)) :
    (whisperFull (tellingModel audioData) ctx a).1 = 0 := by
  rw [whisperFull_eq, recognise]
  split_ifs
  · rfl
  · rfl

/-- Calls return the texts of their own audio, for every model, if and only if the last
samples that the context was given before each read are those of the reader, or nothing is
recognised in either because they are too short. -/
theorem texts_own_iff (audio : ℕ → List F) (earlier : List F) {events : List SharedEvent}
    (hevents : Interleaving events) :
    (∀ (D : Type) (model : Model F D) (noData : D) (ctx : WhisperState D)
        (t : SharedState (WhisperState D)), ctx.mel = lastMel model noData earlier →
        NativeRun model audio (.start ctx) events t →
        ∀ i text, t.call i = .returned text → text = ownText model (audio i)) ↔
      ∀ before i after, events = before ++ .getTranscriptionText i :: after →
        heard audio earlier before = audio i ∨
          (heard audio earlier before).length < 1800 ∧ (audio i).length < 1800 := by
  constructor
  · intro hown before i after hsplit
    by_contra hother
    rw [not_or] at hother
    classical
    let model := tellingModel (audio i)
    obtain ⟨t, hrun, -⟩ : ∃ t, NativeRun model audio
        (.start ⟨lastMel model [] earlier, []⟩) events t ∧ _ :=
      exists_run_of_interleaving (tellingModel_succeeds (audio i)) hevents
    have htexts := hown _ model [] _ t rfl hrun i _ (native_returned rfl hrun hsplit)
    exact ownText_tellingModel hother.1 hother.2 htexts
  · intro hsame D model noData ctx t hmel hrun i text hreturned
    obtain ⟨before, after, hsplit⟩ := exists_read_of_returned hrun hreturned
    have htext := (native_returned hmel hrun hsplit).symm.trans hreturned
    rw [← TextPhase.returned.inj htext]
    rcases hsame before i after hsplit with heq | ⟨hheard, hown⟩
    · rw [heq]
    · rw [ownText_of_short hheard, ownText_of_short hown]

/-- Two calls that both transcribe before one of them reads. -/
def overlapping : List SharedEvent :=
  [.fullTranscribe 0, .fullTranscribe 1, .getTranscriptionText 0, .getTranscriptionText 1]

/-- Audio long enough to be recognised, different for each call. -/
def callAudio (i : ℕ) : List ℕ := List.replicate 1800 i

theorem overlapping_interleaving : Interleaving overlapping := by
  intro i
  match i with
  | 0 => decide
  | 1 => decide
  | i + 2 => simp [overlapping, SharedEvent.callOf]

theorem callAudio_ne_nil (i : ℕ) : ∃ x rest, callAudio i = x :: rest :=
  ⟨i, List.replicate 1799 i, rfl⟩

theorem heard_overlapping :
    heard callAudio [] [.fullTranscribe 0, .fullTranscribe 1] = callAudio 1 := by
  obtain ⟨x, rest, h⟩ := callAudio_ne_nil 1
  simp [heard, h, lastAudio]

theorem callAudio_injective (h : callAudio 1 = callAudio 0) : False := by
  have hmem : (1 : ℕ) ∈ callAudio 0 := h ▸ List.mem_replicate.mpr ⟨by decide, rfl⟩
  exact absurd (List.eq_of_mem_replicate hmem) (by decide)

/-- The first of them does not return its own text, with some model. -/
theorem texts_own_iff_overlapping :
    ¬ ∀ (D : Type) (model : Model ℕ D) (noData : D) (ctx : WhisperState D)
        (t : SharedState (WhisperState D)), ctx.mel = lastMel model noData [] →
        NativeRun model callAudio (.start ctx) overlapping t →
        ∀ i text, t.call i = .returned text → text = ownText model (callAudio i) := by
  rw [texts_own_iff callAudio [] overlapping_interleaving]
  intro hsame
  have hread := hsame [.fullTranscribe 0, .fullTranscribe 1] 0 [.getTranscriptionText 1] rfl
  rw [heard_overlapping] at hread
  rcases hread with heq | ⟨hshort, -⟩
  · exact callAudio_injective heq
  · rw [callAudio, List.length_replicate] at hshort
    omega

/-- On a fresh context, and as every text is that of an audio, it returns the text of the
other call. -/
theorem second_call_overwrites :
    ¬ ∀ (F D : Type) (model : Model F D) (noData : D) (audio : ℕ → List F)
        (events : List SharedEvent) (t : SharedState (WhisperState D)),
      NativeRun model audio (.start (.fresh noData)) events t →
        ∀ i text, t.call i = .returned text → text = ownText model (audio i) := by
  intro h
  obtain ⟨t, hrun, -⟩ : ∃ t, NativeRun (tellingModel (callAudio 0)) callAudio
      (.start (.fresh [])) [.fullTranscribe 0, .fullTranscribe 1, .getTranscriptionText 0] t ∧ _ :=
    exists_run_of_interleaving (tellingModel_succeeds _)
      (overlapping_interleaving.of_concat (e := .getTranscriptionText 1))
  have hreturned : t.call 0 = .returned (ownText (tellingModel (callAudio 0))
      (heard callAudio [] [.fullTranscribe 0, .fullTranscribe 1])) :=
    native_returned rfl hrun rfl
  have htext := h _ _ _ _ _ _ _ hrun 0 _ hreturned
  rw [heard_overlapping] at htext
  refine ownText_tellingModel callAudio_injective (fun hshort => ?_) htext
  have hlength := hshort.1
  rw [callAudio, List.length_replicate] at hlength
  omega

end

end WhisperAndroid
