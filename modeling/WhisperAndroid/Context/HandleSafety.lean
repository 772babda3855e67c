import Mathlib.Logic.Function.Basic
import WhisperAndroid.Context.Transcribe

/-!
# The native handle of a context

Calls of `transcribe` and `close` as steps on the handle they share, in any order.
`contextPtr` is a `val`: nothing records that the handle has been freed.

A client that closes once, when no call is under way, and calls nothing afterwards is
safe. `disciplined_run_safe_iff` also says that it has to be: after any other call
of it, some order of the native calls already made is unsafe.
-/

namespace WhisperAndroid

/-! ### One call -/

/-- Where a call of `transcribe` stands. -/
inductive CallPhase
  | absent
  | called
  | inFullTranscribe
  | transcribed
  | inGetTranscriptionText
  | returned
  deriving DecidableEq, Repr

/-- The steps of a call of `transcribe`: its invocation, and the start and end of each
native call. It may also throw before the first. -/
inductive CallAction
  | transcribe
  | throwBefore
  | startFullTranscribe
  | endFullTranscribe (result : ℤ)
  | startGetTranscriptionText
  | endGetTranscriptionText
  deriving DecidableEq, Repr

def CallPhase.next : CallPhase → CallAction → Option CallPhase
  | .absent, .transcribe => some .called
  | .called, .throwBefore => some .returned
  | .called, .startFullTranscribe => some .inFullTranscribe
  | .inFullTranscribe, .endFullTranscribe result =>
    some (if result ≠ 0 then .returned else .transcribed)
  | .transcribed, .startGetTranscriptionText => some .inGetTranscriptionText
  | .inGetTranscriptionText, .endGetTranscriptionText => some .returned
  | _, _ => none

/-- Where a call of `close` stands. -/
inductive ClosePhase
  | absent
  | called
  | inFreeContext
  | freed
  | skipped
  deriving DecidableEq, Repr

/-- The steps of a call of `close`. -/
inductive CloseAction
  | close
  | startFreeContext
  | endFreeContext
  deriving DecidableEq, Repr

def ClosePhase.next (contextPtr : ℤ) : ClosePhase → CloseAction → Option ClosePhase
  | .absent, .close => some (if contextPtr ≠ 0 then .called else .skipped)
  | .called, .startFreeContext => some .inFreeContext
  | .inFreeContext, .endFreeContext => some .freed
  | _, _ => none

/-! ### The handle -/

/-- A constructed context: its handle, which `init` has found not to be null, its calls,
and how often `freeContext` has been executed on the handle. -/
structure HandleState where
  contextPtr : ℤ
  contextPtr_ne_zero : contextPtr ≠ 0
  call : ℕ → CallPhase
  close : ℕ → ClosePhase
  freed : ℕ

/-- `WhisperContext(modelPath)`, from the handle that `initContext` returns. -/
def HandleState.construct (modelPath : String) (contextPtr : ℤ) :
    Except KotlinException HandleState :=
  if h : contextPtr = 0 then
    .error (.illegalState ("Failed to initialize Whisper context from: " ++ modelPath))
  else
    .ok ⟨contextPtr, h, fun _ => .absent, fun _ => .absent, 0⟩

inductive HandleEvent
  | call (i : ℕ) (action : CallAction)
  | close (j : ℕ) (action : CloseAction)
  deriving DecidableEq, Repr

namespace HandleState

variable (s : HandleState)

def setCall (i : ℕ) (phase : CallPhase) : HandleState :=
  { s with call := Function.update s.call i phase }

def setClose (j : ℕ) (phase : ClosePhase) : HandleState :=
  { s with
    close := Function.update s.close j phase
    freed := if phase = .freed then s.freed + 1 else s.freed }

/-- One step of one call. Neither changes the handle. -/
def step : HandleEvent → Option HandleState
  | .call i action => ((s.call i).next action).map (s.setCall i)
  | .close j action => ((s.close j).next s.contextPtr action).map (s.setClose j)

/-- Runs of the calls on one handle, in any order. -/
abbrev Run : HandleState → List HandleEvent → HandleState → Prop :=
  Transition.Run fun s e t => s.step e = some t

/-- Call `i` is inside the native library. -/
def InNative (i : ℕ) : Prop :=
  s.call i = .inFullTranscribe ∨ s.call i = .inGetTranscriptionText

/-- Call `j` of `close` has called `freeContext`. -/
def CallsFreeContext (j : ℕ) : Prop := s.close j = .inFreeContext ∨ s.close j = .freed

/-- Handle safety: no double free, no use after free, and a second `close` does nothing. -/
structure Safe : Prop where
  freed_once : s.freed ≤ 1
  no_call_on_freed : 0 < s.freed → ∀ i, ¬ s.InNative i
  second_close : ∀ j j', s.CallsFreeContext j → s.CallsFreeContext j' → j = j'

end HandleState

/-! ### Discipline -/

/-- Steps that the client decides on, where the others are taken by calls already made. -/
def HandleEvent.ByClient : HandleEvent → Prop
  | .call _ .transcribe => True
  | .close _ .close => True
  | _ => False

/-- What the client may call: `transcribe` before any `close`, and `close` once, when
every call has returned. -/
def HandleState.Allowed (s : HandleState) : HandleEvent → Prop
  | .call _ .transcribe => ∀ j, s.close j = .absent
  | .close _ .close => (∀ j, s.close j = .absent) ∧ ∀ i, s.call i = .absent ∨ s.call i = .returned
  | _ => True

/-- Runs in which the client only makes the calls it may make. -/
abbrev HandleState.DisciplinedRun : HandleState → List HandleEvent → HandleState → Prop :=
  Transition.Run fun s e t => s.Allowed e ∧ s.step e = some t

namespace HandleState

variable {s t : HandleState} {i j : ℕ} {events : List HandleEvent}

/-! ### One step -/

theorem step_call_iff {action : CallAction} :
    s.step (.call i action) = some t ↔
      ∃ phase, (s.call i).next action = some phase ∧ s.setCall i phase = t := by
  simp [step]

theorem step_close_iff {action : CloseAction} :
    s.step (.close j action) = some t ↔
      ∃ phase, (s.close j).next s.contextPtr action = some phase ∧ s.setClose j phase = t := by
  simp [step]

@[simp] theorem setCall_call_self {phase : CallPhase} : (s.setCall i phase).call i = phase :=
  Function.update_self ..

@[simp] theorem setClose_close_self {phase : ClosePhase} : (s.setClose j phase).close j = phase :=
  Function.update_self ..

theorem setClose_close_of_ne {phase : ClosePhase} {j' : ℕ} (hne : j' ≠ j) :
    (s.setClose j phase).close j' = s.close j' :=
  Function.update_of_ne hne ..

@[simp] theorem setClose_freed {phase : ClosePhase} :
    (s.setClose j phase).freed = if phase = .freed then s.freed + 1 else s.freed := rfl

/-- A call takes its first step only as its invocation, and none once it has returned. -/
theorem next_eq_none {phase : CallPhase} {action : CallAction}
    (hphase : phase = .absent ∨ phase = .returned) (haction : action ≠ .transcribe) :
    phase.next action = none := by
  rcases hphase with rfl | rfl <;> cases action <;> first | rfl | exact absurd rfl haction

theorem transcribe_next_iff {phase phase' : CallPhase} :
    phase.next .transcribe = some phase' ↔ phase = .absent ∧ phase' = .called := by
  cases phase <;> simp [CallPhase.next, eq_comm]

/-- The handle being non-null, a call of `close` takes three steps. -/
theorem close_next_iff {phase phase' : ClosePhase} {action : CloseAction} :
    phase.next s.contextPtr action = some phase' ↔
      phase = .absent ∧ action = .close ∧ phase' = .called ∨
        phase = .called ∧ action = .startFreeContext ∧ phase' = .inFreeContext ∨
        phase = .inFreeContext ∧ action = .endFreeContext ∧ phase' = .freed := by
  cases phase <;> cases action <;> simp [ClosePhase.next, s.contextPtr_ne_zero, eq_comm]

/-! ### Disciplined runs -/

/-- No `close` has been called. -/
structure NotClosed (s : HandleState) : Prop where
  close_absent : ∀ j, s.close j = .absent
  not_freed : s.freed = 0

/-- Only call `j` of `close` has been made, when every other call had returned. -/
structure ClosedBy (s : HandleState) (j : ℕ) : Prop where
  only : ∀ j', j' ≠ j → s.close j' = .absent
  quiet : ∀ i, s.call i = .absent ∨ s.call i = .returned
  progress : (s.close j = .called ∨ s.close j = .inFreeContext) ∧ s.freed = 0 ∨
    s.close j = .freed ∧ s.freed = 1

/-- What a disciplined client keeps. -/
def Orderly (s : HandleState) : Prop := s.NotClosed ∨ ∃ j, s.ClosedBy j

theorem ClosedBy.not_absent (h : s.ClosedBy j) : s.close j ≠ .absent := by
  intro habsent
  rcases h.progress with ⟨hclose | hclose, -⟩ | ⟨hclose, -⟩ <;> rw [habsent] at hclose <;>
    cases hclose

theorem ClosedBy.not_skipped (h : s.ClosedBy j) : s.close j ≠ .skipped := by
  intro hskipped
  rcases h.progress with ⟨hclose | hclose, -⟩ | ⟨hclose, -⟩ <;> rw [hskipped] at hclose <;>
    cases hclose

/-- Once its `freeContext` is through, the handle is freed once. -/
theorem ClosedBy.freed_eq (h : s.ClosedBy j) :
    (if s.close j = .freed then s.freed else s.freed + 1) = 1 := by
  rcases h.progress with ⟨hclose | hclose, hfreed⟩ | ⟨hclose, hfreed⟩
  · rw [hclose, if_neg (by decide), hfreed]
  · rw [hclose, if_neg (by decide), hfreed]
  · rw [if_pos hclose, hfreed]

theorem Orderly.safe (h : s.Orderly) : s.Safe := by
  rcases h with hopen | ⟨j, hclosed⟩
  · refine ⟨?_, ?_, ?_⟩
    · rw [hopen.not_freed]
      decide
    · intro hfreed
      rw [hopen.not_freed] at hfreed
      cases hfreed
    · intro j j' hfrees
      rcases hfrees with hclose | hclose <;> rw [hopen.close_absent] at hclose <;> cases hclose
  · refine ⟨?_, ?_, ?_⟩
    · rcases hclosed.progress with ⟨-, hfreed⟩ | ⟨-, hfreed⟩ <;> omega
    -- no call is inside the library any more, freed or not
    · intro _ i hnative
      rcases hnative with hcall | hcall <;> rcases hclosed.quiet i with h | h <;>
        rw [hcall] at h <;> cases h
    -- the two calls that free are both the one that has been made
    · have honly : ∀ j', s.CallsFreeContext j' → j' = j := by
        intro j' hfrees
        by_contra hne
        rcases hfrees with hclose | hclose <;> rw [hclosed.only j' hne] at hclose <;> cases hclose
      intro j' j'' hfrees hfrees'
      rw [honly j' hfrees, honly j'' hfrees']

/-- The first `close`, which the client calls when every call has returned. -/
theorem NotClosed.step_close {action : CloseAction} (h : s.NotClosed)
    (hallowed : s.Allowed (.close j action)) {phase : ClosePhase}
    (hnext : (s.close j).next s.contextPtr action = some phase) :
    (s.setClose j phase).ClosedBy j := by
  rw [h.close_absent, close_next_iff] at hnext
  obtain ⟨rfl, rfl⟩ : action = .close ∧ phase = .called := by simpa using hnext
  refine ⟨fun j' hne => ?_, hallowed.2, .inl ⟨.inl setClose_close_self, ?_⟩⟩
  · rw [setClose_close_of_ne hne, h.close_absent]
  · rw [setClose_freed, if_neg (by decide), h.not_freed]

/-- The `close` that has been called goes on. -/
theorem ClosedBy.step_close {action : CloseAction} (h : s.ClosedBy j) {phase : ClosePhase}
    (hnext : (s.close j).next s.contextPtr action = some phase) :
    (s.setClose j phase).ClosedBy j := by
  refine ⟨fun j' hne => ?_, h.quiet, ?_⟩
  · rw [setClose_close_of_ne hne, h.only j' hne]
  · rcases h.progress with ⟨hclose | hclose, hfreed⟩ | ⟨hclose, hfreed⟩
    · rw [hclose, close_next_iff] at hnext
      obtain ⟨rfl, rfl⟩ : action = .startFreeContext ∧ phase = .inFreeContext := by
        simpa using hnext
      exact .inl ⟨.inr setClose_close_self, by simpa using hfreed⟩
    · rw [hclose, close_next_iff] at hnext
      obtain ⟨rfl, rfl⟩ : action = .endFreeContext ∧ phase = .freed := by simpa using hnext
      exact .inr ⟨setClose_close_self, by simp [hfreed]⟩
    -- behind `freeContext` there is no step left
    · rw [hclose, close_next_iff] at hnext
      simp at hnext

/-- One disciplined step: before a `close` anything may happen but `freeContext`, and
behind it only that one `close` goes on. -/
theorem Orderly.step {e : HandleEvent} (h : s.Orderly) (hallowed : s.Allowed e)
    (hstep : s.step e = some t) : t.Orderly := by
  cases e with
  | call i action =>
    obtain ⟨phase, hnext, rfl⟩ := step_call_iff.mp hstep
    rcases h with hopen | ⟨j, hclosed⟩
    · exact .inl ⟨hopen.close_absent, hopen.not_freed⟩
    -- a call that can go on here is a new one, which is not allowed
    · exfalso
      by_cases haction : action = .transcribe
      · subst haction
        exact hclosed.not_absent (hallowed j)
      · rw [next_eq_none (hclosed.quiet i) haction] at hnext
        cases hnext
  | close j action =>
    obtain ⟨phase, hnext, rfl⟩ := step_close_iff.mp hstep
    rcases h with hopen | ⟨j', hclosed⟩
    · exact .inr ⟨j, hopen.step_close hallowed hnext⟩
    -- any other `close` that can go on is a new one, which is not allowed either
    · by_cases hsame : j = j'
      · subst hsame
        exact .inr ⟨j, hclosed.step_close hnext⟩
      · rw [hclosed.only j hsame, close_next_iff] at hnext
        obtain ⟨rfl, -⟩ : action = .close ∧ phase = .called := by simpa using hnext
        exact absurd (hallowed.1 j') hclosed.not_absent

theorem DisciplinedRun.orderly (hrun : s.DisciplinedRun events t) (hstart : s.Orderly) :
    t.Orderly :=
  hrun.invariant (fun _ _ _ h hstep => h.step hstep.1 hstep.2) hstart

/-! ### Undisciplined calls -/

/-- Steps that calls already made take by themselves. -/
abbrev Own (events : List HandleEvent) : Prop := ∀ e ∈ events, ¬ e.ByClient

theorem own_nil : Own [] := fun _ he => absurd he List.not_mem_nil

theorem own_cons {e : HandleEvent} (he : ¬ e.ByClient) (hown : Own events) :
    Own (e :: events) := by
  intro e' he'
  rcases List.mem_cons.mp he' with rfl | htail
  · exact he
  · exact hown e' htail

theorem own_append {events' : List HandleEvent} (hown : Own events) (hown' : Own events') :
    Own (events ++ events') := by
  intro e he
  rcases List.mem_append.mp he with hfront | hback
  · exact hown e hfront
  · exact hown' e hback

/-- The state in which call `j` of `close` has come to the end of `freeContext`. -/
structure FreedBy (s t : HandleState) (j : ℕ) : Prop where
  close_freed : t.close j = .freed
  call_eq : t.call = s.call
  close_eq : ∀ j', j' ≠ j → t.close j' = s.close j'
  freed_eq : t.freed = if s.close j = .freed then s.freed else s.freed + 1

/-- A call of `close` that has been made can go on to the end of `freeContext`. -/
theorem exists_run_freed (s : HandleState) {j : ℕ} (habsent : s.close j ≠ .absent)
    (hskipped : s.close j ≠ .skipped) :
    ∃ events t, Own events ∧ s.Run events t ∧ s.FreedBy t j := by
  have hend : ∀ s : HandleState, s.close j = .inFreeContext →
      s.step (.close j .endFreeContext) = some (s.setClose j .freed) := by
    intro s hclose
    exact step_close_iff.mpr ⟨.freed, by rw [hclose]; rfl, rfl⟩
  cases hclose : s.close j with
  | absent => exact absurd hclose habsent
  | skipped => exact absurd hclose hskipped
  | freed => exact ⟨[], s, own_nil, .nil s, hclose, rfl, fun _ _ => rfl, by rw [if_pos hclose]⟩
  -- from here on the steps that are left are those of `close` itself
  | inFreeContext =>
    refine ⟨[.close j .endFreeContext], s.setClose j .freed, own_cons id own_nil,
      .cons (hend s hclose) (.nil _), setClose_close_self, rfl,
      fun j' hne => setClose_close_of_ne hne, ?_⟩
    simp [hclose]
  | called =>
    have hstart : s.step (.close j .startFreeContext) = some (s.setClose j .inFreeContext) :=
      step_close_iff.mpr ⟨.inFreeContext, by rw [hclose]; rfl, rfl⟩
    refine ⟨[.close j .startFreeContext, .close j .endFreeContext],
      (s.setClose j .inFreeContext).setClose j .freed, own_cons id (own_cons id own_nil),
      .cons hstart (.cons (hend _ setClose_close_self) (.nil _)), setClose_close_self, rfl,
      fun j' hne => ?_, ?_⟩
    · rw [setClose_close_of_ne hne, setClose_close_of_ne hne]
    · simp [hclose]

/-- A call of `transcribe` that has not returned can be inside the native library next. -/
theorem exists_run_inNative (s : HandleState) {i : ℕ} (habsent : s.call i ≠ .absent)
    (hreturned : s.call i ≠ .returned) :
    ∃ events t, Own events ∧ s.Run events t ∧ t.InNative i ∧ t.freed = s.freed := by
  cases hcall : s.call i with
  | absent => exact absurd hcall habsent
  | returned => exact absurd hcall hreturned
  | inFullTranscribe => exact ⟨[], s, own_nil, .nil s, .inl hcall, rfl⟩
  | inGetTranscriptionText => exact ⟨[], s, own_nil, .nil s, .inr hcall, rfl⟩
  | called =>
    have hstart : s.step (.call i .startFullTranscribe) = some (s.setCall i .inFullTranscribe) :=
      step_call_iff.mpr ⟨.inFullTranscribe, by rw [hcall]; rfl, rfl⟩
    exact ⟨[.call i .startFullTranscribe], _, own_cons id own_nil, .cons hstart (.nil _),
      .inl setCall_call_self, rfl⟩
  | transcribed =>
    have hstart : s.step (.call i .startGetTranscriptionText) =
        some (s.setCall i .inGetTranscriptionText) :=
      step_call_iff.mpr ⟨.inGetTranscriptionText, by rw [hcall]; rfl, rfl⟩
    exact ⟨[.call i .startGetTranscriptionText], _, own_cons id own_nil, .cons hstart (.nil _),
      .inr setCall_call_self, rfl⟩

/-- The calls made so far can break safety by themselves. -/
def CanGoWrong (s : HandleState) : Prop := ∃ events t, Own events ∧ s.Run events t ∧ ¬ t.Safe

theorem CanGoWrong.of_run (hown : Own events) (hrun : s.Run events t) (h : t.CanGoWrong) :
    s.CanGoWrong := by
  obtain ⟨events', u, hown', hrun', hunsafe⟩ := h
  exact ⟨events ++ events', u, own_append hown hown',
    Transition.Run.append_iff.mpr ⟨t, hrun, hrun'⟩, hunsafe⟩

/-- With the handle freed, a call that has not returned can use it. -/
theorem canGoWrong_of_freed (hfreed : 0 < s.freed) (habsent : s.call i ≠ .absent)
    (hreturned : s.call i ≠ .returned) : s.CanGoWrong := by
  obtain ⟨events, t, hown, hrun, hnative, heq⟩ := exists_run_inNative s habsent hreturned
  refine ⟨events, t, hown, hrun, fun hsafe => ?_⟩
  exact hsafe.no_call_on_freed (by omega) i hnative

/-- A call behind a `close`, which can free the handle first. -/
theorem ClosedBy.canGoWrong_setCall (h : s.ClosedBy j) : (s.setCall i .called).CanGoWrong := by
  -- the new call waits while the `close` goes through
  obtain ⟨events, u, hown, hrun, hfreed⟩ :=
    exists_run_freed (s.setCall i .called) h.not_absent h.not_skipped
  have honce : u.freed = 1 := hfreed.freed_eq.trans h.freed_eq
  have hcall : u.call i = .called := by
    rw [hfreed.call_eq, setCall_call_self]
  have hwrong : u.CanGoWrong :=
    canGoWrong_of_freed (by omega) (by rw [hcall]; decide) (by rw [hcall]; decide)
  exact hwrong.of_run hown hrun

/-- A `close` before a call has returned, which is inside the library when the handle is
freed. -/
theorem canGoWrong_setClose_of_active (habsent : s.call i ≠ .absent)
    (hreturned : s.call i ≠ .returned) : (s.setClose j .called).CanGoWrong := by
  obtain ⟨events, u, hown, hrun, hfreed⟩ := exists_run_freed (s.setClose j .called)
    (by rw [setClose_close_self]; decide) (by rw [setClose_close_self]; decide)
  have hpos : 0 < u.freed := by
    rw [hfreed.freed_eq, setClose_close_self, if_neg (by decide)]
    omega
  have hwrong : u.CanGoWrong :=
    canGoWrong_of_freed hpos (by rwa [hfreed.call_eq]) (by rwa [hfreed.call_eq])
  exact hwrong.of_run hown hrun

/-- A second `close`: the first one frees the handle, and this one frees it again. -/
theorem ClosedBy.canGoWrong_setClose {j' : ℕ} (h : s.ClosedBy j') (habsent : s.close j = .absent) :
    (s.setClose j .called).CanGoWrong := by
  have hne : j' ≠ j := by
    intro heq
    exact h.not_absent (heq ▸ habsent)
  have hfirst : (s.setClose j .called).close j' = s.close j' := setClose_close_of_ne hne
  obtain ⟨events, u, hown, hrun, hfreed⟩ := exists_run_freed (s.setClose j .called)
    (by rw [hfirst]; exact h.not_absent) (by rw [hfirst]; exact h.not_skipped)
  have honce : u.freed = 1 := by
    rw [hfreed.freed_eq, hfirst]
    exact h.freed_eq
  have hcalled : u.close j = .called := by
    rw [hfreed.close_eq j hne.symm, setClose_close_self]
  -- the handle is freed once; nothing keeps the second call from going on
  obtain ⟨events', w, hown', hrun', hfreed'⟩ := exists_run_freed u
    (by rw [hcalled]; decide) (by rw [hcalled]; decide)
  have htwice : w.freed = 2 := by
    rw [hfreed'.freed_eq, hcalled, if_neg (by decide), honce]
  have hunsafe : ¬ w.Safe := fun hsafe => absurd hsafe.freed_once (by omega)
  exact CanGoWrong.of_run hown hrun ⟨events', w, hown', hrun', hunsafe⟩

/-- After a call that the client may not make, the calls made so far can go wrong. -/
theorem Orderly.canGoWrong {e : HandleEvent} (h : s.Orderly) (hstep : s.step e = some t)
    (hallowed : ¬ s.Allowed e) : t.CanGoWrong := by
  cases e with
  | call i action =>
    -- only what the client does can be disallowed
    obtain rfl : action = .transcribe := by
      by_contra hne
      cases action <;> first | exact hne rfl | exact hallowed trivial
    obtain ⟨phase, hnext, rfl⟩ := step_call_iff.mp hstep
    obtain ⟨-, rfl⟩ := transcribe_next_iff.mp hnext
    rcases h with hopen | ⟨j, hclosed⟩
    · exact absurd hopen.close_absent hallowed
    · exact hclosed.canGoWrong_setCall
  | close j action =>
    obtain rfl : action = .close := by
      by_contra hne
      cases action <;> first | exact hne rfl | exact hallowed trivial
    obtain ⟨phase, hnext, rfl⟩ := step_close_iff.mp hstep
    obtain ⟨habsent, rfl⟩ : s.close j = .absent ∧ phase = .called := by
      rw [close_next_iff] at hnext
      simpa using hnext
    rcases h with hopen | ⟨j', hclosed⟩
    -- with no `close` before it, what is missing is the return of some call
    · obtain ⟨i, hcall, hcall'⟩ : ∃ i, s.call i ≠ .absent ∧ s.call i ≠ .returned := by
        by_contra hquiet
        push Not at hquiet
        refine hallowed ⟨hopen.close_absent, fun i => ?_⟩
        rcases eq_or_ne (s.call i) .absent with hcall | hcall
        · exact .inl hcall
        · exact .inr (hquiet i hcall)
      exact canGoWrong_setClose_of_active hcall hcall'
    · exact hclosed.canGoWrong_setClose habsent

/-! ### Main result -/

/-- The steps that calls take by themselves are always allowed. -/
theorem allowed_of_not_byClient (s : HandleState) {e : HandleEvent} (he : ¬ e.ByClient) :
    s.Allowed e := by
  cases e with
  | call i action => cases action <;> first | trivial | exact absurd trivial he
  | close j action => cases action <;> first | trivial | exact absurd trivial he

theorem Run.disciplined (hrun : s.Run events t) (hown : Own events) :
    s.DisciplinedRun events t := by
  induction hrun with
  | nil s => exact .nil s
  | @cons s t u e events hstep _ ih =>
    have htail : Own events := fun e' he' => hown e' (List.mem_cons_of_mem e he')
    exact .cons ⟨s.allowed_of_not_byClient (hown e List.mem_cons_self), hstep⟩ (ih htail)

theorem orderly_of_construct {modelPath : String} {contextPtr : ℤ}
    (h : construct modelPath contextPtr = .ok s) : s.Orderly := by
  unfold construct at h
  split_ifs at h
  obtain rfl := Except.ok.inj h
  exact .inl ⟨fun _ => rfl, rfl⟩

/-- Every state of a disciplined run is safe. The next step of any call keeps it so, in
every order of the steps that follow by themselves, exactly when it is allowed. -/
theorem disciplined_run_safe_iff {modelPath : String} {contextPtr : ℤ}
    (hnew : construct modelPath contextPtr = .ok s) (hrun : s.DisciplinedRun events t) :
    t.Safe ∧ ∀ e u, t.step e = some u →
      (t.Allowed e ↔ ∀ more w, (∀ e' ∈ more, ¬ e'.ByClient) → u.Run more w → w.Safe) := by
  have horderly : t.Orderly := hrun.orderly (orderly_of_construct hnew)
  refine ⟨horderly.safe, fun e u hstep => ⟨fun hallowed more w hown hmore => ?_, ?_⟩⟩
  · exact ((Run.disciplined hmore hown).orderly (horderly.step hallowed hstep)).safe
  · intro hsafe
    by_contra hallowed
    obtain ⟨more, w, hown, hmore, hunsafe⟩ := horderly.canGoWrong hstep hallowed
    exact hunsafe (hsafe more w hown hmore)

/-- A context on some handle. -/
def onHandle : HandleState := ⟨1, by decide, fun _ => .absent, fun _ => .absent, 0⟩

/-- Call `j` of `close` from beginning to end. -/
def closing (j : ℕ) : List HandleEvent :=
  [.close j .close, .close j .startFreeContext, .close j .endFreeContext]

/-- Call `i` of `transcribe` from beginning to end. -/
def transcribing (i : ℕ) : List HandleEvent :=
  [.call i .transcribe, .call i .startFullTranscribe, .call i (.endFullTranscribe 0),
    .call i .startGetTranscriptionText, .call i .endGetTranscriptionText]

theorem disciplined_run_safe_iff_closing :
    ∃ t, onHandle.DisciplinedRun (transcribing 0 ++ closing 0) t ∧
      (t.Safe ∧ ∀ e u, t.step e = some u →
        (t.Allowed e ↔ ∀ more w, (∀ e' ∈ more, ¬ e'.ByClient) → u.Run more w → w.Safe)) := by
  have hreturned (calls : ℕ → CallPhase) (hcalls : ∀ i ≠ 0, calls i = .absent) (i : ℕ) :
      Function.update calls 0 .returned i = .absent ∨
        Function.update calls 0 .returned i = .returned := by
    by_cases hi : i = 0
    · subst hi
      exact .inr (Function.update_self ..)
    · exact .inl ((Function.update_of_ne hi ..).trans (hcalls i hi))
  have hrun : onHandle.DisciplinedRun (transcribing 0 ++ closing 0) _ :=
    .cons ⟨fun _ => rfl, rfl⟩ <| .cons ⟨trivial, rfl⟩ <| .cons ⟨trivial, rfl⟩ <|
      .cons ⟨trivial, rfl⟩ <| .cons ⟨trivial, rfl⟩ <|
      .cons ⟨⟨fun _ => rfl, hreturned _ fun i hi => by simp [hi, onHandle, setCall]⟩, rfl⟩ <|
      .cons ⟨trivial, rfl⟩ <| .cons ⟨trivial, rfl⟩ (.nil _)
  exact ⟨_, hrun, disciplined_run_safe_iff (rfl : construct "ggml-base.bin" 1 = .ok onHandle) hrun⟩

/-- Two calls of `close`, one after the other, free the handle twice. -/
theorem second_close_frees_again : construct "ggml-base.bin" 1 = .ok onHandle ∧
    ∃ t, onHandle.Run (closing 0 ++ closing 1) t ∧ t.freed = 2 ∧ ¬ t.Safe := by
  refine ⟨rfl, _, .cons rfl (.cons rfl (.cons rfl (.cons rfl (.cons rfl (.cons rfl (.nil _)))))),
    rfl, fun hsafe => ?_⟩
  exact absurd hsafe.freed_once (by decide)

end HandleState

end WhisperAndroid
