import WhisperAndroid.Native.Whisper
import WhisperAndroid.Wav.ChunkWalk
import WhisperAndroid.Support.Run

/-!
# Transcription calls

`WhisperContext.transcribe` for a file and for samples, on an open context, and
sessions of completed calls that follow one another.

A call on a file completes only if `read_wav` does: it goes through the reader with a
number of rounds that is enough.
-/

namespace WhisperAndroid

/-- The exceptions that the Kotlin code throws, with their messages. -/
inductive KotlinException
  | illegalArgument (message : String)
  | illegalState (message : String)
  | runtime (message : String)
  deriving DecidableEq, Repr

/-- What `transcribe(File)` learns of a file. The contents are missing if it cannot be
opened. -/
structure AudioFile where
  fileExists : Bool
  absolutePath : String
  name : String
  contents : Option (List UInt8)

namespace AudioFile

/-- `name.endsWith(".wav", ignoreCase = true)` -/
def endsWithWav (file : AudioFile) : Bool :=
  (file.name.toList.drop (file.name.length - 4)).map Char.toLower == ".wav".toList

/-- `File.extension`: the name behind its last dot. -/
def extension (file : AudioFile) : String :=
  if '.' ∈ file.name.toList then
    String.ofList (file.name.toList.reverse.takeWhile (· ≠ '.')).reverse
  else
    ""

end AudioFile

/-- The two overloads of `transcribe`. -/
inductive Call (F : Type)
  | file (audioFile : AudioFile)
  | samples (audioData : List F)

/-- A call, with what the uninitialised locals of `read_wav` hold in it. -/
structure Invocation (F : Type) where
  call : Call F
  stale : Stale

variable {F D : Type} [FloatArith F]

/-- The samples that a call hands to the native library, or the exception that it throws
before. Nothing, if `read_wav` needs more rounds or does not return. -/
def Invocation.fetchFor (rounds : ℕ) (i : Invocation F) :
    Option (Except KotlinException (List F)) :=
  match i.call with
  | .samples audioData => some (.ok audioData)
  | .file audioFile =>
    if !audioFile.fileExists then
      some (.error (.illegalArgument ("Audio file does not exist: " ++ audioFile.absolutePath)))
    else if !audioFile.endsWithWav then
      some (.error
        (.illegalArgument ("Only WAV files are supported. Got: " ++ audioFile.extension)))
    else
      match readWavFor F rounds i.stale audioFile.contents with
      | some (.ok audio) =>
        match readWavFile audio with
        | some audioData => some (.ok audioData)
        | none => some (.error (.illegalArgument
            "Failed to read WAV file. Make sure it's 16kHz mono PCM."))
      | _ => none

/-- The native part of `transcribe`, on a context pointer. -/
def transcribeAudio (model : Model F D) (ctx : Option (WhisperState D)) (audioData : List F) :
    Except KotlinException CString × Option (WhisperState D) :=
  let (result, ctx) := fullTranscribe model ctx audioData
  if result ≠ 0 then
    (.error (.runtime ("Transcription failed with code: " ++ toString result)), ctx)
  else
    match getTranscriptionText ctx with
    | some text => (.ok text, ctx)
    | none => (.error (.runtime "Failed to get transcription text"), ctx)

/-- `transcribe`, from what the call has fetched. -/
def transcribe (model : Model F D) (s : WhisperState D)
    (fetched : Except KotlinException (List F)) :
    Except KotlinException CString × Option (WhisperState D) :=
  match fetched with
  | .error e => (.error e, some s)
  | .ok audioData => transcribeAudio model (some s) audioData

/-! ### Sessions -/

/-- The call has fetched what it needs, or thrown. -/
def Invocation.Fetches (i : Invocation F) (fetched : Except KotlinException (List F)) : Prop :=
  ∃ rounds, i.fetchFor rounds = some fetched

/-- A completed call with its outcome, a text or an exception. -/
structure Completed (F : Type) where
  invocation : Invocation F
  outcome : Except KotlinException CString

/-- A call on an open context in state `s` completes and leaves state `t`. -/
def Completes (model : Model F D) (s : WhisperState D) (c : Completed F) (t : WhisperState D) :
    Prop :=
  ∃ fetched, c.invocation.Fetches fetched ∧ transcribe model s fetched = (c.outcome, some t)

/-- Completed calls on one context, one after the other. -/
abbrev Session (model : Model F D) : WhisperState D → List (Completed F) → WhisperState D → Prop :=
  Transition.Run (Completes model)

/-! ### What a call fetches -/

section

variable {stale : Stale} {file : AudioFile} {audioData : List F}
  {fetched fetched' : Except KotlinException (List F)}

omit [FloatArith F] in
/-- The array that Java gets is the vector, and never null. -/
theorem readWavFile_eq (audio : List F) : readWavFile audio = some audio := by
  cases audio <;> rfl

theorem fetches_samples_iff :
    (⟨.samples audioData, stale⟩ : Invocation F).Fetches fetched ↔ fetched = .ok audioData := by
  simp [Invocation.Fetches, Invocation.fetchFor, eq_comm]

theorem fetches_of_missing (hmissing : file.fileExists = false) :
    (⟨.file file, stale⟩ : Invocation F).Fetches fetched ↔
      fetched = .error (.illegalArgument ("Audio file does not exist: " ++ file.absolutePath)) := by
  simp [Invocation.Fetches, Invocation.fetchFor, hmissing, eq_comm]

theorem fetches_of_not_wav (hexists : file.fileExists = true) (hname : file.endsWithWav = false) :
    (⟨.file file, stale⟩ : Invocation F).Fetches fetched ↔
      fetched = .error
        (.illegalArgument ("Only WAV files are supported. Got: " ++ file.extension)) := by
  simp [Invocation.Fetches, Invocation.fetchFor, hexists, hname, eq_comm]

/-- A call on an existing `.wav` file fetches what `read_wav` returns. -/
theorem fetches_file_iff (hexists : file.fileExists = true) (hname : file.endsWithWav = true) :
    (⟨.file file, stale⟩ : Invocation F).Fetches fetched ↔
      ∃ audio, ReadsTo F stale file.contents (.ok audio) ∧ fetched = .ok audio := by
  simp only [Invocation.Fetches, Invocation.fetchFor, hexists, hname, readWavFile_eq]
  constructor
  · intro ⟨rounds, hfetch⟩
    -- a reader that faults or needs more rounds gives nothing to fetch
    cases hread : readWavFor F rounds stale file.contents with
    | none => simp [hread] at hfetch
    | some outcome =>
      cases outcome with
      | error fault => simp [hread] at hfetch
      | ok audio => exact ⟨audio, ⟨rounds, hread⟩, by simpa [hread, eq_comm] using hfetch⟩
  · intro ⟨audio, ⟨rounds, hread⟩, hfetched⟩
    exact ⟨rounds, by simp [hread, hfetched]⟩

/-- What a call fetches does not depend on the rounds that the reader was given. -/
theorem Invocation.Fetches.unique {i : Invocation F} (h : i.Fetches fetched)
    (h' : i.Fetches fetched') : fetched = fetched' := by
  obtain ⟨call, stale⟩ := i
  cases call with
  | samples audioData => rw [fetches_samples_iff.mp h, fetches_samples_iff.mp h']
  | file file =>
    cases hexists : file.fileExists with
    | false => rw [(fetches_of_missing hexists).mp h, (fetches_of_missing hexists).mp h']
    | true =>
      cases hname : file.endsWithWav with
      | false =>
        rw [(fetches_of_not_wav hexists hname).mp h, (fetches_of_not_wav hexists hname).mp h']
      | true =>
        obtain ⟨audio, hread, rfl⟩ := (fetches_file_iff hexists hname).mp h
        obtain ⟨audio', hread', rfl⟩ := (fetches_file_iff hexists hname).mp h'
        rw [Except.ok.inj (hread.unique hread')]

end

end WhisperAndroid
