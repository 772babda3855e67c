import WhisperAndroid.Wav.ReadWav

/-!
# The native library behind a context

The state that a `whisper_context` keeps between calls, what `whisper_full` does to
it, and the JNI functions on top. The signal processing and the decoder are a
parameter: a spectrogram is a function of model and samples, and what the decoder
returns and leaves behind is a function of model and stored spectrogram.

A Java reference that a JNI function may leave null is an `Option`, as is a context
pointer. A text is the byte string handed to `NewStringUTF`, of which the Java string
is a function. Allocation succeeds.
-/

namespace WhisperAndroid

/-- The bytes of a C string, without the terminator. -/
abbrev CString := List UInt8

/-- The log mel spectrogram stored in a context: its length in frames of 10 ms, and
its values. -/
structure Mel (D : Type) where
  nLenOrg : ℤ
  data : D

/-- A loaded model: the values of the spectrogram of some samples, and what the
decoder makes of a stored spectrogram, as the code that it returns and the segment
texts that it leaves. -/
structure Model (F D : Type) where
  spectrogram : List F → D
  decode : Mel D → ℤ × List CString

/-- The part of a `whisper_context` that outlives a call. -/
structure WhisperState (D : Type) where
  mel : Mel D
  resultAll : List CString

variable {F D : Type}

/-- `whisper_init_from_file_with_params`: no spectrogram and no result. -/
def WhisperState.fresh (noData : D) : WhisperState D := ⟨⟨0, noData⟩, []⟩

/-- `mel.n_len_org`: the frames of 160 samples in some samples and half a window. -/
def nLenOrg (nSamples : ℕ) : ℤ := 1 + ((nSamples : ℤ) + 200 - 400).tdiv 160

/-- `log_mel_spectrogram`, which never fails. -/
def logMelSpectrogram (model : Model F D) (samples : List F) : Mel D :=
  ⟨nLenOrg samples.length, model.spectrogram samples⟩

/-- `whisper_full`, for a fixed language and without voice activity detection: the
spectrogram is recomputed only if there are samples. -/
def whisperFull (model : Model F D) (s : WhisperState D) (samples : List F) :
    ℤ × WhisperState D :=
  let s := { s with resultAll := [] }
  let s := if 0 < samples.length then { s with mel := logMelSpectrogram model samples } else s
  if s.mel.nLenOrg < 10 then
    (0, s) -- less than 100 ms is not processed
  else if s.mel.nLenOrg ≤ 10 then
    (0, s) -- the main loop ends before its first window
  else
    let (code, segments) := model.decode s.mel
    (code, { s with resultAll := segments })

/-! ### JNI functions -/

/-- `readWavFile`, from the vector that `read_wav` returns. -/
def readWavFile (audio : List F) : Option (List F) :=
  if audio.isEmpty then some [] else some audio

/-- `fullTranscribe` -/
def fullTranscribe (model : Model F D) (ctx : Option (WhisperState D)) (audioData : List F) :
    ℤ × Option (WhisperState D) :=
  match ctx with
  | none => (-1, none)
  | some s =>
    let (result, s) := whisperFull model s audioData
    (result, some s)

/-- The loop of `getTranscriptionText`: segment texts with blanks between them. -/
def joinSegments : List CString → CString
  | [] => []
  | [text] => text
  | text :: rest => text ++ 0x20 :: joinSegments rest

/-- `getTranscriptionText` -/
def getTranscriptionText (ctx : Option (WhisperState D)) : Option CString :=
  match ctx with
  | none => some []
  | some s => some (joinSegments s.resultAll)

/-! ### What a call leaves behind -/

variable (model : Model F D) (s : WhisperState D)

/-- What `whisper_full` makes of a stored spectrogram. -/
def recognise (mel : Mel D) : ℤ × List CString :=
  if mel.nLenOrg ≤ 10 then (0, []) else model.decode mel

/-- The spectrogram that a call with the given samples works on. -/
def melFor (samples : List F) : Mel D :=
  if 0 < samples.length then logMelSpectrogram model samples else s.mel

theorem whisperFull_eq (samples : List F) :
    whisperFull model s samples =
      ((recognise model (melFor model s samples)).1,
        ⟨melFor model s samples, (recognise model (melFor model s samples)).2⟩) := by
  -- less than ten frames are ten at most
  have htests : ∀ mel : Mel D, mel.nLenOrg < 10 → mel.nLenOrg ≤ 10 := fun _ h => h.le
  by_cases hsamples : 0 < samples.length <;>
    simp only [whisperFull, recognise, melFor, hsamples, if_true, if_false] <;> split_ifs <;>
    first | rfl | exact absurd (htests _ ‹_›) ‹_›

end WhisperAndroid
