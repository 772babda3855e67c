import WhisperAndroid.Native.Arithmetic
import WhisperAndroid.Support.InputStream
import WhisperAndroid.Support.Loop

/-!
# The WAV reader

`read_wav` of the JNI library, branch by branch. The chunk loop is the step
function `scanStep`; nothing bounds it, so `readWavFor` takes the number of
rounds it may go and `ReadsTo` says that some number is enough.

The locals the source leaves uninitialised start with the bytes of a `Stale`
memory. Values that the source keeps in `int16_t` and `int32_t` variables stay in
memory form, since a short read overwrites only some of their bytes.

Logging has no effect on the result and is left out. Allocation succeeds.
-/

namespace WhisperAndroid

/-! ### Chunk identifiers -/

def riffTag : Buffer 4 := ![0x52, 0x49, 0x46, 0x46]

def waveTag : Buffer 4 := ![0x57, 0x41, 0x56, 0x45]

def fmtTag : Buffer 4 := ![0x66, 0x6d, 0x74, 0x20]

def dataTag : Buffer 4 := ![0x64, 0x61, 0x74, 0x61]

/-! ### Locals -/

/-- What the uninitialised locals hold before they are read into: those of the
RIFF header, and those of each round of the chunk loop. -/
structure Stale where
  riff : Buffer 4
  fileSize : Buffer 4
  wave : Buffer 4
  chunkId : ℕ → Buffer 4
  chunkSize : ℕ → Buffer 4

/-- Memory that happens to be zero. -/
def Stale.zero : Stale := ⟨.zero, .zero, .zero, fun _ => .zero, fun _ => .zero⟩

/-- The locals that the `fmt ` branch reads into. -/
structure Format where
  audioFormat : Buffer 2
  numChannels : Buffer 2
  sampleRate : Buffer 4
  bitsPerSample : Buffer 2

/-- The format before any `fmt ` chunk, initialised by the source. -/
def Format.initial : Format := ⟨.zero, .zero, .zero, .zero⟩

/-- The chunk loop between two rounds. -/
structure ScanState where
  file : InputStream
  format : Format
  round : ℕ

section

variable (F : Type) [FloatArith F]

/-! ### The data branch -/

/-- The 16-bit samples of a zero-initialised vector after `received` has been
copied to its front. -/
def samplesOf (count : ℕ) (received : List UInt8) : List ℤ :=
  (List.range count).map fun j => ((.zero : Buffer 2).slice received (2 * j)).toInt

/-- One mono frame: the mean of its channels, each scaled to `[-1, 1)`. -/
def mixFrame (samples : List ℤ) (numChannels : ℤ) (i : ℕ) : F :=
  let sum := (List.range numChannels.toNat).foldl
    (fun sum ch => FloatArith.add sum (FloatArith.div
      (FloatArith.ofInt (samples.getD (i * numChannels.toNat + ch) 0)) (FloatArith.ofInt 32768)))
    (FloatArith.ofInt 0 : F)
  FloatArith.div sum (FloatArith.ofInt numChannels)

variable {F}

/-- A float conversion to `size_t` that may be undefined. -/
def sizeCast : Option ℕ → Except Fault ℕ
  | some n => .ok n
  | none => .error .sizeConversion

/-- Resampling to 16 kHz by the nearest lower index. -/
def resample (audio : List F) (sampleRate : ℤ) : Except Fault (List F) := do
  let ratio : F := FloatArith.div (FloatArith.ofInt sampleRate) (FloatArith.ofInt 16000)
  let newSize ← sizeCast (FloatArith.quotToSize audio.length ratio)
  (List.range newSize).mapM fun i => do
    let srcIdx ← sizeCast (FloatArith.prodToSize i ratio)
    return audio.getD srcIdx (FloatArith.ofInt 0)

variable (F)

/-- The `data` branch, from the stream behind the chunk header. -/
def readData (format : Format) (chunkSize : ℤ) (file : InputStream) : Except Fault (List F) := do
  let numSamples ← intDiv chunkSize (format.bitsPerSample.toInt.tdiv 8)
  let count ← vectorSize numSamples
  let received := (file.read chunkSize).1
  -- the vector holds two bytes for each element, whatever the bit depth says
  if 2 * count < received.length then throw .heapOverrun
  let samples := samplesOf count received
  let frames ← vectorSize (← intDiv numSamples format.numChannels.toInt)
  let audio := (List.range frames).map (mixFrame F samples format.numChannels.toInt)
  if format.sampleRate.toInt ≠ 16000 then
    resample audio format.sampleRate.toInt
  else
    return audio

/-! ### The chunk loop -/

/-- The chunk header that a round reads: identifier, size, and the stream behind it. -/
def readHeader (stale : Stale) (s : ScanState) : Buffer 4 × ℤ × InputStream :=
  let (chunkId, file) := s.file.readInto (stale.chunkId s.round)
  let (chunkSize, file) := file.readInto (stale.chunkSize s.round)
  (chunkId, chunkSize.toInt, file)

/-- The fields that the `fmt ` branch reads, and the stream behind them. -/
def readFormat (format : Format) (file : InputStream) : Format × InputStream :=
  let (audioFormat, file) := file.readInto format.audioFormat
  let (numChannels, file) := file.readInto format.numChannels
  let (sampleRate, file) := file.readInto format.sampleRate
  let file := file.seekg 6 -- byte rate and block align
  let (bitsPerSample, file) := file.readInto format.bitsPerSample
  (⟨audioFormat, numChannels, sampleRate, bitsPerSample⟩, file)

/-- One round of the chunk loop, with the test at its top. -/
def scanStep (stale : Stale) (s : ScanState) : ScanState ⊕ Except Fault (List F) :=
  if s.file.good then
    let (chunkId, chunkSize, file) := readHeader stale s
    if chunkId = fmtTag then
      let (format, file) := readFormat s.format file
      -- `chunk_size - 16` is an `int` subtraction, done before the seek
      match intSub chunkSize 16 with
      | .ok restOfFmt => .inl ⟨file.seekg restOfFmt, format, s.round + 1⟩
      | .error fault => .inr (.error fault)
    else if chunkId = dataTag then
      .inr (readData F s.format chunkSize file)
    else
      .inl ⟨file.seekg chunkSize, s.format, s.round + 1⟩
  else
    .inr (.ok []) -- no data chunk found

/-! ### The whole function -/

/-- The RIFF header: the stream behind it, or nothing if it is rejected. -/
def readRiff (stale : Stale) (bytes : List UInt8) : Option InputStream :=
  let (riff, file) := (InputStream.goodAt bytes 0).readInto stale.riff
  if riff ≠ riffTag then none
  else
    let (_, file) := file.readInto stale.fileSize
    let (wave, file) := file.readInto stale.wave
    if wave ≠ waveTag then none else some file

/-- `read_wav` on the contents of a file, or on `none` for one that cannot be
opened, with at most `rounds` rounds of the chunk loop. -/
def readWavFor (rounds : ℕ) (stale : Stale) (contents : Option (List UInt8)) :
    Option (Except Fault (List F)) :=
  match contents.bind (readRiff stale) with
  | none => some (.ok [])
  | some file => Loop.runFor (scanStep F stale) rounds ⟨file, .initial, 0⟩

/-- `read_wav` ends with the given outcome. -/
def ReadsTo (stale : Stale) (contents : Option (List UInt8)) (outcome : Except Fault (List F)) :
    Prop :=
  ∃ rounds, readWavFor F rounds stale contents = some outcome

end

end WhisperAndroid
