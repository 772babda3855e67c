import WhisperAndroid.Wav.DataBranch

/-!
# Well-formed WAV files

The byte layout of a RIFF/WAVE file with one 16-bit `fmt ` chunk before its `data`
chunk and auxiliary chunks around it. A chunk whose body has odd size is followed
by a pad byte that its size does not count.

## Main results

* `walk_chunks` — the scan passes auxiliary chunks of even size
* `WavFile.readsTo_iff` — on a file whose chunks have even sizes, `read_wav` does
  what its `data` branch does at the `data` chunk
-/

namespace WhisperAndroid

variable {F : Type} [FloatArith F] {stale : Stale}

/-! ### Chunks -/

/-- The pad byte behind a body of odd size. -/
def padding (size : ℕ) (pad : UInt8) : List UInt8 := if Even size then [] else [pad]

/-- A chunk header: identifier and size. -/
def chunkHeader (id : Buffer 4) (size : ℕ) : List UInt8 :=
  List.ofFn id ++ List.ofFn (Buffer.ofNat size : Buffer 4)

@[simp] theorem length_chunkHeader (id : Buffer 4) (size : ℕ) :
    (chunkHeader id size).length = 8 := by
  simp [chunkHeader]

/-- A chunk that is neither `fmt ` nor `data`. -/
structure AuxChunk where
  id : Buffer 4
  body : List UInt8
  pad : UInt8
  id_ne_fmt : id ≠ fmtTag
  id_ne_data : id ≠ dataTag
  size_lt : body.length < 2 ^ 31

def AuxChunk.encode (c : AuxChunk) : List UInt8 :=
  chunkHeader c.id c.body.length ++ (c.body ++ padding c.body.length c.pad)

theorem AuxChunk.encode_of_even (c : AuxChunk) (heven : Even c.body.length) :
    c.encode = chunkHeader c.id c.body.length ++ c.body := by
  simp [encode, padding, heven]

/-- A `LIST` chunk, as recorders write it for their tags. -/
def listChunk (body : List UInt8) (size_lt : body.length < 2 ^ 31) : AuxChunk :=
  ⟨![0x4c, 0x49, 0x53, 0x54], body, 0, by decide, by decide, size_lt⟩

/-- A `fmt ` chunk of 16-bit samples. The reader skips byte rate and block align,
and does not look at the audio format or the extension. -/
structure FmtChunk where
  audioFormat : Buffer 2
  numChannels : ℕ
  sampleRate : ℕ
  byteRateAndBlockAlign : Buffer 6
  extension : List UInt8
  pad : UInt8
  numChannels_pos : 1 ≤ numChannels
  numChannels_le : numChannels ≤ 32767
  sampleRate_pos : 0 < sampleRate
  sampleRate_lt : sampleRate < 2 ^ 31

namespace FmtChunk

variable (c : FmtChunk)

def size : ℕ := 16 + c.extension.length

/-- The fields as the reader stores them. -/
def format : Format :=
  ⟨c.audioFormat, .ofNat c.numChannels, .ofNat c.sampleRate, .ofNat 16⟩

def fields : List UInt8 :=
  List.ofFn c.format.audioFormat ++ (List.ofFn c.format.numChannels ++
    (List.ofFn c.format.sampleRate ++ (List.ofFn c.byteRateAndBlockAlign ++
      List.ofFn c.format.bitsPerSample)))

def encode : List UInt8 :=
  chunkHeader fmtTag c.size ++ (c.fields ++ (c.extension ++ padding c.size c.pad))

@[simp] theorem length_fields : c.fields.length = 16 := by
  simp [fields]

theorem encode_of_even (heven : Even c.size) :
    c.encode = chunkHeader fmtTag c.size ++ (c.fields ++ c.extension) := by
  simp [encode, padding, heven]

end FmtChunk

/-! ### Files -/

/-- A file with one `fmt ` chunk before its `data` chunk. -/
structure WavFile where
  riffSize : Buffer 4
  before : List AuxChunk
  fmt : FmtChunk
  after : List AuxChunk
  data : List UInt8
  trailing : List UInt8
  data_lt : data.length < 2 ^ 31

namespace WavFile

variable (w : WavFile)

def riffHeader : List UInt8 := List.ofFn riffTag ++ (List.ofFn w.riffSize ++ List.ofFn waveTag)

/-- Where the `fmt ` chunk starts. -/
def upToFmt : List UInt8 := w.riffHeader ++ w.before.flatMap AuxChunk.encode

/-- Where the `data` chunk starts. -/
def upToData : List UInt8 := w.upToFmt ++ w.fmt.encode ++ w.after.flatMap AuxChunk.encode

/-- Everything before the body of the `data` chunk. -/
def headers : List UInt8 := w.upToData ++ chunkHeader dataTag w.data.length

def encode : List UInt8 := w.headers ++ (w.data ++ w.trailing)

/-- Every chunk before the `data` chunk has an even size, which for the `fmt ` chunk
fits into the signed field. -/
structure EvenSizes (w : WavFile) : Prop where
  before : ∀ c ∈ w.before, Even c.body.length
  fmt : Even w.fmt.size
  fmt_lt : w.fmt.size < 2 ^ 31
  after : ∀ c ∈ w.after, Even c.body.length

@[simp] theorem length_riffHeader : w.riffHeader.length = 12 := by
  simp [riffHeader]

end WavFile

/-! ### Reading a layout back -/

section

variable {front rest : List UInt8} {id : Buffer 4} {size : ℕ}

theorem chunkIdAt_chunkHeader :
    chunkIdAt (front ++ (chunkHeader id size ++ rest)) front.length = id := by
  rw [chunkHeader, List.append_assoc]
  exact Buffer.slice_append _ _ _ _

theorem chunkSizeAt_chunkHeader :
    chunkSizeAt (front ++ (chunkHeader id size ++ rest)) front.length =
      (Buffer.ofNat size : Buffer 4).toInt := by
  have hlength : front.length + 4 = (front ++ List.ofFn id).length := by simp
  rw [chunkHeader, List.append_assoc, ← List.append_assoc front, chunkSizeAt, hlength,
    Buffer.slice_append]

/-- The scan goes from an auxiliary chunk to the end of its body, pad byte or not. -/
theorem nextOffset_auxChunk (c : AuxChunk) :
    nextOffset (front ++ (c.encode ++ rest)) front.length =
      some (front.length + 8 + c.body.length) := by
  have hsize : (Buffer.ofNat c.body.length : Buffer 4).toInt = c.body.length :=
    Buffer.toInt_ofNat_of_lt (by have := c.size_lt; norm_num; omega)
  rw [nextOffset_eq_some_iff, AuxChunk.encode, List.append_assoc, chunkIdAt_chunkHeader,
    chunkSizeAt_chunkHeader, hsize]
  exact ⟨by simp, c.id_ne_data, by push_cast; ring, fun hfmt => absurd hfmt c.id_ne_fmt⟩

/-- The scan passes auxiliary chunks of even size. -/
theorem walk_chunks {chunks : List AuxChunk} (heven : ∀ c ∈ chunks, Even c.body.length)
    {round : ℕ} {fmt : Option ℕ} {bytes : List UInt8}
    (hbytes : bytes = front ++ (chunks.flatMap AuxChunk.encode ++ rest))
    (hwalk : walk bytes round = some (front.length, fmt)) :
    walk bytes (round + chunks.length) =
      some ((front ++ chunks.flatMap AuxChunk.encode).length, fmt) := by
  -- induction on the chunks, each of which goes over into the front of the file
  induction chunks generalizing front round with
  | nil => simpa using hwalk
  | cons c chunks ih =>
    have hsplit : bytes = front ++ (c.encode ++ (chunks.flatMap AuxChunk.encode ++ rest)) := by
      simp [hbytes]
    have hpassed : passed bytes front.length fmt = fmt := by
      have hid : chunkIdAt bytes front.length = c.id := by
        rw [hsplit, AuxChunk.encode, List.append_assoc, chunkIdAt_chunkHeader]
      rw [passed, hid, if_neg c.id_ne_fmt]
    have hnext : nextOffset bytes front.length = some (front ++ c.encode).length := by
      rw [hsplit, nextOffset_auxChunk, c.encode_of_even (heven c List.mem_cons_self)]
      simp [add_assoc]
    have hround := walk_succ hwalk hnext
    rw [hpassed] at hround
    have htail := ih (fun c' hc' => heven c' (List.mem_cons_of_mem c hc'))
      (by simp [hsplit]) hround
    simpa [add_assoc, add_comm 1] using htail

theorem formatAt_fmtChunk (c : FmtChunk) :
    formatAt (front ++ (chunkHeader fmtTag c.size ++ (c.fields ++ rest))) front.length =
      c.format := by
  simp [formatAt, FmtChunk.fields, FmtChunk.format, Buffer.slice_append_of_le,
    Buffer.slice_ofFn_append, chunkHeader, -List.ofFn_succ]

theorem nextOffset_fmtChunk (c : FmtChunk) (heven : Even c.size) (hlt : c.size < 2 ^ 31) :
    nextOffset (front ++ (c.encode ++ rest)) front.length = some (front ++ c.encode).length := by
  have hsize : (Buffer.ofNat c.size : Buffer 4).toInt = c.size :=
    Buffer.toInt_ofNat_of_lt (by norm_num; omega)
  rw [nextOffset_eq_some_iff, c.encode_of_even heven, List.append_assoc, chunkIdAt_chunkHeader,
    chunkSizeAt_chunkHeader, hsize]
  refine ⟨by simp, by decide, ?_, fun _ => ⟨?_, by unfold intMin FmtChunk.size; omega⟩⟩
  · simp [FmtChunk.size]
    ring
  · simp
    omega

end

/-! ### Whole files -/

namespace WavFile

variable {w : WavFile}

theorem hasRiffHeader (w : WavFile) (tail : List UInt8) :
    HasRiffHeader (w.riffHeader ++ tail) := by
  refine ⟨by simp, ?_, ?_⟩ <;>
    simp [riffHeader, Buffer.slice_append_of_le, Buffer.slice_ofFn_append, -List.ofFn_succ]

/-- The scan passes the `fmt ` chunk of a file with even chunk sizes, whatever follows. -/
theorem walk_fmt (heven : w.EvenSizes) (rest : List UInt8) :
    ∃ round, walk (w.upToFmt ++ (w.fmt.encode ++ rest)) round =
      some ((w.upToFmt ++ w.fmt.encode).length, some w.upToFmt.length) := by
  set bytes := w.upToFmt ++ (w.fmt.encode ++ rest) with hbytes
  -- from the RIFF header over the first chunks to the `fmt ` chunk, and over that
  have hstart : walk bytes 0 = some (w.riffHeader.length, none) := by
    rw [length_riffHeader]
    rfl
  have hfmt : walk bytes (0 + w.before.length) = some (w.upToFmt.length, none) :=
    walk_chunks heven.before (by rw [hbytes, upToFmt, List.append_assoc]) hstart
  have hpassed : passed bytes w.upToFmt.length none = some w.upToFmt.length := by
    rw [hbytes, w.fmt.encode_of_even heven.fmt, List.append_assoc, passed, chunkIdAt_chunkHeader,
      if_pos rfl]
  have hbody := walk_succ hfmt (nextOffset_fmtChunk w.fmt heven.fmt heven.fmt_lt)
  rw [hpassed] at hbody
  exact ⟨_, hbody⟩

/-- On a file with even chunk sizes the scan comes to the `data` chunk with the format
of the `fmt ` chunk, whatever stands behind the `data` header. -/
theorem walk_data (heven : w.EvenSizes) (tail : List UInt8) :
    ∃ round, walk (w.headers ++ tail) round = some (w.upToData.length, some w.upToFmt.length) := by
  have hsplit : w.headers ++ tail = w.upToFmt ++ (w.fmt.encode ++
      (w.after.flatMap AuxChunk.encode ++ (chunkHeader dataTag w.data.length ++ tail))) := by
    simp [headers, upToData]
  obtain ⟨round, hfmt⟩ := walk_fmt heven
    (w.after.flatMap AuxChunk.encode ++ (chunkHeader dataTag w.data.length ++ tail))
  rw [hsplit]
  exact ⟨_, walk_chunks heven.after (by rw [List.append_assoc]) hfmt⟩

theorem formatAt_fmt (heven : w.EvenSizes) (tail : List UInt8) :
    formatAt (w.headers ++ tail) w.upToFmt.length = w.fmt.format := by
  have hsplit : w.headers ++ tail = w.upToFmt ++ (chunkHeader fmtTag w.fmt.size ++ (w.fmt.fields ++
      (w.fmt.extension ++ (w.after.flatMap AuxChunk.encode ++
        (chunkHeader dataTag w.data.length ++ tail))))) := by
    simp [headers, upToData, w.fmt.encode_of_even heven.fmt]
  rw [hsplit, formatAt_fmtChunk]

/-- What the `data` branch works on in a file whose bytes from the `data` body on are
the given ones. -/
def dataPoint (w : WavFile) (tail : List UInt8) : DataPoint :=
  ⟨w.fmt.format, w.data.length, .goodAt tail 0⟩

section

variable (w) (tail : List UInt8)

theorem dataPoint_bytesPerSample : (w.dataPoint tail).bytesPerSample = 2 := by
  have hbits : (Buffer.ofNat 16 : Buffer 2).toInt = 16 := Buffer.toInt_ofNat_of_lt (by norm_num)
  simp [dataPoint, DataPoint.bytesPerSample, FmtChunk.format, hbits]

theorem dataPoint_numChannels : (w.dataPoint tail).numChannels = w.fmt.numChannels :=
  Buffer.toInt_ofNat_of_lt (by have := w.fmt.numChannels_le; norm_num; omega)

theorem dataPoint_sampleRate :
    (w.dataPoint tail).format.sampleRate.toInt = w.fmt.sampleRate :=
  Buffer.toInt_ofNat_of_lt (by have := w.fmt.sampleRate_lt; norm_num; omega)

theorem dataPoint_numSamples : (w.dataPoint tail).numSamples = (w.data.length / 2 : ℕ) := by
  rw [DataPoint.numSamples, dataPoint_bytesPerSample,
    Int.tdiv_eq_ediv_of_nonneg (by simp [dataPoint])]
  rfl

theorem dataPoint_frames :
    (w.dataPoint tail).frames = (w.data.length / 2 / w.fmt.numChannels : ℕ) := by
  rw [DataPoint.frames, dataPoint_numSamples, dataPoint_numChannels,
    Int.tdiv_eq_ediv_of_nonneg (by positivity)]
  rfl

theorem countsDefined_dataPoint : (w.dataPoint tail).CountsDefined where
  bytesPerSample_ne_zero := by rw [dataPoint_bytesPerSample]; decide
  numSamples_nonneg := by rw [dataPoint_numSamples]; positivity
  numSamples_le := by
    rw [dataPoint_numSamples]
    have := w.data_lt
    unfold intMax
    omega
  numChannels_ne_zero := by
    rw [dataPoint_numChannels]
    have := w.fmt.numChannels_pos
    omega
  frames_nonneg := by rw [dataPoint_frames]; positivity

end

/-- At 16 kHz and with an even data size, the frames are mixed and returned as they are. -/
theorem run_dataPoint_of_rate (hrate : w.fmt.sampleRate = 16000) (heven : Even w.data.length)
    (tail : List UInt8) :
    (w.dataPoint tail).run F = .ok ((List.range (w.data.length / 2 / w.fmt.numChannels)).map
      (mixFrame F (samplesOf (w.data.length / 2) (tail.take w.data.length))
        w.fmt.numChannels)) := by
  have hstored : (w.dataPoint tail).stored ≤ w.data.length := by
    rw [DataPoint.stored, InputStream.length_read_fst]
    simp [dataPoint]
  -- an even size in bytes is a whole number of samples
  have hfits : ¬ 2 * (w.dataPoint tail).numSamples.toNat < (w.dataPoint tail).stored := by
    rw [dataPoint_numSamples, Int.toNat_natCast, Nat.two_mul_div_two_of_even heven]
    exact not_lt.mpr hstored
  have hrate' : ¬ (w.dataPoint tail).format.sampleRate.toInt ≠ 16000 := by
    rw [dataPoint_sampleRate, hrate]
    simp
  rw [(countsDefined_dataPoint w tail).run_eq, if_neg hfits, if_neg hrate', DataPoint.audio,
    dataPoint_frames, dataPoint_numSamples, dataPoint_numChannels, Int.toNat_natCast,
    Int.toNat_natCast]
  simp only [dataPoint, InputStream.read_goodAt_fst, List.drop_zero, Int.toNat_natCast]

/-- On a file with even chunk sizes, `read_wav` does what its `data` branch does with
the declared format and size and the bytes behind the `data` header. -/
theorem readsTo_iff (heven : w.EvenSizes) (tail : List UInt8) {outcome : Except Fault (List F)} :
    ReadsTo F stale (some (w.headers ++ tail)) outcome ↔ outcome = (w.dataPoint tail).run F := by
  obtain ⟨round, hwalk⟩ := walk_data heven tail
  have hsplit : w.headers ++ tail =
      w.upToData ++ (chunkHeader dataTag w.data.length ++ tail) := by
    simp [headers]
  have hheader : w.upToData.length + 8 ≤ (w.headers ++ tail).length := by
    simp [hsplit]
  have hid : headerId stale (w.headers ++ tail) round w.upToData.length = dataTag := by
    rw [headerId_eq hheader, hsplit, chunkIdAt_chunkHeader]
  have hsize : headerSize stale (w.headers ++ tail) round w.upToData.length = w.data.length := by
    rw [headerSize_eq hheader, hsplit, chunkSizeAt_chunkHeader]
    exact Buffer.toInt_ofNat_of_lt (by have := w.data_lt; norm_num; omega)
  -- the branch sees the bytes behind the header, not where in the file they stand
  have hend : stopOutcome F stale (w.headers ++ tail) round w.upToData.length
      (some w.upToFmt.length) = (w.dataPoint tail).run F := by
    have hread : ((behindHeader (w.headers ++ tail) w.upToData.length).read w.data.length).1 =
        ((InputStream.goodAt tail 0).read w.data.length).1 := by
      have hpos : w.upToData.length + 8 = w.headers.length := by simp [headers]
      rw [behindHeader, if_pos hheader, hpos, InputStream.read_goodAt_fst,
        InputStream.read_goodAt_fst, List.drop_left, List.drop_zero]
    rw [stopOutcome_of_data hid, DataPoint.run, dataPointAt, hsize, declaredFormat,
      formatAt_fmt heven]
    exact DataPoint.readData_congr hread
  rw [WhisperAndroid.readsTo_iff (by simpa [headers, upToData, upToFmt] using w.hasRiffHeader _)]
  constructor
  · rintro ⟨round', p, fmt, hwalk', hstop, rfl⟩
    obtain ⟨rfl, rfl, rfl⟩ :=
      walk_stop_unique hwalk (nextOffset_eq_none_of_data hid) hwalk' hstop
    exact hend
  · rintro rfl
    exact ⟨round, _, _, hwalk, nextOffset_eq_none_of_data hid, hend.symm⟩

end WavFile

end WhisperAndroid
