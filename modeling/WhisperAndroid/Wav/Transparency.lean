import WhisperAndroid.Wav.Decode

/-!
# Auxiliary chunks

The scan does not skip the pad byte behind a chunk of odd size. Inserting a chunk of
even size before the data changes nothing; a chunk of odd size shifts every header
behind it.
-/

namespace WhisperAndroid

variable {F : Type} [FloatArith F] {stale stale' : Stale} {w : WavFile}

/-- A chunk boundary before the `data` chunk, counted from the RIFF header or from the
`fmt ` chunk. An index behind the last chunk stands for the last boundary. -/
inductive Boundary
  | beforeFmt (i : ℕ)
  | afterFmt (i : ℕ)
  deriving DecidableEq, Repr

/-- The file with a chunk inserted at a boundary. -/
def WavFile.insert (w : WavFile) (c : AuxChunk) : Boundary → WavFile
  | .beforeFmt i => { w with before := w.before.take i ++ c :: w.before.drop i }
  | .afterFmt i => { w with after := w.after.take i ++ c :: w.after.drop i }

theorem WavFile.EvenSizes.insert (heven : w.EvenSizes) {c : AuxChunk}
    (hc : Even c.body.length) (b : Boundary) : (w.insert c b).EvenSizes := by
  have hlist : ∀ (chunks : List AuxChunk) (i : ℕ), (∀ c ∈ chunks, Even c.body.length) →
      ∀ c' ∈ chunks.take i ++ c :: chunks.drop i, Even c'.body.length := by
    intro chunks i hchunks c' hc'
    rcases List.mem_append.mp hc' with hfront | hback
    · exact hchunks c' (List.mem_of_mem_take hfront)
    · rcases List.mem_cons.mp hback with rfl | hback
      · exact hc
      · exact hchunks c' (List.mem_of_mem_drop hback)
  cases b with
  | beforeFmt i => exact ⟨hlist _ i heven.before, heven.fmt, heven.fmt_lt, heven.after⟩
  | afterFmt i => exact ⟨heven.before, heven.fmt, heven.fmt_lt, hlist _ i heven.after⟩

/-- The `data` branch does not see an inserted chunk. -/
theorem WavFile.dataPoint_insert (w : WavFile) (c : AuxChunk) (b : Boundary)
    (tail : List UInt8) : (w.insert c b).dataPoint tail = w.dataPoint tail := by
  cases b <;> rfl

theorem readsTo_insert_iff (heven : w.EvenSizes) {c : AuxChunk} (hc : Even c.body.length)
    (b : Boundary) {outcome : Except Fault (List F)} :
    ReadsTo F stale (some (w.insert c b).encode) outcome ↔
      ReadsTo F stale' (some w.encode) outcome := by
  have htail : (w.insert c b).data ++ (w.insert c b).trailing = w.data ++ w.trailing := by
    cases b <;> rfl
  rw [WavFile.encode, WavFile.encode, WavFile.readsTo_iff (heven.insert hc b),
    WavFile.readsTo_iff heven, w.dataPoint_insert, htail]

/-! ### Chunks of odd size -/

theorem mono_reads_one : ∃ v : List F, ReadsTo F stale (some (mono []).encode) (.ok v) ∧
    v.length = 1 := by
  refine ⟨_, (WavFile.readsTo_iff mono_evenSizes _).mpr
    (WavFile.run_dataPoint_of_rate rfl (by decide) _).symm, ?_⟩
  rw [List.length_map, List.length_range]
  rfl

/-- What the scan finds at the pad byte in front of the `data` chunk of that file: the
first three letters of the tag, and a size that points behind the end. -/
theorem nextOffset_misread (front : List UInt8) :
    nextOffset (front ++ (0 :: (chunkHeader dataTag 2 ++ encodeSamples [1]))) front.length =
      some (front.length + 617) := by
  have hid : chunkIdAt (front ++ (0 :: (chunkHeader dataTag 2 ++ encodeSamples [1])))
      front.length = ![0, 0x64, 0x61, 0x74] := by
    rw [chunkIdAt, Buffer.slice_append_of_le _ le_rfl, Nat.sub_self]
    decide
  have hsize : chunkSizeAt (front ++ (0 :: (chunkHeader dataTag 2 ++ encodeSamples [1])))
      front.length = 609 := by
    rw [chunkSizeAt, Buffer.slice_append_of_le _ (Nat.le_add_right _ _), Nat.add_sub_cancel_left]
    decide
  rw [nextOffset_eq_some_iff, hid, hsize]
  refine ⟨?_, by decide, by push_cast; ring, fun hfmt => absurd hfmt (by decide)⟩
  simp
  omega

/-- With a chunk of odd size before its `data` chunk, the sample is lost. -/
theorem mono_insert_reads_nil {c : AuxChunk} (hodd : Odd c.body.length) (hpad : c.pad = 0) :
    ReadsTo F .zero (some ((mono []).insert c (.afterFmt 0)).encode) (.ok []) := by
  have hsplit : ((mono []).insert c (.afterFmt 0)).encode = (mono []).upToFmt ++
      ((mono []).fmt.encode ++ (c.encode ++ (chunkHeader dataTag 2 ++ encodeSamples [1]))) := by
    have hchunks : [c].flatMap AuxChunk.encode = c.encode := List.flatMap_singleton _ _
    rw [← hchunks]
    simp only [WavFile.encode, WavFile.headers, WavFile.upToData, List.append_assoc]
    rfl
  -- the pad byte is what the scan does not count
  have hpadded : c.encode = chunkHeader c.id c.body.length ++ c.body ++ [0] := by
    rw [AuxChunk.encode, padding, if_neg (Nat.not_even_iff_odd.mpr hodd), hpad, List.append_assoc]
  set front := (mono []).upToFmt ++ (mono []).fmt.encode with hfront
  obtain ⟨round, hfmt⟩ := WavFile.walk_fmt mono_evenSizes
    (c.encode ++ (chunkHeader dataTag 2 ++ encodeSamples [1]))
  rw [← hsplit] at hfmt
  have hriff : HasRiffHeader ((mono []).insert c (.afterFmt 0)).encode := by
    rw [hsplit]
    exact (mono []).hasRiffHeader _
  generalize ((mono []).insert c (.afterFmt 0)).encode = bytes at hsplit hfmt hriff ⊢
  -- the chunk takes the scan to its pad byte, and the header read there behind the end
  have hchunk : nextOffset bytes front.length = some (front.length + 8 + c.body.length) := by
    rw [hsplit, ← List.append_assoc]
    exact nextOffset_auxChunk c
  have hmisread : nextOffset bytes (front.length + 8 + c.body.length) =
      some (front.length + 8 + c.body.length + 617) := by
    have hbytes : bytes = (front ++ chunkHeader c.id c.body.length ++ c.body) ++
        (0 :: (chunkHeader dataTag 2 ++ encodeSamples [1])) := by
      rw [hsplit, hpadded]
      simp [hfront]
    have hnext := nextOffset_misread (front ++ chunkHeader c.id c.body.length ++ c.body)
    rwa [← hbytes, List.length_append, List.length_append, length_chunkHeader] at hnext
  have hlength : bytes.length = front.length + 8 + c.body.length + 11 := by
    rw [hsplit, hpadded]
    simp [hfront, length_encodeSamples]
    ring
  have hreads := readsTo_of_cut (F := F) hriff
    (walk_succ (walk_succ hfmt hchunk) hmisread) (by omega) .zero
  rwa [stopOutcome_zero (by omega)] at hreads

/-- Inserting an auxiliary chunk of size `n` before the `data` chunk of a file with even
chunk sizes never changes what `read_wav` does exactly when `n` is even. -/
theorem insert_transparent_iff {n : ℕ} (hn : n < 2 ^ 31) :
    (∀ (stale stale' : Stale) (w : WavFile) (b : Boundary) (c : AuxChunk), w.EvenSizes →
      c.body.length = n → ∀ outcome : Except Fault (List F),
        ReadsTo F stale (some (w.insert c b).encode) outcome ↔
          ReadsTo F stale' (some w.encode) outcome) ↔ Even n := by
  constructor
  · intro htransparent
    by_contra hodd
    -- for odd `n` there is a file that such a chunk changes
    set c : AuxChunk := listChunk (List.replicate n 0) (by rwa [List.length_replicate]) with hc
    have hlength : c.body.length = n := List.length_replicate
    obtain ⟨v, hreads, hone⟩ : ∃ v : List F,
        ReadsTo F .zero (some (mono []).encode) (.ok v) ∧ v.length = 1 := mono_reads_one
    have hinserted :=
      (htransparent .zero .zero _ (.afterFmt 0) c mono_evenSizes hlength _).mpr hreads
    have hnil := mono_insert_reads_nil (F := F)
      (by rwa [hlength, ← Nat.not_even_iff_odd] : Odd c.body.length) rfl
    obtain rfl := Except.ok.inj (hinserted.unique hnil)
    cases hone
  · intro heven stale stale' w b c hw hlength outcome
    exact readsTo_insert_iff hw (by rwa [hlength]) b

theorem insert_transparent_iff_two :
    (∀ (stale stale' : Stale) (w : WavFile) (b : Boundary) (c : AuxChunk), w.EvenSizes →
      c.body.length = 2 → ∀ outcome : Except Fault (List ℚ),
        ReadsTo ℚ stale (some (w.insert c b).encode) outcome ↔
          ReadsTo ℚ stale' (some w.encode) outcome) ↔ Even 2 :=
  insert_transparent_iff (by decide)

/-- A chunk with a body of one byte. -/
def oddChunk : AuxChunk := listChunk [0x20] (by decide)

/-- Inserted before the `data` chunk, it hides the one sample of the file. -/
theorem oddChunk_hides_data : (mono []).EvenSizes ∧
    (∃ v, ReadsTo ℚ .zero (some (mono []).encode) (.ok v) ∧ v.length = 1) ∧
    ReadsTo ℚ .zero (some ((mono []).insert oddChunk (.afterFmt 0)).encode) (.ok []) :=
  ⟨mono_evenSizes, mono_reads_one, mono_insert_reads_nil (by decide) rfl⟩

end WhisperAndroid
