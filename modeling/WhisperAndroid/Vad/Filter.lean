import WhisperAndroid.Support.Knots
import WhisperAndroid.Vad.Segments

/-!
# Filtering the samples

`whisper_vad`: the samples of the segments are copied behind each other into a buffer whose
size has been computed before, with silence between them, and a table of times records which
time of the audio a time of the buffer stands for. Copying from outside the samples or to
outside the buffer is undefined, as is a negative size.

## Main results

* `vad_fills_buffer` — the copies stay within the samples and the buffer, and fill it
* `whisperVad_table` — the times of the table increase, and the times of the audio with them
-/

namespace WhisperAndroid.Vad

open Span

/-- `0.1 * WHISPER_SAMPLE_RATE` -/
def silenceSamples : ℕ := 1600

section Detect

variable {F P : Type} [Zero F]

/-- `n_chunks` of `whisper_vad_detect_speech` -/
def nChunks (nWindow nSamples : ℕ) : ℕ :=
  nSamples / nWindow + if nSamples % nWindow ≠ 0 then 1 else 0

/-- The samples of a window, with zeros behind the last. -/
def windowAt (nWindow : ℕ) (samples : List F) (i : ℕ) : List F :=
  let chunk := (samples.drop (i * nWindow)).take nWindow
  chunk ++ List.replicate (nWindow - chunk.length) 0

/-- `whisper_vad_detect_speech`. The network has seen all windows up to the one whose
probability it gives. -/
def detectSpeech (nWindow : ℕ) (network : List (List F) → P) (samples : List F) : List P :=
  (List.range (nChunks nWindow samples.length)).map fun i =>
    network ((List.range (i + 1)).map (windowAt nWindow samples))

end Detect

/-! ### Memory -/

section Memory

variable {F : Type}

/-- `length` samples from `start` on. -/
def readAt (samples : List F) (start length : ℤ) : Option (List F) :=
  if 0 ≤ start ∧ start + length ≤ samples.length then
    some ((samples.drop start.toNat).take length.toNat)
  else none

/-- The buffer with a piece in it. -/
def writeAt (buffer : List F) (offset : ℤ) (piece : List F) : Option (List F) :=
  if 0 ≤ offset ∧ offset + piece.length ≤ buffer.length then
    some (buffer.take offset.toNat ++ (piece ++ buffer.drop (offset.toNat + piece.length)))
  else none

theorem writeAt_append (front room piece : List F) (h : piece.length ≤ room.length) :
    writeAt (front ++ room) front.length piece =
      some (front ++ piece ++ room.drop piece.length) := by
  have hfits : (0 : ℤ) ≤ front.length ∧
      (front.length + piece.length : ℤ) ≤ (front ++ room).length := by
    rw [List.length_append]
    omega
  rw [writeAt, if_pos hfits, Int.toNat_natCast, List.take_left, List.drop_append,
    List.append_assoc]
  simp

end Memory

/-! ### The copies -/

/-- `vad_segment_info` -/
structure VadSegmentInfo where
  origStart : ℤ
  origEnd : ℤ
  vadStart : ℤ
  vadEnd : ℤ

/-- What the second pass has done: the buffer, the next free place in it, the table of times
and the segments. -/
structure FillState (F : Type) where
  buffer : List F
  offset : ℤ
  table : List Knot
  segments : List VadSegmentInfo

section Fill

variable {F : Type} [Zero F]

/-- The sample in front of which a segment is cut, with the overlap into the silence behind all
segments but the last; `EndsFit` is the test that the sum is a value of an `int`. -/
def endSample (nSamples overlap : ℤ) (last : Bool) (segment : Span ℤ) : ℤ :=
  min (csToSamples segment.stop + if last then 0 else overlap) (nSamples - 1)

/-- The first pass: the number of samples in all segments. -/
def filteredSize (nSamples overlap : ℤ) : List (Span ℤ) → ℤ
  | [] => 0
  | segment :: rest =>
    endSample nSamples overlap rest.isEmpty segment - csToSamples segment.start +
      filteredSize nSamples overlap rest

/-- The silence between the segments. -/
def totalSilence (segments : List (Span ℤ)) : ℤ :=
  if 1 < segments.length then (segments.length - 1 : ℤ) * silenceSamples else 0

/-- Times within a segment of more than a second, one for each fifth of a second. -/
def intermediate (info : VadSegmentInfo) : List Knot :=
  let total := info.vadEnd - info.vadStart
  if 100 < total then
    (List.range (total.tdiv 20 - 1).toNat).filterMap fun (j : ℕ) =>
      let vadTime := info.vadStart + (j + 1) * 20
      if info.vadEnd ≤ vadTime then none
      else some ⟨vadTime, info.origStart +
        ((vadTime - info.vadStart) * (info.origEnd - info.origStart)).tdiv total⟩
  else []

/-- The knots of a segment. -/
def infoKnots (info : VadSegmentInfo) : List Knot :=
  [⟨info.vadStart, info.origStart⟩, ⟨info.vadEnd, info.origEnd⟩] ++ intermediate info

/-- The second pass. -/
def fill (clock : SampleClock) (samples : List F) (overlap : ℤ) :
    FillState F → List (Span ℤ) → Option (FillState F)
  | s, [] => some s
  | s, segment :: rest =>
    let start := min (csToSamples segment.start) (samples.length - 1)
    let length := endSample samples.length overlap rest.isEmpty segment - start
    if 0 < length then do
      let info : VadSegmentInfo := ⟨segment.start, segment.stop, clock.samplesToCs s.offset,
        clock.samplesToCs (s.offset + length)⟩
      let piece ← readAt samples start length
      let buffer ← writeAt s.buffer s.offset piece
      let s : FillState F := ⟨buffer, s.offset + length, s.table ++ infoKnots info,
        s.segments ++ [info]⟩
      match rest with
      | [] => some s
      | next :: _ =>
        let buffer ← writeAt s.buffer s.offset (List.replicate silenceSamples 0)
        fill clock samples overlap ⟨buffer, s.offset + silenceSamples,
          s.table ++ [⟨clock.samplesToCs s.offset, info.origEnd⟩,
            ⟨clock.samplesToCs (s.offset + silenceSamples), next.start⟩], s.segments⟩ rest
    else fill clock samples overlap s rest

/-- What `whisper_vad` leaves: the filtered samples, the table of times and the segments. -/
structure VadResult (F : Type) where
  filteredSamples : List F
  hasVadSegments : Bool
  table : List Knot
  segments : List VadSegmentInfo

/-- The ends of the segments in samples are values of an `int`, with the overlap behind all but
the last. -/
def EndsFit (overlap : ℤ) : List (Span ℤ) → Prop
  | [] => True
  | segment :: rest =>
    IntFits (csToSamples segment.stop) ∧
      IntFits (csToSamples segment.stop + if rest.isEmpty then 0 else overlap) ∧
        EndsFit overlap rest

instance EndsFit.decidable (overlap : ℤ) :
    (segments : List (Span ℤ)) → Decidable (EndsFit overlap segments)
  | [] => inferInstanceAs (Decidable True)
  | _ :: rest =>
    have := EndsFit.decidable overlap rest
    inferInstanceAs (Decidable (_ ∧ _ ∧ _))

/-- `total_samples_needed` -/
def totalSamplesNeeded (nSamples overlap : ℤ) (segments : List (Span ℤ)) : ℤ :=
  filteredSize nSamples overlap segments + totalSilence segments

/-- The copies for the segments, with the table sorted by `sort`. -/
def filterSamples (clock : SampleClock) (sort : List Knot → List Knot) (samples : List F)
    (overlap : ℤ) (segments : List (Span ℤ)) : Option (VadResult F) :=
  if segments = [] then some ⟨[], false, [], []⟩
  else
    let total := totalSamplesNeeded samples.length overlap segments
    if ¬ EndsFit overlap segments ∨ total < 0 ∨ intMax < total then none
    else do
      let s ← fill clock samples overlap ⟨List.replicate total.toNat 0, 0, [], []⟩ segments
      some ⟨s.buffer, true, (sort s.table).destutter fun a b => a.arg ≠ b.arg, s.segments⟩

/-- What is copied for the segments. -/
def speechParts (samples : List F) (overlap : ℤ) : List (Span ℤ) → List (List F)
  | [] => []
  | segment :: rest =>
    ((samples.drop (csToSamples segment.start).toNat).take
      (endSample samples.length overlap rest.isEmpty segment - csToSamples segment.start).toNat) ::
        speechParts samples overlap rest

/-- A segment with more than a hundredth of a second to copy. -/
structure Fits (nSamples : ℤ) (segment : Span ℤ) : Prop where
  nonneg : 0 ≤ segment.start
  lt_stop : segment.start + 1 < segment.stop
  lt_samples : csToSamples (segment.start + 1) < nSamples - 1

variable {clock : SampleClock} {samples : List F} {overlap : ℤ} {segment : Span ℤ}
  {segments rest : List (Span ℤ)} {s s' : FillState F}

/-! ### The buffer -/

section Buffer

variable (hoverlap : 0 ≤ overlap)

include hoverlap

theorem Fits.length_bounds {n : ℤ} (h : Fits n segment) (last : Bool) :
    0 ≤ csToSamples segment.start ∧ csToSamples segment.start < n - 1 ∧
      160 < endSample n overlap last segment - csToSamples segment.start ∧
        endSample n overlap last segment ≤ n - 1 := by
  obtain ⟨hnonneg, hstop, hsamples⟩ := h
  have hover : 0 ≤ if last then 0 else overlap := by
    split
    · exact le_rfl
    · exact hoverlap
  rw [csToSamples] at hsamples
  unfold endSample csToSamples
  omega

theorem filteredSize_nonneg {n : ℤ} (hfits : ∀ segment ∈ segments, Fits n segment) :
    0 ≤ filteredSize n overlap segments := by
  induction segments with
  | nil => exact le_rfl
  | cons segment rest ih =>
    obtain ⟨-, -, hlong, -⟩ :=
      (hfits segment List.mem_cons_self).length_bounds hoverlap rest.isEmpty
    have := ih fun other hother => hfits other (List.mem_cons_of_mem _ hother)
    rw [filteredSize]
    omega

omit [Zero F] in
/-- The samples of a segment are there to be read. -/
theorem Fits.readAt (h : Fits samples.length segment) (last : Bool) :
    ∃ piece, readAt samples (csToSamples segment.start)
        (endSample samples.length overlap last segment - csToSamples segment.start) = some piece ∧
      piece = (samples.drop (csToSamples segment.start).toNat).take
        (endSample samples.length overlap last segment - csToSamples segment.start).toNat ∧
      (piece.length : ℤ) =
        endSample samples.length overlap last segment - csToSamples segment.start := by
  obtain ⟨hstart, -, hlong, hend⟩ := h.length_bounds hoverlap last
  refine ⟨_, if_pos ⟨hstart, by omega⟩, rfl, ?_⟩
  rw [List.length_take, List.length_drop]
  omega

omit hoverlap in
theorem append_intercalate_speechParts (front piece : List F) (segment : Span ℤ) :
    front ++ (List.replicate silenceSamples 0).intercalate
        (piece :: speechParts samples overlap (segment :: rest)) =
      front ++ piece ++ List.replicate silenceSamples 0 ++
        (List.replicate silenceSamples 0).intercalate
          (speechParts samples overlap (segment :: rest)) := by
  rw [speechParts, List.intercalate_cons_cons]
  simp only [List.append_assoc]

/-- The copies for the segments fill the rest of the buffer. -/
theorem fill_buffer (front : List F) (hfits : ∀ segment ∈ segments, Fits samples.length segment)
    (hne : segments ≠ []) {room : List F}
    (hroom : (room.length : ℤ) =
      filteredSize samples.length overlap segments + (segments.length - 1) * silenceSamples)
    (hbuffer : s.buffer = front ++ room) (hoffset : s.offset = front.length) :
    ∃ s', fill clock samples overlap s segments = some s' ∧
      s'.buffer = front ++ (List.replicate silenceSamples 0).intercalate
        (speechParts samples overlap segments) ∧ s'.offset = s'.buffer.length := by
  induction segments generalizing s front room with
  | nil => exact absurd rfl hne
  | cons segment rest ih =>
    have hfit := hfits segment List.mem_cons_self
    have hrest : ∀ other ∈ rest, Fits samples.length other := fun other hother =>
      hfits other (List.mem_cons_of_mem _ hother)
    obtain ⟨-, hstart, hlong, -⟩ := hfit.length_bounds hoverlap rest.isEmpty
    obtain ⟨piece, hread, hpiece, hlength⟩ := hfit.readAt hoverlap rest.isEmpty
    have hnonneg := filteredSize_nonneg hoverlap hrest
    rw [fill, speechParts, ← hpiece]
    dsimp only
    rw [min_eq_left (by omega), if_pos (by omega), hread, hbuffer, hoffset]
    rw [filteredSize, ← hlength, List.length_cons] at hroom
    cases rest with
    | nil =>
      have hfull : room.length = piece.length := by
        simp [filteredSize] at hroom
        exact hroom
      have hwrite := writeAt_append front room piece hfull.ge
      rw [Option.bind_eq_bind, Option.bind_some, hwrite]
      refine ⟨_, rfl, ?_, ?_⟩
      · simp [List.drop_of_length_le hfull.le, speechParts, List.intercalate]
      · simp [List.drop_of_length_le hfull.le, hlength]
    | cons next rest =>
      have hroom' : (room.length : ℤ) = piece.length + silenceSamples +
          (filteredSize samples.length overlap (next :: rest) +
            ((next :: rest).length - 1) * silenceSamples) := by
        rw [hroom, List.length_cons]
        push_cast
        ring
      have hmore : (0 : ℤ) ≤ ((next :: rest).length - 1 : ℤ) * silenceSamples := by
        rw [List.length_cons, Nat.cast_succ, add_sub_cancel_right]
        positivity
      have hwrite := writeAt_append front room piece (by omega)
      have hwrite' := writeAt_append (front ++ piece) (room.drop piece.length)
        (List.replicate silenceSamples (0 : F)) (by simp; omega)
      have hlength' : (front.length : ℤ) + piece.length = (front ++ piece).length := by
        rw [List.length_append, Nat.cast_add]
      rw [Option.bind_eq_bind, Option.bind_some, hwrite, Option.bind_some, ← hlength, hlength',
        hwrite']
      dsimp only
      rw [Option.bind_some, List.length_replicate, List.drop_drop]
      have hroom'' : ((room.drop (piece.length + silenceSamples)).length : ℤ) =
          filteredSize samples.length overlap (next :: rest) +
            ((next :: rest).length - 1) * silenceSamples := by
        rw [List.length_drop]
        omega
      have hoffset' : ((front ++ piece).length : ℤ) + silenceSamples =
          (front ++ piece ++ List.replicate silenceSamples (0 : F)).length := by
        simp [add_assoc]
      rw [append_intercalate_speechParts]
      exact ih _ hrest (List.cons_ne_nil _ _) hroom'' rfl hoffset'

end Buffer

/-! ### The table of times -/

section Table

theorem SampleClock.samplesToCs_lt (clock : SampleClock) {a length : ℤ} (ha : 0 ≤ a)
    (h : 160 < length) : clock.samplesToCs a < clock.samplesToCs (a + length) := by
  have hnear := abs_le.mp (clock.near a ha)
  have hnear' := abs_le.mp (clock.near (a + length) (by omega))
  omega

/-- The knots of a segment are on one line. -/
theorem infoKnots_on (info : VadSegmentInfo) (h : info.vadStart < info.vadEnd) :
    ∀ k ∈ infoKnots info,
      Knot.On ⟨info.vadStart, info.origStart⟩ ⟨info.vadEnd, info.origEnd⟩ k := by
  intro k hk
  rcases List.mem_append.mp hk with hk | hk
  · rcases List.mem_pair.mp hk with rfl | rfl
    · exact .start h.le
    · exact .stop h
  · unfold intermediate at hk
    dsimp only at hk
    split at hk
    case isFalse => exact absurd hk List.not_mem_nil
    case isTrue =>
      obtain ⟨j, -, hj⟩ := List.mem_filterMap.mp hk
      split_ifs at hj with htime
      obtain rfl := Option.some.inj hj
      exact ⟨by dsimp only; omega, (not_le.mp htime).le, rfl⟩

/-- The knots of a table are in step and in front of `k`. -/
structure Tabled (lo : ℤ) (table : List Knot) (k : Knot) : Prop where
  inStep : Knot.InStep table
  leads : ∀ a ∈ table, Knot.Leads a k
  le_val : ∀ a ∈ table, lo ≤ a.val

theorem Tabled.append {lo : ℤ} {table group : List Knot} {k k' : Knot} (h : Tabled lo table k)
    (hgroup : Knot.InStep group) (hleads : ∀ a ∈ group, Knot.Leads k a ∧ Knot.Leads a k')
    (hk : Knot.Leads k k') (hlo : lo ≤ k.val) : Tabled lo (table ++ group) k' where
  inStep := h.inStep.append hgroup k h.leads fun a ha => (hleads a ha).1
  leads a ha := (List.mem_append.mp ha).elim (fun ha => (h.leads a ha).trans hk)
    fun ha => (hleads a ha).2
  le_val a ha := (List.mem_append.mp ha).elim (h.le_val a) fun ha =>
    hlo.trans (hleads a ha).1.2.1

/-- The knots of a segment begin with the next one and end with its stop. -/
theorem Tabled.append_info {lo : ℤ} {table : List Knot} (info : VadSegmentInfo)
    (h : Tabled lo table ⟨info.vadStart, info.origStart⟩) (hvad : info.vadStart < info.vadEnd)
    (horig : info.origStart ≤ info.origEnd) (hlo : lo ≤ info.origStart) :
    Tabled lo (table ++ infoKnots info) ⟨info.vadEnd, info.origEnd⟩ := by
  have hon := infoKnots_on info hvad
  refine h.append (Knot.On.inStep horig hvad hon) (fun a ha => ?_)
    (Knot.leads_of_arg_lt hvad horig) hlo
  exact ⟨(hon a ha).start_leads horig hvad, (hon a ha).leads_stop horig hvad⟩

/-- The knots of the silence in front of the next segment. -/
theorem Tabled.append_silence {lo : ℤ} {table : List Knot} {k : Knot} (k' : Knot)
    (h : Tabled lo table k) (harg : k.arg < k'.arg) (hval : k.val ≤ k'.val) (hlo : lo ≤ k.val) :
    Tabled lo (table ++ [k, k']) k' := by
  have hleads := Knot.leads_of_arg_lt harg hval
  have hgroup : Knot.InStep [k, k'] :=
    (Knot.InStep.singleton k).append (.singleton k') k
      (fun a ha => List.mem_singleton.mp ha ▸ .refl k) fun a ha => List.mem_singleton.mp ha ▸ hleads
  refine h.append hgroup (fun a ha => ?_) hleads hlo
  rcases List.mem_pair.mp ha with rfl | rfl
  · exact ⟨.refl _, hleads⟩
  · exact ⟨hleads, .refl _⟩

/-- What the copies for a segment leave in the table. -/
theorem fill_cons (hoverlap : 0 ≤ overlap) (hfit : Fits samples.length segment)
    (h : fill clock samples overlap s (segment :: rest) = some s') :
    ∃ buffer length, 160 < length ∧
      let info : VadSegmentInfo := ⟨segment.start, segment.stop, clock.samplesToCs s.offset,
        clock.samplesToCs (s.offset + length)⟩
      match rest with
      | [] => s'.table = s.table ++ infoKnots info
      | next :: _ =>
        fill clock samples overlap ⟨buffer, s.offset + length + silenceSamples,
          s.table ++ infoKnots info ++ [⟨info.vadEnd, info.origEnd⟩,
            ⟨clock.samplesToCs (s.offset + length + silenceSamples), next.start⟩],
          s.segments ++ [info]⟩ rest = some s' := by
  obtain ⟨-, hstart, hlong, -⟩ := hfit.length_bounds hoverlap rest.isEmpty
  rw [fill] at h
  dsimp only at h
  rw [min_eq_left (by omega), if_pos (by omega)] at h
  obtain ⟨piece, -, h⟩ := Option.bind_eq_some_iff.mp h
  obtain ⟨buffer, -, h⟩ := Option.bind_eq_some_iff.mp h
  cases rest with
  | nil => exact ⟨buffer, _, hlong, by rw [← Option.some.inj h]⟩
  | cons next rest =>
    obtain ⟨buffer', -, h⟩ := Option.bind_eq_some_iff.mp h
    exact ⟨buffer', _, hlong, h⟩

/-- The table of all segments. -/
theorem fill_table (hoverlap : 0 ≤ overlap) {lo hi : ℤ} (hlaid : Laid lo hi (segment :: rest))
    (hfits : ∀ other ∈ segment :: rest, Fits samples.length other) (hoffset : 0 ≤ s.offset)
    (h : Tabled lo s.table ⟨clock.samplesToCs s.offset, segment.start⟩)
    (hfill : fill clock samples overlap s (segment :: rest) = some s') :
    ∃ k, Tabled lo s'.table k ∧ k.val ≤ hi ∧ s'.table ≠ [] := by
  induction rest generalizing s segment lo with
  | nil =>
    obtain ⟨hstart, hstop, hrest⟩ := laid_cons.mp hlaid
    obtain ⟨buffer, length, hlong, htable⟩ :=
      fill_cons hoverlap (hfits segment List.mem_cons_self) hfill
    have hvad := clock.samplesToCs_lt hoffset hlong
    refine ⟨⟨clock.samplesToCs (s.offset + length), segment.stop⟩, ?_, laid_nil.mp hrest, ?_⟩
    · rw [htable]
      exact h.append_info _ hvad hstop hstart
    · simp [htable, infoKnots]
  | cons next rest ih =>
    obtain ⟨hstart, hstop, hrest⟩ := laid_cons.mp hlaid
    obtain ⟨buffer, length, hlong, hfill⟩ :=
      fill_cons hoverlap (hfits segment List.mem_cons_self) hfill
    have hvad := clock.samplesToCs_lt hoffset hlong
    have hinfo := h.append_info ⟨segment.start, segment.stop, _, _⟩ hvad hstop hstart
    have hend : 0 ≤ s.offset + length := by omega
    have hsilence := hinfo.append_silence ⟨_, next.start⟩
      (clock.samplesToCs_lt hend (show 160 < (silenceSamples : ℤ) by decide))
      (laid_cons.mp hrest).1 (hstart.trans hstop)
    refine ih (hrest.mono (hstart.trans hstop) le_rfl)
      (fun other hother => hfits other (List.mem_cons_of_mem _ hother)) ?_ hsilence hfill
    exact Int.add_nonneg hend (Int.natCast_nonneg _)

end Table

end Fill

/-! ### The whole filter -/

section Vad

variable {F P : Type} [Zero F] [ProbScalar P]

/-- `whisper_vad` -/
def whisperVad (p : VadParams P) (nWindow : ℕ) (clock : SampleClock) (sort : List Knot → List Knot)
    (network : List (List F) → P) (samples : List F) : Option (VadResult F) := do
  let segments ← (segmentsFromProbs p nWindow clock (detectSpeech nWindow network samples)).toOption
  filterSamples clock sort samples p.overlapSamples segments

/-- A speech is longer than a window and two hundredths of a second, neither padding nor overlap
is negative, and the products by the sample rate do not overflow. -/
structure VadParams.Regular (p : VadParams P) (nWindow : ℕ) : Prop where
  window_pos : 0 < nWindow
  pad_nonneg : 0 ≤ p.speechPadMs
  overlap_nonneg : 0 ≤ p.overlapSamples
  lt_minSpeech : nWindow + 320 < p.minSpeechSamples
  products : p.ProductsFit

/-- The audio is so short that padding and overlap behind it, and the samples needed in all, are
values of an `int`. -/
structure VadParams.Room (p : VadParams P) (nWindow : ℕ) (clock : SampleClock)
    (network : List (List F) → P) (samples : List F) : Prop where
  pad : (nChunks nWindow samples.length * nWindow : ℕ) + p.speechPadSamples ≤ intMax
  overlap : (nChunks nWindow samples.length * nWindow : ℕ) + 80 + p.overlapSamples ≤ intMax
  total : totalSamplesNeeded samples.length p.overlapSamples
    (segmentSpans p nWindow clock (detectSpeech nWindow network samples)) ≤ intMax

variable {p : VadParams P} {nWindow : ℕ} {clock : SampleClock} {sort : List Knot → List Knot}
  {network : List (List F) → P} {samples : List F} {r : VadResult F}

theorem nChunks_mul_lt (h : 0 < nWindow) (nSamples : ℕ) :
    nChunks nWindow nSamples * nWindow < nSamples + nWindow := by
  have hdiv := Nat.div_add_mod' nSamples nWindow
  have hmod := Nat.mod_lt nSamples h
  rw [nChunks, Nat.add_mul]
  split_ifs <;> omega

/-- Every segment has something to copy. -/
theorem fits_segments (hp : p.Regular nWindow) :
    ∀ segment ∈ segmentSpans p nWindow clock (detectSpeech nWindow network samples),
      Fits samples.length segment := by
  intro segment hsegment
  have hpad := VadParams.speechPadSamples_nonneg hp.pad_nonneg
  obtain ⟨s, hs, rfl⟩ := List.mem_map.mp hsegment
  obtain ⟨hstart, hstop, haudio⟩ := (paddedSpeeches_laid hpad _).bounds s hs
  have hlong := minSpeech_le_of_mem_padded hpad hs
  have hchunks := nChunks_mul_lt hp.window_pos samples.length
  have hmin := hp.lt_minSpeech
  have hnear := abs_le.mp (clock.near s.start hstart)
  have hnear' := abs_le.mp (clock.near s.stop (hstart.trans hstop))
  rw [audioLength, detectSpeech, List.length_map, List.length_range] at haudio
  refine ⟨?_, ?_, ?_⟩ <;> unfold Span.map <;> dsimp only
  · omega
  · omega
  · rw [csToSamples]
    omega

omit [ProbScalar P] in
theorem filterSamples_eq {overlap : ℤ} (hoverlap : 0 ≤ overlap) {segments : List (Span ℤ)}
    (hfits : ∀ segment ∈ segments, Fits samples.length segment) (hne : segments ≠ []) :
    ∃ (buffer : List F) (s : FillState F),
      fill clock samples overlap ⟨buffer, 0, [], []⟩ segments = some s ∧
        (EndsFit overlap segments → totalSamplesNeeded samples.length overlap segments ≤ intMax →
          filterSamples clock sort samples overlap segments =
            some ⟨s.buffer, true, (sort s.table).destutter fun a b => a.arg ≠ b.arg, s.segments⟩) ∧
          s.buffer = (List.replicate silenceSamples 0).intercalate
            (speechParts samples overlap segments) := by
  have hpos : (1 : ℤ) ≤ segments.length := by exact_mod_cast List.length_pos_iff.mpr hne
  have hsilence : totalSilence segments = (segments.length - 1) * silenceSamples := by
    unfold totalSilence
    split_ifs with hone
    · rfl
    · rw [show segments.length = 1 by omega]
      simp
  have hnonneg : 0 ≤ totalSamplesNeeded samples.length overlap segments := by
    rw [totalSamplesNeeded, hsilence]
    exact Int.add_nonneg (filteredSize_nonneg hoverlap hfits)
      (Int.mul_nonneg (Int.sub_nonneg_of_le hpos) (Int.natCast_nonneg silenceSamples))
  let buffer : List F :=
    List.replicate (totalSamplesNeeded samples.length overlap segments).toNat 0
  have hroom : (buffer.length : ℤ) =
      filteredSize samples.length overlap segments + (segments.length - 1) * silenceSamples := by
    rw [List.length_replicate, Int.toNat_of_nonneg hnonneg, totalSamplesNeeded, hsilence]
  obtain ⟨s, hfill, hbuffer, -⟩ : ∃ s', fill clock samples overlap ⟨buffer, 0, [], []⟩ segments =
      some s' ∧ s'.buffer = [] ++ (List.replicate silenceSamples 0).intercalate
        (speechParts samples overlap segments) ∧ _ :=
    fill_buffer hoverlap [] hfits hne hroom rfl rfl
  refine ⟨buffer, s, hfill, fun hends htotal => ?_, hbuffer⟩
  rw [filterSamples, if_neg hne]
  dsimp only
  have hdefined : ¬ (¬ EndsFit overlap segments ∨
      totalSamplesNeeded samples.length overlap segments < 0 ∨
        intMax < totalSamplesNeeded samples.length overlap segments) := by
    rw [not_or, not_or, not_not]
    exact ⟨hends, not_lt.mpr hnonneg, not_lt.mpr htotal⟩
  rw [if_neg hdefined, hfill]
  rfl

omit [Zero F] [ProbScalar P] in
theorem endsFit_of_bounds {overlap : ℤ} (hoverlap : 0 ≤ overlap) {segments : List (Span ℤ)}
    (h : ∀ segment ∈ segments, 0 ≤ csToSamples segment.stop ∧
      csToSamples segment.stop + overlap ≤ intMax) : EndsFit overlap segments := by
  induction segments with
  | nil => trivial
  | cons segment rest ih =>
    obtain ⟨hnonneg, hle⟩ := h segment List.mem_cons_self
    refine ⟨?_, ?_, ih fun other hother => h other (List.mem_cons_of_mem _ hother)⟩
    · simp only [IntFits, intMin]
      omega
    · simp only [IntFits, intMin]
      split <;> omega

theorem VadParams.Room.endsFit (hp : p.Regular nWindow)
    (hroom : p.Room nWindow clock network samples) :
    EndsFit p.overlapSamples
      (segmentSpans p nWindow clock (detectSpeech nWindow network samples)) := by
  refine endsFit_of_bounds hp.overlap_nonneg fun segment hsegment => ?_
  have hpad := VadParams.speechPadSamples_nonneg hp.pad_nonneg
  obtain ⟨s, hs, rfl⟩ := List.mem_map.mp hsegment
  obtain ⟨hstart, hstop, haudio⟩ := (paddedSpeeches_laid hpad _).bounds s hs
  rw [audioLength, detectSpeech, List.length_map, List.length_range] at haudio
  have hnear := abs_le.mp (clock.near s.stop (hstart.trans hstop))
  have hzero := clock.mono (hstart.trans hstop)
  have hzero' := abs_le.mp (clock.near 0 le_rfl)
  have hle := hroom.overlap
  simp only [csToSamples, Span.map]
  omega

/-- With room for all sums the segments are those without an overflow. -/
theorem whisperVad_eq_filterSamples (hp : p.Regular nWindow)
    (hroom : p.Room nWindow clock network samples) :
    whisperVad p nWindow clock sort network samples =
      filterSamples clock sort samples p.overlapSamples
        (segmentSpans p nWindow clock (detectSpeech nWindow network samples)) := by
  have haudio : audioLength nWindow (detectSpeech nWindow network samples) +
      p.speechPadSamples ≤ intMax := by
    rw [audioLength, detectSpeech, List.length_map, List.length_range]
    exact hroom.pad
  rw [whisperVad, segmentsFromProbs_eq_ok hp.pad_nonneg hp.products clock haudio]
  rfl

theorem whisperVad_eq (hp : p.Regular nWindow) (sort : List Knot → List Knot)
    (hroom : p.Room nWindow clock network samples) :
    ∃ r, whisperVad p nWindow clock sort network samples = some r ∧
      r.filteredSamples = (List.replicate silenceSamples 0).intercalate
        (speechParts samples p.overlapSamples
          (segmentSpans p nWindow clock (detectSpeech nWindow network samples))) ∧
      (r.hasVadSegments = true ↔
        segmentSpans p nWindow clock (detectSpeech nWindow network samples) ≠ []) := by
  rw [whisperVad_eq_filterSamples hp hroom]
  by_cases hne : segmentSpans p nWindow clock (detectSpeech nWindow network samples) = []
  · exact ⟨⟨[], false, [], []⟩, if_pos hne, by rw [hne]; rfl, nofun, absurd hne⟩
  · obtain ⟨buffer, s, -, hresult, hbuffer⟩ :=
      filterSamples_eq hp.overlap_nonneg (fits_segments hp) hne
    exact ⟨_, hresult (hroom.endsFit hp) hroom.total, hbuffer, fun _ => hne, fun _ => rfl⟩

/-- Every copy stays within the samples and within the buffer, and together they fill it: the
filtered samples are the parts with speech, with a tenth of a second of silence between them. -/
theorem vad_fills_buffer (hp : p.Regular nWindow) (sort : List Knot → List Knot)
    (hroom : p.Room nWindow clock network samples) :
    ∃ segments r,
      segmentsFromProbs p nWindow clock (detectSpeech nWindow network samples) = .ok segments ∧
      whisperVad p nWindow clock sort network samples = some r ∧
      r.filteredSamples = (List.replicate silenceSamples 0).intercalate
        (speechParts samples p.overlapSamples segments) := by
  obtain ⟨r, hr, hsamples, -⟩ := whisperVad_eq hp sort hroom
  refine ⟨_, r, segmentsFromProbs_eq_ok hp.pad_nonneg hp.products clock ?_, hr, hsamples⟩
  rw [audioLength, detectSpeech, List.length_map, List.length_range]
  exact hroom.pad

theorem vadDefaultParams_regular : vadDefaultParams.Regular 512 :=
  ⟨by decide, by decide, by decide, by decide, vadDefaultParams_productsFit⟩

/-- Speech in the first twenty windows and from the forty-first on. -/
def burstNetwork (windows : List (List ℚ)) : ℚ :=
  if windows.length ≤ 20 ∨ 40 < windows.length then 1 else 0

/-- Sixty windows of samples. -/
def burstSamples : List ℚ := List.replicate 30720 1

theorem nChunks_burstSamples : nChunks 512 burstSamples.length = 60 := by
  rw [burstSamples, List.length_replicate]
  rfl

theorem detectSpeech_bursts : detectSpeech 512 burstNetwork burstSamples = twoBursts := by
  rw [detectSpeech, nChunks_burstSamples]
  simp only [burstNetwork, List.length_map, List.length_range]
  decide +kernel

theorem room_bursts : vadDefaultParams.Room 512 .exact burstNetwork burstSamples := by
  refine ⟨?_, ?_, ?_⟩
  · rw [nChunks_burstSamples]
    decide
  · rw [nChunks_burstSamples]
    decide
  · rw [detectSpeech_bursts, segmentSpans_twoBursts, burstSamples, List.length_replicate]
    decide

theorem vad_fills_buffer_defaults :
    ∃ r, whisperVad vadDefaultParams 512 .exact id burstNetwork burstSamples = some r ∧
      r.filteredSamples = (List.replicate silenceSamples 0).intercalate
        (speechParts burstSamples 1600 [⟨0, 67⟩, ⟨125, 192⟩]) := by
  obtain ⟨segments, r, hsegments, hr, hsamples⟩ :=
    vad_fills_buffer vadDefaultParams_regular id room_bursts
  rw [segmentsFromProbs_eq hsegments, detectSpeech_bursts, segmentSpans_twoBursts] at hsamples
  exact ⟨r, hr, hsamples⟩

/-- What `std::sort` promises: nothing is said about the order of equal times. -/
def SortsTimes (sort : List Knot → List Knot) : Prop :=
  ∀ t, (sort t).Perm t ∧ (sort t).Pairwise fun a b => a.arg ≤ b.arg

theorem SampleClock.samplesToCs_zero (clock : SampleClock) : clock.samplesToCs 0 = 0 := by
  have hnear := abs_le.mp (clock.near 0 le_rfl)
  omega

omit [ProbScalar P] in
theorem filterSamples_table {overlap hi : ℤ} (hoverlap : 0 ≤ overlap) {segments : List (Span ℤ)}
    (hfits : ∀ segment ∈ segments, Fits samples.length segment) (hlaid : Laid 0 hi segments)
    (hsort : SortsTimes sort)
    (h : filterSamples clock sort samples overlap segments = some r) :
    Knot.Rising r.table ∧ (∀ a ∈ r.table, 0 ≤ a.val ∧ a.val ≤ hi) ∧
      (r.hasVadSegments = true → r.table ≠ []) := by
  cases segments with
  | nil =>
    obtain rfl := Option.some.inj h
    exact ⟨.nil, nofun, nofun⟩
  | cons segment rest =>
    obtain ⟨buffer, s, hfill, hresult, -⟩ :=
      filterSamples_eq hoverlap hfits (List.cons_ne_nil segment rest)
    have hdefined : EndsFit overlap (segment :: rest) ∧
        totalSamplesNeeded samples.length overlap (segment :: rest) ≤ intMax := by
      by_contra hnot
      rw [filterSamples, if_neg (List.cons_ne_nil segment rest)] at h
      dsimp only at h
      rw [if_pos (by rw [not_and_or, not_le] at hnot; exact hnot.imp_right .inr)] at h
      cases h
    obtain rfl := Option.some.inj ((hresult hdefined.1 hdefined.2).symm.trans h)
    have hempty : Tabled 0 [] ⟨clock.samplesToCs 0, segment.start⟩ := ⟨.nil, nofun, nofun⟩
    obtain ⟨k, htabled, hk, hne⟩ := fill_table hoverlap hlaid hfits le_rfl hempty hfill
    obtain ⟨hperm, hsorted⟩ := hsort s.table
    refine ⟨htabled.inStep.rising hperm hsorted, fun a ha => ?_, fun _ hnil => ?_⟩
    · have hmem := hperm.mem_iff.mp ((List.destutter_sublist _ _).subset ha)
      exact ⟨htabled.le_val a hmem, (htabled.leads a hmem).2.1.trans hk⟩
    · have hsorted_nil : sort s.table = [] := (List.destutter_eq_nil _).mp hnil
      rw [hsorted_nil] at hperm
      exact hne (List.nil_perm.mp hperm)

/-- The table of times is rising, and its original times are within the audio. -/
theorem whisperVad_table (hp : p.Regular nWindow) (hsort : SortsTimes sort)
    (h : whisperVad p nWindow clock sort network samples = some r) :
    Knot.Rising r.table ∧ (∀ a ∈ r.table, 0 ≤ a.val ∧
      a.val ≤ clock.samplesToCs (nChunks nWindow samples.length * nWindow : ℕ)) ∧
        (r.hasVadSegments = true → r.table ≠ []) := by
  have hlength : audioLength nWindow (detectSpeech nWindow network samples) =
      nChunks nWindow samples.length * nWindow := by
    rw [audioLength, detectSpeech, List.length_map, List.length_range]
  obtain ⟨segments, hsegments, h⟩ := Option.bind_eq_some_iff.mp h
  obtain rfl : segments = segmentSpans p nWindow clock (detectSpeech nWindow network samples) := by
    cases hprobs : segmentsFromProbs p nWindow clock (detectSpeech nWindow network samples) with
    | error fault => simp [hprobs, Except.toOption] at hsegments
    | ok found =>
      rw [hprobs] at hsegments
      exact (Option.some.inj hsegments) ▸ segmentsFromProbs_eq hprobs
  have hlaid : Laid (clock.samplesToCs 0) _
      (segmentSpans p nWindow clock (detectSpeech nWindow network samples)) :=
    segmentSpans_laid (VadParams.speechPadSamples_nonneg hp.pad_nonneg) clock _
  rw [clock.samplesToCs_zero, hlength] at hlaid
  exact filterSamples_table hp.overlap_nonneg (fits_segments hp) hlaid hsort h

end Vad

end WhisperAndroid.Vad
