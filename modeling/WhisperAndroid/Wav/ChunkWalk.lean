import WhisperAndroid.Wav.ReadWav

/-!
# The walk over the chunks of a file

The chunk loop of `read_wav` as a walk on file offsets: a chunk header at offset
`p` that declares the signed size `n` sends the scan to `p + 8 + n`, whichever
branch reads it. `walk` is this walk as a function of the file alone, together
with the offset of the last `fmt ` chunk it has passed.

## Main results

* `scanStep_stateAt` — what one round of the loop does at an offset
* `reaches_and_good_iff` — the good states the loop reaches are those of the walk
* `readsTo_iff` — `read_wav` ends with the outcome of the offset where the walk ends
-/

namespace WhisperAndroid

variable {F : Type} [FloatArith F] {stale : Stale} {bytes : List UInt8} {p q round : ℕ}
  {fmt : Option ℕ}

/-! ### Chunks at an offset -/

/-- The identifier of the chunk at offset `p`. -/
def chunkIdAt (bytes : List UInt8) (p : ℕ) : Buffer 4 := (.zero : Buffer 4).slice bytes p

/-- The signed size that the chunk at offset `p` declares. -/
def chunkSizeAt (bytes : List UInt8) (p : ℕ) : ℤ := ((.zero : Buffer 4).slice bytes (p + 4)).toInt

/-- The format that the `fmt ` chunk at offset `p` declares. -/
def formatAt (bytes : List UInt8) (p : ℕ) : Format :=
  ⟨(.zero : Buffer 2).slice bytes (p + 8), (.zero : Buffer 2).slice bytes (p + 10),
    (.zero : Buffer 4).slice bytes (p + 12), (.zero : Buffer 2).slice bytes (p + 22)⟩

/-- The format known after a last `fmt ` chunk, if there was one. -/
def declaredFormat (bytes : List UInt8) : Option ℕ → Format
  | none => .initial
  | some p => formatAt bytes p

/-- Where the scan goes from the chunk at offset `p`, if it goes on at all: not
from a `data` chunk, nor from a header or a `fmt ` body that the file cuts off,
nor to a negative target. -/
def nextOffset (bytes : List UInt8) (p : ℕ) : Option ℕ :=
  if bytes.length < p + 8 ∨ chunkIdAt bytes p = dataTag ∨ p + 8 + chunkSizeAt bytes p < 0 ∨
      chunkIdAt bytes p = fmtTag ∧
        (bytes.length < p + 24 ∨ chunkSizeAt bytes p - 16 < intMin) then
    none
  else
    some (p + 8 + chunkSizeAt bytes p).toNat

/-! ### What a round reads -/

/-- The identifier that the given round reads at offset `p`, stale where the file
has ended. -/
def headerId (stale : Stale) (bytes : List UInt8) (round p : ℕ) : Buffer 4 :=
  (stale.chunkId round).slice bytes p

/-- The size that the given round reads with it. -/
def headerSize (stale : Stale) (bytes : List UInt8) (round p : ℕ) : ℤ :=
  ((stale.chunkSize round).slice bytes (p + 4)).toInt

/-- The stream behind a chunk header at offset `p`. -/
def behindHeader (bytes : List UInt8) (p : ℕ) : InputStream :=
  if p + 8 ≤ bytes.length then .goodAt bytes (p + 8) else .endedAt bytes p

/-- The loop at the top of a round, with a good stream at offset `p`. -/
def stateAt (bytes : List UInt8) (round p : ℕ) (fmt : Option ℕ) : ScanState :=
  ⟨.goodAt bytes p, declaredFormat bytes fmt, round⟩

@[simp] theorem stateAt_file : (stateAt bytes round p fmt).file = .goodAt bytes p := rfl

@[simp] theorem stateAt_format :
    (stateAt bytes round p fmt).format = declaredFormat bytes fmt := rfl

@[simp] theorem stateAt_round : (stateAt bytes round p fmt).round = round := rfl

theorem headerId_eq (hheader : p + 8 ≤ bytes.length) :
    headerId stale bytes round p = chunkIdAt bytes p :=
  Buffer.slice_congr (by omega) _ _

theorem headerSize_eq (hheader : p + 8 ≤ bytes.length) :
    headerSize stale bytes round p = chunkSizeAt bytes p :=
  congrArg Buffer.toInt (Buffer.slice_congr (by omega) _ _)

@[simp] theorem length_rest_behindHeader :
    (behindHeader bytes p).rest.length = bytes.length - (p + 8) := by
  unfold behindHeader
  split_ifs with hheader
  · simp
  · simp
    omega

theorem readHeader_stateAt :
    readHeader stale (stateAt bytes round p fmt) =
      (headerId stale bytes round p, headerSize stale bytes round p, behindHeader bytes p) := by
  simp only [readHeader, stateAt_file, stateAt_round]
  -- the file ends inside the identifier, inside the size, or behind the header
  rcases lt_or_ge bytes.length (p + 4) with hid | hid
  · have hsize : ¬ p + 8 ≤ bytes.length := by omega
    rw [InputStream.readInto_goodAt_short _ (by omega) hid]
    simp only [InputStream.readInto_of_failbit InputStream.failbit_endedAt, headerId, headerSize,
      behindHeader, if_neg hsize, Buffer.slice_of_length_le _ hid.le]
  rw [InputStream.readInto_goodAt _ hid]
  rcases lt_or_ge bytes.length (p + 8) with hsize | hsize
  · have hmax : max (p + 4) bytes.length = max p bytes.length := by omega
    have hended : InputStream.endedAt bytes (p + 4) = .endedAt bytes p := by
      simp only [InputStream.endedAt, hmax]
    simp only [InputStream.readInto_goodAt_short (stale.chunkSize round) (show 0 < 4 by omega)
      hsize, headerId, headerSize, behindHeader, if_neg (not_le.mpr hsize), hended]
  · simp only [InputStream.readInto_goodAt (stale.chunkSize round) hsize, headerId, headerSize,
      behindHeader, if_pos hsize]

/-- The `fmt ` branch reads the declared format whole, and stands behind 16 bytes. -/
theorem readFormat_goodAt (format : Format) (hbody : p + 24 ≤ bytes.length) :
    readFormat format (.goodAt bytes (p + 8)) = (formatAt bytes p, .goodAt bytes (p + 24)) := by
  have hskip : (InputStream.goodAt bytes (p + 16)).seekg 6 = .goodAt bytes (p + 22) :=
    InputStream.seekg_goodAt (by omega)
  simp only [readFormat]
  rw [InputStream.readInto_goodAt _ (by omega), InputStream.readInto_goodAt _ (by omega),
    InputStream.readInto_goodAt _ (by omega), hskip, InputStream.readInto_goodAt _ (by omega)]
  simp only [formatAt, Prod.mk.injEq, Format.mk.injEq, and_true]
  refine ⟨?_, ?_, ?_, ?_⟩ <;> exact Buffer.slice_congr (by omega) _ _

theorem failbit_readFormat {file : InputStream} (format : Format) (hfail : file.failbit = true) :
    (readFormat format file).2.failbit = true := by
  simp only [readFormat]
  apply InputStream.failbit_readInto
  apply InputStream.failbit_seekg
  apply InputStream.failbit_readInto
  apply InputStream.failbit_readInto
  exact InputStream.failbit_readInto hfail _

/-- A `fmt ` body that the file cuts off fails the stream. -/
theorem failbit_readFormat_goodAt (format : Format) (hbody : bytes.length < p + 24) :
    (readFormat format (.goodAt bytes (p + 8))).2.failbit = true := by
  simp only [readFormat]
  -- the read that meets the end fails, and the later operations stay failed
  rcases lt_or_ge bytes.length (p + 8 + 2) with hlt | haudio
  · apply InputStream.failbit_readInto
    apply InputStream.failbit_seekg
    apply InputStream.failbit_readInto
    apply InputStream.failbit_readInto
    exact InputStream.failbit_readInto_goodAt _ (by omega) hlt
  rw [InputStream.readInto_goodAt _ haudio]
  rcases lt_or_ge bytes.length (p + 8 + 2 + 2) with hlt | hchannels
  · apply InputStream.failbit_readInto
    apply InputStream.failbit_seekg
    apply InputStream.failbit_readInto
    exact InputStream.failbit_readInto_goodAt _ (by omega) hlt
  rw [InputStream.readInto_goodAt _ hchannels]
  rcases lt_or_ge bytes.length (p + 8 + 2 + 2 + 4) with hlt | hrate
  · apply InputStream.failbit_readInto
    apply InputStream.failbit_seekg
    exact InputStream.failbit_readInto_goodAt _ (by omega) hlt
  rw [InputStream.readInto_goodAt _ hrate, InputStream.seekg_goodAt (by omega)]
  exact InputStream.failbit_readInto_goodAt _ (by omega) (by omega)

/-! ### One round -/

/-- The last `fmt ` chunk after passing the chunk at offset `p`. -/
def passed (bytes : List UInt8) (p : ℕ) (fmt : Option ℕ) : Option ℕ :=
  if chunkIdAt bytes p = fmtTag then some p else fmt

/-- A failed stream ends the loop without a result vector. -/
theorem scanStep_of_failbit {s : ScanState} (hfail : s.file.failbit = true) :
    scanStep F stale s = .inr (.ok []) := by
  simp [scanStep, InputStream.good_eq_false_of_failbit hfail]

theorem scanStep_stateAt :
    scanStep F stale (stateAt bytes round p fmt) =
      if headerId stale bytes round p = fmtTag then
        match intSub (headerSize stale bytes round p) 16 with
        | .ok restOfFmt =>
          .inl ⟨(readFormat (declaredFormat bytes fmt) (behindHeader bytes p)).2.seekg restOfFmt,
            (readFormat (declaredFormat bytes fmt) (behindHeader bytes p)).1, round + 1⟩
        | .error fault => .inr (.error fault)
      else if headerId stale bytes round p = dataTag then
        .inr (readData F (declaredFormat bytes fmt) (headerSize stale bytes round p)
          (behindHeader bytes p))
      else
        .inl ⟨(behindHeader bytes p).seekg (headerSize stale bytes round p),
          declaredFormat bytes fmt, round + 1⟩ := by
  simp only [scanStep, readHeader_stateAt, stateAt_file, InputStream.good_goodAt, if_true]
  rfl

theorem nextOffset_eq_some_iff :
    nextOffset bytes p = some q ↔
      p + 8 ≤ bytes.length ∧ chunkIdAt bytes p ≠ dataTag ∧ (q : ℤ) = p + 8 + chunkSizeAt bytes p ∧
        (chunkIdAt bytes p = fmtTag →
          p + 24 ≤ bytes.length ∧ intMin ≤ chunkSizeAt bytes p - 16) := by
  -- each reason to stop is the negation of one condition on the right
  unfold nextOffset
  split_ifs with hstop
  · simp only [false_iff]
    rintro ⟨hheader, hdata, hq, hfmt⟩
    rcases hstop with hlt | hid | hneg | ⟨hid, hbad⟩
    · omega
    · exact hdata hid
    · omega
    · have := hfmt hid
      omega
  · push Not at hstop
    obtain ⟨hheader, hdata, htarget, hfmt⟩ := hstop
    simp only [Option.some.injEq]
    constructor
    · rintro rfl
      exact ⟨hheader, hdata, by omega, hfmt⟩
    · rintro ⟨-, -, hq, -⟩
      omega

/-- A header that the file cuts off ends the walk. -/
theorem nextOffset_eq_none_of_cut (hcut : bytes.length < p + 8) : nextOffset bytes p = none := by
  rw [nextOffset, if_pos (.inl hcut)]

/-- Where the walk goes on, one round of the loop follows it. -/
theorem next_of_nextOffset (hnext : nextOffset bytes p = some q) :
    Loop.Next (scanStep F stale) (stateAt bytes round p fmt)
      (stateAt bytes (round + 1) q (passed bytes p fmt)) := by
  obtain ⟨hheader, hdata, hq, hfmt⟩ := nextOffset_eq_some_iff.mp hnext
  rw [Loop.next_iff, scanStep_stateAt, headerId_eq hheader, headerSize_eq hheader, behindHeader,
    if_pos hheader, if_neg hdata, passed]
  split_ifs with hid
  -- the 16 bytes read and the rest skipped add up to the declared size
  · obtain ⟨hbody, hmin⟩ := hfmt hid
    have hsub : intSub (chunkSizeAt bytes p) 16 = .ok (chunkSizeAt bytes p - 16) := by
      have hmax := Buffer.toInt_lt ((.zero : Buffer 4).slice bytes (p + 4))
      exact intSub_eq_ok_iff.mpr ⟨hmin, by unfold intMax chunkSizeAt; omega, rfl⟩
    have htarget : ((p + 24 : ℕ) : ℤ) + (chunkSizeAt bytes p - 16) = q := by omega
    rw [hsub, readFormat_goodAt _ hbody]
    simp only [stateAt, declaredFormat]
    rw [InputStream.seekg_goodAt (by omega), htarget, Int.toNat_natCast]
  · have htarget : ((p + 8 : ℕ) : ℤ) + chunkSizeAt bytes p = q := by omega
    rw [InputStream.seekg_goodAt (by omega), htarget, Int.toNat_natCast]
    rfl

/-- Where the walk ends, the loop leaves or goes round once more on a failed stream. -/
theorem failbit_of_next (hstop : nextOffset bytes p = none) {s : ScanState}
    (hnext : Loop.Next (scanStep F stale) (stateAt bytes round p fmt) s) :
    s.file.failbit = true := by
  rw [Loop.next_iff, scanStep_stateAt] at hnext
  rcases lt_or_ge bytes.length (p + 8) with hcut | hheader
  -- the header is cut off: the stream has failed, whatever stale bytes are read as tag
  · rw [behindHeader, if_neg (not_le.mpr hcut)] at hnext
    split_ifs at hnext with hid hdata
    · split at hnext
      · obtain rfl := Sum.inl.inj hnext
        apply InputStream.failbit_seekg
        exact failbit_readFormat _ InputStream.failbit_endedAt
      · cases hnext
    · obtain rfl := Sum.inl.inj hnext
      apply InputStream.failbit_seekg
      exact InputStream.failbit_endedAt
  rw [behindHeader, if_pos hheader, headerId_eq hheader, headerSize_eq hheader] at hnext
  -- behind a whole header only a short `fmt ` body or a negative target ends the walk
  have hnone : ∀ q, nextOffset bytes p ≠ some q := by simp [hstop]
  split_ifs at hnext with hid hdata
  · split at hnext
    next restOfFmt hsub =>
      obtain rfl := Sum.inl.inj hnext
      obtain ⟨hmin, -, rfl⟩ := intSub_eq_ok_iff.mp hsub
      rcases lt_or_ge bytes.length (p + 24) with hshort | hbody
      · apply InputStream.failbit_seekg
        exact failbit_readFormat_goodAt _ hshort
      · rw [readFormat_goodAt _ hbody]
        apply InputStream.failbit_seekg_goodAt
        by_contra htarget
        refine hnone (p + 8 + chunkSizeAt bytes p).toNat (nextOffset_eq_some_iff.mpr ?_)
        exact ⟨hheader, by rw [hid]; decide, by omega, fun _ => ⟨hbody, hmin⟩⟩
    next => cases hnext
  · obtain rfl := Sum.inl.inj hnext
    apply InputStream.failbit_seekg_goodAt
    by_contra htarget
    refine hnone (p + 8 + chunkSizeAt bytes p).toNat (nextOffset_eq_some_iff.mpr ?_)
    exact ⟨hheader, hdata, by omega, fun hfmt => absurd hfmt hid⟩

variable (F) in
/-- How the loop ends from an offset where the walk ends. -/
def stopOutcome (stale : Stale) (bytes : List UInt8) (round p : ℕ) (fmt : Option ℕ) :
    Except Fault (List F) :=
  if headerId stale bytes round p = fmtTag then
    (intSub (headerSize stale bytes round p) 16).map fun _ => []
  else if headerId stale bytes round p = dataTag then
    readData F (declaredFormat bytes fmt) (headerSize stale bytes round p) (behindHeader bytes p)
  else
    .ok []

/-- Cleared memory has no effect behind the end of a file. -/
theorem stopOutcome_zero (hend : bytes.length ≤ p) :
    stopOutcome F .zero bytes round p fmt = .ok [] := by
  have hid : headerId .zero bytes round p = .zero := Buffer.slice_of_length_le _ hend
  rw [stopOutcome, hid, if_neg (by decide), if_neg (by decide)]

theorem returns_of_stop (hstop : nextOffset bytes p = none) :
    Loop.Returns (scanStep F stale) (stateAt bytes round p fmt)
      (stopOutcome F stale bytes round p fmt) := by
  cases hstep : scanStep F stale (stateAt bytes round p fmt) with
  | inl s =>
    -- the loop goes round once more, on a failed stream
    have hnext : Loop.Next (scanStep F stale) (stateAt bytes round p fmt) s := hstep
    have hempty : stopOutcome F stale bytes round p fmt = .ok [] := by
      rw [scanStep_stateAt] at hstep
      unfold stopOutcome
      split_ifs at hstep ⊢ with hid
      · split at hstep
        next hsub => rw [hsub]; rfl
        next => cases hstep
      · rfl
    rw [hnext.returns_iff, hempty]
    exact Loop.returns_of_done (scanStep_of_failbit (failbit_of_next hstop hnext))
  | inr outcome =>
    have houtcome : stopOutcome F stale bytes round p fmt = outcome := by
      rw [scanStep_stateAt] at hstep
      unfold stopOutcome
      split_ifs at hstep ⊢ with hid
      · split at hstep
        next => cases hstep
        next hsub => rw [hsub]; exact Sum.inr.inj hstep
      · exact Sum.inr.inj hstep
    rw [houtcome]
    exact Loop.returns_of_done hstep

/-! ### The walk -/

/-- The offset at the top of a round and the last `fmt ` chunk before it, as long
as the walk goes on. -/
def walk (bytes : List UInt8) : ℕ → Option (ℕ × Option ℕ)
  | 0 => some (12, none)
  | round + 1 =>
    (walk bytes round).bind fun (p, fmt) =>
      (nextOffset bytes p).map fun q => (q, passed bytes p fmt)

theorem walk_succ (hwalk : walk bytes round = some (p, fmt)) (hnext : nextOffset bytes p = some q) :
    walk bytes (round + 1) = some (q, passed bytes p fmt) := by
  simp [walk, hwalk, hnext]

/-- The walk has no round behind the offset where it ends. -/
theorem walk_eq_none_of_stop (hwalk : walk bytes round = some (p, fmt))
    (hstop : nextOffset bytes p = none) (more : ℕ) : walk bytes (round + 1 + more) = none := by
  induction more with
  | zero => simp [walk, hwalk, hstop]
  | succ more ih =>
    rw [← add_assoc, walk, ih]
    rfl

/-- The walk ends in one place. -/
theorem walk_stop_unique {round' p' : ℕ} {fmt' : Option ℕ}
    (hwalk : walk bytes round = some (p, fmt)) (hstop : nextOffset bytes p = none)
    (hwalk' : walk bytes round' = some (p', fmt')) (hstop' : nextOffset bytes p' = none) :
    round = round' ∧ p = p' ∧ fmt = fmt' := by
  -- the earlier of the two ends leaves no round for the later one
  have hround : round = round' := by
    rcases lt_trichotomy round round' with hlt | heq | hlt
    · obtain ⟨more, rfl⟩ := Nat.exists_eq_add_of_le hlt
      cases (walk_eq_none_of_stop hwalk hstop more).symm.trans hwalk'
    · exact heq
    · obtain ⟨more, rfl⟩ := Nat.exists_eq_add_of_le hlt
      cases (walk_eq_none_of_stop hwalk' hstop' more).symm.trans hwalk
  subst hround
  have hpair := Option.some.inj (hwalk.symm.trans hwalk')
  exact ⟨rfl, (Prod.mk.inj hpair).1, (Prod.mk.inj hpair).2⟩

/-- A `data` chunk ends the walk, also one that only a stale identifier spells. -/
theorem nextOffset_eq_none_of_data (hid : headerId stale bytes round p = dataTag) :
    nextOffset bytes p = none := by
  refine Option.eq_none_iff_forall_ne_some.mpr fun q hq => ?_
  obtain ⟨hheader, hdata, -⟩ := nextOffset_eq_some_iff.mp hq
  exact hdata ((headerId_eq hheader).symm.trans hid)

theorem reaches_of_walk (hwalk : walk bytes round = some (p, fmt)) :
    Loop.Reaches (scanStep F stale) (stateAt bytes 0 12 none) (stateAt bytes round p fmt) := by
  induction round generalizing p fmt with
  | zero =>
    obtain ⟨rfl, rfl⟩ : 12 = p ∧ none = fmt := by simpa [walk] using hwalk
    exact .refl
  | succ round ih =>
    obtain ⟨⟨p', fmt'⟩, hprev, hstep⟩ := Option.bind_eq_some_iff.mp hwalk
    obtain ⟨q, hnext, hq⟩ := Option.map_eq_some_iff.mp hstep
    obtain ⟨rfl, rfl⟩ : q = p ∧ passed bytes p' fmt' = fmt := by simpa using hq
    exact .tail (ih hprev) (next_of_nextOffset hnext)

/-- Only a good stream goes round. -/
theorem good_of_next {s t : ScanState} (hnext : Loop.Next (scanStep F stale) s t) :
    s.file.good = true := by
  by_contra hbad
  rw [Loop.next_iff, scanStep, if_neg hbad] at hnext
  cases hnext

/-- The good states that the loop reaches are those of the walk. -/
theorem reaches_and_good_iff {s : ScanState} :
    Loop.Reaches (scanStep F stale) (stateAt bytes 0 12 none) s ∧ s.file.good = true ↔
      ∃ round p fmt, walk bytes round = some (p, fmt) ∧ s = stateAt bytes round p fmt := by
  constructor
  · rintro ⟨hreach, hgood⟩
    -- induction along the run: a good state has a good state before it
    induction hreach with
    | refl => exact ⟨0, 12, none, rfl, rfl⟩
    | @tail t u _ hstep ih =>
      obtain ⟨round, p, fmt, hwalk, rfl⟩ := ih (good_of_next hstep)
      cases hnext : nextOffset bytes p with
      | none =>
        have hfail := InputStream.good_eq_false_of_failbit (failbit_of_next hnext hstep)
        rw [hfail] at hgood
        cases hgood
      | some q =>
        refine ⟨round + 1, q, passed bytes p fmt, walk_succ hwalk hnext, ?_⟩
        exact hstep.unique (next_of_nextOffset hnext)
  · rintro ⟨round, p, fmt, hwalk, rfl⟩
    exact ⟨reaches_of_walk hwalk, rfl⟩

/-- A loop that leaves has come to an offset where the walk ends. -/
theorem exists_walk_of_done {t : ScanState} {outcome : Except Fault (List F)}
    (hreach : Loop.Reaches (scanStep F stale) (stateAt bytes 0 12 none) t)
    (hdone : scanStep F stale t = .inr outcome) :
    ∃ round p fmt, walk bytes round = some (p, fmt) ∧ nextOffset bytes p = none := by
  -- the loop leaves from its body, or by the test at its top
  by_cases hgood : t.file.good = true
  · obtain ⟨round, p, fmt, hwalk, rfl⟩ := reaches_and_good_iff.mp ⟨hreach, hgood⟩
    refine ⟨round, p, fmt, hwalk, Option.eq_none_iff_forall_ne_some.mpr fun q hq => ?_⟩
    have hnext : Loop.Next (scanStep F stale) (stateAt bytes round p fmt) _ := next_of_nextOffset hq
    rw [Loop.next_iff, hdone] at hnext
    cases hnext
  -- the stream failed in the round before
  · obtain rfl | ⟨u, hu, hstep⟩ := hreach.cases_tail
    · exact absurd rfl hgood
    obtain ⟨round, p, fmt, hwalk, rfl⟩ := reaches_and_good_iff.mp ⟨hu, good_of_next hstep⟩
    refine ⟨round, p, fmt, hwalk, Option.eq_none_iff_forall_ne_some.mpr fun q hq => ?_⟩
    rw [hstep.unique (next_of_nextOffset hq)] at hgood
    exact hgood rfl

/-! ### The whole function -/

/-- The file starts with a RIFF header of type WAVE. -/
def HasRiffHeader (bytes : List UInt8) : Prop :=
  12 ≤ bytes.length ∧ (.zero : Buffer 4).slice bytes 0 = riffTag ∧
    (.zero : Buffer 4).slice bytes 8 = waveTag

instance : Decidable (HasRiffHeader bytes) := inferInstanceAs (Decidable (_ ∧ _ ∧ _))

theorem readRiff_eq_some (hriff : HasRiffHeader bytes) :
    readRiff stale bytes = some (.goodAt bytes 12) := by
  -- inside the header nothing is stale
  obtain ⟨hlength, hid, hform⟩ := hriff
  have hriff : stale.riff.slice bytes 0 = riffTag :=
    (Buffer.slice_congr (by omega) _ _).trans hid
  have hwave : stale.wave.slice bytes (0 + 4 + 4) = waveTag :=
    (Buffer.slice_congr (by omega) _ _).trans hform
  simp only [readRiff]
  rw [InputStream.readInto_goodAt _ (by omega), InputStream.readInto_goodAt _ (by omega),
    InputStream.readInto_goodAt _ (by omega), if_neg (not_not.mpr hriff),
    if_neg (not_not.mpr hwave)]

/-- Without a whole RIFF header, what is not rejected is a failed stream: stale
bytes may spell the missing tags. -/
theorem failbit_of_readRiff (hriff : ¬ HasRiffHeader bytes) {file : InputStream}
    (hread : readRiff stale bytes = some file) : file.failbit = true := by
  simp only [readRiff] at hread
  split_ifs at hread with hid hform
  obtain rfl := Option.some.inj hread
  -- one of the three reads meets the end, and the stream stays failed from there on
  rcases lt_or_ge bytes.length (0 + 4) with hlt | hfirst
  · apply InputStream.failbit_readInto
    apply InputStream.failbit_readInto
    exact InputStream.failbit_readInto_goodAt _ (by omega) hlt
  rw [InputStream.readInto_goodAt _ hfirst] at hid hform ⊢
  rcases lt_or_ge bytes.length (0 + 4 + 4) with hlt | hsecond
  · apply InputStream.failbit_readInto
    exact InputStream.failbit_readInto_goodAt _ (by omega) hlt
  rw [InputStream.readInto_goodAt _ hsecond] at hform ⊢
  rcases lt_or_ge bytes.length (0 + 4 + 4 + 4) with hlt | hthird
  · exact InputStream.failbit_readInto_goodAt _ (by omega) hlt
  rw [InputStream.readInto_goodAt _ hthird] at hform
  refine absurd ⟨by omega, ?_, ?_⟩ hriff
  · exact (Buffer.slice_congr (by omega) _ _).trans (not_not.mp hid)
  · exact (Buffer.slice_congr (by omega) _ _).trans (not_not.mp hform)

variable {outcome outcome' : Except Fault (List F)}

theorem readsTo_none_iff : ReadsTo F stale none outcome ↔ outcome = .ok [] := by
  simp [ReadsTo, readWavFor, eq_comm]

theorem readsTo_of_not_hasRiffHeader (hriff : ¬ HasRiffHeader bytes) :
    ReadsTo F stale (some bytes) outcome ↔ outcome = .ok [] := by
  cases hread : readRiff stale bytes with
  | none => simp [ReadsTo, readWavFor, hread, eq_comm]
  | some file =>
    have hfail := failbit_of_readRiff hriff hread
    have hdone : scanStep F stale ⟨file, .initial, 0⟩ = .inr (.ok []) := scanStep_of_failbit hfail
    simp only [ReadsTo, readWavFor, Option.bind_some, hread]
    exact Loop.returns_done_iff hdone

theorem readsTo_iff_returns (hriff : HasRiffHeader bytes) :
    ReadsTo F stale (some bytes) outcome ↔
      Loop.Returns (scanStep F stale) (stateAt bytes 0 12 none) outcome := by
  simp only [ReadsTo, readWavFor, Option.bind_some, readRiff_eq_some hriff]
  rfl

theorem ReadsTo.unique {contents : Option (List UInt8)} (h : ReadsTo F stale contents outcome)
    (h' : ReadsTo F stale contents outcome') : outcome = outcome' := by
  cases contents with
  | none => rw [readsTo_none_iff.mp h, readsTo_none_iff.mp h']
  | some bytes =>
    by_cases hriff : HasRiffHeader bytes
    · exact ((readsTo_iff_returns hriff).mp h).unique ((readsTo_iff_returns hriff).mp h')
    · rw [(readsTo_of_not_hasRiffHeader hriff).mp h, (readsTo_of_not_hasRiffHeader hriff).mp h']

/-- `read_wav` ends with the outcome of the offset where the walk ends. -/
theorem readsTo_iff (hriff : HasRiffHeader bytes) :
    ReadsTo F stale (some bytes) outcome ↔
      ∃ round p fmt, walk bytes round = some (p, fmt) ∧ nextOffset bytes p = none ∧
        outcome = stopOutcome F stale bytes round p fmt := by
  rw [readsTo_iff_returns hriff]
  constructor
  · intro hreturns
    obtain ⟨t, hreach, hdone⟩ := Loop.returns_iff_exists_reaches.mp hreturns
    obtain ⟨round, p, fmt, hwalk, hstop⟩ := exists_walk_of_done hreach hdone
    have hoffset := (reaches_of_walk hwalk).returns_iff.mp hreturns
    exact ⟨round, p, fmt, hwalk, hstop, hoffset.unique (returns_of_stop hstop)⟩
  · rintro ⟨round, p, fmt, hwalk, hstop, rfl⟩
    exact (reaches_of_walk hwalk).returns_iff.mpr (returns_of_stop hstop)

/-- A run comes to a cut header and leaves from there. -/
theorem readsTo_of_cut (hriff : HasRiffHeader bytes) (hwalk : walk bytes round = some (p, fmt))
    (hcut : bytes.length < p + 8) (stale : Stale) :
    ReadsTo F stale (some bytes) (stopOutcome F stale bytes round p fmt) :=
  (readsTo_iff hriff).mpr ⟨round, p, fmt, hwalk, nextOffset_eq_none_of_cut hcut, rfl⟩

end WhisperAndroid
