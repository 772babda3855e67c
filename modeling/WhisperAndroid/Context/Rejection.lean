import WhisperAndroid.Context.Isolation
import WhisperAndroid.Wav.DefinedArithmetic

/-!
# Files that cannot be decoded

`read_wav` returns the empty vector for a file that it gives up on, `readWavFile` makes an
empty array of it, and `transcribe` throws only on a missing array. So no file that is
given up on is reported: the call goes on to transcribe no samples.

## Main results

* `rejected_iff` — the files that are given up on, in terms of their chunks
* `reportsRejection_iff` — the files for which a call reports what it should
-/

namespace WhisperAndroid

variable {F D : Type} [FloatArith F] {stale : Stale} {bytes : List UInt8}

/-! ### Rejected files -/

variable (F) in
/-- `read_wav` gives up: the file cannot be opened, or is not a RIFF file of type WAVE, or
the chunk loop has left without a `data` chunk. -/
def Rejected (stale : Stale) (contents : Option (List UInt8)) : Prop :=
  contents.bind (readRiff stale) = none ∨
    ∃ file s, contents.bind (readRiff stale) = some file ∧
      Loop.Reaches (scanStep F stale) ⟨file, .initial, 0⟩ s ∧ s.file.good = false

/-- A file that is given up on is read as the empty vector. -/
theorem Rejected.readsTo {contents : Option (List UInt8)} (h : Rejected F stale contents) :
    ReadsTo F stale contents (.ok []) := by
  rcases h with hnone | ⟨file, s, hfile, hreach, hbad⟩
  · exact ⟨0, by simp [readWavFor, hnone]⟩
  · have hdone : scanStep F stale s = .inr (.ok []) := by
      rw [scanStep, if_neg (by simp [hbad])]
    obtain ⟨rounds, hrun⟩ := hreach.returns_iff.mpr (Loop.returns_of_done hdone)
    exact ⟨rounds, by simp only [readWavFor, hfile, hrun]⟩

/-- The loop goes round from an offset unless it is inside a `data` chunk, or subtracts
from one of the sixteen smallest sizes of a `fmt ` chunk. -/
theorem exists_next_iff {round p : ℕ} {fmt : Option ℕ} :
    (∃ s, Loop.Next (scanStep F stale) (stateAt bytes round p fmt) s) ↔
      headerId stale bytes round p ≠ dataTag ∧
        (headerId stale bytes round p = fmtTag →
          intMin + 16 ≤ headerSize stale bytes round p) := by
  -- the three branches of the loop body; only that of `data` always leaves
  simp only [Loop.next_iff, scanStep_stateAt]
  split_ifs with hid hdata
  · have hne : fmtTag ≠ dataTag := by decide
    cases hsub : intSub (headerSize stale bytes round p) 16 with
    | ok restOfFmt => simp [hne, hid, (intSub_headerSize_eq_ok_iff.mp hsub).1]
    | error fault =>
      have hsmall : ¬ intMin + 16 ≤ headerSize stale bytes round p := by
        intro hmin
        rw [intSub_headerSize_eq_ok_iff.mpr ⟨hmin, rfl⟩] at hsub
        cases hsub
      simp [hid, hsmall]
  · simp [hdata]
  · simp [hid, hdata]

/-- A RIFF file is given up on just if its scan ends, and goes round there once more. -/
theorem rejected_iff : Rejected F stale (some bytes) ↔
    (HasRiffHeader bytes → ∃ round p fmt, walk bytes round = some (p, fmt) ∧
      nextOffset bytes p = none ∧ headerId stale bytes round p ≠ dataTag ∧
      (headerId stale bytes round p = fmtTag →
        intMin + 16 ≤ headerSize stale bytes round p)) := by
  by_cases hriff : HasRiffHeader bytes
  swap
  · refine iff_of_true ?_ (fun h => absurd h hriff)
    cases hread : readRiff stale bytes with
    | none => exact .inl hread
    | some file =>
      have hbad := InputStream.good_eq_false_of_failbit (failbit_of_readRiff hriff hread)
      exact .inr ⟨file, _, hread, .refl, hbad⟩
  have hread : (some bytes).bind (readRiff stale) = some (.goodAt bytes 12) :=
    readRiff_eq_some hriff
  simp only [Rejected, hread, hriff, true_imp_iff, reduceCtorEq, false_or, Option.some_inj]
  constructor
  · rintro ⟨_, s, rfl, hreach, hbad⟩
    -- the stream failed in the last round, which started where the walk ends
    obtain rfl | ⟨u, hu, hstep⟩ := Relation.ReflTransGen.cases_tail hreach
    · cases hbad
    obtain ⟨round, p, fmt, hwalk, rfl⟩ := reaches_and_good_iff.mp ⟨hu, good_of_next hstep⟩
    refine ⟨round, p, fmt, hwalk, Option.eq_none_iff_forall_ne_some.mpr fun q hq => ?_,
      exists_next_iff.mp ⟨s, hstep⟩⟩
    rw [hstep.unique (next_of_nextOffset hq)] at hbad
    cases hbad
  · intro ⟨round, p, fmt, hwalk, hstop, hround⟩
    obtain ⟨s, hstep⟩ := exists_next_iff (F := F).mpr hround
    exact ⟨_, s, rfl, .tail (reaches_of_walk hwalk) hstep,
      InputStream.good_eq_false_of_failbit (failbit_of_next hstop hstep)⟩

/-! ### Calls on a file -/

/-- The call hands samples to `fullTranscribe`. -/
def Invocation.CallsFullTranscribe (i : Invocation F) : Prop :=
  ∃ audioData, i.Fetches (.ok audioData)

variable (F) in
/-- A call on the file reports that it cannot be decoded just if it cannot. -/
structure ReportsRejection (stale : Stale) (file : AudioFile) : Prop where
  /-- For a file that is given up on, the call throws. -/
  throws : Rejected F stale file.contents → ∀ (D : Type) (model : Model F D) (s : WhisperState D),
    ∃ e t, Completes model s ⟨⟨.file file, stale⟩, .error e⟩ t
  /-- It does so before it transcribes anything. -/
  not_transcribed : Rejected F stale file.contents →
    ¬ (⟨.file file, stale⟩ : Invocation F).CallsFullTranscribe
  /-- A file with samples is not called an illegal argument. -/
  decoded : ∀ x audioData, ReadsTo F stale file.contents (.ok (x :: audioData)) →
    ∀ (D : Type) (model : Model F D) (s t : WhisperState D)
      (outcome : Except KotlinException CString),
      Completes model s ⟨⟨.file file, stale⟩, outcome⟩ t →
      ∀ message, outcome ≠ .error (.illegalArgument message)

omit [FloatArith F] in
/-- Behind the reader nothing is called an illegal argument. -/
theorem outcomeOf_ne_illegalArgument (recognised : ℤ × List CString) (message : String) :
    outcomeOf recognised ≠ .error (.illegalArgument message) := by
  unfold outcomeOf
  split_ifs <;> simp

/-- An existing `.wav` file is called an illegal argument in no case. -/
theorem Completes.ne_illegalArgument {model : Model F D} {s t : WhisperState D} {file : AudioFile}
    {outcome : Except KotlinException CString} (hexists : file.fileExists = true)
    (hname : file.endsWithWav = true)
    (hcall : Completes model s ⟨⟨.file file, stale⟩, outcome⟩ t) (message : String) :
    outcome ≠ .error (.illegalArgument message) := by
  obtain ⟨fetched, hfetch, houtcome⟩ := hcall
  obtain ⟨audio, -, rfl⟩ := (fetches_file_iff hexists hname).mp hfetch
  rw [transcribe_ok] at houtcome
  have hsame : outcomeOf _ = outcome := (Prod.mk.inj houtcome).1
  rw [← hsame]
  exact outcomeOf_ne_illegalArgument _ message

/-- A call on a file that is given up on transcribes no samples. -/
theorem Rejected.fetches {file : AudioFile} (h : Rejected F stale file.contents)
    (hexists : file.fileExists = true) (hname : file.endsWithWav = true) :
    (⟨.file file, stale⟩ : Invocation F).Fetches (.ok []) :=
  (fetches_file_iff hexists hname).mpr ⟨[], h.readsTo, rfl⟩

/-- A call on an existing `.wav` file reports what it should just if there is nothing to
report: the file can be opened and has a RIFF header, and its scan, if it ends, does so at a
`data` chunk, or on one of the sixteen smallest sizes of a `fmt ` chunk. -/
theorem reportsRejection_iff (stale : Stale) {file : AudioFile} (hexists : file.fileExists = true)
    (hname : file.endsWithWav = true) :
    ReportsRejection F stale file ↔
      ∃ bytes, file.contents = some bytes ∧ HasRiffHeader bytes ∧
        ∀ round p fmt, walk bytes round = some (p, fmt) → nextOffset bytes p = none →
          headerId stale bytes round p = dataTag ∨
            headerId stale bytes round p = fmtTag ∧
              headerSize stale bytes round p < intMin + 16 := by
  -- nothing is ever reported, so all depends on whether there is something to report
  have hreports : ReportsRejection F stale file ↔ ¬ Rejected F stale file.contents := by
    constructor
    · intro hreports hrejected
      exact hreports.not_transcribed hrejected ⟨[], hrejected.fetches hexists hname⟩
    · intro hrejected
      exact ⟨fun h => absurd h hrejected, fun h => absurd h hrejected,
        fun _ _ _ _ _ _ _ _ hcall => hcall.ne_illegalArgument hexists hname⟩
  rw [hreports]
  cases hcontents : file.contents with
  | none => simp [Rejected]
  | some bytes =>
    rw [rejected_iff]
    push Not
    simp only [Option.some_inj, exists_eq_left']
    refine and_congr_right fun _ => forall_congr' fun round => forall_congr' fun p =>
      forall_congr' fun fmt => imp_congr_right fun _ => imp_congr_right fun _ => ?_
    exact or_iff_not_imp_left.symm

/-- A text file under the name of a recording. -/
def textFile : AudioFile :=
  ⟨true, "/sdcard/notes.wav", "notes.wav", some [0x6e, 0x6f, 0x74, 0x65, 0x73]⟩

theorem reportsRejection_iff_textFile : ReportsRejection ℚ .zero textFile ↔
    ∃ bytes, textFile.contents = some bytes ∧ HasRiffHeader bytes ∧
      ∀ round p fmt, walk bytes round = some (p, fmt) → nextOffset bytes p = none →
        headerId .zero bytes round p = dataTag ∨
          headerId .zero bytes round p = fmtTag ∧
            headerSize .zero bytes round p < intMin + 16 :=
  reportsRejection_iff .zero (rfl : textFile.fileExists = true) (by decide)

/-- It is given up on, and a fresh context answers it with the empty text. -/
theorem textFile_transcribed : Rejected ℚ .zero textFile.contents ∧
    ¬ ReportsRejection ℚ .zero textFile ∧
    ∃ t, Completes (constantModel ℚ) (.fresh ()) ⟨⟨.file textFile, .zero⟩, .ok []⟩ t := by
  have hrejected : Rejected ℚ .zero textFile.contents :=
    rejected_iff.mpr fun hriff => absurd hriff (by decide)
  have hfetch : (⟨.file textFile, .zero⟩ : Invocation ℚ).Fetches (.ok []) :=
    hrejected.fetches rfl (by decide)
  exact ⟨hrejected, fun hreports => hreports.not_transcribed hrejected ⟨[], hfetch⟩,
    _, .ok [], hfetch, rfl⟩

end WhisperAndroid
