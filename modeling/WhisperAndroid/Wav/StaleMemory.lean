import WhisperAndroid.Wav.DefinedArithmetic

/-!
# Results that depend on stale memory

The chunk loop tests its stream only at the top of a round, so the round in which a file
ends still acts on the chunk header that it has read in part. Where the bytes left of the
file can begin the header of a `data` chunk, the rest of that header is what the memory
held before.

## Main results

* `stopOutcome_of_harmless` — other bytes left have no effect
* `dependsOnFileAlone_iff` — the files whose result is their own
-/

namespace WhisperAndroid

variable {F : Type} [FloatArith F] {stale : Stale} {bytes : List UInt8} {round p : ℕ}
  {fmt : Option ℕ}

/-- The file ends inside its RIFF header, or inside or just before the chunk header that
the scan comes to. -/
def EndsInHeader (bytes : List UInt8) : Prop :=
  bytes.length < 12 ∨ HasRiffHeader bytes ∧
    ∃ round p fmt, walk bytes round = some (p, fmt) ∧ p ≤ bytes.length ∧ bytes.length < p + 8

variable (F) in
/-- What `read_wav` does on the file is the same for all stale memory. -/
structure DependsOnFileAlone (bytes : List UInt8) : Prop where
  independent : ∀ (stale stale' : Stale) (outcome : Except Fault (List F)),
    ReadsTo F stale (some bytes) outcome ↔ ReadsTo F stale' (some bytes) outcome
  /-- A file that ends in a header is read as the empty vector. -/
  cut : EndsInHeader bytes → ∀ stale : Stale, ReadsTo F stale (some bytes) (.ok [])

/-- The bytes left of a file begin neither the header of a `data` chunk, nor that of a
`fmt ` chunk of one of the sixteen smallest sizes. -/
def HarmlessRest (rest : List UInt8) : Prop :=
  ∀ size : Buffer 4, ¬ rest <+: List.ofFn dataTag ++ List.ofFn size ∧
    (size.toInt < intMin + 16 → ¬ rest <+: List.ofFn fmtTag ++ List.ofFn size)

/-! ### Harmless ends -/

/-- A header that is cut off goes on with stale bytes. -/
theorem drop_prefix_header (stale : Stale) (round : ℕ) (hcut : bytes.length < p + 8) :
    bytes.drop p <+: List.ofFn (headerId stale bytes round p) ++
      List.ofFn ((stale.chunkSize round).slice bytes (p + 4)) :=
  Buffer.drop_prefix_slices _ _ hcut.le

theorem stopOutcome_of_harmless (hharmless : HarmlessRest (bytes.drop p))
    (hcut : bytes.length < p + 8) : stopOutcome F stale bytes round p fmt = .ok [] := by
  obtain ⟨hdata, hfmt⟩ := hharmless ((stale.chunkSize round).slice bytes (p + 4))
  have hbegins := drop_prefix_header stale round hcut
  -- the header that is read goes on as the bytes left do, so it is not a harmful one
  by_cases hid : headerId stale bytes round p = fmtTag
  · rw [hid] at hbegins
    exact (stopOutcome_of_fmt_iff hid).mpr ⟨not_lt.mp fun hsmall => hfmt hsmall hbegins, rfl⟩
  · have hid' : headerId stale bytes round p ≠ dataTag := by
      intro hid'
      rw [hid'] at hbegins
      exact hdata hbegins
    rw [stopOutcome, if_neg hid, if_neg hid']

/-! ### Harmful ends -/

/-- Memory that holds the given chunk header in every round. -/
def Stale.ofHeader (id size : Buffer 4) : Stale :=
  { Stale.zero with
    chunkId := fun _ => id
    chunkSize := fun _ => size }

/-- Bytes that begin a header are completed to it by memory that holds it. -/
theorem header_of_prefix (round : ℕ) {id size : Buffer 4}
    (hbegins : bytes.drop p <+: List.ofFn id ++ List.ofFn size) :
    headerId (.ofHeader id size) bytes round p = id ∧
      headerSize (.ofHeader id size) bytes round p = size.toInt := by
  constructor
  · exact Buffer.slice_eq_self_of_prefix id
      (show _ <+: ([] : List UInt8) ++ (_ ++ List.ofFn size) from hbegins)
  · have hbegins' : bytes.drop p <+: List.ofFn id ++ (List.ofFn size ++ []) := by
      rwa [List.append_nil]
    have hsize := Buffer.slice_eq_self_of_prefix size hbegins'
    rw [List.length_ofFn] at hsize
    exact congrArg Buffer.toInt hsize

theorem toNat_four (b : Buffer 4) :
    b.toNat = (b 0).toNat + 256 * ((b 1).toNat + 256 * ((b 2).toNat + 256 * (b 3).toNat)) := by
  simp [Buffer.toNat, List.ofFn_succ, Nat.ofDigits_cons]

/-- The last byte of a chunk header is not among the bytes that a cut leaves. -/
theorem prefix_of_last_ne {id size : Buffer 4} {rest : List UInt8} (hlength : rest.length < 8)
    (hbegins : rest <+: List.ofFn id ++ List.ofFn size) (last : UInt8) :
    rest <+: List.ofFn id ++ List.ofFn ![size 0, size 1, size 2, last] := by
  have hsplit : ∀ b : Buffer 4, List.ofFn id ++ List.ofFn b =
      (List.ofFn id ++ [b 0, b 1, b 2]) ++ [b 3] := fun b => by
    simp [List.ofFn_succ]
  rw [hsplit] at hbegins ⊢
  have hfront : rest <+: List.ofFn id ++ [size 0, size 1, size 2] := by
    refine List.prefix_of_prefix_length_le hbegins (List.prefix_append _ _) ?_
    simp only [List.length_append, List.length_ofFn, List.length_cons, List.length_nil]
    omega
  exact hfront.trans (List.prefix_append _ _)

/-- The last byte alone makes a size far too small. -/
theorem toInt_lt_of_last (b₀ b₁ b₂ : UInt8) :
    Buffer.toInt ![b₀, b₁, b₂, 0x80] < -2 ^ 30 := by
  have h₀ := b₀.toNat_lt
  have h₁ := b₁.toNat_lt
  have h₂ := b₂.toNat_lt
  simp only [Buffer.toInt, toNat_four, Matrix.cons_val]
  split_ifs with hhalf
  · simp at hhalf
    omega
  · simp
    omega

/-- Another one makes it far too large. -/
theorem lt_toInt_of_last (b₀ b₁ b₂ : UInt8) :
    2 ^ 30 < Buffer.toInt ![b₀, b₁, b₂, 0x7f] := by
  have h₀ := b₀.toNat_lt
  have h₁ := b₁.toNat_lt
  have h₂ := b₂.toNat_lt
  simp only [Buffer.toInt, toNat_four, Matrix.cons_val]
  split_ifs with hhalf
  · simp
    omega
  · simp at hhalf
    omega

/-- Bytes that begin a `data` header begin one of a size for which the branch faults: the
last byte of the size, which is not in the file, decides on its sign. -/
theorem exists_size_not_countsDefined (format : Format) (file : InputStream) {rest : List UInt8}
    (hlength : rest.length < 8) {size : Buffer 4}
    (hbegins : rest <+: List.ofFn dataTag ++ List.ofFn size) :
    ∃ size' : Buffer 4, rest <+: List.ofFn dataTag ++ List.ofFn size' ∧
      ¬ (⟨format, size'.toInt, file⟩ : DataPoint).CountsDefined := by
  have hbits := Buffer.toInt_lt format.bitsPerSample
  have hbits' := Buffer.neg_le_toInt format.bitsPerSample
  -- a size of the other sign, far from zero, gives a negative count
  rcases lt_trichotomy (format.bitsPerSample.toInt.tdiv 8) 0 with hneg | hzero | hpos
  · refine ⟨_, prefix_of_last_ne hlength hbegins 0x7f, fun hcounts => ?_⟩
    have hnonneg := hcounts.numSamples_nonneg
    simp only [DataPoint.numSamples, DataPoint.bytesPerSample] at hnonneg
    rw [tdiv_nonneg_iff_of_neg hneg] at hnonneg
    have hlarge := lt_toInt_of_last (size 0) (size 1) (size 2)
    have hwidth : -(2 ^ 13) ≤ format.bitsPerSample.toInt.tdiv 8 := by grind
    omega
  · exact ⟨size, hbegins, fun hcounts => hcounts.bytesPerSample_ne_zero hzero⟩
  · refine ⟨_, prefix_of_last_ne hlength hbegins 0x80, fun hcounts => ?_⟩
    have hnonneg := hcounts.numSamples_nonneg
    simp only [DataPoint.numSamples, DataPoint.bytesPerSample] at hnonneg
    rw [tdiv_nonneg_iff_of_pos hpos] at hnonneg
    have hsmall := toInt_lt_of_last (size 0) (size 1) (size 2)
    have hwidth : format.bitsPerSample.toInt.tdiv 8 ≤ 2 ^ 13 := by grind
    omega

/-- Where stale memory cannot matter at a cut header, the bytes left are harmless. -/
theorem harmlessRest_of_empty (hcut : bytes.length < p + 8)
    (hempty : ∀ stale : Stale, stopOutcome F stale bytes round p fmt = .ok []) :
    HarmlessRest (bytes.drop p) := by
  intro size
  constructor
  · intro hbegins
    have hlength : (bytes.drop p).length < 8 := by
      rw [List.length_drop]
      omega
    -- memory that completes the bytes to a header with a fault
    obtain ⟨size', hbegins', hfault⟩ := exists_size_not_countsDefined (declaredFormat bytes fmt)
      (behindHeader bytes p) hlength hbegins
    obtain ⟨hid, hsize⟩ := header_of_prefix round hbegins'
    have hrun := hempty (.ofHeader dataTag size')
    rw [stopOutcome_of_data hid, dataPointAt, hsize] at hrun
    exact hfault (DataPoint.countsDefined_of_run_eq_ok hrun)
  · intro hsmall hbegins
    obtain ⟨hid, hsize⟩ := header_of_prefix round hbegins
    have hmin := ((stopOutcome_of_fmt_iff hid).mp (hempty (.ofHeader fmtTag size))).1
    rw [hsize] at hmin
    exact absurd hsmall (not_lt.mpr hmin)

/-! ### Whole files -/

/-- A whole header leaves nothing to stale memory. -/
theorem stopOutcome_congr (hheader : p + 8 ≤ bytes.length) (stale stale' : Stale) :
    stopOutcome F stale bytes round p fmt = stopOutcome F stale' bytes round p fmt := by
  simp only [stopOutcome, headerId_eq hheader, headerSize_eq hheader]

theorem DependsOnFileAlone.stopOutcome_eq (h : DependsOnFileAlone F bytes)
    (hriff : HasRiffHeader bytes) (hwalk : walk bytes round = some (p, fmt))
    (hcut : bytes.length < p + 8) (stale : Stale) :
    stopOutcome F stale bytes round p fmt = .ok [] := by
  have hends := readsTo_of_cut (F := F) hriff hwalk hcut stale
  rcases le_or_gt p bytes.length with hp | hp
  · have hin : EndsInHeader bytes := .inr ⟨hriff, round, p, fmt, hwalk, hp, hcut⟩
    exact hends.unique (h.cut hin stale)
  -- the file does not end in this header, but it is read like that of cleared memory
  · have hzero := readsTo_of_cut (F := F) hriff hwalk hcut .zero
    rw [stopOutcome_zero hp.le, h.independent .zero stale] at hzero
    exact hends.unique hzero

/-- The result of `read_wav` is that of the file alone exactly when the scan never comes
to a cut header whose bytes may begin one that matters. -/
theorem dependsOnFileAlone_iff (bytes : List UInt8) : DependsOnFileAlone F bytes ↔
    (HasRiffHeader bytes → ∀ round p fmt, walk bytes round = some (p, fmt) →
      bytes.length < p + 8 → HarmlessRest (bytes.drop p)) := by
  constructor
  · intro hdepends hriff round p fmt hwalk hcut
    exact harmlessRest_of_empty hcut fun stale => hdepends.stopOutcome_eq hriff hwalk hcut stale
  · intro hharmless
    refine ⟨fun stale stale' outcome => ?_, fun hends stale => ?_⟩
    · by_cases hriff : HasRiffHeader bytes
      swap
      · rw [readsTo_of_not_hasRiffHeader hriff, readsTo_of_not_hasRiffHeader hriff]
      rw [readsTo_iff hriff, readsTo_iff hriff]
      -- the walk does not see stale memory, so it is left to compare where it ends
      refine exists_congr fun round => exists_congr fun p => exists_congr fun fmt =>
        and_congr_right fun hwalk => ?_
      have hsame : stopOutcome F stale bytes round p fmt =
          stopOutcome F stale' bytes round p fmt := by
        rcases lt_or_ge bytes.length (p + 8) with hcut | hheader
        · have hrest := hharmless hriff round p fmt hwalk hcut
          rw [stopOutcome_of_harmless hrest hcut, stopOutcome_of_harmless hrest hcut]
        · exact stopOutcome_congr hheader stale stale'
      rw [hsame]
    · rcases hends with hshort | ⟨hriff, round, p, fmt, hwalk, -, hcut⟩
      · exact (readsTo_of_not_hasRiffHeader fun hriff => absurd hriff.1 (by omega)).mpr rfl
      · have hend := readsTo_of_cut (F := F) hriff hwalk hcut stale
        rwa [stopOutcome_of_harmless (hharmless hriff round p fmt hwalk hcut) hcut] at hend

/-- A mono file at 16 kHz, cut behind the identifier of its `data` chunk. -/
def cutData : List UInt8 :=
  [0x52, 0x49, 0x46, 0x46, 52, 0, 0, 0, 0x57, 0x41, 0x56, 0x45,
    0x66, 0x6d, 0x74, 0x20, 16, 0, 0, 0,
    1, 0, 1, 0, 0x80, 0x3e, 0, 0, 0, 0x7d, 0, 0, 2, 0, 16, 0,
    0x64, 0x61, 0x74, 0x61]

/-- Memory that keeps the size of the `fmt ` chunk for the next round. -/
def keepsFmtSize : Stale :=
  { Stale.zero with chunkSize := fun _ => .ofNat 16 }

/-- Cleared memory gives the empty vector, and that of the round before eight samples. -/
theorem cutData_depends : ¬ DependsOnFileAlone ℚ cutData ∧
    ReadsTo ℚ .zero (some cutData) (.ok []) ∧
    ∃ v, ReadsTo ℚ keepsFmtSize (some cutData) (.ok v) ∧ v.length = 8 := by
  have hriff : HasRiffHeader cutData := by decide
  have hends : ∀ stale : Stale,
      ReadsTo ℚ stale (some cutData) (stopOutcome ℚ stale cutData 1 36 (some 12)) := fun stale =>
    (readsTo_iff hriff).mpr ⟨1, 36, some 12, by decide, by decide, rfl⟩
  -- eight samples are allocated, and the read of sixteen bytes gets none
  have hkept : ReadsTo ℚ keepsFmtSize (some cutData) (.ok (DataPoint.audio ℚ
      (dataPointAt keepsFmtSize cutData 1 36 (some 12)))) := hends keepsFmtSize
  have hlength : (DataPoint.audio ℚ
      (dataPointAt keepsFmtSize cutData 1 36 (some 12))).length = 8 := by
    rw [DataPoint.length_audio]
    decide
  refine ⟨fun hdepends => ?_, hends .zero, _, hkept, hlength⟩
  have hempty := hdepends.cut (.inr ⟨hriff, 1, 36, some 12, by decide, by decide, by decide⟩)
    keepsFmtSize
  rw [Except.ok.inj (hkept.unique hempty)] at hlength
  cases hlength

end WhisperAndroid
