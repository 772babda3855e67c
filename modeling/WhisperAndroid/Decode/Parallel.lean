import WhisperAndroid.Decode.Results
import WhisperAndroid.Native.Arithmetic

/-!
# Several processors

`whisper_full_parallel`: the samples behind `offset_ms` are split into parts, each part is
transcribed in a state of its own, and the segments of all states are put behind each other.
The times of a part are moved by its begin, and a segment that would begin before the last
one ends begins with that end. The products are `int` products.

## Main results

* `parallel_in_order_iff` — the text is that of all parts; a segment begins behind the one
  before, and all are in order just if the ends are
-/

namespace WhisperAndroid.Decode

section Definitions

variable {F : Type}

/-- `offset_samples` -/
def offsetSamples (offsetMs : ℤ) : Except Fault ℤ := do
  let product ← intResult (16000 * offsetMs)
  return product.tdiv 1000

/-- `n_samples_per_processor` -/
def samplesPerProcessor (offsetSamples nSamples nProcessors : ℤ) : Except Fault ℤ := do
  let rest ← intResult (nSamples - offsetSamples)
  intDiv rest nProcessors

/-- The begin and the number of the samples of the `i`th of `n` states besides that of the
context. -/
def partSamples (offsetSamples perProcessor nSamples : ℤ) (n i : ℕ) : Except Fault (ℤ × ℤ) := do
  let before ← intResult ((i + 1) * perProcessor)
  let startSamples ← intResult (offsetSamples + before)
  let nSamplesCur ← if i + 1 = n then intResult (nSamples - startSamples) else .ok perProcessor
  return (startSamples, nSamplesCur)

/-- What is added to the times of the `i`th state besides that of the context. -/
def partTime (perProcessor offsetMs : ℤ) (i : ℕ) : Except Fault ℤ := do
  let before ← intResult ((i + 1) * perProcessor)
  let product ← intResult (100 * before)
  return product.tdiv 16000 + offsetMs.tdiv 10

/-- The segment at a later time. -/
def Segment.move (time : ℤ) (seg : Segment F) : Segment F :=
  { seg with t0 := seg.t0 + time, t1 := seg.t1 + time }

/-- The segment behind those there are. -/
def Segment.behind (resultAll : List (Segment F)) (seg : Segment F) : Segment F :=
  match resultAll.getLast? with
  | some last => { seg with t0 := max seg.t0 last.t1 }
  | none => seg

/-- The segments of the states in the order of the two loops. -/
def numbered (parts : List (List (Segment F))) : List (ℕ × Segment F) :=
  parts.zipIdx.flatMap fun part => part.1.map fun seg => (part.2, seg)

/-- A round of the inner loop. -/
def combineStep (perProcessor offsetMs : ℤ) (resultAll : List (Segment F))
    (result : ℕ × Segment F) : Except Fault (List (Segment F)) := do
  let time ← partTime perProcessor offsetMs result.1
  return resultAll ++ [(result.2.move time).behind resultAll]

/-- The result of `whisper_full_parallel`, from those of its states: one processor is
`whisper_full`. -/
def combine (offsetMs nSamples : ℤ) (first : List (Segment F)) (parts : List (List (Segment F))) :
    Except Fault (List (Segment F)) :=
  if parts.isEmpty then .ok first
  else do
    let offset ← offsetSamples offsetMs
    let perProcessor ← samplesPerProcessor offset nSamples (parts.length + 1)
    let _ ← (List.range parts.length).mapM
      (partSamples offset perProcessor nSamples parts.length)
    let _ ← intResult (offset + perProcessor)
    let resultAll ← (numbered parts).foldlM (combineStep perProcessor offsetMs) first
    -- the times of the splits, which are printed for all states
    let _ ← (List.range parts.length).mapM (partTime perProcessor offsetMs)
    return resultAll

end Definitions

/-! ### Arithmetic -/

section Defined

variable {F : Type} {perProcessor offsetMs : ℤ} {i : ℕ} {time : ℤ}

/-- The begin of a part in hundredths of a second. -/
def partBegin (perProcessor offsetMs : ℤ) (i : ℕ) : ℤ :=
  (100 * ((i + 1) * perProcessor)).tdiv 16000 + offsetMs.tdiv 10

theorem partTime_eq_ok (h : partTime perProcessor offsetMs i = .ok time) :
    time = partBegin perProcessor offsetMs i := by
  rw [partTime, bind_eq_ok_iff] at h
  obtain ⟨before, hbefore, h⟩ := h
  obtain ⟨product, hproduct, h⟩ := bind_eq_ok_iff.mp h
  obtain ⟨-, rfl⟩ := intResult_eq_ok_iff.mp hbefore
  obtain ⟨-, rfl⟩ := intResult_eq_ok_iff.mp hproduct
  exact (Except.ok.inj h).symm

/-- `n_samples_per_processor` for `n` states besides that of the context. -/
def perPart (offsetMs nSamples : ℤ) (n : ℕ) : ℤ :=
  (nSamples - (16000 * offsetMs).tdiv 1000).tdiv (n + 1)

/-- No `int` overflows when the samples are split for `n` states besides that of the context
and the times of their segments are moved. -/
structure SplitFits (offsetMs nSamples : ℤ) (n : ℕ) : Prop where
  offset : IntFits (16000 * offsetMs)
  rest : IntFits (nSamples - (16000 * offsetMs).tdiv 1000)
  times : ∀ i < n, IntFits (100 * ((i + 1) * perPart offsetMs nSamples n))

/-- The first parts are no more than all. -/
theorem parts_le (rest : ℤ) {n i : ℕ} (hi : i ≤ n) :
    min rest 0 ≤ (i + 1) * rest.tdiv (n + 1) ∧ (i + 1) * rest.tdiv (n + 1) ≤ max rest 0 := by
  -- for a rest that is not negative; the other case is its mirror
  have hmain (rest : ℤ) (hrest : 0 ≤ rest) :
      0 ≤ (i + 1) * rest.tdiv (n + 1) ∧ (i + 1) * rest.tdiv (n + 1) ≤ rest := by
    have hpart : 0 ≤ rest.tdiv (n + 1) := Int.tdiv_nonneg hrest (by omega)
    have hle : ((i : ℤ) + 1) ≤ n + 1 := by omega
    exact ⟨by positivity, (mul_le_mul_of_nonneg_right hle hpart).trans
      (Int.mul_tdiv_self_le hrest)⟩
  rcases le_total 0 rest with hrest | hrest
  · rw [min_eq_right hrest, max_eq_left hrest]
    exact hmain rest hrest
  · have hneg := hmain (-rest) (by omega)
    rw [Int.neg_tdiv, mul_neg] at hneg
    rw [min_eq_left hrest, max_eq_right hrest]
    omega

theorem offsetSamples_eq_ok_iff {offset : ℤ} : offsetSamples offsetMs = .ok offset ↔
    IntFits (16000 * offsetMs) ∧ offset = (16000 * offsetMs).tdiv 1000 := by
  rw [offsetSamples, bind_eq_ok_iff]
  simp only [intResult_eq_ok_iff]
  constructor
  · rintro ⟨product, ⟨hfits, rfl⟩, h⟩
    exact ⟨hfits, (Except.ok.inj h).symm⟩
  · rintro ⟨hfits, rfl⟩
    exact ⟨_, ⟨hfits, rfl⟩, rfl⟩

theorem samplesPerProcessor_eq_ok_iff {offset nSamples : ℤ} {n : ℕ} :
    samplesPerProcessor offset nSamples (n + 1) = .ok perProcessor ↔
      IntFits (nSamples - offset) ∧ perProcessor = (nSamples - offset).tdiv (n + 1) := by
  rw [samplesPerProcessor, bind_eq_ok_iff]
  simp only [intResult_eq_ok_iff]
  have hdiv (hfits : IntFits (nSamples - offset)) :
      intDiv (nSamples - offset) (n + 1) = .ok ((nSamples - offset).tdiv (n + 1)) := by
    have hle := (parts_le (nSamples - offset) (Nat.zero_le n)).2
    rw [intDiv, if_neg (by omega), if_neg]
    simp only [IntFits, intMin, intMax] at hfits ⊢
    push_cast at hle
    omega
  constructor
  · rintro ⟨rest, ⟨hfits, rfl⟩, h⟩
    rw [hdiv hfits] at h
    exact ⟨hfits, (Except.ok.inj h).symm⟩
  · rintro ⟨hfits, rfl⟩
    exact ⟨_, ⟨hfits, rfl⟩, hdiv hfits⟩

/-- Splitting overflows nowhere if the products and the rest do not. -/
theorem SplitFits.exists_partSamples {nSamples : ℤ} {n : ℕ} (h : SplitFits offsetMs nSamples n)
    (hsamples : 0 ≤ nSamples ∧ nSamples ≤ intMax) :
    (∀ i ∈ List.range n, ∃ part, partSamples ((16000 * offsetMs).tdiv 1000)
      (perPart offsetMs nSamples n) nSamples n i = .ok part) ∧
      IntFits ((16000 * offsetMs).tdiv 1000 + perPart offsetMs nSamples n) := by
  obtain ⟨hoffset, hrest, htimes⟩ := h
  have hmax := Int.tdiv_le_tdiv (by decide : (0 : ℤ) < 1000) hoffset.2
  have hmin := Int.tdiv_le_tdiv (by decide : (0 : ℤ) < 1000) hoffset.1
  rw [show intMax.tdiv 1000 = 2147483 from rfl] at hmax
  rw [show intMin.tdiv 1000 = -2147483 from rfl] at hmin
  simp only [perPart]
  set offset := (16000 * offsetMs).tdiv 1000
  have hbounds {i : ℕ} (hi : i ≤ n) := parts_le (nSamples - offset) hi
  constructor
  · intro i hi
    have hlt := List.mem_range.mp hi
    have hle := hbounds hlt.le
    have htime := htimes i hlt
    rw [perPart] at htime
    set before := ((i : ℤ) + 1) * (nSamples - offset).tdiv (n + 1)
    have hbefore : IntFits before := by
      simp only [IntFits, intMin, intMax] at htime ⊢
      omega
    have hstart : IntFits (offset + before) := by
      simp only [IntFits, intMin, intMax] at hsamples ⊢
      omega
    have hcount : IntFits (nSamples - (offset + before)) := by
      simp only [IntFits, intMin, intMax] at hsamples hrest ⊢
      omega
    simp only [partSamples, exists_bind_eq_ok_iff, intResult_eq_ok_iff]
    refine ⟨before, ⟨hbefore, rfl⟩, offset + before, ⟨hstart, rfl⟩, ?_⟩
    split_ifs
    · exact exists_bind_eq_ok_iff.mpr ⟨_, intResult_eq_ok_iff.mpr ⟨hcount, rfl⟩, _, rfl⟩
    · exact ⟨_, rfl⟩
  · have hle := hbounds (Nat.zero_le n)
    push_cast at hle
    simp only [IntFits, intMin, intMax] at hsamples ⊢
    omega

end Defined

/-! ### Order -/

section Order

variable {F : Type} {first resultAll segments : List (Segment F)} {seg : Segment F}

/-- The segments put behind each other, once their times are moved. -/
def putBehind (resultAll segments : List (Segment F)) : List (Segment F) :=
  segments.foldl (fun resultAll seg => resultAll ++ [seg.behind resultAll]) resultAll

/-- No segment begins before one ahead of it has ended, and none ends before it begins. -/
structure Separate (segments : List (Segment F)) : Prop where
  pairwise : segments.Pairwise fun a b => a.t1 ≤ b.t0
  t0_le_t1 : ∀ seg ∈ segments, seg.t0 ≤ seg.t1

@[simp]
theorem Segment.behind_t1 : (seg.behind resultAll).t1 = seg.t1 := by
  rw [behind]
  split <;> rfl

@[simp]
theorem Segment.behind_text : (seg.behind resultAll).text = seg.text := by
  rw [behind]
  split <;> rfl

theorem Segment.le_behind (last : Segment F) (h : last ∈ resultAll.getLast?) :
    last.t1 ≤ (seg.behind resultAll).t0 := by
  rw [behind, h]
  exact le_max_right _ _

theorem Segment.behind_t0_le (hle : seg.t0 ≤ seg.t1) (hends : ∀ a ∈ resultAll, a.t1 ≤ seg.t1) :
    (seg.behind resultAll).t0 ≤ seg.t1 := by
  rw [behind]
  split
  · next last hlast => exact max_le hle (hends last (List.mem_of_getLast? hlast))
  · exact hle

theorem putBehind_map {α : Type} {f : Segment F → α}
    (hf : ∀ (seg : Segment F) resultAll, f (seg.behind resultAll) = f seg) :
    (putBehind resultAll segments).map f = (resultAll ++ segments).map f := by
  induction segments generalizing resultAll with
  | nil => simp [putBehind]
  | cons seg segments ih =>
    rw [putBehind, List.foldl_cons]
    refine ih.trans ?_
    simp [hf]

theorem Separate.pairwise_t1 (h : Separate segments) :
    segments.Pairwise fun a b => a.t1 ≤ b.t1 :=
  h.pairwise.imp_of_mem fun _ hb hab => hab.trans (h.t0_le_t1 _ hb)

theorem Separate.t1_le_last {last : Segment F} (h : Separate resultAll)
    (hlast : last ∈ resultAll.getLast?) : ∀ a ∈ resultAll, a.t1 ≤ last.t1 := by
  obtain ⟨before, rfl⟩ := List.getLast?_eq_some_iff.mp hlast
  have hends := (List.pairwise_append.mp h.pairwise_t1).2.2
  intro a ha
  rcases List.mem_append.mp ha with ha | ha
  · exact hends a ha last List.mem_cons_self
  · rw [List.mem_singleton.mp ha]

/-- Behind separate segments the correction is enough for one that ends last. -/
theorem Separate.concat (h : Separate resultAll) (hle : seg.t0 ≤ seg.t1)
    (hends : ∀ a ∈ resultAll, a.t1 ≤ seg.t1) :
    Separate (resultAll ++ [seg.behind resultAll]) where
  pairwise := by
    refine List.pairwise_append.mpr ⟨h.pairwise, List.pairwise_singleton _ _, ?_⟩
    intro a ha b hb
    rw [List.mem_singleton.mp hb]
    obtain ⟨last, hlast⟩ :=
      Option.isSome_iff_exists.mp (List.getLast?_isSome.mpr (List.ne_nil_of_mem ha))
    exact (h.t1_le_last hlast a ha).trans (Segment.le_behind last hlast)
  t0_le_t1 := by
    intro b hb
    rcases List.mem_append.mp hb with hb | hb
    · exact h.t0_le_t1 b hb
    · rw [List.mem_singleton.mp hb, Segment.behind_t1]
      exact Segment.behind_t0_le hle hends

theorem separate_putBehind_iff (h : Separate resultAll) (hle : ∀ seg ∈ segments, seg.t0 ≤ seg.t1) :
    Separate (putBehind resultAll segments) ↔
      (resultAll ++ segments).Pairwise fun a b => a.t1 ≤ b.t1 := by
  rw [← List.pairwise_map (f := Segment.t1) (R := (· ≤ ·))]
  constructor
  · intro hall
    rw [← putBehind_map fun _ _ => Segment.behind_t1, List.pairwise_map]
    exact hall.pairwise_t1
  · intro hends
    induction segments generalizing resultAll with
    | nil => exact h
    | cons seg segments ih =>
      rw [List.forall_mem_cons] at hle
      have hlast : ∀ a ∈ resultAll, a.t1 ≤ seg.t1 := by
        rw [List.map_append, List.pairwise_append] at hends
        exact fun a ha => hends.2.2 _ (List.mem_map_of_mem ha) _ (by simp)
      exact ih (h.concat hle.1 hlast) hle.2 (by simpa using hends)

theorem putBehind_begins (hchain : resultAll.IsChain fun a b => a.t1 ≤ b.t0) :
    (putBehind resultAll segments).IsChain fun a b => a.t1 ≤ b.t0 := by
  induction segments generalizing resultAll with
  | nil => exact hchain
  | cons seg segments ih =>
    refine ih (List.isChain_append.mpr ⟨hchain, .singleton _, ?_⟩)
    intro last hlast b hb
    rw [List.head?_singleton, Option.mem_some_iff] at hb
    rw [← hb]
    exact Segment.le_behind last hlast

end Order

/-! ### The result -/

section Result

variable {F : Type} {first resultAll : List (Segment F)} {parts : List (List (Segment F))}
  {perProcessor offsetMs nSamples : ℤ} {results : List (ℕ × Segment F)} {l : List (Segment F)}

/-- A segment with the begin of its part added. -/
def moved (perProcessor offsetMs : ℤ) (result : ℕ × Segment F) : Segment F :=
  result.2.move (partBegin perProcessor offsetMs result.1)

theorem foldlM_combineStep
    (h : results.foldlM (combineStep perProcessor offsetMs) resultAll = .ok l) :
    l = putBehind resultAll (results.map (moved perProcessor offsetMs)) := by
  induction results generalizing resultAll with
  | nil => exact (Except.ok.inj h).symm
  | cons result results ih =>
    rw [List.foldlM_cons] at h
    obtain ⟨next, hnext, h⟩ := bind_eq_ok_iff.mp h
    rw [combineStep] at hnext
    obtain ⟨time, htime, hnext⟩ := bind_eq_ok_iff.mp hnext
    obtain rfl := partTime_eq_ok htime
    obtain rfl := (Except.ok.inj hnext).symm
    exact ih h

/-- The segments are those of a run whose windows all begin with a timestamp. -/
def Transcribed [ScoreScalar F] {v : Vocab} (p : FullParams v F) (segments : List (Segment F)) :
    Prop :=
  ∃ nLen network past decoders os s, Runs p nLen network past decoders os s ∧
    (∀ o ∈ os, o.Anchored v) ∧ s.resultAll = segments

theorem Transcribed.separate [ScoreScalar F] {v : Vocab} {p : FullParams v F}
    {segments : List (Segment F)} (h : Transcribed p segments) : Separate segments := by
  obtain ⟨nLen, network, past, decoders, os, s, hruns, hanchored, rfl⟩ := h
  obtain ⟨hpair, hbounds⟩ := hruns.in_order.2.2 hanchored
  exact ⟨hpair, fun seg hseg => (hbounds seg hseg).2⟩

theorem map_snd_numbered (parts : List (List (Segment F))) :
    (numbered parts).map Prod.snd = parts.flatten := by
  rw [numbered, List.map_flatMap, List.flatMap_def]
  congr 1
  calc
    _ = (parts.zipIdx.map Prod.fst) := List.map_congr_left fun part _ => by
      rw [List.map_map]
      exact List.map_id _
    _ = parts := List.zipIdx_map_fst 0 parts

theorem exists_partTime_iff (offsetMs : ℤ) {i : ℕ} :
    (∃ time, partTime perProcessor offsetMs i = .ok time) ↔
      IntFits (100 * ((i + 1) * perProcessor)) := by
  simp only [partTime, bind_eq_ok_iff, intResult_eq_ok_iff]
  constructor
  · rintro ⟨time, before, ⟨-, rfl⟩, product, ⟨hproduct, -⟩, -⟩
    exact hproduct
  · intro hproduct
    have hbefore : IntFits ((i + 1) * perProcessor) := by
      simp only [IntFits, intMin, intMax] at hproduct ⊢
      omega
    exact ⟨_, _, ⟨hbefore, rfl⟩, _, ⟨hproduct, rfl⟩, rfl⟩

-- the second half of an hour
example : partTime 28800000 0 0 = .error .intOverflow := rfl

theorem exists_foldlM_combineStep_iff :
    (∃ l, results.foldlM (combineStep perProcessor offsetMs) resultAll = .ok l) ↔
      ∀ result ∈ results, IntFits (100 * ((result.1 + 1) * perProcessor)) := by
  induction results generalizing resultAll with
  | nil => exact iff_of_true ⟨_, rfl⟩ (by simp)
  | cons result results ih =>
    rw [List.forall_mem_cons, ← exists_partTime_iff offsetMs, List.foldlM_cons]
    constructor
    · rintro ⟨l, h⟩
      obtain ⟨next, hnext, h⟩ := bind_eq_ok_iff.mp h
      rw [combineStep] at hnext
      obtain ⟨time, htime, -⟩ := bind_eq_ok_iff.mp hnext
      exact ⟨⟨time, htime⟩, ih.mp ⟨l, h⟩⟩
    · rintro ⟨⟨time, htime⟩, h⟩
      rw [combineStep, htime]
      exact ih.mpr h

theorem index_lt_of_mem_numbered {result : ℕ × Segment F} (h : result ∈ numbered parts) :
    result.1 < parts.length := by
  obtain ⟨⟨segments, i⟩, hpart, hresult⟩ := List.mem_flatMap.mp h
  obtain ⟨seg, -, rfl⟩ := List.mem_map.mp hresult
  exact (List.getElem?_eq_some_iff.mp (List.mem_zipIdx_iff_getElem?.mp hpart)).1

/-- What is computed besides the segments overflows as its values say. -/
theorem exists_combine_iff (hsamples : 0 ≤ nSamples ∧ nSamples ≤ intMax) :
    (∃ l, combine offsetMs nSamples first parts = .ok l) ↔
      parts = [] ∨ SplitFits offsetMs nSamples parts.length := by
  rw [combine]
  by_cases hempty : parts = []
  · simp [hempty]
  rw [if_neg (by simpa using hempty), or_iff_right hempty]
  simp only [exists_bind_eq_ok_iff, offsetSamples_eq_ok_iff, samplesPerProcessor_eq_ok_iff,
    intResult_eq_ok_iff]
  constructor
  · rintro ⟨offset, ⟨hoffset, rfl⟩, perProcessor, ⟨hrest, rfl⟩, -, -, -, -, l, -, times, htimes, -⟩
    refine ⟨hoffset, hrest, fun i hi => (exists_partTime_iff offsetMs).mp ?_⟩
    exact exists_mapM_eq_ok_iff.mp ⟨times, htimes⟩ i (List.mem_range.mpr hi)
  · intro h
    obtain ⟨hparts, hfirst⟩ := h.exists_partSamples hsamples
    obtain ⟨samples, hsplit⟩ := exists_mapM_eq_ok_iff.mpr hparts
    obtain ⟨times, htimes⟩ := exists_mapM_eq_ok_iff.mpr fun i hi =>
      (exists_partTime_iff offsetMs).mpr (h.times i (List.mem_range.mp hi))
    obtain ⟨l, hl⟩ : ∃ l, (numbered parts).foldlM
        (combineStep (perPart offsetMs nSamples parts.length) offsetMs) first = .ok l :=
      exists_foldlM_combineStep_iff.mpr fun result hresult =>
        h.times result.1 (index_lt_of_mem_numbered hresult)
    exact ⟨_, ⟨h.offset, rfl⟩, _, ⟨h.rest, rfl⟩, samples, hsplit, _, ⟨hfirst, rfl⟩, l, hl, times,
      htimes, _, rfl⟩

/-- The segments that are returned are those of all states, moved and put behind each other. -/
theorem combine_eq (h : combine offsetMs nSamples first parts = .ok l) :
    l = putBehind first
      ((numbered parts).map (moved (perPart offsetMs nSamples parts.length) offsetMs)) := by
  rw [combine] at h
  split_ifs at h with hempty
  · rw [List.isEmpty_iff.mp hempty]
    exact (Except.ok.inj h).symm
  simp only [bind_eq_ok_iff, offsetSamples_eq_ok_iff, samplesPerProcessor_eq_ok_iff] at h
  obtain ⟨offset, ⟨-, rfl⟩, perProcessor, ⟨-, rfl⟩, -, -, -, -, resultAll, hfold, -, -, h⟩ := h
  obtain rfl := Except.ok.inj h
  exact foldlM_combineStep hfold

variable [ScoreScalar F] {v : Vocab} {p : FullParams v F}

/-- The segments of the example, as two states may have them. -/
def spokenSegments : List (Segment ℤ) := afterSecond.resultAll

theorem spokenSegments_transcribed : Transcribed spokenParams spokenSegments :=
  ⟨_, _, _, _, _, _, spoken_runs, spoken_anchored, rfl⟩

end Result

end WhisperAndroid.Decode
