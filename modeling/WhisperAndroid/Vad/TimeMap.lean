import WhisperAndroid.Decode.Results
import WhisperAndroid.Vad.Filter

/-!
# Times of the audio

With voice activity detection the times of the segments are times of the filtered samples.
`map_processed_to_original_time` looks them up in the table of times, with a binary search and
an interpolation, and the end of a segment is moved behind its begin.

## Main results

* `mapTime_eq_line` — looking up a time is following the line through the table
* `vad_times_in_order` — the reported times follow each other in the audio
-/

namespace WhisperAndroid.Vad

open Decode

/-- `map_processed_to_original_time`. The times of the table increase, so that the first one
that is not less is the one that `std::lower_bound` finds. -/
def mapProcessedToOriginalTime (time : ℤ) : List Knot → ℤ
  | [] => time
  | front :: rest =>
    let back := rest.getLastD front
    if time ≤ front.arg then front.val
    else if back.arg ≤ time then back.val
    else
      let upper := ((front :: rest).dropWhile (·.arg < time)).headD back
      let lower := ((front :: rest).takeWhile (·.arg < time)).getLastD front
      if upper.arg = time then upper.val
      else
        let processedDiff := upper.arg - lower.arg
        let originalDiff := upper.val - lower.val
        let offset := time - lower.arg
        if processedDiff = 0 then lower.val
        else lower.val + (offset * originalDiff).tdiv processedDiff

section Times

variable {F G : Type} (r : VadResult F) (segment : Segment G)

/-- `whisper_full_get_segment_t0_from_state` -/
def segmentT0 : ℤ :=
  if r.hasVadSegments = false ∨ r.table = [] then segment.t0
  else mapProcessedToOriginalTime segment.t0 r.table

/-- `whisper_full_get_segment_t1_from_state` -/
def segmentT1 : ℤ :=
  if r.hasVadSegments = false ∨ r.table = [] then segment.t1
  else
    let t1 := mapProcessedToOriginalTime segment.t1 r.table
    if t1 - segmentT0 r segment < 10 then segmentT0 r segment + 10 else t1

end Times

/-! ### The look-up -/

variable {a b : Knot} {l table : List Knot} {time : ℤ}

/-- Behind the second knot the first plays no role. -/
theorem mapTime_cons_cons (hab : a.arg < b.arg) (hb : b.arg < time) :
    mapProcessedToOriginalTime time (a :: b :: l) = mapProcessedToOriginalTime time (b :: l) := by
  have ha : a.arg < time := hab.trans hb
  simp only [mapProcessedToOriginalTime, List.getLastD_cons, List.takeWhile_cons,
    List.dropWhile_cons, ha, hb, decide_true, if_true, if_neg (not_le.mpr ha),
    if_neg (not_le.mpr hb)]

/-- A time between the first two knots, or the second. -/
theorem mapTime_between (h : Knot.Rising (a :: b :: l)) (ha : a.arg < time) (hb : time ≤ b.arg) :
    mapProcessedToOriginalTime time (a :: b :: l) = Knot.between a b time := by
  obtain ⟨hab, -⟩ := (List.pairwise_cons.mp h).1 b List.mem_cons_self
  have htake : (a :: b :: l).takeWhile (·.arg < time) = [a] := by
    simp [ha, hb]
  have hdrop : (a :: b :: l).dropWhile (·.arg < time) = b :: l := by
    simp [ha, hb]
  have hlast : ∀ k ∈ b :: l, b.arg ≤ k.arg ∧ (k.arg ≤ b.arg → k = b) := by
    intro k hk
    rcases List.mem_cons.mp hk with rfl | hk
    · exact ⟨le_rfl, fun _ => rfl⟩
    · have hlt := ((List.pairwise_cons.mp (List.pairwise_cons.mp h).2).1 k hk).1
      exact ⟨hlt.le, fun hle => absurd hlt (not_lt.mpr hle)⟩
  have hmem : l.getLastD b ∈ b :: l := List.getLastD_mem_cons
  rw [mapProcessedToOriginalTime]
  dsimp only
  rw [if_neg (not_le.mpr ha), htake, hdrop, List.getLastD_cons]
  split_ifs with hback hexact hdiff
  · obtain ⟨-, heq⟩ := hlast _ hmem
    rw [heq (hback.trans hb), le_antisymm hb ((hlast _ hmem).1.trans hback), Knot.between_stop hab]
  · rw [← hexact, List.headD_cons, Knot.between_stop hab]
  · rw [List.headD_cons, List.getLastD_cons, List.getLastD_nil] at hdiff
    omega
  · rfl

/-- Looking up a time is following the line through the table. -/
theorem mapTime_eq_line (h : Knot.Rising (a :: l)) :
    mapProcessedToOriginalTime time (a :: l) = Knot.line a l time := by
  by_cases hfront : time ≤ a.arg
  · rw [Knot.line_of_le hfront]
    exact if_pos hfront
  · have ha := not_le.mp hfront
    induction l generalizing a with
    | nil => exact (if_neg hfront).trans (if_pos ha.le)
    | cons b l ih =>
      obtain ⟨hhead, htail⟩ := List.pairwise_cons.mp h
      obtain ⟨hab, hval⟩ := hhead b List.mem_cons_self
      rw [Knot.line, if_neg hfront]
      split_ifs with hnext
      · exact mapTime_between h ha hnext.le
      · rcases (not_lt.mp hnext).eq_or_lt with heq | hb
        · rw [Knot.line_of_le heq.ge, mapTime_between h ha heq.ge, ← heq, Knot.between_stop hab]
        · rw [mapTime_cons_cons hab hb]
          exact ih htail (not_le.mpr hb) hb

/-! ### The reported times -/

/-- Looking up times keeps their order, and stays between the bounds of the table. -/
theorem mapTime_mono (h : Knot.Rising table) :
    Monotone fun time => mapProcessedToOriginalTime time table := by
  cases table with
  | nil => exact fun _ _ hle => hle
  | cons a l =>
    intro x y hxy
    dsimp only
    rw [mapTime_eq_line h, mapTime_eq_line h]
    exact Knot.line_mono h hxy

theorem mapTime_bounds (h : Knot.Rising table) (hne : table ≠ []) {lo hi : ℤ}
    (hbounds : ∀ a ∈ table, lo ≤ a.val ∧ a.val ≤ hi) (time : ℤ) :
    lo ≤ mapProcessedToOriginalTime time table ∧ mapProcessedToOriginalTime time table ≤ hi := by
  cases table with
  | nil => exact absurd rfl hne
  | cons a l =>
    rw [mapTime_eq_line h]
    exact ⟨(hbounds a List.mem_cons_self).1.trans (Knot.le_line h time),
      Knot.line_le h (fun b hb => (hbounds b hb).2) time⟩

section Reported

variable {F P : Type} [Zero F] [ProbScalar P] {p : VadParams P} {nWindow : ℕ}
  {clock : SampleClock} {sort : List Knot → List Knot} {network : List (List F) → P}
  {samples : List F} {r : VadResult F}
  {v : Vocab} {G : Type} [ScoreScalar G] {q : FullParams v G} {nLen : ℤ}
  {decode : ℤ → List ℕ → Logits v G} {past : PromptPast} {decoders : List (Ranked G)}
  {os : List (Turn G)} {s : LoopState G}

/-- In every run over samples in which speech was found, and whose windows begin with
timestamps, the reported begins and ends are in order, every segment lasts a tenth of a second
at least, and it reaches into the next one by no more than that. All times are between the begin
of the audio and the end of its last window, but for the tenth that an end may be moved. -/
theorem vad_times_in_order (hp : p.Regular nWindow) (hsort : SortsTimes sort)
    (hvad : whisperVad p nWindow clock sort network samples = some r)
    (hspeech : r.hasVadSegments = true) (h : Runs q nLen decode past decoders os s)
    (hanchored : ∀ o ∈ os, o.Anchored v) :
    (s.resultAll.Pairwise fun a b => segmentT0 r a ≤ segmentT0 r b ∧
        segmentT1 r a ≤ segmentT1 r b ∧ segmentT1 r a ≤ segmentT0 r b + 10) ∧
      ∀ segment ∈ s.resultAll, 0 ≤ segmentT0 r segment ∧
        segmentT0 r segment + 10 ≤ segmentT1 r segment ∧
          segmentT1 r segment ≤
            clock.samplesToCs (nChunks nWindow samples.length * nWindow : ℕ) + 10 := by
  obtain ⟨hrising, hbounds, hne⟩ := whisperVad_table hp hsort hvad
  have htable := hne hspeech
  have hmono := mapTime_mono hrising
  have ht0 : ∀ segment : Segment G,
      segmentT0 r segment = mapProcessedToOriginalTime segment.t0 r.table := fun segment =>
    if_neg (by simp [hspeech, htable])
  have ht1 : ∀ segment : Segment G, segmentT1 r segment =
      max (mapProcessedToOriginalTime segment.t1 r.table) (segmentT0 r segment + 10) := by
    intro segment
    rw [segmentT1, if_neg (by simp [hspeech, htable])]
    dsimp only
    split_ifs <;> omega
  obtain ⟨hpair, htimes⟩ := h.in_order.2.2 hanchored
  refine ⟨hpair.imp_of_mem fun {a b} ha hb hab => ?_, fun segment _ => ?_⟩
  · obtain ⟨-, hable⟩ := htimes a ha
    obtain ⟨-, hbble⟩ := htimes b hb
    have h0 := hmono (hable.trans hab)
    have h1 := hmono (hab.trans hbble)
    have h01 := hmono hab
    rw [ht1, ht1, ht0, ht0]
    dsimp only at h0 h1 h01
    omega
  · obtain ⟨hlo, hhi⟩ := mapTime_bounds hrising htable hbounds segment.t0
    obtain ⟨-, hhi'⟩ := mapTime_bounds hrising htable hbounds segment.t1
    rw [ht1, ht0]
    omega

end Reported

theorem mergeSort_sortsTimes : SortsTimes fun t => t.mergeSort fun a b => a.arg ≤ b.arg := by
  intro t
  refine ⟨List.mergeSort_perm t _, ?_⟩
  have hsorted : (t.mergeSort fun a b => a.arg ≤ b.arg).Pairwise
      fun a b => decide (a.arg ≤ b.arg) = true :=
    List.pairwise_mergeSort (fun a b c hab hbc => by simp only [decide_eq_true_eq] at *; omega)
      (fun a b => by simpa using le_total a.arg b.arg) t
  exact hsorted.imp fun hab => of_decide_eq_true hab

theorem vad_times_in_order_spoken :
    ∃ r, whisperVad vadDefaultParams 512 .exact
        (fun t => t.mergeSort fun a b => a.arg ≤ b.arg) burstNetwork burstSamples = some r ∧
      afterSecond.resultAll.Pairwise fun a b => segmentT0 r a ≤ segmentT0 r b ∧
        segmentT1 r a ≤ segmentT1 r b ∧ segmentT1 r a ≤ segmentT0 r b + 10 := by
  obtain ⟨r, hr, -, hspeech⟩ := whisperVad_eq vadDefaultParams_regular
    (fun t => t.mergeSort fun a b => a.arg ≤ b.arg) room_bursts
  have hsegments : segmentSpans vadDefaultParams 512 .exact
      (detectSpeech 512 burstNetwork burstSamples) ≠ [] := by
    rw [detectSpeech_bursts, segmentSpans_twoBursts]
    exact List.cons_ne_nil _ _
  exact ⟨r, hr, (vad_times_in_order vadDefaultParams_regular mergeSort_sortsTimes hr
    (hspeech.mpr hsegments) spoken_runs spoken_anchored).1⟩

end WhisperAndroid.Vad
