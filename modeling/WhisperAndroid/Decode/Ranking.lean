import Mathlib.Data.Finset.Sort
import WhisperAndroid.Decode.Timestamps

/-!
# The choice of a decoder

At the end of the rounds `whisper_full_with_state` cuts the tokens of each decoder that has
not failed to its result, scores them, and takes the decoder with the best score.

## Main results

* `rankAll_getElem?` — what the ranking makes of each decoder
* `rankAll_best` — the first decoder of the best score is taken, and none that fails
-/

namespace WhisperAndroid.Decode

variable {v : Vocab} {F : Type}

/-- The operations of `double` that the scores need, and the constants `1e-6f` and
`WHISPER_HISTORY_CONDITIONING_TEMP_CUTOFF`. -/
class ScoreScalar (F : Type) extends Scalar F, Mul F, NatCast F where
  pow : F → F → F
  logf : F → F
  tinyTemperature : F
  historyConditioningTempCutoff : F

/-- The parameters of the scores. -/
structure ScoreParams (F : Type) where
  lengthPenalty : F
  entropyThold : F

/-- `avg_logprobs`, `entropy` and `score` of a `whisper_sequence` -/
structure Scores (F : Type) where
  avgLogprobs : WithBot F
  entropy : F
  score : WithBot F

/-- A decoder with the scores of its sequence. -/
structure Ranked (F : Type) where
  decoder : Decoder F
  scores : Scores F

section Definitions

variable [ScoreScalar F]

/-- The scores at the start of a window. -/
def Scores.unset : Scores F := ⟨⊥, 0, ⊥⟩

/-- The entropy of the last 32 tokens, summed up in the order of their ids. -/
def sequenceEntropy (ids : List ℕ) : F :=
  let last := ids.drop (ids.length - 32)
  (last.toFinset.sort (· ≤ ·)).foldl (fun entropy id =>
    let p : F := (last.count id : F) / (last.length : F)
    entropy - p * ScoreScalar.logf p) 0

/-- `whisper_sequence_score`, of tokens that were cut to the result -/
def sequenceScore (p : ScoreParams F) (tokens : List (TokenData F)) : Scores F :=
  if tokens = [] then .unset
  else
    let result := tokens.foldl (fun sum token => sum + token.plog) ((0 : F) : WithBot F)
    let length : F := (tokens.length : F)
    let penalty : F :=
      if 0 < p.lengthPenalty then
        ScoreScalar.pow (((5 : ℕ) + length : F) / ((6 : ℕ) : F)) p.lengthPenalty
      else length
    { avgLogprobs := result.map (· / length)
      entropy := sequenceEntropy (tokens.map (·.id))
      score := result.map (· / penalty) }

/-- A decoder after the ranking: one that has not failed is cut to its result and scored,
and it fails if it repeats itself. -/
def rankOne (p : ScoreParams F) (d : Decoder F) : Ranked F :=
  if d.failed then ⟨d, .unset⟩
  else
    let d := { d with tokens := d.tokens.take d.resultLen }
    let scores := sequenceScore p d.tokens
    if 32 < d.resultLen ∧ scores.entropy < p.entropyThold then ⟨{ d with failed := true }, scores⟩
    else ⟨d, scores⟩

/-- The loop that ranks the decoders from index `j` on, with the best score and
`best_decoder_id` so far. -/
def rankFrom (p : ScoreParams F) :
    ℕ → WithBot F × ℕ → List (Decoder F) → List (Ranked F) × ℕ
  | _, best, [] => ([], best.2)
  | j, best, d :: ds =>
    let ranked := rankOne p d
    let best :=
      if ranked.decoder.failed = false ∧ best.1 < ranked.scores.score then (ranked.scores.score, j)
      else best
    let rest := rankFrom p (j + 1) best ds
    (ranked :: rest.1, rest.2)

/-- The ranking of all decoders. `best_decoder_id` stays if none has a score. -/
def rankAll (p : ScoreParams F) (bestId : ℕ) (ds : List (Decoder F)) : List (Ranked F) × ℕ :=
  rankFrom p 0 (⊥, bestId) ds

end Definitions

section Ranking

variable [ScoreScalar F] {p : ScoreParams F} {d : Decoder F} {ds : List (Decoder F)} {j : ℕ}
  {best : WithBot F × ℕ} {bestId : ℕ}

/-- The ranking cuts tokens off at most. -/
theorem exists_take_rankOne (p : ScoreParams F) (d : Decoder F) :
    (∃ n, (rankOne p d).decoder.tokens = d.tokens.take n) ∧
      (rankOne p d).decoder.seekDelta = d.seekDelta ∧
      (rankOne p d).decoder.resultLen = d.resultLen := by
  simp only [rankOne]
  split_ifs
  · exact ⟨⟨d.tokens.length, List.take_length.symm⟩, rfl, rfl⟩
  all_goals exact ⟨⟨d.resultLen, rfl⟩, rfl, rfl⟩

theorem rankFrom_fst : (rankFrom p j best ds).1 = ds.map (rankOne p) := by
  induction ds generalizing j best with
  | nil => rfl
  | cons d ds ih => rw [rankFrom, List.map_cons, ih]

theorem rankAll_fst : (rankAll p bestId ds).1 = ds.map (rankOne p) := rankFrom_fst

/-- A decoder that the ranking may take. -/
def Qualifies (r : Ranked F) : Prop := r.decoder.failed = false ∧ r.scores.score ≠ ⊥

/-- What the loop takes: the first of the best scores above that so far, if there is one. -/
theorem rankFrom_snd (p : ScoreParams F) (j : ℕ) (best : WithBot F × ℕ) (ds : List (Decoder F)) :
    ((rankFrom p j best ds).2 = best.2 ∧
      ∀ d ∈ ds, (rankOne p d).decoder.failed = false → (rankOne p d).scores.score ≤ best.1) ∨
      ∃ (k : ℕ) (d : Decoder F), ds[k]? = some d ∧ (rankFrom p j best ds).2 = j + k ∧
        (rankOne p d).decoder.failed = false ∧ best.1 < (rankOne p d).scores.score ∧
        (∀ d' ∈ ds, (rankOne p d').decoder.failed = false →
          (rankOne p d').scores.score ≤ (rankOne p d).scores.score) ∧
        ∀ k' < k, ∀ d', ds[k']? = some d' → (rankOne p d').decoder.failed = false →
          (rankOne p d').scores.score < (rankOne p d).scores.score := by
  induction ds generalizing j best with
  | nil => exact Or.inl ⟨rfl, by simp⟩
  | cons d ds ih =>
    simp only [rankFrom]
    split_ifs with hbetter
    · right
      rcases ih (j + 1) ((rankOne p d).scores.score, j) with
        ⟨hid, hall⟩ | ⟨k, d', hk, hid, hfailed, hlt, hall, hfirst⟩
      · refine ⟨0, d, rfl, hid, hbetter.1, hbetter.2, ?_, fun k' hk' => by omega⟩
        exact List.forall_mem_cons.mpr ⟨fun _ => le_rfl, hall⟩
      · refine ⟨k + 1, d', by simpa using hk, by omega, hfailed, hbetter.2.trans hlt, ?_, ?_⟩
        · exact List.forall_mem_cons.mpr ⟨fun _ => hlt.le, hall⟩
        · intro k' hk' e he hefailed
          cases k' with
          | zero =>
            obtain rfl : d = e := by simpa using he
            exact hlt
          | succ k' => exact hfirst k' (by omega) e (by simpa using he) hefailed
    · have hnot : (rankOne p d).decoder.failed = false → (rankOne p d).scores.score ≤ best.1 :=
        fun hfailed => not_lt.mp fun hlt => hbetter ⟨hfailed, hlt⟩
      rcases ih (j + 1) best with
        ⟨hid, hall⟩ | ⟨k, d', hk, hid, hfailed, hlt, hall, hfirst⟩
      · exact Or.inl ⟨hid, List.forall_mem_cons.mpr ⟨hnot, hall⟩⟩
      · refine Or.inr ⟨k + 1, d', by simpa using hk, by omega, hfailed, hlt, ?_, ?_⟩
        · exact List.forall_mem_cons.mpr ⟨fun h => (hnot h).trans hlt.le, hall⟩
        · intro k' hk' e he hefailed
          cases k' with
          | zero =>
            obtain rfl : d = e := by simpa using he
            exact (hnot hefailed).trans_lt hlt
          | succ k' => exact hfirst k' (by omega) e (by simpa using he) hefailed

/-- The ranking takes the first decoder of the best score, unless none has a score: then
`best_decoder_id` stays. -/
theorem rankAll_best (p : ScoreParams F) (bestId : ℕ) (ds : List (Decoder F)) :
    ((rankAll p bestId ds).2 = bestId ∧ ∀ d ∈ ds, ¬ Qualifies (rankOne p d)) ∨
      ∃ d, ds[(rankAll p bestId ds).2]? = some d ∧ Qualifies (rankOne p d) ∧
        (∀ d' ∈ ds, Qualifies (rankOne p d') →
          (rankOne p d').scores.score ≤ (rankOne p d).scores.score) ∧
        ∀ k < (rankAll p bestId ds).2, ∀ d', ds[k]? = some d' → Qualifies (rankOne p d') →
          (rankOne p d').scores.score < (rankOne p d).scores.score := by
  rcases rankFrom_snd p 0 (⊥, bestId) ds with
    ⟨hid, hall⟩ | ⟨k, d, hk, hid, hfailed, hlt, hall, hfirst⟩
  · exact Or.inl ⟨hid, fun d hd hqualifies =>
      hqualifies.2 (le_bot_iff.mp (hall d hd hqualifies.1))⟩
  · rw [Nat.zero_add] at hid
    refine Or.inr ⟨d, by rw [rankAll, hid, hk], ⟨hfailed, hlt.ne_bot⟩, ?_, ?_⟩
    · exact fun d' hd' hqualifies => hall d' hd' hqualifies.1
    · intro k' hk' d' hd' hqualifies
      rw [rankAll, hid] at hk'
      exact hfirst k' hk' d' hd' hqualifies.1

end Ranking

end WhisperAndroid.Decode
