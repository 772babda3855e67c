import WhisperAndroid.Decode.Window

/-!
# A network that is sure of the next token

The runs in which the network gives one token the logit 0 and all others `-INFINITY`:
greedy sampling takes that token wherever the filters leave it.

## Main results

* `choice_certain` — the token of a certain network is a choice
* `round_certain` — a round of a search with one decoder
-/

namespace WhisperAndroid.Decode

/-- Whole numbers in place of `float`: only the exponential of 0 matters here. -/
instance : Scalar ℤ where
  expf x := if x < 0 then 0 else 1
  logSumExp l := l.foldr max (l.headD 0)

/-- The logits of a network that is sure of a token. -/
def certain (v : Vocab) (t : ℕ) : Logits v ℤ := fun i => if (i : ℕ) = t then 0 else ⊥

/-- Settings without any filter that depends on them. -/
def plainFilter (v : Vocab) : FilterParams v ℤ where
  suppressBlank := false
  noTimestamps := false
  tdrzEnable := false
  suppressNst := false
  maxInitialTid := none
  suppressRegex := none
  logitsFilterCallback := none
  grammarRules := false
  grammarPenalty := 0

/-- What sampling makes of the token. -/
def certainToken (v : Vocab) (t : ℕ) : TokenData ℤ := withTid v t 0 0

variable {v : Vocab} {t : ℕ} {d : Decoder ℤ}

theorem certain_ne_bot {i : Fin v.nVocab} : certain v t i ≠ ⊥ ↔ (i : ℕ) = t := by
  rw [certain]
  split_ifs with h <;> simp [h]

theorem filterStatic_cases {p : FilterParams v ℤ} {logits : Logits v ℤ} (i : Fin v.nVocab) :
    filterStatic p logits i = ⊥ ∨ filterStatic p logits i = logits i := by
  simp only [filterStatic, suppress]
  split_ifs <;> simp

theorem filterHistory_cases {p : FilterParams v ℤ} {logits : Logits v ℤ} (i : Fin v.nVocab) :
    filterHistory p d logits i = ⊥ ∨ filterHistory p d logits i = logits i := by
  simp only [filterHistory, suppress]
  split_ifs <;> simp

/-- Logits that are those of a certain network but for some that become `-INFINITY`. -/
theorem eq_certain {logits : Logits v ℤ} (hle : ∀ i, logits i = ⊥ ∨ logits i = certain v t i)
    (ht : ∀ i : Fin v.nVocab, (i : ℕ) = t → logits i ≠ ⊥) : logits = certain v t := by
  funext i
  rcases hle i with hbot | heq
  · have hi : (i : ℕ) ≠ t := fun hi => ht i hi hbot
    rw [hbot, certain, if_neg hi]
  · exact heq

theorem filterLogits_certain (hkept : Kept (plainFilter v) d t) :
    filterLogits (plainFilter v) d (certain v t) = some (certain v t) := by
  have hstatic : filterStatic (plainFilter v) (certain v t) = certain v t := by
    refine eq_certain filterStatic_cases fun i hi => ?_
    subst hi
    exact filterStatic_ne_bot.mpr ⟨hkept.not_control rfl, hkept.not_solm rfl,
      hkept.not_timestamp rfl, certain_ne_bot.mpr rfl⟩
  have hhistory : filterHistory (plainFilter v) d (certain v t) = certain v t := by
    refine eq_certain filterHistory_cases fun i hi => ?_
    subst hi
    exact filterHistory_ne_bot.mpr ⟨by simp [plainFilter], by simp [plainFilter],
      hkept.not_breaksPair, hkept.initial_le, hkept.not_before, certain_ne_bot.mpr rfl⟩
  show some (filterHistory _ d (filterStatic _ (certain v t))) = _
  rw [hstatic, hhistory]

theorem filterMap_single {α β : Type} [DecidableEq α] {l : List α} {a : α} {b : Option β}
    (hnodup : l.Nodup) (ha : a ∈ l) :
    (l.filterMap fun x => if x = a then b else none) = b.toList := by
  induction l with
  | nil => simp at ha
  | cons x l ih =>
    obtain ⟨hx, hnodup⟩ := List.nodup_cons.mp hnodup
    by_cases hxa : x = a
    · subst hxa
      have hrest : (l.filterMap fun y => if y = x then b else none) = [] := by
        rw [List.filterMap_eq_nil_iff]
        intro y hy
        have hne : y ≠ x := fun h => hx (h ▸ hy)
        exact if_neg hne
      cases b <;> simp [hrest]
    · have ha' : a ∈ l := (List.mem_cons.mp ha).resolve_left (Ne.symm hxa)
      simp [hxa, ih hnodup ha']

theorem finiteLogits_certain (q : ℕ → Prop) [DecidablePred q] (ht : t < v.nVocab) :
    finiteLogits q (certain v t) = if q t then [0] else [] := by
  have hentry (i : Fin v.nVocab) :
      (if q i then (certain v t i).recBotCoe none some else none : Option ℤ) =
        if i = ⟨t, ht⟩ then (if q t then some 0 else none) else none := by
    by_cases hi : i = ⟨t, ht⟩
    · subst hi
      simp [certain]
      rfl
    · have hbot : certain v t i = ⊥ := if_neg fun h => hi (Fin.ext h)
      simp [hi, hbot]
  rw [finiteLogits]
  simp only [hentry]
  rw [filterMap_single (List.nodup_finRange _) (List.mem_finRange _)]
  split_ifs <;> rfl

theorem processLogits_certain {depth : ℕ} (ht : t < v.nVocab)
    (hkept : Kept (plainFilter v) d t) :
    processLogits depth (plainFilter v) d 0 (certain v t) =
      some (certain v t, certain v t) := by
  have hlogprobs : computeLogprobs (certain v t) = certain v t := by
    funext i
    rw [computeLogprobs, finiteLogits_certain _ ht, certain]
    split_ifs <;> rfl
  rw [processLogits, if_neg (lt_irrefl 0), filterLogits_certain hkept]
  simp only [Option.bind_eq_bind, Option.bind_some, hlogprobs]
  split_ifs with hdominated hgrammar
  · have hbeg : ¬ t < v.tokenBeg := by
      intro hlt
      rw [timestampLogprob, finiteLogits_certain _ ht, if_neg (not_le.mpr hlt)] at hdominated
      exact not_lt_bot hdominated
    have hsame : suppress (· < v.tokenBeg) (certain v t) = certain v t := by
      refine eq_certain (fun i => ?_) fun i hi => ?_
      · rw [suppress]
        split_ifs <;> simp
      · exact suppress_ne_bot.mpr ⟨hi ▸ hbeg, certain_ne_bot.mpr hi⟩
    rw [hsame]
  · simp [plainFilter] at hgrammar
  · rfl

theorem computeProbs_certain (i : Fin v.nVocab) :
    computeProbs (certain v t) (certain v t) i = if (i : ℕ) = t then 1 else 0 := by
  rw [computeProbs, certain]
  split_ifs <;> first | rfl | contradiction

theorem sampled_certain (ht : t < v.nVocab) :
    Sampled .best (certain v t) (computeProbs (certain v t) (certain v t))
      (certainToken v t) := by
  have hpos (i : Fin v.nVocab) :
      0 < computeProbs (certain v t) (certain v t) i ↔ (i : ℕ) = t := by
    rw [computeProbs_certain]
    split_ifs with h <;> simp [h]
  refine .inl ⟨⟨t, ht⟩, (hpos _).mpr rfl, ?_⟩
  have hbest : (argmaxProb 0 0 (computeProbs (certain v t) (certain v t))) = (t, 1) := by
    rcases argmaxProb_cases 0 0 (computeProbs (certain v t) (certain v t)) with
      ⟨-, hnone⟩ | ⟨i, -, hi, hbest⟩
    · exact absurd ((hpos ⟨t, ht⟩).mpr rfl) (not_lt.mpr (hnone _ (Nat.zero_le _)))
    · rw [hbest, computeProbs_certain, (hpos i).mp hi, if_pos rfl]
  have htimestamp : ¬ v.tokenBeg ≤ t →
      argmaxProb v.tokenBeg 0 (computeProbs (certain v t) (certain v t)) = (0, 0) := by
    intro hbeg
    rcases argmaxProb_cases v.tokenBeg 0 (computeProbs (certain v t) (certain v t)) with
      ⟨hnone, -⟩ | ⟨i, hbegi, hi, -⟩
    · exact hnone
    · exact absurd ((hpos i).mp hi ▸ hbegi) hbeg
  have hlogprob : certain v t ⟨t, ht⟩ = 0 := if_pos rfl
  simp only [bestToken, certainToken, withTid, hbest, ht, hlogprob]
  split_ifs with hbeg <;> simp_all

variable {w : WindowParams v ℤ} {network : List ℕ → Logits v ℤ} {i : ℕ} {d' : Decoder ℤ}

theorem choice_certain (hfilter : w.filter = plainFilter v) (htemperature : w.temperature = 0)
    (hnetwork : network d.ids = certain v t) (ht : t < v.nVocab)
    (hkept : Kept (plainFilter v) d t) :
    Choice w (network d.ids) .best d (certainToken v t) := by
  refine ⟨(certain v t, certain v t), ?_, sampled_certain ht⟩
  rw [hfilter, htemperature, hnetwork]
  exact processLogits_certain ht hkept

theorem pushAll_replicate (n : ℕ) (token : TokenData ℤ) (hactive : d.Active) :
    pushAll (List.replicate n d) (fun _ => token) = List.replicate n (d.push token) := by
  refine List.eq_replicate_iff.mpr ⟨by simp [pushAll], fun e he => ?_⟩
  obtain ⟨j, hj, rfl⟩ := List.mem_mapIdx.mp he
  simp [hactive]

/-- A round of greedy sampling, in which the decoders are alike and the network is certain. -/
theorem round_certain (n : ℕ) (hstrategy : w.strategy = .greedy) (hpick : w.pickBest = true)
    (hfilter : w.filter = plainFilter v) (htemperature : w.temperature = 0)
    (hnetwork : network d.ids = certain v t) (ht : t < v.nVocab)
    (hkept : Kept (plainFilter v) d t) (hactive : d.Active)
    (hupdate : (d.push (certainToken v t)).update w i = some d') :
    Round w network i (List.replicate n d) (List.replicate n d') := by
  have hchoice := choice_certain hfilter htemperature hnetwork ht hkept
  refine ⟨_, .greedy (fun _ => certainToken v t) hstrategy ?_, ?_⟩
  · intro j e hj _
    obtain rfl : e = d := (List.mem_replicate.mp (List.mem_of_getElem? hj)).2
    rwa [hpick]
  · have hpushed : (d.push (certainToken v t)).Active := hactive
    rw [pushAll_replicate n _ hactive, List.map_map]
    refine mapM_eq_some_iff.mpr ?_
    simp [hpushed, hupdate]

/-! ### A window with two segments -/

/-- An English vocabulary in which one token has a text. -/
def english : Vocab := ⟨51864, fun id => if id = 0 then [0x61] else [], le_rfl⟩

/-- The timestamp 0.00, a text token, the timestamp 1.00 twice, a text token, the timestamp 2.00
twice, and the end of text. -/
def spokenIds : List ℕ := [50363, 0, 50413, 50413, 0, 50463, 50463, 50256]

/-- A network that is sure of these. -/
def spokenNetwork (ids : List ℕ) : Logits english ℤ := certain english (spokenIds.getD ids.length 0)

/-- The window at some begin of the audio. -/
def spokenWindow (seek : ℤ) : WindowParams english ℤ where
  filter := plainFilter english
  strategy := .greedy
  beamSize := 1
  temperature := 0
  pickBest := true
  maxTokens := 0
  singleSegment := false
  testing := false
  nTextCtx := 448
  seek := seek
  seekEnd := 3000
  depth := 0
  beamSize_pos := Nat.one_pos

/-- The decoder after the given number of rounds. -/
def spokenDecoder (i : ℕ) : Decoder ℤ where
  tokens := (spokenIds.take i).map (certainToken english)
  resultLen := if 6 ≤ i then min i 7 else if 3 ≤ i then min i 4 else 0
  sumLogprobsAll := ((0 : ℤ) : WithBot ℤ)
  grammar := ⟨[], [], ⟨0, 0⟩⟩
  seekDelta := if 6 ≤ i then 200 else if 3 ≤ i then 100 else 3000
  failed := false
  completed := 8 ≤ i
  hasTs := 3 ≤ i

theorem spoken_kept (i : ℕ) (hi : i < 8) :
    Kept (plainFilter english) (spokenDecoder i) (spokenIds.getD i 0) := by
  refine ⟨?_, ?_, fun _ _ => by simp [plainFilter], fun _ hcontrol => ?_, fun _ => ?_,
    fun _ => by simp [plainFilter]⟩
  · interval_cases i <;> rfl
  · interval_cases i <;> decide
  · have := hcontrol.bounds
    interval_cases i <;> revert this <;> decide
  · interval_cases i <;> decide

variable {spoken : List ℕ → Logits english ℤ} {seek : ℤ}

theorem spoken_step (n i : ℕ) (hi : i < 8) (hseek : seek = 0 ∨ seek = 200)
    (hspoken : spoken (spokenDecoder i).ids = certain english (spokenIds.getD i 0)) :
    Round (spokenWindow seek) spoken i (List.replicate n (spokenDecoder i))
      (List.replicate n (spokenDecoder (i + 1))) := by
  refine round_certain (t := spokenIds.getD i 0) n rfl rfl rfl rfl hspoken ?_ (spoken_kept i hi)
    ?_ ?_
  · interval_cases i <;> decide
  · interval_cases i <;> exact ⟨rfl, rfl⟩
  · rcases hseek with rfl | rfl <;> interval_cases i <;> rfl

/-- The rounds of decoders that are alike, for as long as the network is sure. -/
theorem spoken_rounds_of (n i : ℕ) (hi : i ≤ 8) (hseek : seek = 0 ∨ seek = 200)
    (hspoken : ∀ j < i, spoken (spokenDecoder j).ids = certain english (spokenIds.getD j 0)) :
    Rounds (spokenWindow seek) spoken ⟨[], [], ⟨0, 0⟩⟩ (n + 1) i
      (List.replicate (n + 1) (spokenDecoder i)) := by
  induction i with
  | zero => exact .start
  | succ i ih =>
    refine (ih (by omega) fun j hj => hspoken j (by omega)).next ?_
      ⟨_, List.mem_replicate.mpr ⟨Nat.succ_ne_zero n, rfl⟩, ?_⟩
      (spoken_step _ i hi hseek (hspoken i (Nat.lt_succ_self i)))
    · exact hi.trans (show 8 ≤ 448 / 2 - 4 by decide)
    · have hlt : i < 8 := hi
      interval_cases i <;> exact ⟨rfl, rfl⟩

theorem spokenNetwork_ids (i : ℕ) (hi : i < 8) :
    spokenNetwork (spokenDecoder i).ids = certain english (spokenIds.getD i 0) := by
  interval_cases i <;> rfl

theorem spoken_rounds (i : ℕ) (hi : i ≤ 8) :
    Rounds (spokenWindow 0) spokenNetwork ⟨[], [], ⟨0, 0⟩⟩ 1 i [spokenDecoder i] :=
  spoken_rounds_of 0 i hi (.inl rfl) fun j hj => spokenNetwork_ids j (by omega)

end WhisperAndroid.Decode
