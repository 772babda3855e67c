import WhisperAndroid.Decode.Prompt
import WhisperAndroid.Decode.Ranking
import WhisperAndroid.Decode.Segments

/-!
# The main loop

`whisper_full_with_state` from the prepared prompt on: windows of up to 30 seconds, each
decoded at rising temperatures until the result is good enough. The tokens of the best
decoder become segments, and its sliding window is where the next window begins.

The encoder and the network are a function from the begin of a window and the tokens to the
logits of the next one. The sampling leaves choices open, so that a run is any that
follows them; it may also be cut off after each window, by a callback or a failure.

## Main results

* `Runs.chosen` — each window takes a decoder that was decoded in it
* `main_loop_advances` — the windows follow one another, and there are not too many
-/

namespace WhisperAndroid.Decode

open Grammar

variable {v : Vocab} {F : Type}

/-- `whisper_full_params`, for the fields that the main loop and the search read, with
those of the model. A grammar is that of `whisper_grammar_init`. The call asks for no token
timestamps, so that no segment is wrapped at `max_len`, and its temperatures are those from
`temperature` up to 1: there is none if it is above 1 and `temperature_inc` is positive. -/
structure FullParams (v : Vocab) (F : Type) where
  strategy : Strategy
  bestOf : ℤ
  beamSize : ℕ
  temperatures : List F
  nTextCtx : ℕ
  nMaxTextCtx : ℤ
  offsetMs : ℤ
  durationMs : ℤ
  translate : Bool
  noContext : Bool
  singleSegment : Bool
  printSpecial : Bool
  maxTokens : ℕ
  carryInitialPrompt : Bool
  promptTokens : List ℕ
  langId : Option ℕ
  filter : FilterParams v F
  scores : ScoreParams F
  logprobThold : F
  noSpeechThold : F
  grammar : GrammarState
  depth : ℕ
  testing : Bool
  beamSize_pos : 0 < beamSize
  temperatures_ne : temperatures ≠ []

/-- The part of `whisper_state` that the temperatures of a window change. -/
structure SearchState (F : Type) where
  decoders : List (Ranked F)
  bestId : ℕ
  prompt : List ℕ
  noSpeechProb : F

/-- The part of `whisper_state` that goes from window to window. -/
structure LoopState (F : Type) where
  seek : ℤ
  past : PromptPast
  decoders : List (Ranked F)
  resultAll : List (Segment F)

/-- A window of a run: its begin, what its temperatures left, and the best decoder. -/
structure Turn (F : Type) where
  seek : ℤ
  search : SearchState F
  best : Ranked F

namespace FullParams

variable (p : FullParams v F)

def promptParams : PromptParams where
  nTextCtx := p.nTextCtx
  nMaxTextCtx := p.nMaxTextCtx
  carryInitialPrompt := p.carryInitialPrompt
  noContext := p.noContext
  promptTokens := p.promptTokens
  langId := p.langId
  translate := p.translate
  noTimestamps := p.filter.noTimestamps

def seekStart : ℤ := p.offsetMs.tdiv 10

/-- `seek_end`, for a spectrogram of some frames -/
def seekEnd (nLen : ℤ) : ℤ :=
  if p.durationMs = 0 then nLen else p.seekStart + p.durationMs.tdiv 10

/-- `n_decoders`, for which the code makes room -/
def nDecoders : ℕ :=
  match p.strategy with
  | .greedy => (max 1 p.bestOf).toNat
  | .beamSearch => (max 1 (max p.bestOf p.beamSize)).toNat

end FullParams

section Definitions

variable [ScoreScalar F] (p : FullParams v F) (nLen : ℤ)

/-- `n_decoders_cur` -/
def FullParams.nDecodersCur (t : F) : ℕ :=
  if 0 < t then (max 1 p.bestOf).toNat
  else
    match p.strategy with
    | .greedy => 1
    | .beamSearch => max 1 p.beamSize

/-- What decoding a window at a temperature depends on. -/
def FullParams.window (t : F) (seek : ℤ) : WindowParams v F where
  filter := p.filter
  strategy := p.strategy
  beamSize := p.beamSize
  temperature := t
  pickBest := t < ScoreScalar.tinyTemperature
  maxTokens := p.maxTokens
  singleSegment := p.singleSegment
  testing := p.testing
  nTextCtx := p.nTextCtx
  seek := seek
  seekEnd := p.seekEnd nLen
  depth := p.depth
  beamSize_pos := p.beamSize_pos

/-! ### One window -/

variable (network : ℤ → List ℕ → Logits v F)

/-- A temperature: the rounds, from the prompt on, and the ranking. The code reads
`no_speech_prob` from the first row of the logits, which belongs to a token of the prompt whose
logits were not asked for unless the prompt is one token: it may be any value. -/
def Attempt (t : F) (seek : ℤ) (past : PromptPast) (s s' : SearchState F) : Prop :=
  ∃ prompt i ds noSpeechProb,
    windowPrompt v p.promptParams past (t < ScoreScalar.historyConditioningTempCutoff) =
      some prompt ∧
    Rounds (p.window nLen t seek) (fun ids => network seek (prompt ++ ids)) p.grammar
      (p.nDecodersCur t) i ds ∧
    (i = (p.window nLen t seek).nMax ∨ ∀ d ∈ ds, ¬ d.Active) ∧
    s' =
      { decoders := (rankAll p.scores s.bestId ds).1 ++ s.decoders.drop ds.length
        bestId := (rankAll p.scores s.bestId ds).2
        prompt := prompt
        noSpeechProb := noSpeechProb }

/-- The best decoder has failed, or it is not sure of its tokens although there is speech. -/
def NeedsFallback (s : SearchState F) : Prop :=
  ∀ best, s.decoders[s.bestId]? = some best →
    best.decoder.failed ∨
      (best.scores.avgLogprobs < p.logprobThold ∧ s.noSpeechProb < p.noSpeechThold)

/-- The loop over the temperatures. There is one at least: without any the code would go on
with what the decoders held before. -/
inductive Fallback (seek : ℤ) (past : PromptPast) :
    List F → SearchState F → SearchState F → Prop
  | last {t : F} {s s' : SearchState F} :
      Attempt p nLen network t seek past s s' → Fallback seek past [t] s s'
  | success {t : F} {ts : List F} {s s' : SearchState F} :
      Attempt p nLen network t seek past s s' → ¬ NeedsFallback p s' →
      Fallback seek past (t :: ts) s s'
  | fallback {t : F} {ts : List F} {s s' s'' : SearchState F} :
      Attempt p nLen network t seek past s s' → NeedsFallback p s' →
      Fallback seek past ts s' s'' → Fallback seek past (t :: ts) s s''

/-! ### The result of a window -/

/-- `single_timestamp_ending` -/
def singleTimestampEnding (v : Vocab) (ids : List ℕ) : Bool :=
  ids.getLast?.any (v.tokenBeg < ·) && ids.dropLast.getLast?.any (· < v.tokenBeg)

namespace Turn

variable (o : Turn F)

/-- `is_no_speech` -/
def isNoSpeech : Prop :=
  p.noSpeechThold < o.search.noSpeechProb ∧ o.best.scores.avgLogprobs < p.logprobThold

instance : Decidable (o.isNoSpeech p) := inferInstanceAs (Decidable (_ ∧ _))

/-- The tokens that are added to the rolling context. -/
def decoded : List ℕ :=
  if o.isNoSpeech p then [] else (o.best.decoder.tokens.take o.best.decoder.resultLen).map (·.id)

def outputParams : OutputParams F where
  printSpecial := p.printSpecial
  tdrzEnable := p.filter.tdrzEnable
  singleSegment := p.singleSegment
  seek := o.seek
  noSpeechProb := o.search.noSpeechProb

/-- The segments of a window with speech. -/
def segments : List (Segment F) :=
  if p.testing = false ∧ ¬ o.isNoSpeech p then
    windowSegments v (o.outputParams p) o.best.decoder.seekDelta o.best.decoder.tokens
  else []

/-- By how much the audio window moves. -/
def seekDelta : ℤ :=
  if singleTimestampEnding v o.best.decoder.ids then
    min (p.seekEnd nLen - o.seek) (100 * chunkSize : ℕ)
  else o.best.decoder.seekDelta

end Turn

/-! ### Runs -/

namespace LoopState

/-- The past is forgotten if there is only a very short segment left. -/
def pastAt (s : LoopState F) : PromptPast :=
  if p.seekStart < s.seek ∧ p.seekEnd nLen ≤ s.seek + 500 then ⟨[], []⟩ else s.past

/-- The state after a window. -/
def advance (s : LoopState F) (o : Turn F) : LoopState F where
  seek := s.seek + o.seekDelta p nLen
  past := afterWindow v p.promptParams (s.pastAt p nLen) o.search.prompt (o.decoded p)
  decoders := o.search.decoders
  resultAll := s.resultAll ++ o.segments p

/-- The state before the first window, on what earlier calls left. -/
def start (past : PromptPast) (decoders : List (Ranked F)) : LoopState F where
  seek := p.seekStart
  past := preparePast p.promptParams past
  decoders := decoders
  resultAll := []

end LoopState

/-- The main loop: the windows so far, and the state after them. -/
inductive Runs (past : PromptPast) (decoders : List (Ranked F)) :
    List (Turn F) → LoopState F → Prop
  | start : Runs past decoders [] (.start p past decoders)
  | next {os : List (Turn F)} {s : LoopState F} {o : Turn F} :
      Runs past decoders os s → s.seek + deltaMin < p.seekEnd nLen → o.seek = s.seek →
      Fallback p nLen network s.seek (s.pastAt p nLen) p.temperatures
        ⟨s.decoders, 0, [], 0⟩ o.search →
      o.search.decoders[o.search.bestId]? = some o.best →
      Runs past decoders (os ++ [o]) (s.advance p nLen o)

end Definitions

section Window

variable [ScoreScalar F] {p : FullParams v F} {nLen : ℤ} {network : ℤ → List ℕ → Logits v F}
  {t : F} {ts : List F} {seek : ℤ} {past : PromptPast} {s s' : SearchState F}

/-- What a window takes: a decoder that was decoded in it, with its tokens cut at most. -/
structure Chosen (p : FullParams v F) (nLen seek : ℤ) (best : Ranked F) : Prop where
  of_sound : ∃ t i n d, Decoder.Sound (p.window nLen t seek) i d ∧
    best.decoder.tokens = d.tokens.take n ∧ best.decoder.seekDelta = d.seekDelta

/-- The best decoder was decoded in this window, or none was yet. -/
def Current (p : FullParams v F) (nLen seek : ℤ) (s : SearchState F) : Prop :=
  s.bestId = 0 ∨ ∃ best, s.decoders[s.bestId]? = some best ∧ Chosen p nLen seek best

theorem nDecodersCur_pos (t : F) : 0 < p.nDecodersCur t := by
  rw [FullParams.nDecodersCur]
  split_ifs
  · omega
  · split <;> omega

/-- After an attempt the best decoder is one of this window, whether the ranking took a new
one or left the old. -/
theorem Attempt.chosen (h : Attempt p nLen network t seek past s s')
    (hs : Current p nLen seek s) :
    ∃ best, s'.decoders[s'.bestId]? = some best ∧ Chosen p nLen seek best := by
  obtain ⟨prompt, i, ds, _, -, hrounds, -, rfl⟩ := h
  have hlength : ds.length = p.nDecodersCur t := hrounds.length_eq
  have hnew (j : ℕ) (hj : j < ds.length) : ∃ best,
      ((rankAll p.scores s.bestId ds).1 ++ s.decoders.drop ds.length)[j]? = some best ∧
        Chosen p nLen seek best := by
    refine ⟨rankOne p.scores ds[j], ?_, ?_⟩
    · rw [rankAll_fst, List.getElem?_append_left (by rwa [List.length_map]), List.getElem?_map,
        List.getElem?_eq_getElem hj]
      rfl
    · obtain ⟨⟨n, htokens⟩, hdelta, -⟩ := exists_take_rankOne p.scores ds[j]
      exact ⟨t, i, n, ds[j], hrounds.sound _ (List.getElem_mem hj), htokens, hdelta⟩
  dsimp only
  rcases rankAll_best p.scores s.bestId ds with ⟨hid, -⟩ | ⟨d, hd, -⟩
  · rw [hid]
    rcases lt_or_ge s.bestId ds.length with hlt | hge
    · exact hnew _ hlt
    · rcases hs with hzero | ⟨best, hbest, hchosen⟩
      · have := nDecodersCur_pos (p := p) t
        omega
      · refine ⟨best, ?_, hchosen⟩
        rw [rankAll_fst, List.getElem?_append_right (by rwa [List.length_map]), List.length_map,
          List.getElem?_drop, Nat.add_sub_cancel' hge, hbest]
  · exact hnew _ (List.getElem?_eq_some_iff.mp hd).1

theorem Fallback.chosen (h : Fallback p nLen network seek past ts s s')
    (hs : Current p nLen seek s) :
    ∃ best, s'.decoders[s'.bestId]? = some best ∧ Chosen p nLen seek best := by
  induction h with
  | last h => exact h.chosen hs
  | success h => exact h.chosen hs
  | fallback h _ _ ih => exact ih (Or.inr (h.chosen hs))

/-- The prompt of a window is one of those for its past. -/
theorem Fallback.prompt (h : Fallback p nLen network seek past ts s s') :
    ∃ cool, windowPrompt v p.promptParams past cool = some s'.prompt := by
  induction h with
  | last h =>
    obtain ⟨_, _, _, _, hprompt, -, -, rfl⟩ := h
    exact ⟨_, hprompt⟩
  | success h =>
    obtain ⟨_, _, _, _, hprompt, -, -, rfl⟩ := h
    exact ⟨_, hprompt⟩
  | fallback _ _ _ ih => exact ih

end Window

section Run

variable [ScoreScalar F] {p : FullParams v F} {nLen : ℤ} {network : ℤ → List ℕ → Logits v F}
  {past : PromptPast} {decoders : List (Ranked F)} {os : List (Turn F)} {s : LoopState F}
  {o : Turn F}

/-- The window of a decoder reaches no further than a chunk. -/
theorem Chosen.bounds {best : Ranked F} (h : Chosen p nLen o.seek best) :
    2 ≤ best.decoder.seekDelta ∧ best.decoder.seekDelta ≤ 100 * chunkSize := by
  obtain ⟨_, _, _, d, hd, -, hdelta⟩ := h.of_sound
  rw [hdelta]
  exact ⟨hd.seekDelta_pos, hd.seekDelta_le⟩

theorem Turn.seekDelta_bounds (h : Chosen p nLen o.seek o.best)
    (hseek : o.seek + deltaMin < p.seekEnd nLen) :
    2 ≤ o.seekDelta p nLen ∧ o.seekDelta p nLen ≤ 100 * chunkSize := by
  obtain ⟨hpos, hle⟩ := h.bounds
  rw [deltaMin] at hseek
  rw [Turn.seekDelta]
  split_ifs
  · rw [chunkSize]
    omega
  · exact ⟨by exact_mod_cast hpos, by exact_mod_cast hle⟩

/-- The windows of a run: each begins before the end, and takes a decoder of its own. -/
theorem Runs.chosen (h : Runs p nLen network past decoders os s) :
    ∀ o ∈ os, o.seek + deltaMin < p.seekEnd nLen ∧ Chosen p nLen o.seek o.best := by
  induction h with
  | start => simp
  | @next os s o _ hseek ho hfallback hbest ih =>
    intro o' ho'
    rcases List.mem_append.mp ho' with ho' | ho'
    · exact ih o' ho'
    · obtain rfl := List.mem_singleton.mp ho'
      obtain ⟨best, hget, hchosen⟩ := hfallback.chosen (Or.inl rfl)
      rw [hbest, Option.some_inj] at hget
      exact ⟨ho ▸ hseek, by rwa [ho, hget]⟩

/-- Windows begin where the one before ends, and each moves on. -/
theorem Runs.advances (h : Runs p nLen network past decoders os s) :
    (∀ o ∈ os, p.seekStart ≤ o.seek ∧ o.seek + o.seekDelta p nLen ≤ s.seek) ∧
      (os.Pairwise fun a b => a.seek + a.seekDelta p nLen ≤ b.seek) ∧
      s.seek = p.seekStart + (os.map (·.seekDelta p nLen)).sum ∧
      p.seekStart + 2 * os.length ≤ s.seek := by
  induction h with
  | start => simp [LoopState.start]
  | @next os s o hruns hseek ho hfallback hbest ih =>
    obtain ⟨hmem, hpair, hsum, hlength⟩ := ih
    have hlast := (hruns.next hseek ho hfallback hbest).chosen o (by simp)
    obtain ⟨hpos, -⟩ := Turn.seekDelta_bounds hlast.2 hlast.1
    have hnext : (s.advance p nLen o).seek = s.seek + o.seekDelta p nLen := rfl
    rw [hnext]
    refine ⟨?_, ?_, ?_, ?_⟩
    · intro o' ho'
      rcases List.mem_append.mp ho' with ho' | ho'
      · obtain ⟨hstart, hend⟩ := hmem o' ho'
        exact ⟨hstart, by omega⟩
      · obtain rfl := List.mem_singleton.mp ho'
        rw [ho]
        exact ⟨by omega, le_rfl⟩
    · refine List.pairwise_append.mpr ⟨hpair, List.pairwise_singleton _ _, fun a ha b hb => ?_⟩
      rw [List.mem_singleton.mp hb, ho]
      exact (hmem a ha).2
    · simp only [List.map_append, List.map_cons, List.map_nil, List.sum_append, List.sum_cons,
        List.sum_nil]
      omega
    · rw [List.length_append, List.length_singleton]
      push_cast
      omega

/-- The main loop comes to an end: the windows begin where the one before them ends, each
moves on by 20 ms at least and 30 s at most, and there are no more of them than fit. -/
theorem main_loop_advances (h : Runs p nLen network past decoders os s) :
    s.seek = p.seekStart + (os.map (·.seekDelta p nLen)).sum ∧
      (os.Pairwise fun a b => a.seek + a.seekDelta p nLen ≤ b.seek) ∧
      (∀ o ∈ os, 2 ≤ o.seekDelta p nLen ∧ o.seekDelta p nLen ≤ 100 * chunkSize) ∧
      2 * (os.length : ℤ) ≤ max 0 (p.seekEnd nLen - p.seekStart - 9) := by
  obtain ⟨-, hpair, hsum, -⟩ := h.advances
  refine ⟨hsum, hpair, fun o ho => Turn.seekDelta_bounds (h.chosen o ho).2 (h.chosen o ho).1, ?_⟩
  -- the last window begins before the end
  cases h with
  | start => simp
  | next hruns hseek =>
    obtain ⟨-, -, -, hlength⟩ := hruns.advances
    rw [deltaMin] at hseek
    rw [List.length_append, List.length_singleton]
    push_cast
    omega

end Run

/-! ### A run of two windows -/

instance : ScoreScalar ℤ where
  pow x _ := x
  logf _ := 0
  tinyTemperature := 1
  historyConditioningTempCutoff := 1

/-- Greedy sampling at temperature 0, as by default, with a carried initial prompt. -/
def spokenParams : FullParams english ℤ where
  strategy := .greedy
  bestOf := 5
  beamSize := 1
  temperatures := [0]
  nTextCtx := 448
  nMaxTextCtx := 16384
  offsetMs := 0
  durationMs := 0
  translate := false
  noContext := true
  singleSegment := false
  printSpecial := false
  maxTokens := 0
  carryInitialPrompt := true
  promptTokens := [0]
  langId := some 0
  filter := plainFilter english
  scores := ⟨-1, 2⟩
  logprobThold := -1
  noSpeechThold := 0
  grammar := ⟨[], [], ⟨0, 0⟩⟩
  depth := 0
  testing := false
  beamSize_pos := Nat.one_pos
  temperatures_ne := List.cons_ne_nil _ _

/-- The window at a begin of the audio, with a prompt. -/
def spokenTurn (seek : ℤ) (prompt : List ℕ) : Turn ℤ where
  seek := seek
  search :=
    { decoders := [rankOne spokenParams.scores (spokenDecoder 8)]
      bestId := 0
      prompt := prompt
      noSpeechProb := 0 }
  best := rankOne spokenParams.scores (spokenDecoder 8)

/-- The carried prompt, and in the second window all that was decoded in the first. -/
def firstTurn : Turn ℤ := spokenTurn 0 [50360, 0, 50257]

def secondTurn : Turn ℤ :=
  spokenTurn 200 [50360, 0, 50363, 0, 50413, 50413, 0, 50463, 50463, 50257]

/-- The state after the first window, and after the second. -/
def afterFirst : LoopState ℤ :=
  (LoopState.start spokenParams ⟨[], []⟩ []).advance spokenParams 3000 firstTurn

def afterSecond : LoopState ℤ := afterFirst.advance spokenParams 3000 secondTurn

/-- The network is sure of the tokens behind the prompt. -/
def spokenDecode (seek : ℤ) (ids : List ℕ) : Logits english ℤ :=
  spokenNetwork (ids.drop (if seek = 0 then 3 else 10))

theorem rankAll_singleton {F : Type} [ScoreScalar F] (p : ScoreParams F) (d : Decoder F) :
    rankAll p 0 [d] = ([rankOne p d], 0) := by
  refine Prod.ext rankAll_fst ?_
  rcases rankAll_best p 0 [d] with ⟨hid, -⟩ | ⟨_, hget, -⟩
  · exact hid
  · exact Nat.lt_one_iff.mp (List.getElem?_eq_some_iff.mp hget).1

theorem spoken_attempt {seek : ℤ} (hseek : seek = 0 ∨ seek = 200) {past : PromptPast}
    {prompt : List ℕ} (decoders : List (Ranked ℤ)) (hone : decoders.length ≤ 1)
    (hprompt : windowPrompt english spokenParams.promptParams past true = some prompt)
    (hlength : prompt.length = if seek = 0 then 3 else 10) :
    Attempt spokenParams 3000 spokenDecode 0 seek past ⟨decoders, 0, [], 0⟩
      (spokenTurn seek prompt).search := by
  refine ⟨prompt, 8, [spokenDecoder 8], 0, hprompt, ?_, Or.inr ?_, ?_⟩
  · refine spoken_rounds_of 0 8 le_rfl hseek fun j hj => ?_
    rw [spokenDecode, ← hlength, List.drop_left]
    exact spokenNetwork_ids j hj
  · intro d hd
    rw [List.mem_singleton.mp hd]
    exact fun hactive => absurd hactive.1 (by decide)
  · rw [rankAll_singleton, List.length_singleton, List.drop_eq_nil_of_le hone]
    rfl

theorem first_runs : Runs spokenParams 3000 spokenDecode ⟨[], []⟩ [] [firstTurn] afterFirst :=
  Runs.start.next (o := firstTurn) (by decide) rfl
    (.last (spoken_attempt (.inl rfl) [] (Nat.zero_le _) rfl rfl)) rfl

theorem spoken_runs :
    Runs spokenParams 3000 spokenDecode ⟨[], []⟩ [] [firstTurn, secondTurn] afterSecond := by
  have hseek : afterFirst.seek = 200 := rfl
  refine first_runs.next (o := secondTurn) (by rw [hseek]; decide) hseek.symm ?_ rfl
  rw [hseek]
  exact .last (spoken_attempt (.inr rfl) _ le_rfl rfl rfl)

theorem main_loop_advances_spoken :
    afterSecond.seek = 0 + ([firstTurn, secondTurn].map
        (·.seekDelta spokenParams 3000)).sum ∧
      2 * ([firstTurn, secondTurn].length : ℤ) ≤
        max 0 (spokenParams.seekEnd 3000 - spokenParams.seekStart - 9) :=
  ⟨(main_loop_advances spoken_runs).1, (main_loop_advances spoken_runs).2.2.2⟩

end WhisperAndroid.Decode
