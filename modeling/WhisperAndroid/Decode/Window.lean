import Mathlib.Data.List.Infix
import WhisperAndroid.Decode.Logits
import WhisperAndroid.Support.Stepwise

/-!
# Decoding one window

The inner loop of `whisper_full_with_state`: in each round every decoder that goes on
takes a token, by greedy sampling or by the choice among all beams, and then its
sliding window, its result and its end are updated. The network is a function from the
tokens after the prompt to the logits of the next one.

## Main results

* `Sample.continues` — each decoder continues one that goes on, for both strategies
* `round_decoder` — what a round makes of one decoder
-/

namespace WhisperAndroid.Decode

open Grammar

/-- `delta_min`, in frames of 10 ms -/
def deltaMin : ℤ := 10

inductive Strategy
  | greedy
  | beamSearch
  deriving DecidableEq, Repr

/-- What decoding a window depends on: the window, and the fields of the parameters and
of the model that the loop reads. `pickBest` is `t_cur < 1e-6f`, `testing` is
`n_loaded == 0`. -/
structure WindowParams (v : Vocab) (F : Type) where
  filter : FilterParams v F
  strategy : Strategy
  beamSize : ℕ
  temperature : F
  pickBest : Bool
  maxTokens : ℕ
  singleSegment : Bool
  testing : Bool
  nTextCtx : ℕ
  seek : ℤ
  seekEnd : ℤ
  depth : ℕ
  beamSize_pos : 0 < beamSize

variable {v : Vocab} {F : Type}

/-- `n_max` -/
def WindowParams.nMax (w : WindowParams v F) : ℕ := w.nTextCtx / 2 - 4

/-! ### The update of a decoder -/

namespace Decoder

/-- A decoder at the start of a window. -/
def init [Scalar F] (grammar : GrammarState) : Decoder F where
  tokens := []
  resultLen := 0
  sumLogprobsAll := ((0 : F) : WithBot F)
  grammar := grammar
  seekDelta := 100 * chunkSize
  failed := false
  completed := false
  hasTs := false

/-- Append a token that was sampled. -/
def push [Scalar F] (d : Decoder F) (token : TokenData F) : Decoder F :=
  { d with tokens := d.tokens ++ [token], sumLogprobsAll := d.sumLogprobsAll + token.plog }

/-- The token is a timestamp before the last one: "do not allow to go back in time". -/
def goesBack (v : Vocab) (i : ℕ) (d : Decoder F) (token : TokenData F) : Bool :=
  v.tokenBeg < token.id && d.hasTs && 2 * (token.id - v.tokenBeg) < d.seekDelta &&
    d.resultLen < i

/-- A timestamp moves the sliding window. -/
def observe (v : Vocab) (i : ℕ) (d : Decoder F) (token : TokenData F) : Decoder F :=
  if v.tokenBeg < token.id then
    { d with seekDelta := 2 * (token.id - v.tokenBeg), resultLen := i + 1, hasTs := true }
  else d

/-- The end of a segment: the end of text, the bound on the tokens, or the end of the audio. -/
def endOfSegment (w : WindowParams v F) (i : ℕ) (d : Decoder F) (token : TokenData F) : Bool :=
  token.id = v.tokenEot || (0 < w.maxTokens && w.maxTokens ≤ i) ||
    (d.hasTs && w.seekEnd ≤ w.seek + d.seekDelta + deltaMin)

def complete (w : WindowParams v F) (i : ℕ) (d : Decoder F) : Decoder F :=
  if w.singleSegment ∨ w.filter.noTimestamps then
    { d with resultLen := i + 1, seekDelta := 100 * chunkSize, completed := true }
  else { d with completed := true }

/-- The body of the loop that updates the decoders, once the window has moved. -/
def settle (w : WindowParams v F) (i : ℕ) (d : Decoder F) (token : TokenData F) : Decoder F :=
  if d.endOfSegment w i token then
    if d.resultLen = 0 ∧ w.filter.noTimestamps = false then
      if w.seekEnd ≤ w.seek + d.seekDelta + deltaMin then
        complete w i { d with resultLen := i + 1 }
      else { d with failed := true }
    else d.complete w i
  else if w.testing then { d with seekDelta := 100 * chunkSize, completed := true }
  else if i + 1 = w.nMax ∧ (d.resultLen = 0 ∨ d.seekDelta < 100 * chunkSize / 2) then
    { d with failed := true } -- a repetition loop
  else d

/-- The update of a decoder after its token of round `i`. There is no result where the
grammar recurses without end. -/
def update (w : WindowParams v F) (i : ℕ) (d : Decoder F) : Option (Decoder F) := do
  let token ← d.tokens.getLast?
  if d.goesBack v i token then some { d with failed := true }
  else
    let d := d.observe v i token
    let grammar ← acceptToken w.depth v.idToToken d.grammar token.id
    some (settle w i { d with grammar := grammar } token)

end Decoder

/-- The loop that updates all decoders. -/
def updateAll (w : WindowParams v F) (i : ℕ) (ds : List (Decoder F)) :
    Option (List (Decoder F)) :=
  ds.mapM fun d => if d.Active then d.update w i else some d

/-! ### Beams -/

/-- `beam_candidate` -/
structure BeamCandidate (F : Type) where
  decoderIdx : ℕ
  seekDelta : ℕ
  hasTs : Bool
  tokens : List (TokenData F)
  resultLen : ℕ
  sumLogprobsAll : WithBot F
  grammar : GrammarState

section Beams

variable [Scalar F]

/-- The candidate of a decoder for one of its new tokens. -/
def candidateOf (j : ℕ) (d : Decoder F) (token : TokenData F) : BeamCandidate F where
  decoderIdx := j
  seekDelta := d.seekDelta
  hasTs := d.hasTs
  tokens := d.tokens ++ [token]
  resultLen := d.resultLen
  sumLogprobsAll := d.sumLogprobsAll + token.plog
  grammar := d.grammar

/-- `beam_candidates`, from the new tokens of each decoder -/
def beamCandidates (ds : List (Decoder F)) (new : ℕ → List (TokenData F)) :
    List (BeamCandidate F) :=
  ds.zipIdx.flatMap fun (d, j) => if d.Active then (new j).map (candidateOf j d) else []

/-- The order of the candidates. -/
def BeamCandidate.Before (a b : BeamCandidate F) : Prop :=
  if a.sumLogprobsAll ≠ b.sumLogprobsAll then b.sumLogprobsAll < a.sumLogprobsAll
  else a.decoderIdx < b.decoderIdx

/-- `whisper_sequence_tokens_equal` -/
def sequenceTokensEqual (a b : BeamCandidate F) : Bool :=
  a.tokens.map (·.id) = b.tokens.map (·.id)

/-- The candidates with the tokens of the one just taken are passed over, but not in the
first round. -/
def skipEqual (i : ℕ) (cands : List (BeamCandidate F)) (cur : BeamCandidate F) (c : ℕ) : ℕ :=
  if 0 < i then c + ((cands.drop c).takeWhile fun cand => sequenceTokensEqual cand cur).length
  else c

def BeamCandidate.assignTo (cur : BeamCandidate F) (d : Decoder F) : Decoder F :=
  { d with
    seekDelta := cur.seekDelta, hasTs := cur.hasTs, tokens := cur.tokens,
    resultLen := cur.resultLen, sumLogprobsAll := cur.sumLogprobsAll, grammar := cur.grammar }

/-- `cur_c` starts over after the last candidate. -/
def wrapIndex (cands : List (BeamCandidate F)) (c : ℕ) : ℕ := if cands.length ≤ c then 0 else c

/-- The decoders that go on take the candidates in order. Beside
each decoder stands the one whose cache it takes over, if any. -/
def assignCandidates (i : ℕ) (cands : List (BeamCandidate F)) :
    ℕ → List (Decoder F) → List (Decoder F × Option ℕ)
  | _, [] => []
  | c, d :: ds =>
    if d.Active then
      match cands[wrapIndex cands c]? with
      | none => (d, none) :: assignCandidates i cands c ds -- there are no candidates
      | some cur =>
        (cur.assignTo d, some cur.decoderIdx) ::
          assignCandidates i cands (skipEqual i cands cur (wrapIndex cands c + 1)) ds
    else (d, none) :: assignCandidates i cands c ds

end Beams

/-! ### Rounds -/

section Rounds

variable [Scalar F] (w : WindowParams v F)

/-- A token that a decoder may sample from logits. -/
def Choice (logits : Logits v F) (how : Sampling) (d : Decoder F) (token : TokenData F) : Prop :=
  ∃ out, processLogits w.depth w.filter d w.temperature logits = some out ∧
    Sampled how out.2 (computeProbs out.1 out.2) token

/-- Greedy sampling appends one token to each decoder that goes on. -/
def pushAll (ds : List (Decoder F)) (tokens : ℕ → TokenData F) : List (Decoder F) :=
  ds.mapIdx fun j d => if d.Active then d.push (tokens j) else d

/-- The sampling phase of a round from the logits of the decoders, with the decoder that
each one continues. -/
inductive Sample (raw : ℕ → Decoder F → Logits v F) (i : ℕ) (ds : List (Decoder F)) :
    List (Decoder F × Option ℕ) → Prop
  | greedy (tokens : ℕ → TokenData F) (hstrategy : w.strategy = .greedy)
      (htokens : ∀ j d, ds[j]? = some d → d.Active →
        Choice w (raw j d) (if w.pickBest then .best else .drawn) d (tokens j)) :
      Sample raw i ds ((pushAll ds tokens).map fun d => (d, none))
  | beamSearch (new : ℕ → List (TokenData F)) (cands : List (BeamCandidate F))
      (hstrategy : w.strategy = .beamSearch)
      (hnew : ∀ j d, ds[j]? = some d → d.Active →
        (new j).length = w.beamSize ∧ ∀ token ∈ new j, Choice w (raw j d) .topk d token)
      (hperm : cands.Perm (beamCandidates ds new))
      (hsorted : cands.Pairwise fun a b => ¬ b.Before a) :
      Sample raw i ds (assignCandidates i cands 0 ds)

/-- Round `i` of the loop, where the network evaluates the tokens so far. -/
def Round (network : List ℕ → Logits v F) (i : ℕ) (ds ds' : List (Decoder F)) : Prop :=
  ∃ sampled, Sample w (fun _ d => network d.ids) i ds sampled ∧
    updateAll w i (sampled.map (·.1)) = some ds'

/-- The decoders after `i` rounds of a window: the loop goes on while it may and some
decoder does. -/
inductive Rounds (network : List ℕ → Logits v F) (grammar : GrammarState) (nDecoders : ℕ) :
    ℕ → List (Decoder F) → Prop
  | start : Rounds network grammar nDecoders 0 (List.replicate nDecoders (Decoder.init grammar))
  | next {i : ℕ} {ds ds' : List (Decoder F)} :
      Rounds network grammar nDecoders i ds → i < w.nMax → (∃ d ∈ ds, d.Active) →
      Round w network i ds ds' → Rounds network grammar nDecoders (i + 1) ds'

/-! ### What a round makes of one decoder -/

variable {w : WindowParams v F} {network : List ℕ → Logits v F}
  {raw : ℕ → Decoder F → Logits v F} {i : ℕ} {ds ds' : List (Decoder F)}
  {sampled : List (Decoder F × Option ℕ)} {d : Decoder F}

omit [Scalar F] in
theorem mapM_eq_some_iff {α β : Type} {f : α → Option β} {l : List α} {l' : List β} :
    l.mapM f = some l' ↔ l.map f = l'.map some := by
  induction l generalizing l' with
  | nil => cases l' <;> simp
  | cons a l ih =>
    rw [List.mapM_cons]
    cases hfirst : f a with
    | none => cases l' <;> simp [hfirst]
    | some b =>
      cases l' with
      | nil => cases l.mapM f <;> simp
      | cons b' l' =>
        cases hrest : l.mapM f with
        | none =>
          have hne : l.map f ≠ l'.map some := fun h => by simp [ih.mpr h] at hrest
          simp [hfirst, hne]
        | some rest => simp [hfirst, ← ih, hrest]

/-- A decoder after sampling: it has ended and stays, or it continues a decoder that goes
on, itself or in a beam search another, with a token which that one may sample. -/
def Continues (w : WindowParams v F) (raw : ℕ → Decoder F → Logits v F) (ds : List (Decoder F))
    (j : ℕ) (d' : Decoder F) (source : Option ℕ) : Prop :=
  ∃ d, ds[j]? = some d ∧
    ((¬ d.Active ∧ d' = d ∧ source = none) ∨
      (d.Active ∧ ∃ k s how token, source.getD j = k ∧ ds[k]? = some s ∧ s.Active ∧
        Choice w (raw k s) how s token ∧ d' = s.push token))

theorem mem_beamCandidates {new : ℕ → List (TokenData F)} {cand : BeamCandidate F} :
    cand ∈ beamCandidates ds new ↔ ∃ k s, ds[k]? = some s ∧ s.Active ∧
      ∃ token ∈ new k, cand = candidateOf k s token := by
  rw [beamCandidates, List.mem_flatMap]
  constructor
  · intro ⟨⟨s, k⟩, hs, hcand⟩
    rw [List.mem_zipIdx_iff_getElem?] at hs
    dsimp only at hs hcand
    split_ifs at hcand with hactive
    · obtain ⟨token, htoken, rfl⟩ := List.mem_map.mp hcand
      exact ⟨k, s, hs, hactive, token, htoken, rfl⟩
    · simp at hcand
  · intro ⟨k, s, hs, hactive, token, htoken, hcand⟩
    refine ⟨(s, k), List.mem_zipIdx_iff_getElem?.mpr hs, ?_⟩
    dsimp only
    rw [if_pos hactive, hcand]
    exact List.mem_map_of_mem htoken

theorem candidateOf_assignTo {k : ℕ} {s : Decoder F} {token : TokenData F} (hd : d.Active)
    (hs : s.Active) : (candidateOf k s token).assignTo d = s.push token := by
  obtain ⟨hd1, hd2⟩ := hd
  obtain ⟨hs1, hs2⟩ := hs
  cases d
  cases s
  simp_all [BeamCandidate.assignTo, candidateOf, Decoder.push]

omit [Scalar F] in
theorem wrapIndex_lt {cands : List (BeamCandidate F)} (hcands : cands ≠ []) (c : ℕ) :
    wrapIndex cands c < cands.length := by
  have := List.length_pos_iff.mpr hcands
  rw [wrapIndex]
  split_ifs <;> omega

omit [Scalar F] in
/-- Each decoder that goes on takes one of the candidates. -/
theorem assignCandidates_getElem? {cands : List (BeamCandidate F)} {c j : ℕ} {d' : Decoder F}
    {source : Option ℕ} (h : (assignCandidates i cands c ds)[j]? = some (d', source)) :
    ∃ d, ds[j]? = some d ∧ ((¬ d.Active ∧ d' = d ∧ source = none) ∨
      (d.Active ∧ (cands ≠ [] →
        ∃ cand ∈ cands, d' = cand.assignTo d ∧ source = some cand.decoderIdx))) := by
  induction ds generalizing c j with
  | nil => simp [assignCandidates] at h
  | cons d ds ih =>
    rw [assignCandidates] at h
    by_cases hactive : d.Active
    · rw [if_pos hactive] at h
      split at h
      · rename_i hnone
        have hnil : ¬ cands ≠ [] := fun hcands => by
          simp [List.getElem?_eq_getElem (wrapIndex_lt hcands c)] at hnone
        cases j with
        | zero => exact ⟨d, rfl, Or.inr ⟨hactive, fun hcands => absurd hcands hnil⟩⟩
        | succ j => exact ih (by simpa using h)
      · rename_i cur hcur
        cases j with
        | zero =>
          simp only [List.getElem?_cons_zero, Option.some_inj, Prod.mk.injEq] at h
          exact ⟨d, rfl, Or.inr ⟨hactive, fun _ =>
            ⟨cur, List.mem_of_getElem? hcur, h.1.symm, h.2.symm⟩⟩⟩
        | succ j => exact ih (by simpa using h)
    · rw [if_neg hactive] at h
      cases j with
      | zero =>
        simp only [List.getElem?_cons_zero, Option.some_inj, Prod.mk.injEq] at h
        exact ⟨d, rfl, Or.inl ⟨hactive, h.1.symm, h.2.symm⟩⟩
      | succ j => exact ih (by simpa using h)

omit [Scalar F] in
theorem assignCandidates_length (cands : List (BeamCandidate F)) (c : ℕ) :
    (assignCandidates i cands c ds).length = ds.length := by
  induction ds generalizing c with
  | nil => rfl
  | cons d ds ih =>
    rw [assignCandidates]
    by_cases hactive : d.Active
    · rw [if_pos hactive]
      split <;> simp [ih]
    · rw [if_neg hactive]
      simp [ih]

theorem Sample.length_eq (h : Sample w raw i ds sampled) : sampled.length = ds.length := by
  cases h with
  | greedy => simp [pushAll]
  | beamSearch => rw [assignCandidates_length]

theorem Sample.continues (h : Sample w raw i ds sampled) {j : ℕ} {d' : Decoder F}
    {source : Option ℕ} (hj : sampled[j]? = some (d', source)) :
    Continues w raw ds j d' source := by
  cases h with
  | greedy tokens hstrategy htokens =>
    simp only [pushAll, List.getElem?_map, List.getElem?_mapIdx, Option.map_map,
      Option.map_eq_some_iff, Function.comp_apply, Prod.mk.injEq] at hj
    obtain ⟨d, hd, hd', rfl⟩ := hj
    refine ⟨d, hd, ?_⟩
    split_ifs at hd' with hactive
    · exact Or.inr ⟨hactive, j, d, _, tokens j, rfl, hd, hactive, htokens j d hd hactive,
        hd'.symm⟩
    · exact Or.inl ⟨hactive, hd'.symm, rfl⟩
  | beamSearch new cands hstrategy hnew hperm hsorted =>
    obtain ⟨d, hd, hcases⟩ := assignCandidates_getElem? hj
    refine ⟨d, hd, hcases.imp_right ?_⟩
    intro ⟨hactive, htaken⟩
    -- a decoder that goes on has candidates of its own, so there are some
    obtain ⟨hlength, -⟩ := hnew j d hd hactive
    obtain ⟨own, hown⟩ := List.exists_mem_of_length_pos (hlength ▸ w.beamSize_pos)
    have hcands : cands ≠ [] := List.ne_nil_of_mem (hperm.mem_iff.mpr
      (mem_beamCandidates.mpr ⟨j, d, hd, hactive, own, hown, rfl⟩))
    obtain ⟨cand, hcand, rfl, rfl⟩ := htaken hcands
    obtain ⟨k, s, hs, hsactive, token, htoken, rfl⟩ :=
      mem_beamCandidates.mp (hperm.mem_iff.mp hcand)
    exact ⟨hactive, k, s, .topk, token, rfl, hs, hsactive,
      (hnew k s hs hsactive).2 token htoken, candidateOf_assignTo hactive hsactive⟩

/-- Sampling only looks at the logits of the decoders that go on. -/
theorem Sample.congr {raw' : ℕ → Decoder F → Logits v F} (h : Sample w raw i ds sampled)
    (hraw : ∀ j d, ds[j]? = some d → d.Active → raw j d = raw' j d) :
    Sample w raw' i ds sampled := by
  cases h with
  | greedy tokens hstrategy htokens =>
    refine .greedy tokens hstrategy fun j d hd hactive => ?_
    rw [← hraw j d hd hactive]
    exact htokens j d hd hactive
  | beamSearch new cands hstrategy hnew hperm hsorted =>
    refine .beamSearch new cands hstrategy (fun j d hd hactive => ?_) hperm hsorted
    rw [← hraw j d hd hactive]
    exact hnew j d hd hactive

omit [Scalar F] in
theorem updateAll_length (h : updateAll w i ds = some ds') : ds'.length = ds.length := by
  have hmap := congrArg List.length (mapM_eq_some_iff.mp h)
  simpa using hmap.symm

omit [Scalar F] in
theorem updateAll_getElem? (h : updateAll w i ds = some ds') {j : ℕ} {d' : Decoder F}
    (hj : ds'[j]? = some d') :
    ∃ d, ds[j]? = some d ∧ (if d.Active then d.update w i else some d) = some d' := by
  have hmap := congrArg (·[j]?) (mapM_eq_some_iff.mp h)
  simp only [List.getElem?_map, hj, Option.map_some] at hmap
  exact Option.map_eq_some_iff.mp hmap

omit [Scalar F] in
/-- The update of a decoder keeps its tokens. -/
theorem update_tokens {d' : Decoder F} (h : d.update w i = some d') : d'.tokens = d.tokens := by
  have hobserve (token : TokenData F) : (d.observe v i token).tokens = d.tokens := by
    rw [Decoder.observe]
    split_ifs <;> rfl
  have hcomplete (d : Decoder F) : (d.complete w i).tokens = d.tokens := by
    rw [Decoder.complete]
    split_ifs <;> rfl
  have hsettle (d : Decoder F) (token : TokenData F) : (d.settle w i token).tokens = d.tokens := by
    rw [Decoder.settle]
    split_ifs <;> simp [hcomplete]
  obtain ⟨token, -, h⟩ := Option.bind_eq_some_iff.mp h
  split_ifs at h
  · rw [← Option.some_inj.mp h]
  · obtain ⟨grammar, -, h⟩ := Option.bind_eq_some_iff.mp h
    rw [← Option.some_inj.mp h, hsettle]
    exact hobserve token

/-- What a round makes of a decoder: it stays if it has ended, and otherwise it is that of
a decoder that goes on, updated after one more token. -/
theorem round_decoder (h : Round w network i ds ds') {j : ℕ} {d' : Decoder F}
    (hj : ds'[j]? = some d') :
    (d' ∈ ds ∧ ¬ d'.Active) ∨ ∃ s ∈ ds, s.Active ∧
      ∃ how token, Choice w (network s.ids) how s token ∧ (s.push token).update w i = some d' := by
  obtain ⟨sampled, hsample, hupdate⟩ := h
  obtain ⟨d, hmap, hd'⟩ := updateAll_getElem? hupdate hj
  rw [List.getElem?_map] at hmap
  obtain ⟨⟨_, source⟩, hd, rfl⟩ := Option.map_eq_some_iff.mp hmap
  obtain ⟨old, hold, ⟨hended, rfl, -⟩ | ⟨-, k, s, how, token, -, hs, hactive, hchoice, rfl⟩⟩ :=
    hsample.continues hd
  · rw [if_neg hended, Option.some_inj] at hd'
    subst hd'
    exact Or.inl ⟨List.mem_of_getElem? hold, hended⟩
  · have hpushed : (s.push token).Active := hactive
    rw [if_pos hpushed] at hd'
    exact Or.inr ⟨s, List.mem_of_getElem? hs, hactive, how, token, hchoice, hd'⟩

theorem round_length (h : Round w network i ds ds') : ds'.length = ds.length := by
  obtain ⟨sampled, hsample, hupdate⟩ := h
  rw [updateAll_length hupdate, List.length_map, hsample.length_eq]

theorem Rounds.length_eq {grammar : GrammarState} {nDecoders : ℕ}
    (h : Rounds w network grammar nDecoders i ds) : ds.length = nDecoders := by
  induction h with
  | start => exact List.length_replicate
  | next _ _ _ hround ih => rw [round_length hround, ih]

end Rounds

end WhisperAndroid.Decode
