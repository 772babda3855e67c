import Mathlib.Algebra.Order.Monoid.Unbundled.WithTop
import Mathlib.Data.Finset.Lattice.Fold
import Mathlib.Data.Fintype.Basic
import WhisperAndroid.Decode.Vocabulary
import WhisperAndroid.Grammar.Tokens

/-!
# Logits of the next token

`whisper_process_logits` sets the logits of the tokens that may not come next to
`-INFINITY`, here `⊥`, and `whisper_sample_token` takes one of the others.

## Main results

* `kept_of_filterLogits` — what the filters leave, whatever the callback does
* `kept_of_processLogits` — the timestamp rule and the grammar add no token
* `mem_of_sampleToken` — a token that was sampled is one that they left
-/

namespace WhisperAndroid.Decode

open Grammar

/-- The operations on `float` that the decoder uses, on numbers other than NaN. -/
class Scalar (F : Type) extends LinearOrder F, Zero F, Add F, Sub F, Div F where
  expf : F → F
  /-- the logarithm of the sum of the exponentials -/
  logSumExp : List F → F

/-- `whisper_token_data`, for the fields that the search reads -/
structure TokenData (F : Type) where
  id : ℕ
  tid : ℕ
  plog : WithBot F

/-- `whisper_decoder` with its `whisper_sequence`, but for the scores of the latter -/
structure Decoder (F : Type) where
  tokens : List (TokenData F)
  resultLen : ℕ
  sumLogprobsAll : WithBot F
  grammar : GrammarState
  seekDelta : ℕ
  failed : Bool
  completed : Bool
  hasTs : Bool

namespace Decoder

variable {F : Type}

/-- The ids of the tokens so far. -/
def ids (d : Decoder F) : List ℕ := d.tokens.map (·.id)

/-- A decoder that is neither completed nor failed goes on. -/
def Active (d : Decoder F) : Prop := d.completed = false ∧ d.failed = false

instance (d : Decoder F) : Decidable d.Active := inferInstanceAs (Decidable (_ ∧ _))

end Decoder

/-- One logit for each token. -/
abbrev Logits (v : Vocab) (F : Type) := Fin v.nVocab → WithBot F

/-- The fields of `whisper_full_params` that `whisper_process_logits` reads. A regular
expression is the set of texts that it matches, and `maxInitialTid` is the initial
timestamp of the source, if there is a limit to it, as a number of tokens. -/
structure FilterParams (v : Vocab) (F : Type) where
  suppressBlank : Bool
  noTimestamps : Bool
  tdrzEnable : Bool
  suppressNst : Bool
  maxInitialTid : Option ℕ
  suppressRegex : Option (List UInt8 → Bool)
  logitsFilterCallback : Option (List (TokenData F) → Logits v F → Logits v F)
  grammarRules : Bool
  grammarPenalty : F

/-- `non_speech_tokens` -/
def nonSpeechTokens : List String :=
  ["\"", "#", "(", ")", "*", "+", "/", ":", ";", "<", "=", ">", "@", "[", "\\", "]", "^",
    "_", "\x60", "\x7b", "|", "\x7d", "~", "「", "」", "『", "』", "<<", ">>", "<<<", ">>>", "--",
    "---", "-(", "-[", "('", "(\"", "((", "))", "(((", ")))", "[[", "]]", "\x7b\x7b",
    "\x7d\x7d", "♪♪", "♪♪♪", "♩", "♪", "♫", "♬", "♭", "♮", "♯"]

/-- The texts that `suppress_nst` rules out: each with and without a blank before it, and
a hyphen and a quote at the beginning of a word. -/
def suppressedTexts : List (List UInt8) :=
  ((nonSpeechTokens.flatMap fun token => [token, " " ++ token]) ++ [" -", " '"]).map
    fun text => text.toUTF8.data.toList

variable {v : Vocab} {F : Type}

/-- The tokens of a kind get the logit `-INFINITY`. -/
def suppress (p : ℕ → Prop) [DecidablePred p] (logits : Logits v F) : Logits v F :=
  fun i => if p i then ⊥ else logits i

@[simp] theorem suppress_ne_bot {p : ℕ → Prop} [DecidablePred p] {logits : Logits v F}
    {i : Fin v.nVocab} : suppress p logits i ≠ ⊥ ↔ ¬ p i ∧ logits i ≠ ⊥ := by
  rw [suppress]
  split_ifs with h <;> simp [h]

/-- `last_was_timestamp` -/
def lastWasTimestamp (v : Vocab) (ids : List ℕ) : Bool :=
  ids.getLast?.any fun id => v.tokenBeg ≤ id

/-- `penultimate_was_timestamp`, which is also set where there is no penultimate token -/
def penultimateWasTimestamp (v : Vocab) (ids : List ℕ) : Bool :=
  ids.dropLast.getLast?.all fun id => v.tokenBeg ≤ id

/-- Timestamps have to appear in pairs, except directly before the end of text. -/
def breaksPair (v : Vocab) (ids : List ℕ) (id : ℕ) : Bool :=
  lastWasTimestamp v ids &&
    if penultimateWasTimestamp v ids then v.tokenBeg ≤ id else id < v.tokenEot

/-- The filters that only look at the settings. -/
def filterStatic (p : FilterParams v F) (logits : Logits v F) : Logits v F :=
  let logits := suppress (· = v.tokenNot) logits
  let logits := suppress (fun id => p.noTimestamps ∧ v.tokenBeg ≤ id) logits
  let logits := suppress (fun id => id = v.tokenSot ∨ id = v.tokenNosp) logits
  let logits := suppress (fun id => p.tdrzEnable = false ∧ id = v.tokenSolm) logits
  let logits := suppress (fun id => id = v.tokenTranslate ∨ id = v.tokenTranscribe ∨
    id = v.tokenPrev) logits
  let logits := suppress (fun id => ∃ lang < langCount, id = v.tokenLang lang) logits
  suppress (· = v.tokenPrev) logits

/-- The filters after the callback, of which the last three look at the tokens so far. -/
def filterHistory (p : FilterParams v F) (d : Decoder F) (logits : Logits v F) : Logits v F :=
  let logits := suppress (fun id => p.suppressRegex.any (fun re => re (v.idToToken id)) ∧
    v.tokenToId (v.idToToken id) = some id) logits
  let logits := suppress (fun id => p.suppressNst ∧
    ∃ text ∈ suppressedTexts, v.tokenToId text = some id) logits
  let logits := suppress (fun id => breaksPair v d.ids id) logits
  let logits := suppress (fun id => d.tokens.isEmpty ∧
    p.maxInitialTid.any fun tid0 => v.tokenBeg + tid0 + 1 ≤ id) logits
  suppress (fun id => d.hasTs ∧ v.tokenBeg ≤ id ∧ id < v.tokenBeg + d.seekDelta / 2) logits

/-- `suppress_blank` looks up a blank; where there is none, `token_to_id.at` throws. -/
def filterBlank (p : FilterParams v F) (d : Decoder F) (logits : Logits v F) :
    Option (Logits v F) :=
  if p.suppressBlank ∧ d.tokens.isEmpty then do
    let blank ← v.tokenToId [0x20]
    some (suppress (fun id => id = v.tokenEot ∨ id = blank) logits)
  else some logits

/-- The filters of `whisper_process_logits`, in their order. -/
def filterLogits (p : FilterParams v F) (d : Decoder F) (logits : Logits v F) :
    Option (Logits v F) := do
  let logits ← filterBlank p d logits
  let logits := filterStatic p logits
  let logits :=
    match p.logitsFilterCallback with
    | some callback => callback d.tokens logits
    | none => logits
  some (filterHistory p d logits)

/-! ### What the filters leave -/

/-- What the filters leave of the tokens, after those that the decoder has. -/
structure Kept (p : FilterParams v F) (d : Decoder F) (id : ℕ) : Prop where
  not_breaksPair : breaksPair v d.ids id = false
  not_before : d.hasTs → v.tokenBeg ≤ id → v.tokenBeg + d.seekDelta / 2 ≤ id
  initial_le : d.tokens = [] → ∀ tid0, p.maxInitialTid = some tid0 → id ≤ v.tokenBeg + tid0
  not_control : p.logitsFilterCallback = none → ¬ v.IsControl id
  not_solm : p.logitsFilterCallback = none → id = v.tokenSolm → p.tdrzEnable = true
  not_timestamp : p.logitsFilterCallback = none → p.noTimestamps → id < v.tokenBeg

variable {p : FilterParams v F} {d : Decoder F} {logits filtered : Logits v F}
  {i : Fin v.nVocab}

theorem filterStatic_ne_bot : filterStatic p logits i ≠ ⊥ ↔
    ¬ v.IsControl i ∧ ((i : ℕ) = v.tokenSolm → p.tdrzEnable = true) ∧
      (p.noTimestamps → (i : ℕ) < v.tokenBeg) ∧ logits i ≠ ⊥ := by
  simp only [filterStatic, suppress_ne_bot, Vocab.IsControl]
  grind

theorem filterHistory_ne_bot : filterHistory p d logits i ≠ ⊥ ↔
    ¬ (p.suppressRegex.any (fun re => re (v.idToToken i)) ∧
      v.tokenToId (v.idToToken i) = some i) ∧
    ¬ (p.suppressNst ∧ ∃ text ∈ suppressedTexts, v.tokenToId text = some i) ∧
    breaksPair v d.ids i = false ∧
    (d.tokens = [] → ∀ tid0, p.maxInitialTid = some tid0 → (i : ℕ) ≤ v.tokenBeg + tid0) ∧
    (d.hasTs → v.tokenBeg ≤ i → v.tokenBeg + d.seekDelta / 2 ≤ i) ∧ logits i ≠ ⊥ := by
  simp only [filterHistory, suppress_ne_bot]
  cases p.maxInitialTid <;> grind

theorem filterBlank_ne_bot (h : filterBlank p d logits = some filtered) :
    filtered i ≠ ⊥ ↔ logits i ≠ ⊥ ∧ (p.suppressBlank → d.tokens = [] →
      (i : ℕ) ≠ v.tokenEot ∧ v.tokenToId [0x20] ≠ some (i : ℕ)) := by
  rw [filterBlank] at h
  split_ifs at h with hblank
  · obtain ⟨blank, hlookup, h⟩ := Option.bind_eq_some_iff.mp h
    obtain rfl := Option.some_inj.mp h
    rw [suppress_ne_bot, hlookup]
    grind
  · rw [← Option.some_inj.mp h]
    simp only [List.isEmpty_iff, not_and] at hblank
    exact (and_iff_left fun hsuppress hnil => absurd hnil (hblank hsuppress)).symm

/-- Without a callback and a regular expression the filters take away only what the
settings and the tokens so far name. -/
theorem filterLogits_ne_bot (h : filterLogits p d logits = some filtered)
    (hcallback : p.logitsFilterCallback = none) (hregex : p.suppressRegex = none)
    (htext : ∀ text ∈ [0x20] :: suppressedTexts, v.tokenToId text ≠ some (i : ℕ))
    (hfirst : p.suppressBlank → d.tokens = [] → (i : ℕ) ≠ v.tokenEot)
    (hkept : Kept p d i) (hi : logits i ≠ ⊥) : filtered i ≠ ⊥ := by
  obtain ⟨first, hblank, h⟩ := Option.bind_eq_some_iff.mp h
  rw [hcallback] at h
  obtain rfl := Option.some_inj.mp h
  obtain ⟨hspace, hnonSpeech⟩ := List.forall_mem_cons.mp htext
  rw [filterHistory_ne_bot, filterStatic_ne_bot, filterBlank_ne_bot hblank]
  refine ⟨by simp [hregex], ?_, hkept.not_breaksPair, hkept.initial_le, hkept.not_before,
    hkept.not_control hcallback, hkept.not_solm hcallback, hkept.not_timestamp hcallback, hi,
    fun hsuppress hnil => ⟨hfirst hsuppress hnil, hspace⟩⟩
  intro ⟨_, text, hmem, hid⟩
  exact hnonSpeech text hmem hid

theorem kept_of_filterLogits (h : filterLogits p d logits = some filtered)
    (hi : filtered i ≠ ⊥) : Kept p d i := by
  obtain ⟨first, -, h⟩ := Option.bind_eq_some_iff.mp h
  rw [Option.some_inj] at h
  rw [← h, filterHistory_ne_bot] at hi
  obtain ⟨-, -, hpair, hinitial, hbefore, hi⟩ := hi
  -- a callback may give any token back, so the filters before it only count without one
  cases hcallback : p.logitsFilterCallback with
  | some callback =>
    exact ⟨hpair, hbefore, hinitial, by simp [hcallback], by simp [hcallback],
      by simp [hcallback]⟩
  | none =>
    rw [hcallback, filterStatic_ne_bot] at hi
    obtain ⟨hcontrol, hsolm, hnone, -⟩ := hi
    exact ⟨hpair, hbefore, hinitial, fun _ => hcontrol, fun _ => hsolm, fun _ => hnone⟩

@[simp] theorem map_ne_bot {f : F → F} {x : WithBot F} : x.map f ≠ ⊥ ↔ x ≠ ⊥ := by
  cases x <;> simp

/-- The penalties of the grammar take no token away and give none back. -/
theorem suppressInvalidGrammar_getD {f : WithBot F → WithBot F} (hf : ∀ x, f x = ⊥ ↔ x = ⊥)
    {depth eot : ℕ} {texts : ℕ → List UInt8} {grammar : GrammarState}
    {l lowered : List (WithBot F)}
    (hlowered : suppressInvalidGrammar depth texts eot f grammar l = some lowered) (k : ℕ) :
    lowered.getD k ⊥ = ⊥ ↔ l.getD k ⊥ = ⊥ := by
  rw [suppressInvalidGrammar] at hlowered
  split_ifs at hlowered
  · rw [Option.some_inj.mp hlowered]
  · obtain ⟨rejects, -, h⟩ := Option.bind_eq_some_iff.mp hlowered
    rw [← Option.some_inj.mp h]
    clear h hlowered
    induction rejects generalizing l with
    | nil => rfl
    | cons reject rejects ih =>
      rw [List.foldl_cons, ih, List.getD_eq_getElem?_getD, List.getD_eq_getElem?_getD,
        List.getElem?_modify]
      by_cases hk : reject.id = k
      · cases l[k]? <;> simp [hk, hf]
      · simp [hk]

/-! ### Probabilities -/

section Probabilities

variable [Scalar F]

/-- The logits of some tokens that are not `-INFINITY`. -/
def finiteLogits (q : ℕ → Prop) [DecidablePred q] (logits : Logits v F) : List F :=
  (List.finRange v.nVocab).filterMap fun i : Fin v.nVocab =>
    if q i then (logits i).recBotCoe none some else none

/-- `whisper_compute_logprobs` -/
def computeLogprobs (logits : Logits v F) : Logits v F :=
  fun i => (logits i).map (· - Scalar.logSumExp (finiteLogits (fun _ => True) logits))

/-- `timestamp_logprob` -/
def timestampLogprob (logprobs : Logits v F) : WithBot F :=
  match finiteLogits (v.tokenBeg ≤ ·) logprobs with
  | [] => ⊥
  | logprob :: rest => ((Scalar.logSumExp (logprob :: rest) : F) : WithBot F)

/-- `max_text_token_logprob` -/
def maxTextTokenLogprob (logprobs : Logits v F) : WithBot F :=
  (Finset.univ.filter fun i : Fin v.nVocab => (i : ℕ) < v.tokenBeg).sup logprobs

/-- `whisper_process_logits`: the logits and their logarithmic probabilities. There is no
result where `token_to_id.at` throws or the grammar recurses without end. -/
def processLogits (depth : ℕ) (p : FilterParams v F) (d : Decoder F) (temperature : F)
    (raw : Logits v F) : Option (Logits v F × Logits v F) := do
  let logits : Logits v F := if 0 < temperature then fun i => (raw i).map (· / temperature) else raw
  let logits ← filterLogits p d logits
  let logprobs := computeLogprobs logits
  if maxTextTokenLogprob logprobs < timestampLogprob logprobs then
    some (suppress (· < v.tokenBeg) logits, suppress (· < v.tokenBeg) logprobs)
  else if p.grammarRules then do
    let lowered ← suppressInvalidGrammar depth v.idToToken v.tokenEot
      (fun logit => logit.map (· - p.grammarPenalty)) d.grammar (List.ofFn logits)
    let logits : Logits v F := fun i => lowered.getD i ⊥
    some (logits, computeLogprobs logits)
  else some (logits, logprobs)

/-- `whisper_compute_probs` -/
def computeProbs (logits logprobs : Logits v F) : Fin v.nVocab → F :=
  fun i => if logits i = ⊥ then 0 else (logprobs i).recBotCoe 0 Scalar.expf

theorem computeLogprobs_ne_bot : computeLogprobs logits i ≠ ⊥ ↔ logits i ≠ ⊥ :=
  map_ne_bot

theorem exists_of_bot_lt_timestampLogprob (h : ⊥ < timestampLogprob logits) :
    ∃ i : Fin v.nVocab, v.tokenBeg ≤ i ∧ logits i ≠ ⊥ := by
  rw [timestampLogprob] at h
  split at h
  · exact absurd h (lt_irrefl ⊥)
  · rename_i logprob rest hfinite
    have hmem : logprob ∈ finiteLogits (v.tokenBeg ≤ ·) logits := by simp [hfinite]
    obtain ⟨i, -, hi⟩ := List.mem_filterMap.mp hmem
    split_ifs at hi with hbeg
    refine ⟨i, hbeg, fun hbot => ?_⟩
    rw [hbot, WithBot.recBotCoe_bot] at hi
    simp at hi

variable {depth : ℕ} {temperature : F} {raw : Logits v F} {out : Logits v F × Logits v F}

/-- The logits before the last two rules, which take away tokens at most. -/
theorem exists_filtered_of_processLogits (h : processLogits depth p d temperature raw = some out) :
    ∃ scaled filtered, filterLogits p d scaled = some filtered ∧
      (∀ i, scaled i ≠ ⊥ ↔ raw i ≠ ⊥) ∧
      (∀ i, out.1 i ≠ ⊥ → filtered i ≠ ⊥) ∧
      ((∃ i, filtered i ≠ ⊥) → ∃ i, out.1 i ≠ ⊥ ∧ out.2 i ≠ ⊥) := by
  obtain ⟨filtered, hfiltered, h⟩ := Option.bind_eq_some_iff.mp h
  refine ⟨_, filtered, hfiltered, fun i => by split_ifs <;> simp, ?_⟩
  dsimp only at h
  split_ifs at h with hdominated
  · obtain rfl := Option.some_inj.mp h
    dsimp only
    refine ⟨fun i hi => (suppress_ne_bot.mp hi).2, fun _ => ?_⟩
    obtain ⟨i, hbeg, hi⟩ := exists_of_bot_lt_timestampLogprob (bot_le.trans_lt hdominated)
    exact ⟨i, suppress_ne_bot.mpr ⟨by omega, computeLogprobs_ne_bot.mp hi⟩,
      suppress_ne_bot.mpr ⟨by omega, hi⟩⟩
  · obtain ⟨lowered, hlowered, h⟩ := Option.bind_eq_some_iff.mp h
    have hbot (i : Fin v.nVocab) : lowered.getD i ⊥ ≠ ⊥ ↔ filtered i ≠ ⊥ := by
      have hofFn : (List.ofFn filtered).getD i ⊥ = filtered i := by
        simp [List.getD_eq_getElem?_getD]
      rw [not_iff_not, ← hofFn]
      exact suppressInvalidGrammar_getD (fun x => by cases x <;> simp) hlowered i
    obtain rfl := Option.some_inj.mp h
    dsimp only
    refine ⟨fun i hi => (hbot i).mp hi, fun ⟨i, hi⟩ => ?_⟩
    exact ⟨i, (hbot i).mpr hi, computeLogprobs_ne_bot.mpr ((hbot i).mpr hi)⟩
  · obtain rfl := Option.some_inj.mp h
    exact ⟨fun i hi => hi, fun ⟨i, hi⟩ => ⟨i, hi, computeLogprobs_ne_bot.mpr hi⟩⟩

/-- Without a blank to look up and a grammar nothing can fail. -/
theorem exists_processLogits (hblank : p.suppressBlank = false)
    (hgrammar : p.grammarRules = false) :
    ∃ out, processLogits depth p d temperature raw = some out := by
  simp only [processLogits, filterLogits, filterBlank, hblank, hgrammar, Bool.false_eq_true,
    false_and, if_false, Option.bind_eq_bind, Option.bind_some]
  split_ifs <;> exact ⟨_, rfl⟩

theorem kept_of_processLogits (h : processLogits depth p d temperature raw = some out)
    (hi : out.1 i ≠ ⊥) : Kept p d i := by
  obtain ⟨scaled, filtered, hfiltered, -, hout, -⟩ := exists_filtered_of_processLogits h
  exact kept_of_filterLogits hfiltered (hout i hi)

/-! ### Sampling -/

/-- The loops of the sampling functions: the first token from `lo` on with the largest
probability above zero, and its probability. -/
def argmaxProb (lo dflt : ℕ) (probs : Fin v.nVocab → F) : ℕ × F :=
  (List.finRange v.nVocab).foldl
    (fun best (i : Fin v.nVocab) =>
      if lo ≤ (i : ℕ) ∧ best.2 < probs i then (↑i, probs i) else best) (dflt, 0)

/-- A timestamp is its own `tid`. -/
def withTid (v : Vocab) (id tid : ℕ) (plog : WithBot F) : TokenData F :=
  ⟨id, if v.tokenBeg ≤ id then id else tid, plog⟩

/-- `whisper_sample_token` for the best token -/
def bestToken (logprobs : Logits v F) (probs : Fin v.nVocab → F) : TokenData F :=
  let id := (argmaxProb 0 0 probs).1
  withTid v id (argmaxProb v.tokenBeg 0 probs).1
    (if h : 0 < (argmaxProb 0 0 probs).2 ∧ id < v.nVocab then logprobs ⟨id, h.2⟩ else 0)

/-- `whisper_sample_token` for a token drawn from the distribution, and each token of
`whisper_sample_token_topk`, which has another default for `tid` -/
def drawnToken (dflt : ℕ) (logprobs : Logits v F) (probs : Fin v.nVocab → F)
    (i : Fin v.nVocab) : TokenData F :=
  withTid v i (argmaxProb v.tokenBeg dflt probs).1 (logprobs i)

/-- The ways to sample a token. -/
inductive Sampling
  | best
  | drawn
  | topk
  deriving DecidableEq, Repr

/-- A token that may be sampled. Without a probability above zero the best token is the one
that the loop starts with, and `std::discrete_distribution` does not say what a draw is. -/
def Sampled (how : Sampling) (logprobs : Logits v F) (probs : Fin v.nVocab → F)
    (tok : TokenData F) : Prop :=
  (∃ i, 0 < probs i ∧
    tok = match how with
      | .best => bestToken logprobs probs
      | .drawn => drawnToken 0 logprobs probs i
      | .topk => drawnToken v.tokenBeg logprobs probs i) ∨
    (how = .best ∧ (∀ i, probs i ≤ 0) ∧ tok = bestToken logprobs probs)

theorem argmaxProb_cases (lo dflt : ℕ) (probs : Fin v.nVocab → F) :
    (argmaxProb lo dflt probs = (dflt, 0) ∧ ∀ i : Fin v.nVocab, lo ≤ i → probs i ≤ 0) ∨
      ∃ i : Fin v.nVocab, lo ≤ i ∧ 0 < probs i ∧ argmaxProb lo dflt probs = (↑i, probs i) := by
  -- induction over the beginnings of the range of tokens
  suffices h : ∀ l : List (Fin v.nVocab),
      let best := l.foldl
        (fun best (i : Fin v.nVocab) =>
          if lo ≤ (i : ℕ) ∧ best.2 < probs i then (↑i, probs i) else best) (dflt, 0)
      (best = (dflt, 0) ∧ ∀ i ∈ l, lo ≤ (i : ℕ) → probs i ≤ 0) ∨
        ∃ i : Fin v.nVocab, lo ≤ i ∧ 0 < probs i ∧ best = (↑i, probs i) by
    simpa [argmaxProb] using h (List.finRange v.nVocab)
  intro l
  induction l using List.reverseRecOn with
  | nil => simp
  | append_singleton l i ih =>
    simp only [List.foldl_append, List.foldl_cons, List.foldl_nil]
    split_ifs with hi
    · refine Or.inr ⟨i, hi.1, ?_, rfl⟩
      rcases ih with ⟨hbest, -⟩ | ⟨k, -, hk, hbest⟩
      · rw [hbest] at hi
        exact hi.2
      · rw [hbest] at hi
        exact hk.trans hi.2
    · rcases ih with ⟨hbest, hl⟩ | hfound
      · refine Or.inl ⟨hbest, ?_⟩
        intro k hk hlo
        rcases List.mem_append.mp hk with hk | hk
        · exact hl k hk hlo
        · rw [List.mem_singleton.mp hk] at hlo ⊢
          rw [hbest] at hi
          exact not_lt.mp fun hpos => hi ⟨hlo, hpos⟩
      · exact Or.inr hfound

theorem lt_of_computeProbs_pos {logprobs : Logits v F} (h : 0 < computeProbs logits logprobs i) :
    logits i ≠ ⊥ := by
  intro hbot
  rw [computeProbs, if_pos hbot] at h
  exact lt_irrefl 0 h

theorem exists_of_sampled {how : Sampling} {logprobs : Logits v F} {probs : Fin v.nVocab → F}
    {tok : TokenData F} (h : Sampled how logprobs probs tok) :
    (v.tokenBeg ≤ tok.id → tok.tid = tok.id) ∧
      ((∃ i, 0 < probs i ∧ tok.id = i) ∨ ((∀ i, probs i ≤ 0) ∧ tok.id = 0)) := by
  have htid (id tid : ℕ) (plog : WithBot F) (hid : v.tokenBeg ≤ id) :
      (withTid v id tid plog).tid = id := if_pos hid
  rcases h with ⟨i, hi, rfl⟩ | ⟨-, hnone, rfl⟩
  · cases how with
    | best =>
      rcases argmaxProb_cases 0 0 probs with ⟨-, hnone⟩ | ⟨k, -, hk, hbest⟩
      · exact absurd hi (not_lt.mpr (hnone i (Nat.zero_le _)))
      · exact ⟨htid _ _ _, .inl ⟨k, hk, by simp [bestToken, withTid, hbest]⟩⟩
    | drawn => exact ⟨htid _ _ _, .inl ⟨i, hi, rfl⟩⟩
    | topk => exact ⟨htid _ _ _, .inl ⟨i, hi, rfl⟩⟩
  · refine ⟨htid _ _ _, .inr ⟨hnone, ?_⟩⟩
    rcases argmaxProb_cases 0 0 probs with ⟨hbest, -⟩ | ⟨k, -, hk, -⟩
    · simp [bestToken, withTid, hbest]
    · exact absurd hk (not_lt.mpr (hnone k))

/-- A token that was sampled is one that the filters have left, or token 0 where they have
left none with a probability. -/
theorem kept_of_sampled {how : Sampling} {tok : TokenData F}
    (h : processLogits depth p d temperature raw = some out)
    (hsampled : Sampled how out.2 (computeProbs out.1 out.2) tok) :
    tok.id < v.nVocab ∧ (v.tokenBeg ≤ tok.id → tok.tid = tok.id) ∧
      (Kept p d tok.id ∨ ((∀ i, computeProbs out.1 out.2 i ≤ 0) ∧ tok.id = 0)) := by
  obtain ⟨htid, ⟨i, hpos, hid⟩ | ⟨hnone, hid⟩⟩ := exists_of_sampled hsampled
  · refine ⟨hid ▸ i.isLt, htid, .inl ?_⟩
    rw [hid]
    exact kept_of_processLogits h (lt_of_computeProbs_pos hpos)
  · have := v.large
    exact ⟨by omega, htid, .inr ⟨hnone, hid⟩⟩

end Probabilities

end WhisperAndroid.Decode
