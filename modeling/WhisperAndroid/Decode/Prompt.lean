import Mathlib.Data.List.Infix
import Mathlib.Tactic.SplitIfs
import WhisperAndroid.Decode.Vocabulary

/-!
# The prompt of a window

`whisper_full_with_state` puts tokens of the past before the task tokens: those of the
initial prompt, which may be carried through all windows, and then the last ones that were
decoded, as many as the context leaves room for.

## Main results

* `prompt_length_le` — a prompt takes half of the context and four tokens at most
* `history_eq_none_iff` — when the code reads behind the end of the decoded tokens
* `afterWindow_suffix` — what a window leaves is the end of all that was decoded
-/

namespace WhisperAndroid.Decode

/-- The parameters that the prompt depends on. A language that `whisper_lang_id` does not
know has no id. -/
structure PromptParams where
  nTextCtx : ℕ
  nMaxTextCtx : ℤ
  carryInitialPrompt : Bool
  noContext : Bool
  promptTokens : List ℕ
  langId : Option ℕ
  translate : Bool
  noTimestamps : Bool

/-- `prompt_past0` and `prompt_past1` -/
structure PromptPast where
  past0 : List ℕ
  past1 : List ℕ

/-- The last tokens of a list. -/
def lastTokens (n : ℕ) (l : List ℕ) : List ℕ := l.drop (l.length - n)

section Definitions

variable (v : Vocab) (p : PromptParams)

/-- `max_prompt_ctx` -/
def maxPromptCtx : ℤ := min p.nMaxTextCtx (p.nTextCtx / 2 : ℕ)

/-- The past at the start of a call. -/
def preparePast (s : PromptPast) : PromptPast :=
  let s := if p.noContext then ⟨[], []⟩ else s
  if p.promptTokens = [] then s
  else if p.carryInitialPrompt then
    if s.past0 = [] then
      let maxTokens := (max 1 (maxPromptCtx p - 1)).toNat
      { s with past0 := lastTokens (min p.promptTokens.length maxTokens) p.promptTokens }
    else s
  else { s with past1 := p.promptTokens ++ s.past1 }

/-- `prompt_init`, the tokens that determine the task -/
def promptInit : List ℕ :=
  v.tokenSot ::
    ((if v.isMultilingual then
        [p.langId.elim v.tokenSot v.tokenLang,
          if p.translate then v.tokenTranslate else v.tokenTranscribe]
      else []) ++
      if p.noTimestamps then [v.tokenNot] else [])

/-- `can_take0` -/
def canTake0 (s : PromptPast) : Bool := p.carryInitialPrompt && s.past0 ≠ []

/-- The tokens of the initial prompt that go into a prompt. -/
def take0 (s : PromptPast) : List ℕ := if canTake0 p s then s.past0 else []

/-- `n_take1` -/
def nTake1 (s : PromptPast) : ℤ :=
  min (maxPromptCtx p - (take0 p s).length - 1) s.past1.length

/-- The tokens of the past in a prompt, for a temperature below the cutoff or not. There
are none if `n_take1` is negative, so that the code reads behind the end of `prompt_past1`. -/
def history (s : PromptPast) (cool : Bool) : Option (List ℕ) :=
  if (0 < p.nMaxTextCtx ∧ cool) ∧ 0 < maxPromptCtx p ∧ (canTake0 p s ∨ s.past1 ≠ []) then
    if nTake1 p s < 0 then none
    else some (v.tokenPrev :: (take0 p s ++ lastTokens (nTake1 p s).toNat s.past1))
  else some []

/-- The prompt of a window. -/
def windowPrompt (s : PromptPast) (cool : Bool) : Option (List ℕ) :=
  (history v p s cool).map (· ++ promptInit v p)

/-- The past after a window with the given prompt, in which some tokens were decoded. -/
def afterWindow (s : PromptPast) (prompt decoded : List ℕ) : PromptPast where
  past0 := s.past0
  past1 :=
    (if p.carryInitialPrompt = false ∧ prompt.head? = some v.tokenPrev then
      (prompt.take (prompt.length - (promptInit v p).length)).drop 1
    else []) ++ decoded

/-- A carried prompt leaves room in the context. -/
def InBudget (s : PromptPast) : Prop :=
  p.carryInitialPrompt → s.past0 = [] ∨ maxPromptCtx p ≤ 0 ∨
    (s.past0.length : ℤ) + 1 ≤ maxPromptCtx p

end Definitions

variable {v : Vocab} {p : PromptParams} {s : PromptPast} {cool : Bool} {prompt decoded : List ℕ}

/-! ### The length -/

theorem lastTokens_suffix (n : ℕ) (l : List ℕ) : lastTokens n l <:+ l := List.drop_suffix _ _

theorem length_lastTokens (n : ℕ) (l : List ℕ) : (lastTokens n l).length = min n l.length := by
  rw [lastTokens, List.length_drop]
  omega

theorem promptInit_length_le : (promptInit v p).length ≤ 4 := by
  rw [promptInit]
  split_ifs <;> simp

/-- What the past of a prompt is made of. -/
theorem history_cases {tokens : List ℕ} (h : history v p s cool = some tokens) :
    tokens = [] ∨ ∃ take1, tokens = v.tokenPrev :: (take0 p s ++ take1) ∧ take1 <:+ s.past1 ∧
      (tokens.length : ℤ) ≤ maxPromptCtx p := by
  rw [history] at h
  split_ifs at h with htaken hnegative
  · refine Or.inr ⟨_, (Option.some_inj.mp h).symm, lastTokens_suffix _ _, ?_⟩
    rw [← Option.some_inj.mp h, List.length_cons, List.length_append, length_lastTokens]
    rw [nTake1] at hnegative ⊢
    push_cast
    omega
  · exact Or.inl (Option.some_inj.mp h).symm

/-- A prompt takes half of the context and the task tokens at most. -/
theorem prompt_length_le (h : windowPrompt v p s cool = some prompt) :
    prompt.length ≤ p.nTextCtx / 2 + 4 := by
  obtain ⟨tokens, htokens, rfl⟩ := Option.map_eq_some_iff.mp h
  have hinit : (promptInit v p).length ≤ 4 := promptInit_length_le
  rw [List.length_append]
  rcases history_cases htokens with rfl | ⟨_, -, -, hle⟩
  · simp only [List.length_nil]
    omega
  · rw [maxPromptCtx] at hle
    omega

/-! ### The carried prompt -/

theorem canTake0_iff : canTake0 p s = true ↔ p.carryInitialPrompt ∧ s.past0 ≠ [] := by
  simp [canTake0]

theorem take0_of_not_carry (h : p.carryInitialPrompt = false) : take0 p s = [] := by
  simp [take0, canTake0, h]

/-- The code reads behind the end of the decoded tokens exactly if it carries an initial
prompt that fills the context. -/
theorem history_eq_none_iff :
    history v p s cool = none ↔
      cool ∧ p.carryInitialPrompt ∧ s.past0 ≠ [] ∧ 0 < maxPromptCtx p ∧
        maxPromptCtx p ≤ s.past0.length := by
  have hmax : 0 < maxPromptCtx p → 0 < p.nMaxTextCtx := fun h => by
    rw [maxPromptCtx] at h
    omega
  -- only a carried prompt takes room from the decoded tokens
  have hnegative (hpos : 0 < maxPromptCtx p) :
      nTake1 p s < 0 ↔ canTake0 p s = true ∧ maxPromptCtx p ≤ s.past0.length := by
    rw [nTake1, take0]
    split_ifs with htake
    · simp only [htake, true_and]
      omega
    · refine iff_of_false ?_ fun h => htake h.1
      simp only [List.length_nil]
      omega
  rw [history]
  split_ifs with htaken hneg
  · obtain ⟨⟨-, hcool⟩, hpos, -⟩ := htaken
    obtain ⟨htake, hle⟩ := (hnegative hpos).mp hneg
    obtain ⟨hcarry, hne⟩ := canTake0_iff.mp htake
    exact iff_of_true rfl ⟨hcool, hcarry, hne, hpos, hle⟩
  · refine iff_of_false (by simp) fun ⟨_, hcarry, hne, hpos, hle⟩ => ?_
    exact hneg ((hnegative hpos).mpr ⟨canTake0_iff.mpr ⟨hcarry, hne⟩, hle⟩)
  · refine iff_of_false (by simp) fun ⟨hcool, hcarry, hne, hpos, _⟩ => ?_
    exact htaken ⟨⟨hmax hpos, hcool⟩, hpos, Or.inl (canTake0_iff.mpr ⟨hcarry, hne⟩)⟩

theorem InBudget.exists_prompt (h : InBudget p s) :
    ∃ prompt, windowPrompt v p s cool = some prompt := by
  cases hhistory : history v p s cool with
  | none =>
    obtain ⟨-, hcarry, hne, hpos, hle⟩ := history_eq_none_iff.mp hhistory
    rcases h hcarry with hnil | hle' | hlt
    · exact absurd hnil hne
    all_goals omega
  | some tokens => exact ⟨_, by rw [windowPrompt, hhistory]; rfl⟩

/-- Without the context of an earlier call a carried prompt leaves room, unless there is
room for one token only. -/
theorem preparePast_inBudget (hno : p.noContext) (hone : maxPromptCtx p ≠ 1) :
    InBudget p (preparePast p s) := by
  intro hcarry
  simp only [preparePast, hno, if_true, hcarry]
  split_ifs with hnil
  · exact Or.inl rfl
  · right
    simp only [length_lastTokens]
    omega

/-! ### The decoded tokens -/

theorem tokenSot_ne_tokenPrev : v.tokenSot ≠ v.tokenPrev := by
  rw [Vocab.tokenSot, Vocab.tokenPrev]
  split <;> omega

/-- After a window the past is the end of what it was before and the decoded tokens. -/
theorem afterWindow_suffix (h : windowPrompt v p s cool = some prompt) :
    (afterWindow v p s prompt decoded).past1 <:+ s.past1 ++ decoded := by
  obtain ⟨tokens, htokens, rfl⟩ := Option.map_eq_some_iff.mp h
  rw [afterWindow]
  split_ifs with hkept
  · obtain ⟨hcarry, hhead⟩ := hkept
    rcases history_cases htokens with rfl | ⟨take1, rfl, hsuffix, -⟩
    · rw [List.nil_append, promptInit, List.head?_cons, Option.some_inj] at hhead
      exact absurd hhead tokenSot_ne_tokenPrev
    · rw [take0_of_not_carry hcarry, List.nil_append, List.length_append, Nat.add_sub_cancel,
        List.take_left', List.drop_one, List.tail_cons]
      · obtain ⟨before, hbefore⟩ := hsuffix
        exact ⟨before, by rw [← List.append_assoc, hbefore]⟩
      · rfl
  · exact List.suffix_append _ _

end WhisperAndroid.Decode
