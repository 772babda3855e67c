import Mathlib.Data.List.Basic

/-!
# The vocabulary

The special tokens of `whisper_vocab` as `whisper_model_load` leaves them: they move
with the size of the vocabulary, so that the timestamps from 0.00 to 30.00 seconds
are always its last 1501 tokens.

## Main results

* `Vocab.tokenBeg_eq` — where the timestamps begin
* `Vocab.special_cases` — which tokens lie between the end of text and the timestamps
-/

namespace WhisperAndroid.Decode

/-- `WHISPER_CHUNK_SIZE`, in seconds -/
def chunkSize : ℕ := 30

/-- `g_lang.size()` -/
def langCount : ℕ := 100

/-- `whisper_vocab` of a model that has at least the tokens of the smallest one. -/
structure Vocab where
  nVocab : ℕ
  idToToken : ℕ → List UInt8
  large : 51864 ≤ nVocab

namespace Vocab

variable (v : Vocab)

def isMultilingual : Bool := 51865 ≤ v.nVocab

def numLanguages : ℕ := v.nVocab - 51765 - if v.isMultilingual then 1 else 0

/-- `dt`, by which the loader moves the tokens after the languages -/
def dt : ℕ := if v.isMultilingual then v.numLanguages - 98 else 0

def tokenEot : ℕ := 50256 + if v.isMultilingual then 1 else 0

def tokenSot : ℕ := 50257 + if v.isMultilingual then 1 else 0

def tokenTranslate : ℕ := 50357 + v.dt

def tokenTranscribe : ℕ := 50358 + v.dt

def tokenSolm : ℕ := 50359 + v.dt

def tokenPrev : ℕ := 50360 + v.dt

def tokenNosp : ℕ := 50361 + v.dt

def tokenNot : ℕ := 50362 + v.dt

def tokenBeg : ℕ := 50363 + v.dt

/-- `whisper_token_lang` -/
def tokenLang (langId : ℕ) : ℕ := v.tokenSot + 1 + langId

/-- `token_to_id`: the loader overwrites the entry of a text that it meets again. -/
def tokenToId (text : List UInt8) : Option ℕ :=
  (List.range v.nVocab).reverse.find? fun id => v.idToToken id = text

/-- The tokens that the search never takes: those of the prompt, and that for silence. -/
def IsControl (id : ℕ) : Prop :=
  id = v.tokenNot ∨ id = v.tokenSot ∨ id = v.tokenNosp ∨ id = v.tokenTranslate ∨
    id = v.tokenTranscribe ∨ id = v.tokenPrev ∨ ∃ lang < langCount, id = v.tokenLang lang

variable {v}

theorem tokenToId_lt {text : List UInt8} {id : ℕ} (h : v.tokenToId text = some id) :
    id < v.nVocab ∧ v.idToToken id = text := by
  rw [tokenToId] at h
  have hmem := List.mem_of_find?_eq_some h
  rw [List.mem_reverse, List.mem_range] at hmem
  exact ⟨hmem, by simpa using List.find?_some h⟩

theorem dt_eq : v.dt = v.nVocab - 51864 := by
  rw [dt, numLanguages, isMultilingual]
  by_cases hmulti : 51865 ≤ v.nVocab
  · simp only [hmulti, decide_true, if_true]
    omega
  · simp only [hmulti, decide_false, Bool.false_eq_true, if_false]
    omega

/-- The end of text and the start of the transcript move by one, and the rest with them. -/
theorem bump_le : (if v.isMultilingual then 1 else 0) ≤ min 1 v.dt := by
  rw [dt_eq, isMultilingual]
  by_cases hmulti : 51865 ≤ v.nVocab
  · simp only [hmulti, decide_true, if_true]
    omega
  · simp [hmulti]

theorem tokenBeg_eq : v.tokenBeg = v.nVocab - 1501 := by
  have := v.large
  rw [tokenBeg, dt_eq]
  omega

theorem tokenBeg_lt : v.tokenBeg < v.nVocab := by
  have := v.large
  rw [tokenBeg_eq]
  omega

/-- The last timestamp is that of the end of a chunk. -/
theorem sub_tokenBeg_le {id : ℕ} (h : id < v.nVocab) :
    2 * (id - v.tokenBeg) ≤ 100 * chunkSize := by
  rw [tokenBeg_eq, chunkSize]
  omega

theorem tokenEot_lt_tokenBeg : v.tokenEot < v.tokenBeg := by
  rw [tokenEot, tokenBeg]
  split <;> omega

theorem tokenSolm_lt_tokenBeg : v.tokenSolm < v.tokenBeg := by
  rw [tokenSolm, tokenBeg]
  omega

theorem tokenEot_lt_tokenSolm : v.tokenEot < v.tokenSolm := by
  rw [tokenEot, tokenSolm]
  split <;> omega

theorem IsControl.bounds {id : ℕ} (h : v.IsControl id) : v.tokenEot < id ∧ id < v.tokenBeg := by
  have hbump := v.bump_le
  simp only [IsControl, tokenEot, tokenSot, tokenLang, tokenTranslate, tokenTranscribe,
    tokenPrev, tokenNosp, tokenNot, tokenBeg, langCount] at *
  generalize (if v.isMultilingual then 1 else 0) = bump at *
  rcases h with h | h | h | h | h | h | ⟨lang, hlang, h⟩ <;> omega

/-- The tokens between the end of text and the timestamps. Where a model has more
languages than `g_lang`, their tokens lie between the last one and the task tokens. -/
theorem special_cases {id : ℕ} (heot : v.tokenEot ≤ id) (hbeg : id < v.tokenBeg) :
    id = v.tokenEot ∨ id = v.tokenSolm ∨ v.IsControl id ∨
      (v.tokenLang langCount ≤ id ∧ id < v.tokenTranslate) := by
  by_cases hlang : ∃ lang < langCount, id = v.tokenLang lang
  · exact Or.inr (Or.inr (Or.inl (by simp [IsControl, hlang])))
  · have hgap : id ≤ v.tokenSot ∨ v.tokenLang langCount ≤ id := by
      by_contra! hcon
      refine hlang ⟨id - (v.tokenSot + 1), ?_, ?_⟩ <;>
        (simp only [tokenLang] at *; omega)
    simp only [IsControl, tokenEot, tokenSot, tokenLang, tokenTranslate, tokenTranscribe,
      tokenSolm, tokenPrev, tokenNosp, tokenNot, tokenBeg] at *
    omega

/-- With no more languages than `g_lang` there is no token between them and the task tokens. -/
theorem tokenTranslate_le (h : v.nVocab ≤ 51866) : v.tokenTranslate ≤ v.tokenLang langCount := by
  rw [tokenTranslate, dt_eq, tokenLang, tokenSot, langCount, isMultilingual]
  by_cases hmulti : 51865 ≤ v.nVocab
  · simp only [hmulti, decide_true, if_true]
    omega
  · simp only [hmulti, decide_false, Bool.false_eq_true, if_false]
    omega

end Vocab

end WhisperAndroid.Decode
