import WhisperAndroid.Grammar.Candidates
import WhisperAndroid.Grammar.Utf8

/-!
# Tokens against a grammar

`whisper_suppress_invalid_grammar` lowers the scores of the tokens that the grammar
rejects, and `whisper_grammar_accept_token` takes the token that was sampled.

## Main results

* `suppress_agrees_with_accept` — a token keeps its score exactly when it could be
  accepted
* `nil_mem_acceptTokens_iff` — the accepted tokens end a word of the grammar exactly when
  their text is one, wherever they cut its characters
* `acceptTokens_ne_nil_iff` — a stack is left exactly when the text begins a word
-/

namespace WhisperAndroid.Grammar

open Leftmost ModifiedUtf8

/-- `whisper_grammar` -/
structure GrammarState where
  rules : List Pos
  live : List Stack
  partialUtf8 : PartialUtf8
  deriving DecidableEq, Repr

/-- The candidates of `whisper_suppress_invalid_grammar`: the tokens before the end of
text, but for those without a text. -/
def grammarCandidates (texts : ℕ → List UInt8) (eot : ℕ) (unfinished : PartialUtf8) :
    List Candidate :=
  (List.range eot).filterMap fun id =>
    if (texts id).isEmpty then none
    else
      let decoded := decodeUtf8 (texts id) unfinished
      some ⟨id, decoded.1, 0, decoded.2⟩

/-- `whisper_suppress_invalid_grammar`, with the subtraction of the penalty. -/
def suppressInvalidGrammar {F : Type} (depth : ℕ) (texts : ℕ → List UInt8) (eot : ℕ)
    (penalise : F → F) (grammar : GrammarState) (logits : List F) : Option (List F) :=
  if grammar.rules.isEmpty ∨ grammar.live.isEmpty then some logits
  else do
    let rejects ← rejectCandidates grammar.rules depth grammar.live
      (grammarCandidates texts eot grammar.partialUtf8)
    some (rejects.foldl (fun logits reject => logits.modify reject.id penalise) logits)

/-- `whisper_grammar_accept_token`. A text that starts with `[_` is that of a special
token. -/
def acceptToken (depth : ℕ) (texts : ℕ → List UInt8) (grammar : GrammarState) (token : ℕ) :
    Option GrammarState :=
  if grammar.rules.isEmpty ∨ grammar.live.isEmpty then some grammar
  else if [0x5b, 0x5f].isPrefixOf (texts token) then some grammar
  else do
    let decoded := decodeUtf8 (texts token) grammar.partialUtf8
    let live ← acceptAll grammar.rules depth grammar.live decoded.1.dropLast
    some { grammar with live := live, partialUtf8 := decoded.2 }

/-- Accept tokens one after another. -/
def acceptTokens (depth : ℕ) (texts : ℕ → List UInt8) (grammar : GrammarState)
    (tokens : List ℕ) : Option GrammarState :=
  tokens.foldlM (acceptToken depth texts) grammar

/-- An incomplete character fits the top of a stack. -/
def StackFits (stack : Stack) (unfinished : PartialUtf8) : Prop :=
  unfinished.nRemain = 0 ∨
    ∃ top, stack.head? = some top ∧ matchPartialChar top unfinished = some true

/-! ### An accented letter and any number of marks -/

/-- The first rule is an accented letter and the second rule, the second rule a mark and
the second rule again, or nothing. -/
def marked : Rules where
  alternates := [[[.terminal ⟨true, ⟨0xe0, some 0xef⟩, []⟩, .nonterminal 1]],
    [[.terminal ⟨true, ⟨0x21, none⟩, [⟨0x3f, none⟩]⟩, .nonterminal 1], []]]
  nonempty := by decide
  closed := by simp

/-- The first two texts cut an accented letter. -/
def markedTexts (id : ℕ) : List UInt8 := [[0xc3], [0xa9, 0x21], [0x61]].getD id []

/-- The stacks of `whisper_grammar_init`. -/
def markedStacks : List Stack := [[marked.encode.getD 0 []]]

theorem initStacks_marked : initStacks marked.encode 4 0 = some markedStacks := by rfl

theorem acceptTokens_marked :
    acceptTokens 4 markedTexts ⟨marked.encode, markedStacks, ⟨0, 0⟩⟩ [0, 1] =
      some ⟨marked.encode, [[marked.encode.getD 1 []], []], ⟨0x21, 0⟩⟩ := by rfl

theorem acceptTokens_marked_first :
    acceptTokens 4 markedTexts ⟨marked.encode, markedStacks, ⟨0, 0⟩⟩ [0] =
      some ⟨marked.encode, markedStacks, ⟨3, 1⟩⟩ := by rfl

theorem acceptToken_marked :
    acceptToken 4 markedTexts ⟨marked.encode, markedStacks, ⟨3, 1⟩⟩ 1 =
      some ⟨marked.encode, [[marked.encode.getD 1 []], []], ⟨0x21, 0⟩⟩ := by rfl

theorem suppress_marked :
    suppressInvalidGrammar 4 markedTexts 3 (· - 5) ⟨marked.encode, markedStacks, ⟨3, 1⟩⟩
      ([10, 20, 30] : List ℤ) = some [5, 20, 25] := by rfl

theorem spells_marked_nil : Spells (marked.toGrammar 0) CharClass.Accepts [.nonterminal 1] [] :=
  .nonterminal (mem_toGrammar_rules.mpr ⟨_, rfl, List.mem_cons_of_mem _ List.mem_cons_self⟩) .nil

theorem mem_words_marked : [0xe9, 0x21] ∈ marked.words 0 :=
  mem_words_iff.mpr <|
    .nonterminal (mem_toGrammar_rules.mpr ⟨_, rfl, List.mem_cons_self⟩) <|
    .terminal (by decide) <|
    .nonterminal (mem_toGrammar_rules.mpr ⟨_, rfl, List.mem_cons_self⟩) <|
    .terminal (by decide) spells_marked_nil

theorem productive_marked : marked.Productive 0 := by
  have htail : ∃ w, Spells (marked.toGrammar 0) CharClass.Accepts [.nonterminal 1] w :=
    ⟨[], spells_marked_nil⟩
  have hletter : ∃ w, Spells (marked.toGrammar 0) CharClass.Accepts
      [.terminal ⟨true, ⟨0xe0, some 0xef⟩, []⟩] w := ⟨[0xe0], .terminal (by decide) .nil⟩
  have hmark : ∃ w, Spells (marked.toGrammar 0) CharClass.Accepts
      [.terminal ⟨true, ⟨0x21, none⟩, [⟨0x3f, none⟩]⟩] w := ⟨[0x21], .terminal (by decide) .nil⟩
  simp only [Rules.Productive, Leftmost.Productive, marked, List.forall_mem_cons,
    List.not_mem_nil, false_implies, implies_true, and_true]
  exact ⟨⟨hletter, htail⟩, ⟨hmark, htail⟩⟩

/-! ### Penalties -/

section Tokens

variable {rules : Rules} {start depth : ℕ} {stack : Stack} {live : List Stack}
  {tok : Candidate} {β : List (Symbol CharClass ℕ)}

theorem decodeUtf8_terminated (src : List UInt8) (partialStart : PartialUtf8) :
    ∃ chrs, (decodeUtf8 src partialStart).1 = chrs ++ [0] := by
  have hsequences (bytes : List UInt8) (d : Decoding) :
      ∃ chrs, (decodeSequences bytes d).1 = chrs ++ [0] := by
    induction bytes generalizing d with
    | nil => exact ⟨_, rfl⟩
    | cons b bytes ih =>
      rw [decodeSequences]
      split_ifs
      · exact ⟨_, rfl⟩
      · exact ih _
      · exact ⟨[], rfl⟩
      · exact ih _
  rw [decodeUtf8]
  split
  · exact ⟨[], rfl⟩
  · exact hsequences _ _

theorem getElem?_foldl_modify {F : Type} (f : F → F) {ids : List ℕ} (hnodup : ids.Nodup)
    (l : List F) (k : ℕ) :
    (ids.foldl (fun l id => l.modify id f) l)[k]? =
      if k ∈ ids then l[k]?.map f else l[k]? := by
  induction ids generalizing l with
  | nil => simp
  | cons id ids ih =>
    obtain ⟨hid, hnodup⟩ := List.nodup_cons.mp hnodup
    rw [List.foldl_cons, ih hnodup, List.getElem?_modify]
    by_cases hk : id = k
    · subst hk
      simp [hid]
    · simp [hk, Ne.symm hk]

theorem mem_grammarCandidates {texts : ℕ → List UInt8} {eot : ℕ} {unfinished : PartialUtf8} :
    tok ∈ grammarCandidates texts eot unfinished ↔
      tok.id < eot ∧ texts tok.id ≠ [] ∧
        tok = ⟨tok.id, (decodeUtf8 (texts tok.id) unfinished).1, 0,
          (decodeUtf8 (texts tok.id) unfinished).2⟩ := by
  rw [grammarCandidates, List.mem_filterMap]
  constructor
  · intro ⟨id, hid, htok⟩
    split_ifs at htok with hempty
    obtain rfl := Option.some.inj htok
    exact ⟨List.mem_range.mp hid, by simpa using hempty, rfl⟩
  · intro ⟨hid, hne, htok⟩
    refine ⟨tok.id, List.mem_range.mpr hid, ?_⟩
    rw [if_neg (by simpa using hne)]
    exact congrArg some htok.symm

theorem nodup_grammarCandidates (texts : ℕ → List UInt8) (eot : ℕ) (unfinished : PartialUtf8) :
    ((grammarCandidates texts eot unfinished).map Candidate.id).Nodup := by
  have hids : ((grammarCandidates texts eot unfinished).map Candidate.id).Sublist
      (List.range eot) := by
    rw [grammarCandidates]
    induction List.range eot with
    | nil => exact .slnil
    | cons id ids ih =>
      rw [List.filterMap_cons]
      split
      · exact ih.cons id
      · rename_i tok htok
        split_ifs at htok
        obtain rfl := Option.some.inj htok
        exact ih.cons_cons id
  exact hids.nodup List.nodup_range

theorem Denotes.stackFits_iff {unfinished : PartialUtf8} (hdenotes : Denotes stack β)
    (hsettled : Settled β) : StackFits stack unfinished ↔ Fits β unfinished := by
  cases stack with
  | nil =>
    obtain rfl := denotes_nil_left.mp hdenotes
    simp [StackFits, Fits]
  | cons pos stack =>
    obtain ⟨symbol, s, after, γ, rfl, hafter, _, rfl⟩ := hdenotes.exists_top
    cases symbol with
    | nonterminal id => exact absurd rfl (hsettled id _)
    | terminal cls =>
      have hmatch : matchPartialChar
          (encodeSymbol (.terminal cls) ++ (encodeSequence s ++ after)) unfinished =
            some (cls.acceptsPartial unfinished) :=
        matchPartialChar_encode (endsClass_encodeSequence hafter) unfinished
      simp [StackFits, Fits, hmatch]

/-- The grammar state is one of the rules, with stacks that denote sentential forms. -/
def Reached (rules : Rules) (grammar : GrammarState) : Prop :=
  grammar.rules = rules.encode ∧ rules.encode ≠ [] ∧
    ∃ S, Matches grammar.live S ∧ ∀ β ∈ S, Settled β

theorem reached_init (h : initStacks rules.encode depth start = some live)
    (unfinished : PartialUtf8) : Reached rules ⟨rules.encode, live, unfinished⟩ := by
  refine ⟨rfl, fun hnil => ?_, _, initStacks_matches h, fun _ h => h.2⟩
  rw [hnil] at h
  exact nomatch h

theorem Reached.acceptToken {grammar grammar' : GrammarState} {texts : ℕ → List UInt8}
    {token : ℕ} (hreached : Reached rules grammar)
    (h : acceptToken depth texts grammar token = some grammar') : Reached rules grammar' := by
  obtain ⟨hrules, hsome, S, hlive, hsettled⟩ := hreached
  unfold Grammar.acceptToken at h
  split_ifs at h
  · exact Option.some.inj h ▸ ⟨hrules, hsome, S, hlive, hsettled⟩
  · exact Option.some.inj h ▸ ⟨hrules, hsome, S, hlive, hsettled⟩
  · obtain ⟨live', hlive', h⟩ := Option.bind_eq_some_iff.mp h
    obtain rfl := Option.some.inj h
    rw [hrules] at hlive'
    exact ⟨hrules, hsome, _, acceptAll_matches 0 hlive hsettled hlive',
      fun _ => settled_of_mem_foldl_advance hsettled⟩

theorem Reached.acceptTokens {grammar grammar' : GrammarState} {texts : ℕ → List UInt8}
    {tokens : List ℕ} (hreached : Reached rules grammar)
    (h : acceptTokens depth texts grammar tokens = some grammar') : Reached rules grammar' := by
  induction tokens generalizing grammar with
  | nil => exact Option.some.inj h ▸ hreached
  | cons token tokens ih =>
    rw [Grammar.acceptTokens, List.foldlM_cons] at h
    obtain ⟨next, hnext, h⟩ := Option.bind_eq_some_iff.mp h
    exact ih (hreached.acceptToken hnext) h

section Penalty

variable {F : Type} {texts : ℕ → List UInt8} {eot token : ℕ} {penalise : F → F}
  {logits logits' : List F} {grammar grammar' : GrammarState} {tokens : List ℕ}

/-- Every score but those of the rejected candidates stays as it is. -/
theorem suppress_getElem? (hreached : Reached rules grammar) (hne : grammar.live ≠ [])
    (h : suppressInvalidGrammar depth texts eot penalise grammar logits = some logits')
    (token : ℕ) :
    ∃ rejects, rejectCandidates rules.encode depth grammar.live
        (grammarCandidates texts eot grammar.partialUtf8) = some rejects ∧
      logits'[token]? =
        if token ∈ rejects.map Candidate.id then logits[token]?.map penalise
        else logits[token]? := by
  obtain ⟨hrules, hsome, S, hlive, hsettled⟩ := hreached
  unfold suppressInvalidGrammar at h
  rw [hrules, if_neg (by simpa using ⟨hsome, hne⟩)] at h
  obtain ⟨rejects, hrejects, h⟩ := Option.bind_eq_some_iff.mp h
  obtain rfl := Option.some.inj h
  refine ⟨rejects, hrejects, ?_⟩
  have hperm := rejectCandidates_perm 0 hlive hsettled hne hrejects
  have hnodup : (rejects.map Candidate.id).Nodup :=
    ((hperm.map Candidate.id).nodup_iff).mpr
      ((nodup_grammarCandidates texts eot _).sublist (List.filter_sublist.map _))
  rw [← getElem?_foldl_modify penalise hnodup, List.foldl_map]

open Classical in
theorem suppress_of_reached (hreached : Reached rules grammar)
    (hne : grammar.live ≠ [])
    (hsuppress : suppressInvalidGrammar depth texts eot penalise grammar logits = some logits')
    (haccept : acceptToken depth texts grammar token = some grammar')
    (htoken : token < eot) (htext : texts token ≠ [])
    (hspecial : [0x5b, 0x5f].isPrefixOf (texts token) = false)
    (hzero : 0 ∉ (decodeUtf8 (texts token) grammar.partialUtf8).1.dropLast) :
    logits'[token]? =
      if ∃ stack ∈ grammar'.live, StackFits stack grammar'.partialUtf8 then logits[token]?
      else logits[token]?.map penalise := by
  obtain ⟨rejects, hrejects, hscore⟩ := suppress_getElem? hreached hne hsuppress token
  obtain ⟨hrules, hsome, S, hlive, hsettled⟩ := hreached
  have hperm := rejectCandidates_perm 0 hlive hsettled hne hrejects
  unfold acceptToken at haccept
  rw [hrules, if_neg (by simpa using ⟨hsome, hne⟩), hspecial] at haccept
  obtain ⟨live', hlive', haccept⟩ := Option.bind_eq_some_iff.mp haccept
  obtain rfl := Option.some.inj haccept
  have hmatches := acceptAll_matches 0 hlive hsettled hlive'
  -- the candidate of the token
  let tok : Candidate := ⟨token, (decodeUtf8 (texts token) grammar.partialUtf8).1, 0,
    (decodeUtf8 (texts token) grammar.partialUtf8).2⟩
  have hcodes : tok.codePoints = (decodeUtf8 (texts token) grammar.partialUtf8).1.dropLast := by
    obtain ⟨chrs, hchrs⟩ := decodeUtf8_terminated (texts token) grammar.partialUtf8
    rw [hchrs, List.dropLast_concat] at hzero
    simp only [tok, Candidate.codePoints, List.drop_zero, hchrs, List.dropLast_concat]
    rw [List.takeWhile_append_of_pos fun chr hchr => by
      simpa using fun h : chr = 0 => hzero (h ▸ hchr)]
    simp
  have hsurvives : Survives rules 0 S tok ↔
      ∃ stack ∈ live', StackFits stack (decodeUtf8 (texts token) grammar.partialUtf8).2 := by
    rw [Survives, hcodes]
    constructor
    · rintro ⟨β, hβ, hfits⟩
      obtain ⟨stack, hstack, hdenotes⟩ := hmatches.2 β hβ
      exact ⟨stack, hstack,
        (hdenotes.stackFits_iff (settled_of_mem_foldl_advance hsettled hβ)).mpr hfits⟩
    · rintro ⟨stack, hstack, hfits⟩
      obtain ⟨β, hβ, hdenotes⟩ := hmatches.1 stack hstack
      exact ⟨β, hβ,
        (hdenotes.stackFits_iff (settled_of_mem_foldl_advance hsettled hβ)).mp hfits⟩
  have hmem : token ∈ rejects.map Candidate.id ↔ ¬ Survives rules 0 S tok := by
    rw [List.mem_map]
    constructor
    · rintro ⟨tok', hrejected, hid⟩
      obtain ⟨hcandidate, hnot⟩ := List.mem_filter.mp (hperm.mem_iff.mp hrejected)
      obtain ⟨_, _, htok⟩ := mem_grammarCandidates.mp hcandidate
      rw [hid] at htok
      simpa [htok] using hnot
    · intro hnot
      have hcandidate : tok ∈ grammarCandidates texts eot grammar.partialUtf8 :=
        mem_grammarCandidates.mpr ⟨htoken, htext, rfl⟩
      exact ⟨tok, hperm.mem_iff.mpr (List.mem_filter.mpr ⟨hcandidate, by simpa using hnot⟩), rfl⟩
  rw [hscore]
  by_cases hkeeps : Survives rules 0 S tok
  · rw [if_neg (fun h => hmem.mp h hkeeps), if_pos (hsurvives.mp hkeeps)]
  · rw [if_pos (hmem.mpr hkeeps), if_neg (fun h => hkeeps (hsurvives.mpr h))]

open Classical in
/-- A token keeps its score exactly when accepting it would leave a stack that its
unfinished character fits. -/
theorem suppress_agrees_with_accept (hinit : initStacks rules.encode depth start = some live)
    (hrun : acceptTokens depth texts ⟨rules.encode, live, ⟨0, 0⟩⟩ tokens = some grammar)
    (hne : grammar.live ≠ [])
    (hsuppress : suppressInvalidGrammar depth texts eot penalise grammar logits = some logits')
    (haccept : acceptToken depth texts grammar token = some grammar')
    (htoken : token < eot) (htext : texts token ≠ [])
    (hspecial : [0x5b, 0x5f].isPrefixOf (texts token) = false)
    (hzero : 0 ∉ (decodeUtf8 (texts token) grammar.partialUtf8).1.dropLast) :
    logits'[token]? =
      if ∃ stack ∈ grammar'.live, StackFits stack grammar'.partialUtf8 then logits[token]?
      else logits[token]?.map penalise :=
  suppress_of_reached ((reached_init hinit ⟨0, 0⟩).acceptTokens hrun) hne hsuppress haccept htoken
    htext hspecial hzero

open Classical in
theorem suppress_agrees_with_accept_marked :
    ([5, 20, 25] : List ℤ)[1]? =
      if ∃ stack ∈ ([[marked.encode.getD 1 []], []] : List Stack), StackFits stack ⟨0x21, 0⟩
      then ([10, 20, 30] : List ℤ)[1]? else ([10, 20, 30] : List ℤ)[1]?.map (· - 5) :=
  suppress_agrees_with_accept initStacks_marked acceptTokens_marked_first (by decide)
    suppress_marked acceptToken_marked (by decide) (by decide) (by decide) (by decide)

end Penalty

/-! ### Texts -/

section Texts

variable {texts : ℕ → List UInt8} {tokens : List ℕ} {grammar : GrammarState}
  {unfinished : PartialUtf8} {cs : List Char}

theorem decodePieces_append (pieces : List (List UInt8)) (chrs : List ℕ) :
    decodePieces pieces (chrs, unfinished) =
      (chrs ++ (decodePieces pieces ([], unfinished)).1,
        (decodePieces pieces ([], unfinished)).2) := by
  induction pieces generalizing chrs unfinished with
  | nil => simp [decodePieces]
  | cons piece pieces ih =>
    have hcons (chrs : List ℕ) : decodePieces (piece :: pieces) (chrs, unfinished) =
        decodePieces pieces (chrs ++ (decodeUtf8 piece unfinished).1.dropLast,
          (decodeUtf8 piece unfinished).2) := rfl
    rw [hcons, hcons, ih, ih ([] ++ _), List.nil_append, List.append_assoc]

theorem decodePieces_concat (pieces : List (List UInt8)) (piece : List UInt8)
    (s : List ℕ × PartialUtf8) :
    decodePieces (pieces ++ [piece]) s =
      ((decodePieces pieces s).1 ++ (decodeUtf8 piece (decodePieces pieces s).2).1.dropLast,
        (decodeUtf8 piece (decodePieces pieces s).2).2) := by
  rw [decodePieces, List.foldl_append, ← decodePieces]
  rfl

theorem acceptAll_nil (chrs : List ℕ) : acceptAll rules.encode depth [] chrs = some [] := by
  induction chrs with
  | nil => rfl
  | cons chr chrs ih =>
    rw [acceptAll, List.foldlM_cons]
    exact ih

theorem acceptAll_append {chrs chrs' : List ℕ} {live' : List Stack}
    (h : acceptAll rules.encode depth live chrs = some live') :
    acceptAll rules.encode depth live (chrs ++ chrs') =
      acceptAll rules.encode depth live' chrs' := by
  rw [acceptAll, List.foldlM_append, ← acceptAll, h]
  rfl

/-- Without stacks the grammar has no more say. -/
theorem acceptTokens_of_live_eq_nil (hlive : grammar.live = []) (tokens : List ℕ) :
    acceptTokens depth texts grammar tokens = some grammar := by
  induction tokens with
  | nil => rfl
  | cons token tokens ih =>
    have haccept : acceptToken depth texts grammar token = some grammar := by
      rw [acceptToken, if_pos (.inr (by rw [hlive]; rfl))]
    rw [acceptTokens, List.foldlM_cons, haccept]
    exact ih

/-- Tokens are accepted by the characters of their texts, and leave the rest of them. -/
theorem acceptAll_of_acceptTokens (hsome : rules.encode ≠ [])
    (hspecial : ∀ token ∈ tokens, [0x5b, 0x5f].isPrefixOf (texts token) = false)
    (h : acceptTokens depth texts ⟨rules.encode, live, unfinished⟩ tokens = some grammar) :
    acceptAll rules.encode depth live (decodePieces (tokens.map texts) ([], unfinished)).1 =
        some grammar.live ∧
      (grammar.live ≠ [] →
        grammar.partialUtf8 = (decodePieces (tokens.map texts) ([], unfinished)).2) := by
  induction tokens generalizing live unfinished with
  | nil => exact Option.some.inj h ▸ ⟨rfl, fun _ => rfl⟩
  | cons token tokens ih =>
    by_cases hlive : live = []
    · subst hlive
      rw [acceptTokens_of_live_eq_nil rfl] at h
      rw [acceptAll_nil, ← Option.some.inj h]
      exact ⟨rfl, fun hne => absurd rfl hne⟩
    · obtain ⟨htoken, hspecial⟩ := List.forall_mem_cons.mp hspecial
      rw [acceptTokens, List.foldlM_cons] at h
      obtain ⟨next, hnext, h⟩ := Option.bind_eq_some_iff.mp h
      rw [acceptToken, if_neg (by simpa using ⟨hsome, hlive⟩), htoken] at hnext
      obtain ⟨live', hlive', hnext⟩ := Option.bind_eq_some_iff.mp hnext
      obtain rfl := Option.some.inj hnext
      have hcons : decodePieces ((token :: tokens).map texts) ([], unfinished) =
          decodePieces (tokens.map texts) ((decodeUtf8 (texts token) unfinished).1.dropLast,
            (decodeUtf8 (texts token) unfinished).2) := rfl
      rw [hcons, decodePieces_append, acceptAll_append hlive']
      exact ih hspecial h

variable (hinit : initStacks rules.encode depth start = some live)
  (hspecial : ∀ token ∈ tokens, [0x5b, 0x5f].isPrefixOf (texts token) = false)
  (haccept : acceptTokens depth texts ⟨rules.encode, live, ⟨0, 0⟩⟩ tokens = some grammar)
  (hcs : ∀ c ∈ cs, 0 < c.toNat) (htext : (tokens.map texts).flatten = utf8 cs)
include hinit hspecial haccept hcs htext

theorem acceptAll_text :
    acceptAll rules.encode depth live (cs.map Char.toNat) = some grammar.live := by
  have hsome := (reached_init hinit ⟨0, 0⟩).2.1
  rw [← (acceptAll_of_acceptTokens hsome hspecial haccept).1, (decodePieces_utf8 hcs htext).1]

/-- After tokens that make up a text some stack is empty if and only if the text is a
word of the grammar, however the tokens cut it. -/
theorem nil_mem_acceptTokens_iff :
    [] ∈ grammar.live ↔ cs.map Char.toNat ∈ rules.words start :=
  nil_mem_acceptAll_iff hinit (acceptAll_text hinit hspecial haccept hcs htext)

omit hinit hspecial haccept hcs htext in
theorem markedChars_pos : ∀ c ∈ ['é', '!'], 0 < c.toNat :=
  List.forall_mem_cons.mpr ⟨by decide, List.forall_mem_singleton.mpr (by decide)⟩

omit hinit hspecial haccept hcs htext in
theorem nil_mem_acceptTokens_marked :
    [] ∈ [[marked.encode.getD 1 []], ([] : Stack)] ↔ [0xe9, 0x21] ∈ marked.words 0 :=
  nil_mem_acceptTokens_iff initStacks_marked (by decide) acceptTokens_marked
    markedChars_pos (by decide)

/-- Some stack is left if and only if the text begins a word of the grammar. -/
theorem acceptTokens_ne_nil_iff (hproductive : rules.Productive start) :
    grammar.live ≠ [] ↔ ∃ more, cs.map Char.toNat ++ more ∈ rules.words start :=
  acceptAll_ne_nil_iff hinit (acceptAll_text hinit hspecial haccept hcs htext) hproductive

omit hinit hspecial haccept hcs htext in
theorem acceptTokens_ne_nil_marked :
    [[marked.encode.getD 1 []], ([] : Stack)] ≠ [] ↔
      ∃ more, [0xe9, 0x21] ++ more ∈ marked.words 0 :=
  acceptTokens_ne_nil_iff initStacks_marked (by decide) acceptTokens_marked
    markedChars_pos (by decide) productive_marked

end Texts

end Tokens

end WhisperAndroid.Grammar
