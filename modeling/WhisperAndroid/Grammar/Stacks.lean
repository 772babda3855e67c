import WhisperAndroid.Grammar.Elements
import WhisperAndroid.Support.Leftmost

/-!
# The stacks of a grammar

`whisper_grammar_advance_stack`, `whisper_grammar_accept` and `whisper_grammar_init`.
The top of a stack, the back of the vector, is the head of a list. The source recurses
without a bound; here a call has a depth, and no result when that is used up.

## Main results

* `advanceStack_matches` — a stack is advanced to its frontier of leftmost replacement
* `nil_mem_acceptAll_iff` — some stack is empty after some characters exactly when
  they are a word of the grammar
* `acceptAll_ne_nil_iff` — some stack is left exactly when the characters begin a word
-/

namespace WhisperAndroid.Grammar

open Leftmost Relation

/-- The top of a stack is its head. -/
abbrev Stack := List Pos

/-- The alternates behind the marks in an array. -/
def laterAlternates : Pos → List Pos
  | [] => []
  | ⟨.stop, _⟩ :: _ => []
  | ⟨.alt, _⟩ :: subpos => subpos :: laterAlternates subpos
  | _ :: next => laterAlternates next

/-- The positions that the loop over the alternates of a rule visits. -/
def alternateStarts (rule : Pos) : List Pos := rule :: laterAlternates rule

/-- Push a position unless it is the end of an alternate. -/
def pushUnlessEnd (pos : Pos) (stack : Stack) : Stack :=
  if isEndOfSequence pos then stack else pos :: stack

/-- `whisper_grammar_advance_stack`, up to a depth of recursion. There is no result
where the assertion fails or a rule does not exist. -/
def advanceStack (rules : List Pos) : ℕ → Stack → Option (List Stack)
  | 0, _ => none
  | _ + 1, [] => some [[]]
  | depth + 1, pos :: stack =>
    match elementType pos with
    | .ruleRef => do
      let rule ← rules[elementValue pos]?
      (alternateStarts rule).flatMapM fun subpos =>
        advanceStack rules depth (pushUnlessEnd subpos (pushUnlessEnd pos.tail stack))
    | .char => some [pos :: stack]
    | .charNot => some [pos :: stack]
    | _ => none

/-- What `whisper_grammar_accept` does with one of the stacks. -/
def acceptStack (rules : List Pos) (depth : ℕ) (chr : ℕ) : Stack → Option (List Stack)
  | [] => some []
  | top :: stack => do
    let (matched, pos) ← matchChar top chr
    if matched then advanceStack rules depth (pushUnlessEnd pos stack) else some []

/-- `whisper_grammar_accept` -/
def accept (rules : List Pos) (depth : ℕ) (live : List Stack) (chr : ℕ) :
    Option (List Stack) :=
  live.flatMapM (acceptStack rules depth chr)

/-- The loop of `whisper_grammar_accept_token` over the code points of a token. -/
def acceptAll (rules : List Pos) (depth : ℕ) (live : List Stack) (chrs : List ℕ) :
    Option (List Stack) :=
  chrs.foldlM (accept rules depth) live

/-- The stacks of `whisper_grammar_init`. -/
def initStacks (rules : List Pos) (depth : ℕ) (iStartRule : ℕ) : Option (List Stack) := do
  let rule ← rules[iStartRule]?
  (alternateStarts rule).flatMapM fun pos => advanceStack rules depth (pushUnlessEnd pos [])

/-! ### Loops that collect results -/

section FlatMapM

variable {α β : Type} {f f' : α → Option (List β)} {l : List α} {r : List β}

theorem flatMapM_cons_eq_some {a : α} :
    (a :: l).flatMapM f = some r ↔ ∃ x y, f a = some x ∧ l.flatMapM f = some y ∧ r = x ++ y := by
  rw [List.flatMapM_cons]
  simp [Option.bind_eq_some_iff, @eq_comm (List β) r]

theorem mem_of_flatMapM (h : l.flatMapM f = some r) (b : β) :
    b ∈ r ↔ ∃ a ∈ l, ∃ x, f a = some x ∧ b ∈ x := by
  induction l generalizing r with
  | nil =>
    obtain rfl : [] = r := Option.some.inj h
    simp
  | cons a l ih =>
    obtain ⟨x, y, hx, hy, rfl⟩ := flatMapM_cons_eq_some.mp h
    simp [ih hy, hx]

theorem exists_flatMapM_iff : (∃ r, l.flatMapM f = some r) ↔ ∀ a ∈ l, ∃ x, f a = some x := by
  induction l with
  | nil => simp
  | cons a l ih =>
    simp only [flatMapM_cons_eq_some, List.forall_mem_cons, ← ih]
    constructor
    · intro ⟨r, x, y, hx, hy, _⟩
      exact ⟨⟨x, hx⟩, ⟨y, hy⟩⟩
    · intro ⟨⟨x, hx⟩, ⟨y, hy⟩⟩
      exact ⟨x ++ y, x, y, hx, hy, rfl⟩

theorem flatMapM_mono (hf : ∀ a x, f a = some x → f' a = some x) (h : l.flatMapM f = some r) :
    l.flatMapM f' = some r := by
  induction l generalizing r with
  | nil => exact h
  | cons a l ih =>
    obtain ⟨x, y, hx, hy, hr⟩ := flatMapM_cons_eq_some.mp h
    exact flatMapM_cons_eq_some.mpr ⟨x, y, hf a x hx, ih hy, hr⟩

/-- A depth that is enough for each entry of a list. -/
theorem exists_common_depth {F : ℕ → α → Option (List β)}
    (hmono : ∀ d d' a x, d ≤ d' → F d a = some x → F d' a = some x)
    (h : ∀ a ∈ l, ∃ d x, F d a = some x) : ∃ d r, l.flatMapM (F d) = some r := by
  suffices hcommon : ∃ d, ∀ a ∈ l, ∃ x, F d a = some x by
    obtain ⟨d, hd⟩ := hcommon
    exact ⟨d, exists_flatMapM_iff.mpr hd⟩
  induction l with
  | nil => exact ⟨0, nofun⟩
  | cons a l ih =>
    obtain ⟨⟨d, x, hx⟩, hl⟩ := List.forall_mem_cons.mp h
    obtain ⟨d', hd'⟩ := ih hl
    refine ⟨max d d', List.forall_mem_cons.mpr ⟨⟨x, hmono _ _ _ _ (le_max_left d d') hx⟩, ?_⟩⟩
    intro b hb
    obtain ⟨y, hy⟩ := hd' b hb
    exact ⟨y, hmono _ _ _ _ (le_max_right d d') hy⟩

end FlatMapM

/-! ### Depth -/

section Depth

variable {rules : List Pos} {depth depth' : ℕ} {stack : Stack} {live live' : List Stack}
  {chr : ℕ} {chrs : List ℕ}

theorem advanceStack_mono (hle : depth ≤ depth')
    (h : advanceStack rules depth stack = some live) :
    advanceStack rules depth' stack = some live := by
  induction depth generalizing depth' stack live with
  | zero => exact nomatch h
  | succ depth ih =>
    obtain ⟨depth', rfl⟩ : ∃ d, depth' = d + 1 := ⟨depth' - 1, by omega⟩
    cases stack with
    | nil => exact h
    | cons pos stack =>
      rw [advanceStack] at h ⊢
      split at h
      · obtain ⟨rule, hrule, h⟩ := Option.bind_eq_some_iff.mp h
        refine Option.bind_eq_some_iff.mpr ⟨rule, hrule, ?_⟩
        exact flatMapM_mono (fun _ _ => ih (by omega)) h
      · exact h
      · exact h
      · exact nomatch h

/-- There is always a stack left, since every rule has an alternate. -/
theorem advanceStack_ne_nil (h : advanceStack rules depth stack = some live) : live ≠ [] := by
  induction depth generalizing stack live with
  | zero => exact nomatch h
  | succ depth ih =>
    cases stack with
    | nil =>
      obtain rfl : [[]] = live := Option.some.inj h
      exact List.cons_ne_nil _ _
    | cons pos stack =>
      rw [advanceStack] at h
      split at h
      · obtain ⟨rule, _, h⟩ := Option.bind_eq_some_iff.mp h
        obtain ⟨x, y, hx, _, rfl⟩ := flatMapM_cons_eq_some.mp h
        exact List.append_ne_nil_of_left_ne_nil (ih hx) y
      · exact Option.some.inj h ▸ List.cons_ne_nil _ _
      · exact Option.some.inj h ▸ List.cons_ne_nil _ _
      · exact nomatch h

theorem acceptStack_mono (hle : depth ≤ depth')
    (h : acceptStack rules depth chr stack = some live) :
    acceptStack rules depth' chr stack = some live := by
  cases stack with
  | nil => exact h
  | cons top stack =>
    obtain ⟨⟨matched, pos⟩, hmatch, h⟩ := Option.bind_eq_some_iff.mp h
    refine Option.bind_eq_some_iff.mpr ⟨_, hmatch, ?_⟩
    cases matched with
    | false => exact h
    | true => exact advanceStack_mono hle h

theorem accept_mono (hle : depth ≤ depth')
    (h : accept rules depth live chr = some live') :
    accept rules depth' live chr = some live' :=
  flatMapM_mono (fun _ _ => acceptStack_mono hle) h

theorem acceptAll_mono (hle : depth ≤ depth')
    (h : acceptAll rules depth live chrs = some live') :
    acceptAll rules depth' live chrs = some live' := by
  induction chrs generalizing live with
  | nil => exact h
  | cons chr chrs ih =>
    rw [acceptAll, List.foldlM_cons] at h ⊢
    obtain ⟨next, hnext, h⟩ := Option.bind_eq_some_iff.mp h
    exact Option.bind_eq_some_iff.mpr ⟨next, accept_mono hle hnext, ih h⟩

end Depth

/-! ### The grammar of the rules -/

/-- The grammar with the given rule as the start. -/
abbrev Rules.toGrammar (rules : Rules) (start : ℕ) : ContextFreeGrammar CharClass where
  NT := ℕ
  initial := start
  rules := (rules.alternates.zipIdx.flatMap fun (rule, id) => rule.map (⟨id, ·⟩)).toFinset

/-- A pointer to the given symbols of an alternate, of which there may be none. -/
def Starts (pos : Pos) (s : Sequence) : Prop :=
  ∃ after, pos = encodeSequence s ++ after ∧ isEndOfSequence after = true

/-- A stack of pointers and the sentential form of the symbols that they point to. -/
def Denotes (stack : Stack) (β : List (Symbol CharClass ℕ)) : Prop :=
  ∃ seqs, List.Forall₂ (fun pos s => s ≠ [] ∧ Starts pos s) stack seqs ∧ β = seqs.flatten

/-- The stacks of a vector denote the sentential forms of a set. -/
def Matches (live : List Stack) (S : Set (List (Symbol CharClass ℕ))) : Prop :=
  (∀ stack ∈ live, ∃ β ∈ S, Denotes stack β) ∧ ∀ β ∈ S, ∃ stack ∈ live, Denotes stack β

section Grammar

variable {rules : Rules} {start id depth chr : ℕ} {s : Sequence} {rule : List Sequence}
  {pos after : Pos} {stack : Stack} {live live' : List Stack} {chrs : List ℕ}
  {β γ : List (Symbol CharClass ℕ)}

theorem mem_toGrammar_rules :
    ⟨id, s⟩ ∈ (rules.toGrammar start).rules ↔
      ∃ rule, rules.alternates[id]? = some rule ∧ s ∈ rule := by
  simp only [List.mem_toFinset, List.mem_flatMap, List.mem_map, Prod.exists,
    List.mem_zipIdx_iff_getElem?]
  constructor
  · intro ⟨rule, id', hrule, s', hs, heq⟩
    cases heq
    exact ⟨rule, hrule, hs⟩
  · intro ⟨rule, hrule, hs⟩
    exact ⟨rule, id, hrule, s, hs, rfl⟩

/-! ### Positions in a rule -/

theorem isEndOfSequence_encodeSymbol (symbol : Symbol CharClass ℕ) (next : Pos) :
    isEndOfSequence (encodeSymbol symbol ++ next) = false := by
  cases symbol with
  | nonterminal id => rfl
  | terminal cls =>
    rw [isEndOfSequence, encodeSymbol, elementType_class_append]
    cases cls.positive <;> rfl

/-- No element of an alternate ends it. -/
theorem type_of_mem_encodeSequence {element : GrammarElement} (h : element ∈ encodeSequence s) :
    element.type ≠ .stop ∧ element.type ≠ .alt := by
  obtain ⟨symbol, _, h⟩ := List.mem_flatMap.mp h
  cases symbol with
  | nonterminal id =>
    obtain rfl := List.mem_singleton.mp h
    exact ⟨nofun, nofun⟩
  | terminal cls =>
    have hrange (type : Gretype) (range : CharRange) (h : element ∈ range.encode type) :
        element.type = type ∨ element.type = .charRngUpper := by
      unfold CharRange.encode at h
      split at h <;> simp at h <;> grind
    cases List.mem_append.mp h with
    | inl h =>
      have htype := hrange _ _ h
      split at htype <;> grind
    | inr h =>
      obtain ⟨range, _, h⟩ := List.mem_flatMap.mp h
      have htype := hrange _ _ h
      grind

theorem laterAlternates_append {passed : Pos}
    (hpassed : ∀ element ∈ passed, element.type ≠ .stop ∧ element.type ≠ .alt) (after : Pos) :
    laterAlternates (passed ++ after) = laterAlternates after := by
  induction passed with
  | nil => rfl
  | cons element passed ih =>
    obtain ⟨type, value⟩ := element
    obtain ⟨⟨hstop, halt⟩, hpassed⟩ := List.forall_mem_cons.mp hpassed
    rw [List.cons_append, laterAlternates, ih hpassed] <;> simp_all

theorem laterAlternates_encodeSequence (s : Sequence) (after : Pos) :
    laterAlternates (encodeSequence s ++ after) = laterAlternates after :=
  laterAlternates_append (fun _ => type_of_mem_encodeSequence) after

/-- The positions behind the marks are those of the alternates after the first. -/
theorem laterAlternates_encodeAlternates (alternates : List Sequence) :
    List.Forall₂ Starts (laterAlternates (encodeAlternates alternates ++ [⟨.stop, 0⟩]))
      alternates := by
  induction alternates with
  | nil => exact .nil
  | cons s alternates ih =>
    rw [encodeAlternates, List.flatMap_cons, List.cons_append, List.cons_append, laterAlternates,
      List.append_assoc, laterAlternates_encodeSequence]
    refine .cons ⟨_, rfl, ?_⟩ ih
    cases alternates <;> rfl

/-- The loop over the alternates of a rule visits each of them. -/
theorem alternateStarts_encodeRule (hrule : rule ≠ []) :
    List.Forall₂ Starts (alternateStarts (encodeRule rule)) rule := by
  cases rule with
  | nil => exact absurd rfl hrule
  | cons s alternates =>
    rw [alternateStarts, encodeRule, laterAlternates_encodeSequence]
    refine .cons ⟨_, rfl, ?_⟩ (laterAlternates_encodeAlternates alternates)
    cases alternates <;> rfl

/-! ### Stacks and sentential forms -/

theorem denotes_nil_left : Denotes [] β ↔ β = [] := by
  simp [Denotes]

theorem denotes_nil_right (h : Denotes stack []) : stack = [] := by
  obtain ⟨seqs, hseqs, hnil⟩ := h
  cases hseqs with
  | nil => rfl
  | cons hpos _ => exact absurd (List.append_eq_nil_iff.mp hnil.symm).1 hpos.1

/-- The top of a stack points to the symbol in front of the form. -/
theorem Denotes.exists_top (h : Denotes (pos :: stack) β) :
    ∃ symbol s after γ, pos = encodeSymbol symbol ++ (encodeSequence s ++ after) ∧
      isEndOfSequence after = true ∧ Denotes stack γ ∧ β = symbol :: (s ++ γ) := by
  obtain ⟨seqs, hseqs, rfl⟩ := h
  cases hseqs with
  | @cons _ s _ seqs hpos hstack =>
    obtain ⟨hne, after, rfl, hafter⟩ := hpos
    cases s with
    | nil => exact absurd rfl hne
    | cons symbol s =>
      refine ⟨symbol, s, after, seqs.flatten, ?_, hafter, ⟨seqs, hstack, rfl⟩, rfl⟩
      rw [encodeSequence, List.flatMap_cons, List.append_assoc]
      rfl

theorem Denotes.pushUnlessEnd (hpos : Starts pos s) (h : Denotes stack β) :
    Denotes (pushUnlessEnd pos stack) (s ++ β) := by
  obtain ⟨after, rfl, hafter⟩ := hpos
  cases s with
  | nil =>
    rwa [Grammar.pushUnlessEnd, encodeSequence, List.flatMap_nil, List.nil_append, if_pos hafter]
  | cons symbol s =>
    have hend : isEndOfSequence (encodeSequence (symbol :: s) ++ after) = false := by
      rw [encodeSequence, List.flatMap_cons, List.append_assoc, isEndOfSequence_encodeSymbol]
    obtain ⟨seqs, hseqs, rfl⟩ := h
    rw [Grammar.pushUnlessEnd, hend]
    exact ⟨_, .cons ⟨List.cons_ne_nil _ _, after, rfl, hafter⟩ hseqs, rfl⟩

theorem Starts.unique {s' : Sequence} (h : Starts pos s) (h' : Starts pos s') : s = s' := by
  obtain ⟨after, rfl, hafter⟩ := h
  obtain ⟨after', heq, hafter'⟩ := h'
  induction s generalizing s' with
  | nil =>
    cases s' with
    | nil => rfl
    | cons symbol s' =>
      rw [encodeSequence, List.flatMap_nil, List.nil_append, encodeSequence, List.flatMap_cons,
        List.append_assoc] at heq
      rw [heq, isEndOfSequence_encodeSymbol] at hafter
      cases hafter
  | cons symbol s ih =>
    cases s' with
    | nil =>
      rw [encodeSequence, List.flatMap_cons, List.append_assoc, encodeSequence, List.flatMap_nil,
        List.nil_append] at heq
      rw [← heq, isEndOfSequence_encodeSymbol] at hafter'
      cases hafter'
    | cons symbol' s' =>
      rw [encodeSequence, List.flatMap_cons, List.append_assoc, encodeSequence, List.flatMap_cons,
        List.append_assoc] at heq
      obtain ⟨hsymbol, hrest⟩ := encodeSymbol_inj (endsClass_encodeSequence hafter)
        (endsClass_encodeSequence hafter') heq
      rw [hsymbol, ih hrest]

/-- A stack denotes one sentential form. -/
theorem Denotes.unique (h : Denotes stack β) (h' : Denotes stack γ) : β = γ := by
  obtain ⟨seqs, hseqs, rfl⟩ := h
  obtain ⟨seqs', hseqs', rfl⟩ := h'
  congr 1
  induction hseqs generalizing seqs' with
  | nil =>
    cases hseqs' with
    | nil => rfl
  | cons hpos _ ih =>
    cases hseqs' with
    | cons hpos' hrest' => rw [hpos.2.unique hpos'.2, ih _ hrest']

theorem Matches.nil_mem_iff {S : Set (List (Symbol CharClass ℕ))} (h : Matches live S) :
    [] ∈ live ↔ [] ∈ S := by
  constructor
  · intro hmem
    obtain ⟨β, hβ, hdenotes⟩ := h.1 [] hmem
    rwa [denotes_nil_left.mp hdenotes] at hβ
  · intro hmem
    obtain ⟨stack, hstack, hdenotes⟩ := h.2 [] hmem
    rwa [denotes_nil_right hdenotes] at hstack

theorem Matches.ne_nil_iff {S : Set (List (Symbol CharClass ℕ))} (h : Matches live S) :
    live ≠ [] ↔ S.Nonempty := by
  constructor
  · intro hne
    obtain ⟨stack, hstack⟩ := List.exists_mem_of_ne_nil live hne
    obtain ⟨β, hβ, _⟩ := h.1 stack hstack
    exact ⟨β, hβ⟩
  · intro ⟨β, hβ⟩
    obtain ⟨stack, hstack, _⟩ := h.2 β hβ
    exact List.ne_nil_of_mem hstack

/-- Loops over positions that denote, one by one, the entries of a list. -/
theorem matches_flatMapM {f : Pos → Option (List Stack)} {positions : List Pos}
    {F : Sequence → Set (List (Symbol CharClass ℕ))}
    (hstarts : List.Forall₂ Starts positions rule)
    (hf : ∀ pos s live, Starts pos s → f pos = some live → Matches live (F s))
    (h : positions.flatMapM f = some live) : Matches live {β | ∃ s ∈ rule, β ∈ F s} := by
  induction hstarts generalizing live with
  | nil =>
    obtain rfl : [] = live := Option.some.inj h
    exact ⟨nofun, fun _ ⟨_, hmem, _⟩ => nomatch hmem⟩
  | @cons pos s positions rule hpos _ ih =>
    obtain ⟨x, y, hx, hy, rfl⟩ := flatMapM_cons_eq_some.mp h
    have hhead := hf pos s x hpos hx
    have htail := ih hy
    constructor
    · intro stack hstack
      cases List.mem_append.mp hstack with
      | inl hstack =>
        obtain ⟨β, hβ, hdenotes⟩ := hhead.1 stack hstack
        exact ⟨β, ⟨s, List.mem_cons_self, hβ⟩, hdenotes⟩
      | inr hstack =>
        obtain ⟨β, ⟨s', hs', hβ⟩, hdenotes⟩ := htail.1 stack hstack
        exact ⟨β, ⟨s', List.mem_cons_of_mem s hs', hβ⟩, hdenotes⟩
    · intro β ⟨s', hs', hβ⟩
      cases List.mem_cons.mp hs' with
      | inl heq =>
        obtain ⟨stack, hstack, hdenotes⟩ := hhead.2 β (heq ▸ hβ)
        exact ⟨stack, List.mem_append_left y hstack, hdenotes⟩
      | inr hs' =>
        obtain ⟨stack, hstack, hdenotes⟩ := htail.2 β ⟨s', hs', hβ⟩
        exact ⟨stack, List.mem_append_right x hstack, hdenotes⟩

theorem matches_singleton (h : Denotes stack β) : Matches [stack] {β} := by
  constructor
  · intro stack' hstack
    obtain rfl := List.mem_singleton.mp hstack
    exact ⟨β, rfl, h⟩
  · intro β' hβ
    obtain rfl : β' = β := hβ
    exact ⟨stack, List.mem_singleton_self stack, h⟩

theorem encode_getElem? :
    rules.encode[id]? = some pos ↔
      ∃ rule, rules.alternates[id]? = some rule ∧ encodeRule rule = pos := by
  rw [Rules.encode, List.getElem?_map, Option.map_eq_some_iff]

theorem alternateStarts_of_getElem? (h : rules.alternates[id]? = some rule) :
    List.Forall₂ Starts (alternateStarts (encodeRule rule)) rule :=
  alternateStarts_encodeRule (rules.nonempty rule (List.mem_of_getElem? h))

/-- Advancing a stack gives stacks for the frontier of its sentential form. -/
theorem advanceStack_matches (start : ℕ) (hdenotes : Denotes stack β)
    (h : advanceStack rules.encode depth stack = some live) :
    Matches live (frontier (rules.toGrammar start) β) := by
  induction depth generalizing stack β live with
  | zero => cases h
  | succ depth ih =>
    cases stack with
    | nil =>
      obtain rfl := denotes_nil_left.mp hdenotes
      obtain rfl : [[]] = live := Option.some.inj h
      rw [frontier_of_settled settled_nil]
      exact matches_singleton hdenotes
    | cons pos stack =>
      obtain ⟨symbol, s, after, γ, hpos, hafter, hstack, rfl⟩ := hdenotes.exists_top
      rw [advanceStack] at h
      cases symbol with
      | terminal cls =>
        have htype : elementType pos = .char ∨ elementType pos = .charNot := by
          rw [hpos, encodeSymbol, elementType_class_append]
          cases cls.positive
          · exact .inr rfl
          · exact .inl rfl
        have hlive : [pos :: stack] = live := by
          cases htype with
          | inl htype => rwa [htype, Option.some_inj] at h
          | inr htype => rwa [htype, Option.some_inj] at h
        rw [frontier_of_settled (settled_terminal cls _), ← hlive]
        exact matches_singleton hdenotes
      | nonterminal id =>
        obtain rfl : pos = ⟨.ruleRef, id⟩ :: (encodeSequence s ++ after) := hpos
        obtain ⟨_, hget, h⟩ := Option.bind_eq_some_iff.mp h
        obtain ⟨rule, hrule, rfl⟩ := encode_getElem?.mp hget
        have hrest : Denotes (Grammar.pushUnlessEnd (encodeSequence s ++ after) stack) (s ++ γ) :=
          hstack.pushUnlessEnd ⟨after, rfl, hafter⟩
        have hmatches := matches_flatMapM
          (F := fun s' => frontier (rules.toGrammar start) (s' ++ (s ++ γ)))
          (alternateStarts_of_getElem? hrule)
          (fun _ _ _ hstarts => ih (hrest.pushUnlessEnd hstarts)) h
        convert hmatches using 1
        ext β
        rw [mem_frontier_nonterminal]
        constructor
        · rintro ⟨s', hs', hβ⟩
          obtain ⟨rule', hrule', hs'⟩ := mem_toGrammar_rules.mp hs'
          obtain rfl := Option.some.inj (hrule.symm.trans hrule')
          exact ⟨s', hs', hβ⟩
        · rintro ⟨s', hs', hβ⟩
          exact ⟨s', mem_toGrammar_rules.mpr ⟨rule, hrule, hs'⟩, hβ⟩

/-! ### Characters -/

theorem matchChar_top {cls : CharClass} (hafter : isEndOfSequence after = true) :
    matchChar (encodeSymbol (.terminal cls) ++ (encodeSequence s ++ after)) chr =
      some (decide (cls.Accepts chr), encodeSequence s ++ after) :=
  matchChar_encode (endsClass_encodeSequence hafter)

theorem acceptStack_matches (hdenotes : Denotes stack β) (hsettled : Settled β)
    (h : acceptStack rules.encode depth chr stack = some live) :
    Matches live (advance (rules.toGrammar start) CharClass.Accepts {β} chr) := by
  cases stack with
  | nil =>
    obtain rfl := denotes_nil_left.mp hdenotes
    obtain rfl : [] = live := Option.some.inj h
    exact ⟨nofun, fun _ ⟨_, _, hmem, _⟩ => nomatch hmem⟩
  | cons pos stack =>
    obtain ⟨symbol, s, after, γ, rfl, hafter, hstack, rfl⟩ := hdenotes.exists_top
    cases symbol with
    | nonterminal id => exact absurd rfl (hsettled id _)
    | terminal cls =>
      rw [acceptStack, matchChar_top hafter] at h
      by_cases haccepts : cls.Accepts chr
      · simp only [haccepts, decide_true, Option.bind_eq_bind, Option.bind_some, if_true] at h
        have hmatches := advanceStack_matches start
          (hstack.pushUnlessEnd ⟨after, rfl, hafter⟩) h
        convert hmatches using 1
        ext β'
        rw [mem_advance_singleton]
        constructor
        · intro ⟨cls', δ, heq, _, hβ'⟩
          obtain ⟨_, rfl⟩ := List.cons.inj heq
          exact hβ'
        · intro hβ'
          exact ⟨cls, s ++ γ, rfl, haccepts, hβ'⟩
      · simp only [haccepts, decide_false, Option.bind_eq_bind, Option.bind_some,
          Bool.false_eq_true, if_false, Option.some_inj] at h
        subst h
        refine ⟨nofun, fun β' hβ' => ?_⟩
        obtain ⟨cls', δ, heq, haccepts', _⟩ := mem_advance_singleton.mp hβ'
        obtain ⟨hcls, _⟩ := List.cons.inj heq
        exact absurd (Symbol.terminal.inj hcls ▸ haccepts') haccepts

theorem accept_matches (start : ℕ) {S : Set (List (Symbol CharClass ℕ))} (hlive : Matches live S)
    (hsettled : ∀ β ∈ S, Settled β)
    (h : accept rules.encode depth live chr = some live') :
    Matches live' (advance (rules.toGrammar start) CharClass.Accepts S chr) := by
  constructor
  · intro stack' hstack'
    obtain ⟨stack, hstack, x, hx, hmem⟩ := (mem_of_flatMapM h stack').mp hstack'
    obtain ⟨β, hβ, hdenotes⟩ := hlive.1 stack hstack
    obtain ⟨β', hβ', hdenotes'⟩ :=
      (acceptStack_matches hdenotes (hsettled β hβ) hx).1 stack' hmem
    exact ⟨β', mem_advance_iff.mpr ⟨β, hβ, hβ'⟩, hdenotes'⟩
  · intro β' hβ'
    obtain ⟨β, hβ, hβ'⟩ := mem_advance_iff.mp hβ'
    obtain ⟨stack, hstack, hdenotes⟩ := hlive.2 β hβ
    obtain ⟨x, hx⟩ := exists_flatMapM_iff.mp ⟨live', h⟩ stack hstack
    obtain ⟨stack', hmem, hdenotes'⟩ :=
      (acceptStack_matches hdenotes (hsettled β hβ) hx).2 β' hβ'
    exact ⟨stack', (mem_of_flatMapM h stack').mpr ⟨stack, hstack, x, hx, hmem⟩, hdenotes'⟩

theorem acceptAll_matches (start : ℕ) {S : Set (List (Symbol CharClass ℕ))}
    (hlive : Matches live S)
    (hsettled : ∀ β ∈ S, Settled β)
    (h : acceptAll rules.encode depth live chrs = some live') :
    Matches live' (chrs.foldl (advance (rules.toGrammar start) CharClass.Accepts) S) := by
  induction chrs generalizing live S with
  | nil =>
    obtain rfl : live = live' := Option.some.inj h
    exact hlive
  | cons chr chrs ih =>
    rw [acceptAll, List.foldlM_cons] at h
    obtain ⟨next, hnext, h⟩ := Option.bind_eq_some_iff.mp h
    exact ih (accept_matches start hlive hsettled hnext) (fun _ => settled_of_mem_advance) h

theorem initStacks_matches (h : initStacks rules.encode depth start = some live) :
    Matches live (frontier (rules.toGrammar start) [.nonterminal start]) := by
  obtain ⟨_, hget, h⟩ := Option.bind_eq_some_iff.mp h
  obtain ⟨rule, hrule, rfl⟩ := encode_getElem?.mp hget
  have hmatches := matches_flatMapM (F := frontier (rules.toGrammar start))
    (alternateStarts_of_getElem? hrule) (fun pos s live hstarts hlive => ?_) h
  · convert hmatches using 1
    ext β
    rw [mem_frontier_nonterminal]
    constructor
    · intro ⟨s, hs, hβ⟩
      obtain ⟨rule', hrule', hs⟩ := mem_toGrammar_rules.mp hs
      obtain rfl := Option.some.inj (hrule.symm.trans hrule')
      rw [List.append_nil] at hβ
      exact ⟨s, hs, hβ⟩
    · intro ⟨s, hs, hβ⟩
      refine ⟨s, mem_toGrammar_rules.mpr ⟨rule, hrule, hs⟩, ?_⟩
      rwa [List.append_nil]
  · have hdenotes := Denotes.pushUnlessEnd hstarts (denotes_nil_left.mpr rfl)
    rw [List.append_nil] at hdenotes
    exact advanceStack_matches start hdenotes hlive

/-! ### The words of a grammar -/

/-- The words of characters that the classes of a word of the grammar accept. -/
def Rules.words (rules : Rules) (start : ℕ) : Language ℕ :=
  {chrs | ∃ classes ∈ (rules.toGrammar start).language,
    List.Forall₂ CharClass.Accepts classes chrs}

theorem mem_words_iff :
    chrs ∈ rules.words start ↔
      Spells (rules.toGrammar start) CharClass.Accepts [.nonterminal start] chrs :=
  spells_initial_iff.symm

/-- Every symbol in the rules spells a word. -/
def Rules.Productive (rules : Rules) (start : ℕ) : Prop :=
  ∀ rule ∈ rules.alternates, ∀ s ∈ rule,
    Leftmost.Productive (rules.toGrammar start) CharClass.Accepts s

theorem Rules.Productive.output (h : rules.Productive start) :
    ∀ r ∈ (rules.toGrammar start).rules,
      Leftmost.Productive (rules.toGrammar start) CharClass.Accepts r.output := by
  intro ⟨id, s⟩ hmem
  obtain ⟨rule, hrule, hs⟩ := mem_toGrammar_rules.mp hmem
  exact h rule (List.mem_of_getElem? hrule) s hs

section Words

variable (hinit : initStacks rules.encode depth start = some live)
  (haccept : acceptAll rules.encode depth live chrs = some live')
include hinit haccept

/-- The stacks after some characters of a token stream. -/
theorem acceptAll_init_matches :
    Matches live' (chrs.foldl (advance (rules.toGrammar start) CharClass.Accepts)
      (frontier (rules.toGrammar start) [.nonterminal start])) :=
  acceptAll_matches start (initStacks_matches hinit) (fun _ h => h.2) haccept

/-- Some stack is empty if and only if the characters are a word of the grammar. -/
theorem nil_mem_acceptAll_iff : [] ∈ live' ↔ chrs ∈ rules.words start := by
  rw [(acceptAll_init_matches hinit haccept).nil_mem_iff, nil_mem_foldl_advance_iff, mem_words_iff]

/-- Some stack is left if and only if the characters begin a word of the grammar. -/
theorem acceptAll_ne_nil_iff (hproductive : rules.Productive start) :
    live' ≠ [] ↔ ∃ more, chrs ++ more ∈ rules.words start := by
  rw [(acceptAll_init_matches hinit haccept).ne_nil_iff,
    foldl_advance_nonempty_iff hproductive.output (fun _ h => h.2)
      (fun _ => forall_mem_of_mem_frontier hproductive.output), spelledBy_frontier]
  simp_rw [mem_words_iff]
  rfl

end Words

end Grammar

end WhisperAndroid.Grammar
