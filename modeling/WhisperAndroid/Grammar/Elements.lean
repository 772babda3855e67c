import Mathlib.Computability.ContextFreeGrammar
import Mathlib.Tactic.SplitIfs

/-!
# Grammar rules as arrays of elements

`whisper_grammar_element` and the functions that read a character class from an array
of them. A pointer into an array is the list of the elements from there on.

A rule is the encoding of its alternates, each a list of symbols: a reference to a rule
or a class of characters.
-/

namespace WhisperAndroid.Grammar

/-- `whisper_gretype` -/
inductive Gretype
  | stop | alt | ruleRef | char | charNot | charRngUpper | charAlt
  deriving DecidableEq, Repr

/-- `whisper_grammar_element`: the value is a code point or the number of a rule. -/
structure GrammarElement where
  type : Gretype
  value : ℕ
  deriving DecidableEq, Repr

/-- A `const whisper_grammar_element *`. -/
abbrev Pos := List GrammarElement

/-- `pos->type`; past the end of an array nothing is read. -/
def elementType (pos : Pos) : Gretype := (pos.headD ⟨.stop, 0⟩).type

/-- `pos->value` -/
def elementValue (pos : Pos) : ℕ := (pos.headD ⟨.stop, 0⟩).value

/-- `whisper_grammar_is_end_of_sequence` -/
def isEndOfSequence (pos : Pos) : Bool :=
  match elementType pos with
  | .stop => true
  | .alt => true
  | _ => false

/-! ### Character classes -/

/-- The loop of `whisper_grammar_match_char` over the ranges of a class. -/
def matchRanges (chr : ℕ) : Bool → Pos → Bool × Pos
  | found, pos :: ⟨.charRngUpper, upper⟩ :: next =>
    let found := found || decide (pos.value ≤ chr ∧ chr ≤ upper)
    if elementType next = .charAlt then matchRanges chr found next else (found, next)
  | found, pos :: next =>
    let found := found || decide (pos.value = chr)
    if elementType next = .charAlt then matchRanges chr found next else (found, next)
  | found, [] => (found, [])

/-- `whisper_grammar_match_char`, with no result where its assertion fails. -/
def matchChar (pos : Pos) (chr : ℕ) : Option (Bool × Pos) :=
  let isPositiveChar := elementType pos = .char
  if isPositiveChar ∨ elementType pos = .charNot then
    let (found, pos) := matchRanges chr false pos
    some (found == isPositiveChar, pos)
  else
    none

/-- `whisper_partial_utf8`: the bits of an incomplete character and the number of bytes
that it lacks, or -1 after an invalid sequence. -/
structure PartialUtf8 where
  value : ℕ
  nRemain : ℤ
  deriving DecidableEq, Repr

/-- The loop of `whisper_grammar_match_partial_char`: some range of the class meets the
given one. -/
def meetsRanges (low high : ℕ) : Pos → Bool
  | pos :: ⟨.charRngUpper, upper⟩ :: next =>
    if pos.value ≤ high ∧ low ≤ upper then true
    else if elementType next = .charAlt then meetsRanges low high next else false
  | pos :: next =>
    if low ≤ pos.value ∧ pos.value ≤ high then true
    else if elementType next = .charAlt then meetsRanges low high next else false
  | [] => false

/-- The least code point that an incomplete character can become. -/
def partialLow (unfinished : PartialUtf8) : ℕ :=
  let low := unfinished.value <<< (unfinished.nRemain.toNat * 6)
  if low = 0 then
    if unfinished.nRemain = 2 then 1 <<< 11
    else if unfinished.nRemain = 3 then 1 <<< 16
    else low
  else
    low

/-- The greatest code point that an incomplete character can become. -/
def partialHigh (unfinished : PartialUtf8) : ℕ :=
  let low := unfinished.value <<< (unfinished.nRemain.toNat * 6)
  low ||| ((1 <<< (unfinished.nRemain.toNat * 6)) - 1)

/-- `whisper_grammar_match_partial_char`, with no result where its assertion fails. -/
def matchPartialChar (pos : Pos) (unfinished : PartialUtf8) : Option Bool :=
  let isPositiveChar := elementType pos = .char
  if isPositiveChar ∨ elementType pos = .charNot then
    if unfinished.nRemain < 0 ∨ unfinished.nRemain = 1 ∧ unfinished.value < 2 then
      some false -- invalid, or a character of 7 bits in two bytes
    else if meetsRanges (partialLow unfinished) (partialHigh unfinished) pos then
      some isPositiveChar
    else
      some !isPositiveChar
  else
    none

/-! ### Rules and their encoding -/

/-- A code point, or all from a lower to an upper one. -/
structure CharRange where
  lower : ℕ
  upper : Option ℕ
  deriving DecidableEq, Repr

/-- The code points in some ranges, or all but these. -/
structure CharClass where
  positive : Bool
  first : CharRange
  others : List CharRange
  deriving DecidableEq, Repr

/-- An alternate of a rule. -/
abbrev Sequence := List (Symbol CharClass ℕ)

/-- The code points of a range. -/
def CharRange.Contains (range : CharRange) (chr : ℕ) : Prop :=
  match range.upper with
  | none => range.lower = chr
  | some upper => range.lower ≤ chr ∧ chr ≤ upper

theorem CharRange.contains_iff {range : CharRange} {chr : ℕ} :
    range.Contains chr ↔ range.lower ≤ chr ∧ chr ≤ range.upper.getD range.lower := by
  obtain ⟨lower, upper⟩ := range
  cases upper with
  | none => exact Nat.le_antisymm_iff
  | some upper => rfl

instance (range : CharRange) (chr : ℕ) : Decidable (range.Contains chr) :=
  decidable_of_iff _ CharRange.contains_iff.symm

@[simp] theorem CharRange.decide_contains_none (lower chr : ℕ) :
    decide (CharRange.Contains ⟨lower, none⟩ chr) = decide (lower = chr) :=
  decide_eq_decide.mpr Iff.rfl

@[simp] theorem CharRange.decide_contains_some (lower upper chr : ℕ) :
    decide (CharRange.Contains ⟨lower, some upper⟩ chr) = decide (lower ≤ chr ∧ chr ≤ upper) :=
  decide_eq_decide.mpr Iff.rfl

/-- The code point is in a range of the class, without regard to its sign. -/
def CharClass.Lists (cls : CharClass) (chr : ℕ) : Prop :=
  ∃ range ∈ cls.first :: cls.others, range.Contains chr

/-- The code point is in the class. -/
def CharClass.Accepts (cls : CharClass) (chr : ℕ) : Prop :=
  cls.Lists chr ↔ cls.positive

instance (cls : CharClass) (chr : ℕ) : Decidable (cls.Lists chr) :=
  inferInstanceAs (Decidable (∃ range ∈ cls.first :: cls.others, range.Contains chr))

instance (cls : CharClass) (chr : ℕ) : Decidable (cls.Accepts chr) :=
  inferInstanceAs (Decidable (_ ↔ _))

def CharRange.encode (type : Gretype) (range : CharRange) : Pos :=
  match range.upper with
  | none => [⟨type, range.lower⟩]
  | some upper => [⟨type, range.lower⟩, ⟨.charRngUpper, upper⟩]

def CharClass.encode (cls : CharClass) : Pos :=
  cls.first.encode (if cls.positive then .char else .charNot) ++
    cls.others.flatMap (CharRange.encode .charAlt)

def encodeSymbol : Symbol CharClass ℕ → Pos
  | .terminal cls => cls.encode
  | .nonterminal id => [⟨.ruleRef, id⟩]

def encodeSequence (s : Sequence) : Pos := s.flatMap encodeSymbol

/-- The alternates after the first one, each behind its mark. -/
def encodeAlternates (alternates : List Sequence) : Pos :=
  alternates.flatMap fun s => ⟨.alt, 0⟩ :: encodeSequence s

def encodeRule : List Sequence → Pos
  | [] => [⟨.stop, 0⟩]
  | s :: alternates => encodeSequence s ++ (encodeAlternates alternates ++ [⟨.stop, 0⟩])

/-- Grammar rules, each with an alternate, in which every reference has a rule. -/
structure Rules where
  alternates : List (List Sequence)
  nonempty : ∀ rule ∈ alternates, rule ≠ []
  closed : ∀ rule ∈ alternates, ∀ s ∈ rule, ∀ id, .nonterminal id ∈ s → id < alternates.length

/-- The arrays of elements of some rules. -/
def Rules.encode (rules : Rules) : List Pos := rules.alternates.map encodeRule

/-! ### Reading an encoded class -/

section Reading

variable {cls : CharClass} {range : CharRange} {ranges : List CharRange} {chr low high : ℕ}
  {found : Bool} {next pos : Pos} {type : Gretype} {s : Sequence}

/-- The elements from there on do not belong to a class before them. -/
def EndsClass (next : Pos) : Prop :=
  elementType next ≠ .charRngUpper ∧ elementType next ≠ .charAlt

theorem elementType_encode_append (next : Pos) :
    elementType (range.encode type ++ next) = type := by
  unfold CharRange.encode
  split <;> rfl

theorem endsClass_of_isEndOfSequence (h : isEndOfSequence next = true) : EndsClass next := by
  unfold isEndOfSequence at h
  unfold EndsClass
  split at h <;> simp_all

theorem endsClass_encodeSymbol (symbol : Symbol CharClass ℕ) (next : Pos) :
    EndsClass (encodeSymbol symbol ++ next) := by
  cases symbol with
  | nonterminal id => exact ⟨nofun, nofun⟩
  | terminal cls =>
    rw [EndsClass, encodeSymbol, CharClass.encode, List.append_assoc, elementType_encode_append]
    split <;> exact ⟨nofun, nofun⟩

/-- What follows a symbol in an alternate does not belong to its class. -/
theorem endsClass_encodeSequence (hnext : isEndOfSequence next = true) :
    EndsClass (encodeSequence s ++ next) := by
  cases s with
  | nil => exact endsClass_of_isEndOfSequence hnext
  | cons symbol s =>
    rw [encodeSequence, List.flatMap_cons, List.append_assoc]
    exact endsClass_encodeSymbol symbol _

/-- One round of the loop over the ranges of a class. -/
theorem matchRanges_encode_append (hnext : elementType next ≠ .charRngUpper) :
    matchRanges chr found (range.encode type ++ next) =
      if elementType next = .charAlt
      then matchRanges chr (found || decide (range.Contains chr)) next
      else (found || decide (range.Contains chr), next) := by
  obtain ⟨lower, upper⟩ := range
  cases upper with
  | some upper => simp [CharRange.encode, matchRanges, -Bool.decide_and]
  | none =>
    match next, hnext with
    | [], _ => simp [CharRange.encode, matchRanges, elementType]
    | ⟨type', value⟩ :: rest, hnext =>
      have hupper : type' ≠ .charRngUpper := hnext
      cases type' <;>
        simp_all [CharRange.encode, matchRanges, elementType]

theorem elementType_alternatives (hnext : EndsClass next) :
    elementType (ranges.flatMap (CharRange.encode .charAlt) ++ next) ≠ .charRngUpper := by
  cases ranges with
  | nil => exact hnext.1
  | cons range ranges =>
    rw [List.flatMap_cons, List.append_assoc, elementType_encode_append]
    nofun

/-- The loop reads all ranges of a class and stops behind it. -/
theorem matchRanges_encode (hnext : EndsClass next) :
    matchRanges chr found
        (range.encode type ++ (ranges.flatMap (CharRange.encode .charAlt) ++ next)) =
      (found || decide (∃ r ∈ range :: ranges, r.Contains chr), next) := by
  induction ranges generalizing found range type with
  | nil =>
    rw [matchRanges_encode_append (elementType_alternatives hnext)]
    simp [hnext.2]
  | cons range' ranges ih =>
    rw [matchRanges_encode_append (elementType_alternatives hnext), List.flatMap_cons,
      List.append_assoc, elementType_encode_append, if_pos rfl, ih, Bool.or_assoc]
    simp

/-- An encoded range is read back, with what follows it. -/
theorem encode_append_inj {range' : CharRange} {type' : Gretype} {next' : Pos}
    (hnext : elementType next ≠ .charRngUpper) (hnext' : elementType next' ≠ .charRngUpper)
    (h : range.encode type ++ next = range'.encode type' ++ next') :
    type = type' ∧ range = range' ∧ next = next' := by
  obtain ⟨lower, upper⟩ := range
  obtain ⟨lower', upper'⟩ := range'
  cases upper with
  | none =>
    cases upper' with
    | none => simpa [CharRange.encode, and_assoc] using h
    | some upper' =>
      obtain ⟨-, rfl⟩ := List.cons.inj h
      exact absurd rfl hnext
  | some upper =>
    cases upper' with
    | none =>
      obtain ⟨-, rfl⟩ := List.cons.inj h
      exact absurd rfl hnext'
    | some upper' => simpa [CharRange.encode, and_assoc] using h

/-- So is an encoded class. -/
theorem ranges_encode_inj {range' : CharRange} {ranges' : List CharRange} {type' : Gretype}
    {next' : Pos} (hnext : EndsClass next) (hnext' : EndsClass next')
    (h : range.encode type ++ (ranges.flatMap (CharRange.encode .charAlt) ++ next) =
      range'.encode type' ++ (ranges'.flatMap (CharRange.encode .charAlt) ++ next')) :
    type = type' ∧ range = range' ∧ ranges = ranges' ∧ next = next' := by
  induction ranges generalizing range type range' type' ranges' with
  | nil =>
    obtain ⟨htype, hrange, h⟩ :=
      encode_append_inj hnext.1
        (elementType_alternatives hnext') h
    cases ranges' with
    | nil => exact ⟨htype, hrange, rfl, h⟩
    | cons second ranges' =>
      rw [List.flatMap_cons, List.append_assoc] at h
      exact absurd (h ▸ elementType_encode_append _) hnext.2
  | cons first ranges ih =>
    obtain ⟨htype, hrange, h⟩ :=
      encode_append_inj (elementType_alternatives hnext) (elementType_alternatives hnext') h
    rw [List.flatMap_cons, List.append_assoc] at h
    cases ranges' with
    | nil =>
      rw [List.flatMap_nil, List.nil_append] at h
      exact absurd (h ▸ elementType_encode_append _) hnext'.2
    | cons second ranges' =>
      rw [List.flatMap_cons, List.append_assoc] at h
      obtain ⟨_, hsecond, hranges, hrest⟩ := ih h
      exact ⟨htype, hrange, by rw [hsecond, hranges], hrest⟩

theorem meetsRanges_encode_append (hnext : elementType next ≠ .charRngUpper) :
    meetsRanges low high (range.encode type ++ next) =
      (decide (range.lower ≤ high ∧ low ≤ range.upper.getD range.lower) ||
        (elementType next = .charAlt && meetsRanges low high next)) := by
  obtain ⟨lower, upper⟩ := range
  cases upper with
  | some upper => simp [CharRange.encode, meetsRanges]
  | none =>
    match next, hnext with
    | [], _ => simp [CharRange.encode, meetsRanges, elementType, and_comm]
    | ⟨type', value⟩ :: rest, hnext =>
      have hupper : type' ≠ .charRngUpper := hnext
      cases type' <;> simp_all [CharRange.encode, meetsRanges, elementType, and_comm]

theorem meetsRanges_encode (hnext : EndsClass next) :
    meetsRanges low high
        (range.encode type ++ (ranges.flatMap (CharRange.encode .charAlt) ++ next)) =
      decide (∃ r ∈ range :: ranges, r.lower ≤ high ∧ low ≤ r.upper.getD r.lower) := by
  induction ranges generalizing range type with
  | nil =>
    rw [meetsRanges_encode_append (elementType_alternatives hnext)]
    simp [hnext.2]
  | cons range' ranges ih =>
    rw [meetsRanges_encode_append (elementType_alternatives hnext), List.flatMap_cons,
      List.append_assoc, elementType_encode_append, ih]
    simp

theorem elementType_class_append :
    elementType (cls.encode ++ next) = if cls.positive then .char else .charNot := by
  rw [CharClass.encode, List.append_assoc, elementType_encode_append]

/-- A class is matched as a whole, and the pointer moves behind it. -/
theorem matchChar_encode (hnext : EndsClass next) :
    matchChar (cls.encode ++ next) chr = some (decide (cls.Accepts chr), next) := by
  have hmatch : matchRanges chr false (cls.encode ++ next) = (decide (cls.Lists chr), next) := by
    rw [CharClass.encode, List.append_assoc, matchRanges_encode hnext, Bool.false_or]
    rfl
  rw [matchChar, hmatch, elementType_class_append]
  cases hsign : cls.positive <;> simp [CharClass.Accepts, hsign]

theorem encodeSymbol_inj {symbol symbol' : Symbol CharClass ℕ} {next' : Pos}
    (hnext : EndsClass next) (hnext' : EndsClass next')
    (h : encodeSymbol symbol ++ next = encodeSymbol symbol' ++ next') :
    symbol = symbol' ∧ next = next' := by
  have hclass (cls : CharClass) (id : ℕ) (next next' : Pos) :
      encodeSymbol (.terminal cls) ++ next ≠ encodeSymbol (.nonterminal id) ++ next' := by
    intro h
    have htype := congrArg elementType h
    rw [encodeSymbol, elementType_class_append] at htype
    cases hsign : cls.positive <;> simp [hsign, encodeSymbol, elementType] at htype
  cases symbol with
  | nonterminal id =>
    cases symbol' with
    | nonterminal id' => simpa [encodeSymbol] using h
    | terminal cls' => exact absurd h.symm (hclass cls' id next' next)
  | terminal cls =>
    cases symbol' with
    | nonterminal id' => exact absurd h (hclass cls id' next next')
    | terminal cls' =>
      obtain ⟨positive, first, others⟩ := cls
      obtain ⟨positive', first', others'⟩ := cls'
      rw [encodeSymbol, encodeSymbol, CharClass.encode, CharClass.encode, List.append_assoc,
        List.append_assoc] at h
      obtain ⟨htype, rfl, rfl, rfl⟩ := ranges_encode_inj hnext hnext' h
      cases positive <;> cases positive' <;> simp_all

/-- Some code point that the incomplete character can become is in the class; with a
negated class, none of them is outside. -/
def CharClass.acceptsPartial (cls : CharClass) (unfinished : PartialUtf8) : Bool :=
  if unfinished.nRemain < 0 ∨ unfinished.nRemain = 1 ∧ unfinished.value < 2 then false
  else if ∃ r ∈ cls.first :: cls.others,
      r.lower ≤ partialHigh unfinished ∧ partialLow unfinished ≤ r.upper.getD r.lower then
    cls.positive
  else
    !cls.positive

theorem matchPartialChar_encode (hnext : EndsClass next) (unfinished : PartialUtf8) :
    matchPartialChar (cls.encode ++ next) unfinished = some (cls.acceptsPartial unfinished) := by
  have hmeets : meetsRanges (partialLow unfinished) (partialHigh unfinished) (cls.encode ++ next) =
      decide (∃ r ∈ cls.first :: cls.others,
        r.lower ≤ partialHigh unfinished ∧ partialLow unfinished ≤ r.upper.getD r.lower) := by
    rw [CharClass.encode, List.append_assoc, meetsRanges_encode hnext]
  rw [matchPartialChar, hmeets, elementType_class_append, CharClass.acceptsPartial]
  by_cases hbad : unfinished.nRemain < 0 ∨ unfinished.nRemain = 1 ∧ unfinished.value < 2
  · simp only [if_pos hbad]
    cases cls.positive <;> rfl
  · simp only [if_neg hbad]
    by_cases hmeet : ∃ r ∈ cls.first :: cls.others,
        r.lower ≤ partialHigh unfinished ∧ partialLow unfinished ≤ r.upper.getD r.lower
    · simp only [if_pos hmeet, decide_eq_true hmeet]
      cases cls.positive <;> rfl
    · simp only [if_neg hmeet, decide_eq_false hmeet]
      cases cls.positive <;> rfl

end Reading

end WhisperAndroid.Grammar
