import WhisperAndroid.Grammar.Tokens

/-!
# Characters that a token leaves unfinished

A token may end inside of a character. `whisper_grammar_match_partial_char` compares the
range of code points that the character can become with the ranges of a class: for a
class without negation the range has to meet one of them, for a negated class it must not
meet any. So a token that begins a word of the grammar keeps its score if no class is
negated; with a negated class it may lose it.

## Main results

* `matchPartialChar_iff` — what the comparison of ranges says about code points
* `partialRange_of_div` — the code point of a character lies in the range of its first bytes
* `suppress_keeps_word` — without negated classes no token on the way to a word is
  penalised
-/

namespace WhisperAndroid.Grammar

open Leftmost ModifiedUtf8

/-- The ranges of a class are not empty. -/
def CharClass.Ordered (cls : CharClass) : Prop :=
  ∀ r ∈ cls.first :: cls.others, r.lower ≤ r.upper.getD r.lower

/-- The range of code points between `low` and `high`. -/
def PartialRange (unfinished : PartialUtf8) (chr : ℕ) : Prop :=
  partialLow unfinished ≤ chr ∧ chr ≤ partialHigh unfinished

instance (unfinished : PartialUtf8) (chr : ℕ) : Decidable (PartialRange unfinished chr) :=
  inferInstanceAs (Decidable (_ ∧ _))

theorem partialHigh_eq (value n : ℕ) :
    partialHigh ⟨value, n⟩ = value * 64 ^ n + (64 ^ n - 1) := by
  have hpow : 2 ^ (n * 6) = 64 ^ n := by rw [mul_comm, pow_mul]; rfl
  have hpos : 0 < 64 ^ n := by positivity
  simp only [partialHigh, Int.toNat_natCast]
  rw [← Nat.shiftLeft_add_eq_or_of_lt (by rw [Nat.shiftLeft_eq, hpow]; omega), Nat.shiftLeft_eq,
    Nat.shiftLeft_eq, hpow, one_mul]

section Classes

variable {cls : CharClass} {unfinished : PartialUtf8} {chr : ℕ}

theorem meets_iff_exists_partialRange (hordered : cls.Ordered)
    (hrange : partialLow unfinished ≤ partialHigh unfinished) :
    (∃ r ∈ cls.first :: cls.others,
        r.lower ≤ partialHigh unfinished ∧ partialLow unfinished ≤ r.upper.getD r.lower) ↔
      ∃ chr, PartialRange unfinished chr ∧ cls.Lists chr := by
  constructor
  · intro ⟨r, hr, hlower, hupper⟩
    have hr' := hordered r hr
    exact ⟨max (partialLow unfinished) r.lower, ⟨le_max_left _ _, max_le hrange hlower⟩, r, hr,
      CharRange.contains_iff.mpr ⟨le_max_right _ _, max_le hupper hr'⟩⟩
  · intro ⟨chr, ⟨hlow, hhigh⟩, r, hr, hcontains⟩
    obtain ⟨hlower, hupper⟩ := CharRange.contains_iff.mp hcontains
    exact ⟨r, hr, hlower.trans hhigh, hlow.trans hupper⟩

/-- The least code point that needs so many bytes behind the first. -/
def leastCodePoint : ℤ → ℕ
  | 1 => 0x80
  | 2 => 0x800
  | 3 => 0x10000
  | _ => 0

/-- The code points that the missing bytes can make of an incomplete character, if it is not
longer than it need be. -/
def Completion (unfinished : PartialUtf8) (chr : ℕ) : Prop :=
  ∃ bytes : List UInt8, bytes.length = unfinished.nRemain ∧ (∀ b ∈ bytes, b.toNat >>> 6 = 2) ∧
    bytes.foldl (fun value b => value <<< 6 + b.toNat % 0x40) unfinished.value = chr ∧
    leastCodePoint unfinished.nRemain ≤ chr

/-- The missing bytes are the digits that a code point has behind the value. -/
theorem exists_bytes_iff (n value : ℕ) :
    (∃ bytes : List UInt8, bytes.length = n ∧ (∀ b ∈ bytes, b.toNat >>> 6 = 2) ∧
      bytes.foldl (fun value b => value <<< 6 + b.toNat % 0x40) value = chr) ↔
        chr / 64 ^ n = value := by
  induction n generalizing value with
  | zero => simp [eq_comm]
  | succ n ih =>
    constructor
    · rintro ⟨bytes, hlength, hbytes, hfold⟩
      match bytes with
      | b :: bytes =>
        have hdiv := (ih _).mp ⟨bytes, Nat.succ.inj hlength,
          fun b' hb' => hbytes b' (List.mem_cons_of_mem _ hb'), hfold⟩
        rw [pow_succ, ← Nat.div_div_eq_div_mul, hdiv]
        simp only [Nat.shiftLeft_eq]
        omega
    · intro hdiv
      rw [pow_succ, ← Nat.div_div_eq_div_mul] at hdiv
      have hbyte : (UInt8.ofNat (0x80 + chr / 64 ^ n % 0x40)).toNat = 0x80 + chr / 64 ^ n % 0x40 := by
        rw [UInt8.toNat_ofNat']
        omega
      obtain ⟨bytes, hlength, hbytes, hfold⟩ := (ih (chr / 64 ^ n)).mpr rfl
      refine ⟨UInt8.ofNat (0x80 + chr / 64 ^ n % 0x40) :: bytes, by rw [List.length_cons, hlength],
        List.forall_mem_cons.mpr ⟨?_, hbytes⟩, ?_⟩
      · rw [hbyte, Nat.shiftRight_eq_div_pow]
        omega
      · have hvalue : value <<< 6 + (0x80 + chr / 64 ^ n % 0x40) % 0x40 = chr / 64 ^ n := by
          rw [← hdiv, Nat.shiftLeft_eq]
          omega
        simp only [List.foldl_cons, hbyte, hvalue, hfold]

/-- The range is that of the code points that the bytes can make, surrogates included. -/
theorem completion_iff (hnonneg : 0 ≤ unfinished.nRemain) (hfew : unfinished.nRemain ≤ 3)
    (hlong : unfinished.nRemain = 1 → 2 ≤ unfinished.value) :
    Completion unfinished chr ↔ PartialRange unfinished chr := by
  obtain ⟨value, nRemain⟩ := unfinished
  obtain ⟨n, rfl⟩ := Int.eq_ofNat_of_zero_le hnonneg
  have hsplit : Completion ⟨value, n⟩ chr ↔ chr / 64 ^ n = value ∧ leastCodePoint n ≤ chr := by
    rw [← exists_bytes_iff, Completion]
    simp only [Nat.cast_inj]
    constructor
    · rintro ⟨bytes, hlength, hbytes, hfold, hleast⟩
      exact ⟨⟨bytes, hlength, hbytes, hfold⟩, hleast⟩
    · rintro ⟨⟨bytes, hlength, hbytes, hfold⟩, hleast⟩
      exact ⟨bytes, hlength, hbytes, hfold, hleast⟩
  dsimp only at hfew hlong
  rw [hsplit, PartialRange, partialHigh_eq]
  have hn : n ≤ 3 := Int.ofNat_le.mp hfew
  interval_cases n
  all_goals
    simp [leastCodePoint, partialLow, Nat.shiftLeft_eq] at hlong ⊢
    try split_ifs
    all_goals omega

theorem partialLow_le_partialHigh (hnonneg : 0 ≤ unfinished.nRemain)
    (hfew : unfinished.nRemain ≤ 3) : partialLow unfinished ≤ partialHigh unfinished := by
  obtain ⟨value, nRemain⟩ := unfinished
  obtain ⟨n, rfl⟩ := Int.eq_ofNat_of_zero_le hnonneg
  have hn : n ≤ 3 := Int.ofNat_le.mp hfew
  rw [partialHigh_eq]
  interval_cases n
  all_goals
    simp [partialLow, Nat.shiftLeft_eq]
    try split_ifs
    all_goals omega

/-- A class without negation takes an incomplete character that can become one of its
code points, a negated class one that can only become one of its code points. -/
theorem matchPartialChar_iff {next : Pos} (hordered : cls.Ordered) (hnext : EndsClass next)
    (hnonneg : 0 ≤ unfinished.nRemain) (hfew : unfinished.nRemain ≤ 3)
    (hlong : unfinished.nRemain = 1 → 2 ≤ unfinished.value) :
    matchPartialChar (cls.encode ++ next) unfinished = some true ↔
      if cls.positive then ∃ chr, Completion unfinished chr ∧ cls.Accepts chr
      else ∀ chr, Completion unfinished chr → cls.Accepts chr := by
  have hvalid : ¬ (unfinished.nRemain < 0 ∨ unfinished.nRemain = 1 ∧ unfinished.value < 2) := by
    omega
  have hmeets := meets_iff_exists_partialRange hordered (partialLow_le_partialHigh hnonneg hfew)
  simp only [completion_iff hnonneg hfew hlong]
  rw [matchPartialChar_encode hnext, Option.some_inj, CharClass.acceptsPartial, if_neg hvalid]
  simp only [CharClass.Accepts]
  by_cases hlisted : ∃ chr, PartialRange unfinished chr ∧ cls.Lists chr
  · rw [if_pos (hmeets.mpr hlisted)]
    cases cls.positive with
    | true => simpa using hlisted
    | false => simpa using hlisted
  · rw [if_neg (fun h => hlisted (hmeets.mp h))]
    cases cls.positive with
    | true => simpa using hlisted
    | false => simpa using hlisted

theorem matchPartialChar_negated :
    matchPartialChar (CharClass.encode ⟨false, ⟨0xe9, none⟩, []⟩ ++ [⟨.stop, 0⟩]) ⟨3, 1⟩ =
        some true ↔
      ∀ chr, Completion ⟨3, 1⟩ chr → CharClass.Accepts ⟨false, ⟨0xe9, none⟩, []⟩ chr :=
  matchPartialChar_iff (by simp [CharClass.Ordered]) ⟨nofun, nofun⟩ (by decide) (by decide)
    (fun _ => by decide)

/-- A negated class refuses what may become a character of the class. -/
example : CharClass.acceptsPartial ⟨false, ⟨0xe9, none⟩, []⟩ ⟨3, 1⟩ = false ∧
    PartialRange ⟨3, 1⟩ 0xe8 ∧ CharClass.Accepts ⟨false, ⟨0xe9, none⟩, []⟩ 0xe8 := by decide

end Classes

/-! ### The first bytes of a character -/

section Bytes

variable {d : Decoding} {c : Char} {read rest : List UInt8}

/-- A character is one that its first bytes can become: their value is what is left of
the code point without the bits of the missing bytes. -/
theorem partialRange_of_div {v value n : ℕ} (hvalue : v / 64 ^ n = value)
    (htwo : n = 2 → 0x800 ≤ v) (hthree : n = 3 → 0x10000 ≤ v) : PartialRange ⟨value, n⟩ v := by
  have hpos : 0 < 64 ^ n := by positivity
  have hlower : value * 64 ^ n ≤ v := by
    rw [← hvalue]
    exact Nat.div_mul_le_self v (64 ^ n)
  have hupper : v < value * 64 ^ n + 64 ^ n := by
    rw [← hvalue]
    exact Nat.lt_div_mul_add hpos
  constructor
  · have hshift : value <<< (n * 6) = value * 64 ^ n := by
      rw [Nat.shiftLeft_eq, mul_comm n, pow_mul]
      rfl
    simp only [partialLow, Int.toNat_natCast, hshift]
    split_ifs with _ hcase hcase
    · exact htwo (by exact_mod_cast hcase)
    · exact hthree (by exact_mod_cast hcase)
    · exact hlower
    · exact hlower
  · rw [partialHigh_eq]
    omega

/-- Some of the bytes that a character still lacks. -/
theorem Decoding.foldl_next_some (digits : List ℕ) (hremain : (digits.length : ℤ) < d.nRemain) :
    let bytes := digits.map fun x => UInt8.ofNat (x % 0x40 + 0x80)
    d.AdmitsAll bytes ∧ bytes.foldl Decoding.step d =
      ⟨d.codePoints, digits.foldl (fun value x => value * 64 + x % 64) d.value,
        d.nRemain - digits.length⟩ := by
  induction digits generalizing d with
  | nil => simp [AdmitsAll]
  | cons x digits ih =>
    rw [List.length_cons] at hremain
    push_cast at hremain
    obtain ⟨hadmits, hstep⟩ := Decoding.step_next (d := d) (x := x) (by omega)
    have hmore : d.nRemain ≠ 1 := by omega
    simp only [hmore, if_false] at hstep
    obtain ⟨hall, hfold⟩ := ih (d := d.step (UInt8.ofNat (x % 0x40 + 0x80))) (by
      rw [hstep]
      exact lt_sub_iff_add_lt.mpr hremain)
    refine ⟨⟨hadmits, hall⟩, ?_⟩
    rw [List.map_cons, List.foldl_cons, hfold, hstep, List.foldl_cons, List.length_cons]
    push_cast
    simp only [Decoding.mk.injEq, true_and]
    omega

theorem foldl_digits_div (digits : List ℕ) (value : ℕ) :
    digits.foldl (fun value x => value * 64 + x % 64) value / 64 ^ digits.length = value := by
  induction digits generalizing value with
  | nil => simp
  | cons x digits ih =>
    rw [List.foldl_cons, List.length_cons, pow_succ, ← Nat.div_div_eq_div_mul, ih]
    omega

/-- What the first bytes of a character leave: their number of missing bytes and a value
that the character completes. -/
structure Unfinished (v : ℕ) (d d' : Decoding) : Prop where
  codePoints : d'.codePoints = d.codePoints
  positive : 0 < d'.nRemain
  long : d'.nRemain = 1 → 2 ≤ d'.value
  inRange : PartialRange ⟨d'.value, d'.nRemain⟩ v

theorem Decoding.unfinished_several {lead v : ℕ} (digits : List ℕ) (hremain : d.nRemain = 0)
    (hlead : lead < 0x100) (hpos : 0 < lead) (hlength : digits.length ≤ 3)
    (hn : continuationBytes (UInt8.ofNat lead) = (digits.length : ℤ))
    (hv : digits.foldl (fun value x => value * 64 + x % 64)
      (lead % 2 ^ (7 - (digits.length : ℤ)).toNat) = v)
    (hone : 0x80 ≤ v) (htwo : 2 ≤ digits.length → 0x800 ≤ v)
    (hthree : 3 ≤ digits.length → 0x10000 ≤ v)
    (hbytes : UInt8.ofNat lead :: digits.map (fun x => UInt8.ofNat (x % 0x40 + 0x80)) =
      read ++ rest)
    (hread : read ≠ []) (hrest : rest ≠ []) :
    d.AdmitsAll read ∧ Unfinished v d (read.foldl Decoding.step d) := by
  cases read with
  | nil => exact absurd rfl hread
  | cons b read =>
    obtain ⟨hfirst, hothers⟩ := List.cons.inj hbytes
    subst hfirst
    obtain ⟨digits₁, digits₂, rfl, rfl, rfl⟩ := List.map_eq_append_iff.mp hothers
    have hmissing : 0 < digits₂.length := List.length_pos_of_ne_nil (by simpa using hrest)
    rw [List.length_append] at hlength htwo hthree
    obtain ⟨hadmits, hstep⟩ := Decoding.step_first hremain hlead hpos hn (by omega)
    have hsome : (((digits₁ ++ digits₂).length : ℕ) : ℤ) ≠ 0 := by
      rw [List.length_append]
      omega
    simp only [hsome, if_false] at hstep
    obtain ⟨hall, hfold⟩ := Decoding.foldl_next_some (d := d.step (UInt8.ofNat lead))
      digits₁ (by
        rw [hstep, List.length_append]
        push_cast
        omega)
    refine ⟨⟨hadmits, hall⟩, ?_⟩
    rw [List.foldl_append] at hv
    rw [List.foldl_cons, hfold, hstep]
    dsimp only
    generalize digits₁.foldl (fun value x => value * 64 + x % 64) _ = value at hv ⊢
    have hdiv : v / 64 ^ digits₂.length = value := hv ▸ foldl_digits_div digits₂ value
    have hlacks : (((digits₁ ++ digits₂).length : ℕ) : ℤ) - digits₁.length = digits₂.length := by
      rw [List.length_append]
      push_cast
      exact add_sub_cancel_left _ _
    rw [hlacks]
    refine ⟨rfl, Int.natCast_pos.mpr hmissing, fun hlast => ?_, ?_⟩
    · have hlast : digits₂.length = 1 := Int.natCast_inj.mp hlast
      rw [hlast] at hdiv
      change 2 ≤ value
      omega
    · exact partialRange_of_div hdiv (fun _ => htwo (by omega)) fun _ => hthree (by omega)

/-- Some but not all bytes of a character leave it unfinished. -/
theorem Decoding.unfinished_utf8EncodeChar (hc : 0 < c.toNat) (hremain : d.nRemain = 0)
    (hbytes : String.utf8EncodeChar c = read ++ rest) (hread : read ≠ []) (hrest : rest ≠ []) :
    d.AdmitsAll read ∧ Unfinished c.toNat d (read.foldl Decoding.step d) := by
  have hmax := toNat_lt_max c
  rw [utf8EncodeChar_eq] at hbytes
  generalize c.toNat = v at *
  split_ifs at hbytes with hone htwo hthree
  · -- a single byte has no proper part
    have hlength := congrArg List.length hbytes
    rw [List.length_append] at hlength
    have := List.length_pos_of_ne_nil hread
    have := List.length_pos_of_ne_nil hrest
    simp at hlength
    omega
  · have hb := toNat_ofNat_add (show v / 64 % 0x20 + 0xc0 < 0x100 by omega)
    refine Decoding.unfinished_several [v] hremain (by omega) (by omega) (by simp)
      (continuationBytes_two (by omega) (by omega)) ?_ (by omega) (by simp) (by simp)
      hbytes hread hrest
    simp
    omega
  · have hb := toNat_ofNat_add (show v / 4096 % 0x10 + 0xe0 < 0x100 by omega)
    refine Decoding.unfinished_several [v / 64, v] hremain (by omega) (by omega)
      (by simp) (continuationBytes_three (by omega) (by omega)) ?_ (by omega)
      (fun _ => by omega) (by simp) hbytes hread hrest
    simp
    omega
  · have hb := toNat_ofNat_add (show v / 262144 % 8 + 0xf0 < 0x100 by omega)
    refine Decoding.unfinished_several [v / 4096, v / 64, v] hremain (by omega)
      (by omega) (by simp) (continuationBytes_four (by omega)) ?_ (by omega)
      (fun _ => by omega) (fun _ => by omega) hbytes hread hrest
    simp
    omega

end Bytes

/-! ### Tokens on the way to a word -/

section Words

variable {word : List Char} {bytes : List UInt8} {pieces : List (List UInt8)}

/-- Bytes that begin a text are some of its characters and a part of the next one. -/
theorem exists_split_utf8 (h : bytes <+: utf8 word) :
    ∃ cs rest, word = cs ++ rest ∧
      (bytes = utf8 cs ∨ ∃ c more read missing, rest = c :: more ∧ bytes = utf8 cs ++ read ∧
        String.utf8EncodeChar c = read ++ missing ∧ read ≠ [] ∧ missing ≠ []) := by
  induction word generalizing bytes with
  | nil =>
    obtain rfl : bytes = [] := List.prefix_nil.mp h
    exact ⟨[], [], rfl, .inl rfl⟩
  | cons c word ih =>
    obtain ⟨tail, h⟩ := h
    have hcons : utf8 (c :: word) = String.utf8EncodeChar c ++ utf8 word := List.flatMap_cons
    rw [hcons, List.append_eq_append_iff] at h
    cases h with
    | inl h =>
      obtain ⟨missing, hencode, _⟩ := h
      by_cases hread : bytes = []
      · exact ⟨[], c :: word, rfl, .inl hread⟩
      · by_cases hmissing : missing = []
        · refine ⟨[c], word, rfl, .inl ?_⟩
          rw [hmissing, List.append_nil] at hencode
          simp [utf8, hencode]
        · exact ⟨[], c :: word, rfl, .inr ⟨c, word, bytes, missing, rfl, rfl, hencode, hread,
            hmissing⟩⟩
    | inr h =>
      obtain ⟨bytes', hbytes, htail⟩ := h
      obtain ⟨cs, rest, rfl, hsplit⟩ := ih ⟨tail, htail.symm⟩
      have hcons' : utf8 (c :: cs) = String.utf8EncodeChar c ++ utf8 cs := List.flatMap_cons
      refine ⟨c :: cs, rest, rfl, ?_⟩
      rw [hbytes, hcons']
      cases hsplit with
      | inl h => exact .inl (by rw [h])
      | inr h =>
        obtain ⟨d, more, read, missing, hrest, h, hencode⟩ := h
        exact .inr ⟨d, more, read, missing, hrest, by rw [h, List.append_assoc], hencode⟩

/-- Tokens that begin a text have read some of its characters, and what they leave
unfinished the next one completes. -/
theorem decodePieces_word (hword : ∀ c ∈ word, 0 < c.toNat) (h : pieces.flatten <+: utf8 word) :
    ∃ cs rest unfinished, word = cs ++ rest ∧
      decodePieces pieces ([], ⟨0, 0⟩) = (cs.map Char.toNat, unfinished) ∧
      (unfinished.nRemain = 0 ∨ ∃ c more, rest = c :: more ∧ 0 < unfinished.nRemain ∧
        (unfinished.nRemain = 1 → 2 ≤ unfinished.value) ∧ PartialRange unfinished c.toNat) := by
  obtain ⟨cs, rest, rfl, hsplit⟩ := exists_split_utf8 h
  obtain ⟨hcs, hrest⟩ := List.forall_mem_append.mp hword
  obtain ⟨hall, hzero, hcodes⟩ := Decoding.step_utf8 hcs (d := ⟨[], 0, 0⟩) rfl
  cases hsplit with
  | inl hbytes =>
    rw [← hbytes] at hall hzero hcodes
    have hdecode := decodePieces_eq hall
    dsimp only at hdecode
    rw [hcodes, List.nil_append] at hdecode
    exact ⟨cs, rest, _, rfl, hdecode, .inl hzero⟩
  | inr hbytes =>
    obtain ⟨c, more, read, missing, rfl, hbytes, hencode, hread, hmissing⟩ := hbytes
    have hc : 0 < c.toNat := hrest c List.mem_cons_self
    obtain ⟨hmore, hunfinished⟩ :=
      Decoding.unfinished_utf8EncodeChar hc hzero hencode hread hmissing
    have hadmits : Decoding.AdmitsAll ⟨[], 0, 0⟩ pieces.flatten := by
      rw [hbytes, Decoding.admitsAll_append]
      exact ⟨hall, hmore⟩
    have hdecode := decodePieces_eq hadmits
    rw [hbytes, List.foldl_append] at hdecode
    dsimp only at hdecode
    rw [hunfinished.codePoints, hcodes, List.nil_append] at hdecode
    exact ⟨cs, c :: more, _, rfl, hdecode,
      .inr ⟨c, more, rfl, hunfinished.positive, hunfinished.long, hunfinished.inRange⟩⟩

end Words

section Keeps

variable {F : Type} {rules : Rules} {start depth eot token : ℕ} {live : List Stack}
  {texts : ℕ → List UInt8} {tokens : List ℕ} {grammar grammar' : GrammarState}
  {penalise : F → F} {logits logits' : List F} {word : List Char}

/-- A class that is not negated takes what can become one of its code points. -/
theorem acceptsPartial_of_partialRange {cls : CharClass} {unfinished : PartialUtf8} {chr : ℕ}
    (hpositive : cls.positive = true) (haccepts : cls.Accepts chr)
    (hremain : 0 < unfinished.nRemain) (hlong : unfinished.nRemain = 1 → 2 ≤ unfinished.value)
    (hrange : PartialRange unfinished chr) : cls.acceptsPartial unfinished = true := by
  obtain ⟨r, hr, hcontains⟩ := haccepts.mpr hpositive
  obtain ⟨hlower, hupper⟩ := CharRange.contains_iff.mp hcontains
  rw [CharClass.acceptsPartial, if_neg (by omega), if_pos, hpositive]
  exact ⟨r, hr, hlower.trans hrange.2, hrange.1.trans hupper⟩

/-- No class in the rules is negated. -/
def Rules.Positive (rules : Rules) : Prop :=
  ∀ rule ∈ rules.alternates, ∀ s ∈ rule, ∀ cls, .terminal cls ∈ s → cls.positive = true

/-- A token that is no candidate keeps its score. -/
theorem suppress_of_not_candidate (hreached : Reached rules grammar) (hne : grammar.live ≠ [])
    (hsuppress : suppressInvalidGrammar depth texts eot penalise grammar logits = some logits')
    (htoken : ¬ (token < eot ∧ texts token ≠ [])) : logits'[token]? = logits[token]? := by
  obtain ⟨rejects, hrejects, hscore⟩ := suppress_getElem? hreached hne hsuppress token
  obtain ⟨_, _, S, hlive, hsettled⟩ := hreached
  have hperm := rejectCandidates_perm 0 hlive hsettled hne hrejects
  rw [hscore, if_neg]
  intro hmem
  obtain ⟨tok, hrejected, rfl⟩ := List.mem_map.mp hmem
  obtain ⟨hcandidate, _⟩ := List.mem_filter.mp (hperm.mem_iff.mp hrejected)
  obtain ⟨hlt, htext, _⟩ := mem_grammarCandidates.mp hcandidate
  exact htoken ⟨hlt, htext⟩

variable (hpositive : rules.Positive)
  (hinit : initStacks rules.encode depth start = some live)
  (hspecial : ∀ t ∈ tokens ++ [token], [0x5b, 0x5f].isPrefixOf (texts t) = false)
  (hchars : ∀ c ∈ word, 0 < c.toNat) (hword : word.map Char.toNat ∈ rules.words start)
  (hbegins : ((tokens ++ [token]).map texts).flatten <+: utf8 word)
include hpositive hinit hspecial hchars hword hbegins

/-- After tokens that begin a word, a stack is left that their last character fits. -/
theorem exists_stackFits_of_begins
    (hrun : acceptTokens depth texts ⟨rules.encode, live, ⟨0, 0⟩⟩ (tokens ++ [token]) =
      some grammar') :
    ∃ stack ∈ grammar'.live, StackFits stack grammar'.partialUtf8 := by
  obtain ⟨cs, rest, unfinished, rfl, hdecode, hunfinished⟩ := decodePieces_word hchars hbegins
  obtain ⟨hlive, hcut⟩ :=
    acceptAll_of_acceptTokens (reached_init hinit ⟨0, 0⟩).2.1 hspecial hrun
  rw [hdecode] at hlive hcut
  have hmatches := acceptAll_init_matches hinit hlive
  have hsettled : ∀ β ∈ frontier (rules.toGrammar start) [.nonterminal start], Settled β :=
    fun _ h => h.2
  -- what is left of the word is spelled by one of the stacks
  rw [mem_words_iff, List.map_append] at hword
  have hquotient : rest.map Char.toNat ∈ spelledBy (rules.toGrammar start) CharClass.Accepts
      ((cs.map Char.toNat).foldl (advance (rules.toGrammar start) CharClass.Accepts)
        (frontier (rules.toGrammar start) [.nonterminal start])) := by
    rw [spelledBy_foldl_advance hsettled, Language.mem_leftQuotient, spelledBy_frontier]
    exact hword
  obtain ⟨β, hβ, hspells⟩ := hquotient
  obtain ⟨stack, hstack, hdenotes⟩ := hmatches.2 β hβ
  have hβsettled := settled_of_mem_foldl_advance hsettled hβ
  refine ⟨stack, hstack, (hdenotes.stackFits_iff hβsettled).mpr ?_⟩
  rw [hcut (List.ne_nil_of_mem hstack)]
  cases hunfinished with
  | inl hzero => exact .inl hzero
  | inr hmore =>
    obtain ⟨c, more, rfl, hremain, hlong, hrange⟩ := hmore
    cases β with
    | nil => exact nomatch spells_nil_iff.mp hspells
    | cons symbol γ =>
      cases symbol with
      | nonterminal id => exact absurd rfl (hβsettled id γ)
      | terminal cls =>
        obtain ⟨chr, _, heq, haccepts, _⟩ := spells_terminal_iff.mp hspells
        obtain ⟨rfl, _⟩ := List.cons.inj heq
        have hsign : ∀ x ∈ (.terminal cls :: γ : List (Symbol CharClass ℕ)),
            ∀ cls, x = .terminal cls → cls.positive = true := by
          have hrules : ∀ r ∈ (rules.toGrammar start).rules, ∀ x ∈ r.output,
              ∀ cls, x = .terminal cls → cls.positive = true := by
            intro ⟨id, s⟩ hmem x hx cls hcls
            obtain ⟨rule, hrule, hs⟩ := mem_toGrammar_rules.mp hmem
            exact hpositive rule (List.mem_of_getElem? hrule) s hs cls (hcls ▸ hx)
          exact forall_mem_of_mem_foldl_advance hrules
            (fun _ => forall_mem_of_mem_frontier hrules) hβ
        exact .inr ⟨cls, γ, rfl, acceptsPartial_of_partialRange
          (hsign _ List.mem_cons_self cls rfl) haccepts hremain hlong hrange⟩

/-- Without negated classes, a token that goes on towards a word of the grammar keeps its
score. -/
theorem suppress_keeps_word
    (hrun : acceptTokens depth texts ⟨rules.encode, live, ⟨0, 0⟩⟩ tokens = some grammar)
    (hsuppress : suppressInvalidGrammar depth texts eot penalise grammar logits = some logits')
    (haccept : acceptToken depth texts grammar token = some grammar') :
    logits'[token]? = logits[token]? := by
  have hreached := (reached_init hinit ⟨0, 0⟩).acceptTokens hrun
  by_cases hne : grammar.live = []
  · rw [suppressInvalidGrammar, if_pos (.inr (by rw [hne]; rfl))] at hsuppress
    rw [Option.some.inj hsuppress]
  by_cases hcandidate : token < eot ∧ texts token ≠ []
  · have hall : acceptTokens depth texts ⟨rules.encode, live, ⟨0, 0⟩⟩ (tokens ++ [token]) =
        some grammar' := by
      rw [acceptTokens, List.foldlM_append, ← acceptTokens, hrun]
      simpa [List.foldlM] using haccept
    have hzero : 0 ∉ (decodeUtf8 (texts token) grammar.partialUtf8).1.dropLast := by
      obtain ⟨cs, rest, unfinished, rfl, hdecode, _⟩ := decodePieces_word hchars hbegins
      obtain ⟨_, hcut⟩ := acceptAll_of_acceptTokens hreached.2.1
        (fun t ht => hspecial t (List.mem_append_left _ ht)) hrun
      rw [List.map_append, List.map_singleton, decodePieces_concat, ← hcut hne] at hdecode
      have hcodes := congrArg Prod.fst hdecode
      dsimp only at hcodes
      intro hmem
      have hmem := List.mem_append_right (decodePieces (tokens.map texts) ([], ⟨0, 0⟩)).1 hmem
      rw [hcodes] at hmem
      obtain ⟨c, hc, hcode⟩ := List.mem_map.mp hmem
      exact (hchars c (List.mem_append_left _ hc)).ne' hcode
    rw [suppress_of_reached hreached hne hsuppress haccept hcandidate.1 hcandidate.2
      (hspecial token (by simp)) hzero, if_pos]
    exact exists_stackFits_of_begins hpositive hinit hspecial hchars hword hbegins hall
  · exact suppress_of_not_candidate hreached hne hsuppress hcandidate

omit hpositive hinit hspecial hchars hword hbegins in
theorem positive_marked : marked.Positive := by
  simp [Rules.Positive, marked]

omit hpositive hinit hspecial hchars hword hbegins in
theorem suppress_keeps_word_marked :
    ([5, 20, 25] : List ℤ)[1]? = ([10, 20, 30] : List ℤ)[1]? :=
  suppress_keeps_word positive_marked initStacks_marked
    (show ∀ t ∈ [0] ++ [1], [0x5b, 0x5f].isPrefixOf (markedTexts t) = false by decide)
    markedChars_pos mem_words_marked (by decide)
    acceptTokens_marked_first suppress_marked acceptToken_marked

end Keeps

end WhisperAndroid.Grammar
