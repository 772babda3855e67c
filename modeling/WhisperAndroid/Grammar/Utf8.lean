import Mathlib.Tactic.IntervalCases
import WhisperAndroid.Grammar.Elements
import WhisperAndroid.Support.ModifiedUtf8

/-!
# Characters across tokens

`decode_utf8`, which takes up a character where the previous token broke off. The text
of a token is a C string without its terminator.

## Main results

* `decodePieces_utf8` — however a text is cut into tokens, its characters are read one
  after another
* `decodePieces_begins` — tokens that begin a text yield characters that begin it
-/

namespace WhisperAndroid.Grammar

open ModifiedUtf8

/-- `lookup`: the bytes of a character by the high bits of the first one. -/
def sequenceLengths : List ℤ := [1, 1, 1, 1, 1, 1, 1, 1, 0, 0, 0, 0, 2, 2, 3, 4]

/-- `lookup[highbits] - 1` -/
def continuationBytes (b : UInt8) : ℤ := sequenceLengths.getD (b.toNat >>> 4) 0 - 1

/-- The variables `code_points`, `value` and `n_remain` of `decode_utf8`. -/
structure Decoding where
  codePoints : List ℕ
  value : ℕ
  nRemain : ℤ
  deriving DecidableEq, Repr

/-- One more byte of a character, which is added with its last byte. -/
def Decoding.next (d : Decoding) (b : UInt8) : Decoding :=
  let value := (d.value <<< 6) + (b.toNat &&& 0x3f)
  let nRemain := d.nRemain - 1
  ⟨if nRemain = 0 then d.codePoints ++ [value] else d.codePoints, value, nRemain⟩

/-- The first byte of a character. -/
def Decoding.first (d : Decoding) (b : UInt8) : Decoding :=
  let nRemain := continuationBytes b
  let mask := (1 <<< (7 - nRemain).toNat) - 1
  let value := b.toNat &&& mask
  ⟨if nRemain = 0 then d.codePoints ++ [value] else d.codePoints, value, nRemain⟩

/-- The loop that continues the previous decode, with no result after an invalid byte. -/
def continueDecode : List UInt8 → Decoding → Option (List UInt8 × Decoding)
  | [], d => some ([], d)
  | b :: pos, d =>
    if b ≠ 0 ∧ 0 < d.nRemain then
      if b.toNat >>> 6 ≠ 2 then none else continueDecode pos (d.next b)
    else
      some (b :: pos, d)

/-- The loop over the following characters. While bytes remain to be read, the recursion
is that of the inner loop, which does not check its bytes. -/
def decodeSequences : List UInt8 → Decoding → List ℕ × PartialUtf8
  | [], d => (d.codePoints ++ [0], ⟨d.value, d.nRemain⟩)
  | b :: pos, d =>
    if b = 0 then (d.codePoints ++ [0], ⟨d.value, d.nRemain⟩)
    else if 0 < d.nRemain then decodeSequences pos (d.next b)
    else if continuationBytes b < 0 then ([0], ⟨0, continuationBytes b⟩)
    else decodeSequences pos (d.first b)

/-- `decode_utf8` -/
def decodeUtf8 (src : List UInt8) (partialStart : PartialUtf8) : List ℕ × PartialUtf8 :=
  match continueDecode src ⟨[], partialStart.value, partialStart.nRemain⟩ with
  | none => ([0], ⟨0, -1⟩)
  | some (pos, d) => decodeSequences pos d

/-- The code points of successive tokens, each without the terminator that
`whisper_grammar_accept_token` leaves out, and the character left unfinished. -/
def decodePieces (pieces : List (List UInt8)) (s : List ℕ × PartialUtf8) : List ℕ × PartialUtf8 :=
  pieces.foldl (fun s piece =>
    let decoded := decodeUtf8 piece s.2
    (s.1 ++ decoded.1.dropLast, decoded.2)) s

/-! ### Bytes of a text -/

/-- The next byte, of a character begun or of a new one. -/
def Decoding.step (d : Decoding) (b : UInt8) : Decoding :=
  if 0 < d.nRemain then d.next b else d.first b

/-- The byte can follow in a text. -/
def Decoding.Admits (d : Decoding) (b : UInt8) : Prop :=
  b ≠ 0 ∧ if 0 < d.nRemain then b.toNat >>> 6 = 2 else 0 ≤ continuationBytes b

/-- The bytes can follow in a text. -/
def Decoding.AdmitsAll : Decoding → List UInt8 → Prop
  | _, [] => True
  | d, b :: bytes => d.Admits b ∧ (d.step b).AdmitsAll bytes

/-- What `decode_utf8` returns at the end of a string. -/
def Decoding.finish (d : Decoding) : List ℕ × PartialUtf8 :=
  (d.codePoints ++ [0], ⟨d.value, d.nRemain⟩)

/-- The same with some code points in front. -/
def Decoding.after (d : Decoding) (codePoints : List ℕ) : Decoding :=
  { d with codePoints := codePoints ++ d.codePoints }

section Decoding

variable {d : Decoding} {b : UInt8} {bytes bytes' : List UInt8} {codePoints : List ℕ}

theorem Decoding.admitsAll_append :
    d.AdmitsAll (bytes ++ bytes') ↔
      d.AdmitsAll bytes ∧ (bytes.foldl Decoding.step d).AdmitsAll bytes' := by
  induction bytes generalizing d with
  | nil => simp [AdmitsAll]
  | cons b bytes ih =>
    rw [List.cons_append, AdmitsAll, AdmitsAll, ih, List.foldl_cons, and_assoc]

@[simp] theorem Decoding.after_step :
    (d.after codePoints).step b = (d.step b).after codePoints := by
  unfold step
  by_cases hremain : 0 < d.nRemain
  · rw [if_pos hremain, if_pos (show 0 < (d.after codePoints).nRemain from hremain)]
    by_cases hlast : d.nRemain - 1 = 0 <;> simp only [next, after, hlast, if_true, if_false,
      List.append_assoc]
  · rw [if_neg hremain, if_neg (show ¬ 0 < (d.after codePoints).nRemain from hremain)]
    by_cases hlast : continuationBytes b = 0 <;> simp only [first, after, hlast, if_true,
      if_false, List.append_assoc]

theorem Decoding.foldl_after :
    bytes.foldl step (d.after codePoints) = (bytes.foldl step d).after codePoints := by
  induction bytes generalizing d with
  | nil => rfl
  | cons b bytes ih => rw [List.foldl_cons, after_step, ih, List.foldl_cons]

theorem Decoding.admitsAll_after :
    (d.after codePoints).AdmitsAll bytes ↔ d.AdmitsAll bytes := by
  induction bytes generalizing d with
  | nil => rfl
  | cons b bytes ih =>
    rw [AdmitsAll, AdmitsAll, after_step, ih]
    rfl

theorem decodeSequences_eq (h : d.AdmitsAll bytes) :
    decodeSequences bytes d = (bytes.foldl Decoding.step d).finish := by
  induction bytes generalizing d with
  | nil => rfl
  | cons b bytes ih =>
    obtain ⟨⟨hzero, hbyte⟩, hrest⟩ := h
    rw [decodeSequences, if_neg hzero, List.foldl_cons, ← ih hrest]
    unfold Decoding.step
    by_cases hremain : 0 < d.nRemain
    · rw [if_pos hremain, if_pos hremain]
    · rw [if_neg hremain] at hbyte
      rw [if_neg hremain, if_neg (not_lt.mpr hbyte), if_neg hremain]

/-- The first loop reads a part of the bytes as the second one would. -/
theorem continueDecode_eq (h : d.AdmitsAll bytes) :
    ∃ read pos, bytes = read ++ pos ∧
      continueDecode bytes d = some (pos, read.foldl Decoding.step d) := by
  induction bytes generalizing d with
  | nil => exact ⟨[], [], rfl, rfl⟩
  | cons b bytes ih =>
    obtain ⟨⟨hzero, hbyte⟩, hrest⟩ := h
    by_cases hremain : 0 < d.nRemain
    · rw [if_pos hremain] at hbyte
      have hstep : d.step b = d.next b := if_pos hremain
      obtain ⟨read, pos, rfl, hcontinue⟩ := ih hrest
      refine ⟨b :: read, pos, rfl, ?_⟩
      rw [continueDecode, if_pos ⟨hzero, hremain⟩, if_neg (not_not.mpr hbyte), List.foldl_cons,
        ← hstep, hcontinue]
    · refine ⟨[], b :: bytes, rfl, ?_⟩
      rw [continueDecode, if_neg fun h => hremain h.2]
      rfl

theorem decodeUtf8_eq {partialStart : PartialUtf8}
    (h : Decoding.AdmitsAll ⟨[], partialStart.value, partialStart.nRemain⟩ bytes) :
    decodeUtf8 bytes partialStart =
      (bytes.foldl Decoding.step ⟨[], partialStart.value, partialStart.nRemain⟩).finish := by
  obtain ⟨read, pos, rfl, hcontinue⟩ := continueDecode_eq h
  rw [decodeUtf8, hcontinue, List.foldl_append]
  exact decodeSequences_eq (Decoding.admitsAll_append.mp h).2

/-- Decoding token by token is decoding the whole. -/
theorem decodePieces_eq {pieces : List (List UInt8)} (h : d.AdmitsAll pieces.flatten) :
    decodePieces pieces (d.codePoints, ⟨d.value, d.nRemain⟩) =
      let d' := pieces.flatten.foldl Decoding.step d
      (d'.codePoints, ⟨d'.value, d'.nRemain⟩) := by
  induction pieces generalizing d with
  | nil => rfl
  | cons piece pieces ih =>
    rw [List.flatten_cons, Decoding.admitsAll_append] at h
    -- the code points before the token stay in front
    have hafter : d = Decoding.after ⟨[], d.value, d.nRemain⟩ d.codePoints := by
      simp [Decoding.after]
    have hpiece : Decoding.AdmitsAll ⟨[], d.value, d.nRemain⟩ piece := by
      have := h.1
      rwa [hafter, Decoding.admitsAll_after] at this
    have hfold : piece.foldl Decoding.step d =
        (piece.foldl Decoding.step ⟨[], d.value, d.nRemain⟩).after d.codePoints := by
      rw [← Decoding.foldl_after, ← hafter]
    have hrest := ih h.2
    rw [decodePieces, List.foldl_cons, List.flatten_cons, List.foldl_append, ← hrest,
      decodePieces, decodeUtf8_eq hpiece, hfold]
    simp [Decoding.finish, Decoding.after]

/-! ### Characters -/

theorem continuationBytes_of_lt (hb : b.toNat < 0x80) : continuationBytes b = 0 := by
  have hlead : b.toNat >>> 4 < 8 := by
    rw [Nat.shiftRight_eq_div_pow]
    omega
  unfold continuationBytes
  interval_cases b.toNat >>> 4 <;> rfl

theorem continuationBytes_two (hb : 0xc0 ≤ b.toNat) (hb' : b.toNat < 0xe0) :
    continuationBytes b = 1 := by
  have hlead : 12 ≤ b.toNat >>> 4 ∧ b.toNat >>> 4 < 14 := by
    rw [Nat.shiftRight_eq_div_pow]
    omega
  obtain ⟨hlow, hhigh⟩ := hlead
  unfold continuationBytes
  interval_cases b.toNat >>> 4 <;> rfl

theorem continuationBytes_three (hb : 0xe0 ≤ b.toNat) (hb' : b.toNat < 0xf0) :
    continuationBytes b = 2 := by
  have hlead : b.toNat >>> 4 = 14 := by
    rw [Nat.shiftRight_eq_div_pow]
    omega
  rw [continuationBytes, hlead]
  rfl

theorem continuationBytes_four (hb : 0xf0 ≤ b.toNat) : continuationBytes b = 3 := by
  have hmax := b.toNat_lt
  have hlead : b.toNat >>> 4 = 15 := by
    rw [Nat.shiftRight_eq_div_pow]
    omega
  rw [continuationBytes, hlead]
  rfl

/-- A byte that continues a character, with six bits of payload. -/
theorem Decoding.step_next {x : ℕ} (hremain : 0 < d.nRemain) :
    d.Admits (UInt8.ofNat (x % 0x40 + 0x80)) ∧ d.step (UInt8.ofNat (x % 0x40 + 0x80)) =
      let value := d.value * 64 + x % 64
      ⟨if d.nRemain = 1 then d.codePoints ++ [value] else d.codePoints, value, d.nRemain - 1⟩ := by
  have hb := toNat_ofNat_add (show x % 0x40 + 0x80 < 0x100 by omega)
  constructor
  · refine ⟨fun hzero => ?_, ?_⟩
    · rw [hzero] at hb
      simp at hb
    · rw [if_pos hremain, hb, Nat.shiftRight_eq_div_pow]
      omega
  · have hpayload : (x % 0x40 + 0x80) &&& 0x3f = x % 64 := by
      rw [show 0x3f = 2 ^ 6 - 1 from rfl, Nat.and_two_pow_sub_one_eq_mod]
      omega
    have hlast : d.nRemain - 1 = 0 ↔ d.nRemain = 1 := by omega
    simp only [step, hremain, if_true, next, hb, hpayload, Nat.shiftLeft_eq, hlast]

/-- The first byte of a character, with its bits of payload. -/
theorem Decoding.step_first {lead : ℕ} {n : ℤ} (hremain : d.nRemain = 0) (hlead : lead < 0x100)
    (hpos : 0 < lead) (hn : continuationBytes (UInt8.ofNat lead) = n) (hnonneg : 0 ≤ n) :
    d.Admits (UInt8.ofNat lead) ∧ d.step (UInt8.ofNat lead) =
      let value := lead % 2 ^ (7 - n).toNat
      ⟨if n = 0 then d.codePoints ++ [value] else d.codePoints, value, n⟩ := by
  have hb : (UInt8.ofNat lead).toNat = lead := by
    rw [UInt8.toNat_ofNat', Nat.mod_eq_of_lt hlead]
  have hnot : ¬ 0 < d.nRemain := by omega
  constructor
  · refine ⟨fun hzero => ?_, ?_⟩
    · rw [hzero] at hb
      simp at hb
      omega
    · rw [if_neg hnot, hn]
      exact hnonneg
  · simp only [step, if_neg hnot, first, hn, hb, Nat.shiftLeft_eq, one_mul,
      Nat.and_two_pow_sub_one_eq_mod]

/-- Three more bytes, two more or one: the value takes in their payloads. -/
theorem Decoding.foldl_next (digits : List ℕ) (hremain : d.nRemain = (bytes'.length : ℤ))
    (hpos : bytes' ≠ []) (hbytes : bytes' = digits.map fun x => UInt8.ofNat (x % 0x40 + 0x80)) :
    d.AdmitsAll bytes' ∧ bytes'.foldl Decoding.step d =
      let value := digits.foldl (fun value x => value * 64 + x % 64) d.value
      ⟨d.codePoints ++ [value], value, 0⟩ := by
  subst hbytes
  induction digits generalizing d with
  | nil => exact absurd rfl hpos
  | cons x digits ih =>
    rw [List.map_cons, List.length_cons, List.length_map] at hremain
    push_cast at hremain
    obtain ⟨hadmits, hstep⟩ := Decoding.step_next (d := d) (x := x) (by omega)
    cases digits with
    | nil =>
      have hlast : d.nRemain = 1 := by simpa using hremain
      refine ⟨⟨hadmits, trivial⟩, ?_⟩
      rw [List.map_cons, List.foldl_cons, hstep, hlast]
      simp
    | cons y digits =>
      have hmore : d.nRemain ≠ 1 := by
        rw [List.length_cons] at hremain
        push_cast at hremain
        omega
      have hrest := ih (d := d.step (UInt8.ofNat (x % 0x40 + 0x80))) (by
        rw [hstep, List.length_map]
        exact sub_eq_of_eq_add hremain) (by simp)
      refine ⟨⟨hadmits, hrest.1⟩, ?_⟩
      rw [List.map_cons, List.foldl_cons, hrest.2, hstep]
      simp [hmore]

/-- A character of several bytes, from the payloads of its bytes. -/
theorem Decoding.step_several {lead v : ℕ} (digits : List ℕ) (hremain : d.nRemain = 0)
    (hlead : lead < 0x100) (hpos : 0 < lead) (hdigits : digits ≠ [])
    (hn : continuationBytes (UInt8.ofNat lead) = (digits.length : ℤ))
    (hv : digits.foldl (fun value x => value * 64 + x % 64)
      (lead % 2 ^ (7 - (digits.length : ℤ)).toNat) = v) :
    let bytes := UInt8.ofNat lead :: digits.map fun x => UInt8.ofNat (x % 0x40 + 0x80)
    d.AdmitsAll bytes ∧ bytes.foldl Decoding.step d = ⟨d.codePoints ++ [v], v, 0⟩ := by
  obtain ⟨hadmits, hstep⟩ := Decoding.step_first hremain hlead hpos hn (by omega)
  have hsome : (digits.length : ℤ) ≠ 0 := by
    have := List.length_pos_of_ne_nil hdigits
    omega
  obtain ⟨hall, hfold⟩ := Decoding.foldl_next (d := d.step (UInt8.ofNat lead)) digits
    (by rw [hstep, List.length_map]) (by simpa using hdigits) rfl
  refine ⟨⟨hadmits, hall⟩, ?_⟩
  rw [List.foldl_cons, hfold, hstep]
  simp only [if_neg hsome, hv]

theorem toNat_lt_max (c : Char) : c.toNat < 0x110000 := by
  cases c.valid with
  | inl hlow => exact Nat.lt_trans hlow (by decide)
  | inr hhigh => exact hhigh.2

theorem utf8EncodeChar_eq (c : Char) :
    String.utf8EncodeChar c =
      if c.toNat ≤ 0x7f then [UInt8.ofNat c.toNat]
      else if c.toNat ≤ 0x7ff then
        [UInt8.ofNat (c.toNat / 64 % 0x20 + 0xc0), UInt8.ofNat (c.toNat % 0x40 + 0x80)]
      else if c.toNat ≤ 0xffff then
        [UInt8.ofNat (c.toNat / 4096 % 0x10 + 0xe0), UInt8.ofNat (c.toNat / 64 % 0x40 + 0x80),
          UInt8.ofNat (c.toNat % 0x40 + 0x80)]
      else
        [UInt8.ofNat (c.toNat / 262144 % 8 + 0xf0), UInt8.ofNat (c.toNat / 4096 % 0x40 + 0x80),
          UInt8.ofNat (c.toNat / 64 % 0x40 + 0x80), UInt8.ofNat (c.toNat % 0x40 + 0x80)] :=
  rfl

/-- A character is read to its code point. -/
theorem Decoding.step_utf8EncodeChar {c : Char} (hc : 0 < c.toNat) (hremain : d.nRemain = 0) :
    d.AdmitsAll (String.utf8EncodeChar c) ∧
      (String.utf8EncodeChar c).foldl Decoding.step d =
        ⟨d.codePoints ++ [c.toNat], c.toNat, 0⟩ := by
  have hmax := toNat_lt_max c
  rw [utf8EncodeChar_eq]
  generalize c.toNat = v at *
  split_ifs with hone htwo hthree
  · have hb : (UInt8.ofNat v).toNat = v := by
      rw [UInt8.toNat_ofNat', Nat.mod_eq_of_lt (by omega)]
    obtain ⟨hadmits, hstep⟩ := Decoding.step_first hremain (show v < 0x100 by omega) hc
      (continuationBytes_of_lt (by omega)) le_rfl
    refine ⟨⟨hadmits, trivial⟩, ?_⟩
    rw [List.foldl_cons, List.foldl_nil, hstep]
    simp [Nat.mod_eq_of_lt (show v < 128 by omega)]
  · have hb := toNat_ofNat_add (show v / 64 % 0x20 + 0xc0 < 0x100 by omega)
    refine Decoding.step_several [v] hremain (by omega) (by omega) (by simp)
      (continuationBytes_two (by omega) (by omega)) ?_
    simp
    omega
  · have hb := toNat_ofNat_add (show v / 4096 % 0x10 + 0xe0 < 0x100 by omega)
    refine Decoding.step_several [v / 64, v] hremain (by omega) (by omega) (by simp)
      (continuationBytes_three (by omega) (by omega)) ?_
    simp
    omega
  · have hb := toNat_ofNat_add (show v / 262144 % 8 + 0xf0 < 0x100 by omega)
    refine Decoding.step_several [v / 4096, v / 64, v] hremain (by omega) (by omega)
      (by simp) (continuationBytes_four (by omega)) ?_
    simp
    omega

theorem Decoding.step_utf8 {cs : List Char} (hcs : ∀ c ∈ cs, 0 < c.toNat)
    (hremain : d.nRemain = 0) :
    d.AdmitsAll (utf8 cs) ∧ ((utf8 cs).foldl Decoding.step d).nRemain = 0 ∧
      ((utf8 cs).foldl Decoding.step d).codePoints = d.codePoints ++ cs.map Char.toNat := by
  induction cs generalizing d with
  | nil => exact ⟨trivial, hremain, by simp [utf8]⟩
  | cons c cs ih =>
    obtain ⟨hc, hcs⟩ := List.forall_mem_cons.mp hcs
    obtain ⟨hadmits, hstep⟩ := Decoding.step_utf8EncodeChar hc hremain
    obtain ⟨hall, hzero, hcodes⟩ := ih hcs (d := ⟨d.codePoints ++ [c.toNat], c.toNat, 0⟩) rfl
    have hcons : utf8 (c :: cs) = String.utf8EncodeChar c ++ utf8 cs := List.flatMap_cons
    rw [hcons, Decoding.admitsAll_append, List.foldl_append, hstep]
    refine ⟨⟨hadmits, hall⟩, hzero, ?_⟩
    rw [hcodes, List.append_assoc]
    rfl

theorem Decoding.codePoints_begins_foldl (bytes : List UInt8) :
    d.codePoints <+: (bytes.foldl Decoding.step d).codePoints := by
  induction bytes generalizing d with
  | nil => exact List.prefix_rfl
  | cons b bytes ih =>
    refine List.IsPrefix.trans ?_ ih
    unfold step next first
    split <;> dsimp only <;> split <;> simp

end Decoding

section Pieces

variable {pieces : List (List UInt8)} {cs : List Char}

/-- Tokens that make up a text yield its characters, wherever they cut it. -/
theorem decodePieces_utf8 (hcs : ∀ c ∈ cs, 0 < c.toNat) (hpieces : pieces.flatten = utf8 cs) :
    (decodePieces pieces ([], ⟨0, 0⟩)).1 = cs.map Char.toNat ∧
      (decodePieces pieces ([], ⟨0, 0⟩)).2.nRemain = 0 := by
  obtain ⟨hall, hzero, hcodes⟩ := Decoding.step_utf8 hcs (d := ⟨[], 0, 0⟩) rfl
  rw [← hpieces] at hall hzero hcodes
  have hdecode := decodePieces_eq hall
  exact ⟨(congrArg Prod.fst hdecode).trans hcodes,
    (congrArg (fun s => s.2.nRemain) hdecode).trans hzero⟩

/-- Tokens that begin a text yield characters that begin it. -/
theorem decodePieces_begins (hcs : ∀ c ∈ cs, 0 < c.toNat)
    (hpieces : pieces.flatten <+: utf8 cs) :
    (decodePieces pieces ([], ⟨0, 0⟩)).1 <+: cs.map Char.toNat := by
  obtain ⟨rest, hrest⟩ := hpieces
  obtain ⟨hall, _, hcodes⟩ := Decoding.step_utf8 hcs (d := ⟨[], 0, 0⟩) rfl
  rw [← hrest, Decoding.admitsAll_append] at hall
  have hdecode := decodePieces_eq hall.1
  rw [← hrest, List.foldl_append] at hcodes
  have hbegins := Decoding.codePoints_begins_foldl rest
    (d := pieces.flatten.foldl Decoding.step ⟨[], 0, 0⟩)
  rw [hcodes] at hbegins
  rwa [congrArg Prod.fst hdecode]

end Pieces

end WhisperAndroid.Grammar
