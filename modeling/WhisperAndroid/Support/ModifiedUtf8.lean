import Mathlib.Tactic.SplitIfs
import WhisperAndroid.Support.PrefixCode

/-!
# Modified UTF-8

The encoding of strings of UTF-16 code units by one to three bytes a unit. A supplementary
character has two units, and so six bytes where UTF-8 has a form of four. The unit zero has
the form of two bytes.

The two encodings agree on the characters other than these.
-/

namespace ModifiedUtf8

/-! ### Code units -/

/-- The bytes of a code unit, without the form of one byte for zero. -/
def unitWord (u : UInt16) : List UInt8 :=
  let v := u.toNat
  if v ≠ 0 ∧ v ≤ 0x7f then
    [UInt8.ofNat v]
  else if v ≤ 0x7ff then
    [UInt8.ofNat (v / 64 % 0x20 + 0xc0), UInt8.ofNat (v % 0x40 + 0x80)]
  else
    [UInt8.ofNat (v / 4096 % 0x10 + 0xe0), UInt8.ofNat (v / 64 % 0x40 + 0x80),
      UInt8.ofNat (v % 0x40 + 0x80)]

/-- A byte that starts no word: its two high bits are `10`. -/
def IsContinuation (b : UInt8) : Prop := 0x80 ≤ b.toNat ∧ b.toNat < 0xc0

instance (b : UInt8) : Decidable (IsContinuation b) := inferInstanceAs (Decidable (_ ∧ _))

/-- The code unit in front of a string, in its shortest form or as the two bytes of zero. -/
def nextUnit : List UInt8 → Option (UInt16 × List UInt8)
  | [] => none
  | b :: rest =>
    if b.toNat < 0x80 then
      if b.toNat = 0 then none else some (UInt16.ofNat b.toNat, rest)
    else if b.toNat < 0xc0 then
      none
    else if b.toNat < 0xe0 then
      match rest with
      | c :: rest =>
        let v := (b.toNat - 0xc0) * 64 + (c.toNat - 0x80)
        if IsContinuation c ∧ (v = 0 ∨ 0x80 ≤ v) then some (UInt16.ofNat v, rest) else none
      | [] => none
    else if b.toNat < 0xf0 then
      match rest with
      | c :: d :: rest =>
        let v := (b.toNat - 0xe0) * 4096 + (c.toNat - 0x80) * 64 + (d.toNat - 0x80)
        if IsContinuation c ∧ IsContinuation d ∧ 0x800 ≤ v then some (UInt16.ofNat v, rest)
        else none
      | _ => none
    else
      none

/-- The three forms of a word, with the value that each spells. -/
inductive Form : List UInt8 → ℕ → Prop
  | one {b : UInt8} (hpos : 0 < b.toNat) (hb : b.toNat < 0x80) : Form [b] b.toNat
  | two {b c : UInt8} {v : ℕ} (hb : 0xc0 ≤ b.toNat) (hb' : b.toNat < 0xe0)
      (hc : IsContinuation c) (hv : (b.toNat - 0xc0) * 64 + (c.toNat - 0x80) = v)
      (hform : v = 0 ∨ 0x80 ≤ v) : Form [b, c] v
  | three {b c d : UInt8} {v : ℕ} (hb : 0xe0 ≤ b.toNat) (hb' : b.toNat < 0xf0)
      (hc : IsContinuation c) (hd : IsContinuation d)
      (hv : (b.toNat - 0xe0) * 4096 + (c.toNat - 0x80) * 64 + (d.toNat - 0x80) = v)
      (hform : 0x800 ≤ v) : Form [b, c, d] v

theorem toNat_ofNat_add {x base : ℕ} (h : x + base < 0x100) :
    (UInt8.ofNat (x + base)).toNat = x + base := by
  rw [UInt8.toNat_ofNat', Nat.mod_eq_of_lt h]

theorem isContinuation_ofNat (x : ℕ) : IsContinuation (UInt8.ofNat (x % 0x40 + 0x80)) := by
  rw [IsContinuation, toNat_ofNat_add (by omega)]
  omega

theorem form_unitWord (u : UInt16) : Form (unitWord u) u.toNat := by
  have hu := u.toNat_lt
  simp only [unitWord]
  split_ifs with hone htwo
  · have hb : (UInt8.ofNat u.toNat).toNat = u.toNat := by
      rw [UInt8.toNat_ofNat', Nat.mod_eq_of_lt (by omega)]
    have hform := Form.one (b := UInt8.ofNat u.toNat) (by omega) (by omega)
    rwa [hb] at hform
  · have hb := toNat_ofNat_add (show u.toNat / 64 % 0x20 + 0xc0 < 0x100 by omega)
    have hc := toNat_ofNat_add (show u.toNat % 0x40 + 0x80 < 0x100 by omega)
    exact .two (by omega) (by omega) (isContinuation_ofNat _) (by omega) (by omega)
  · have hb := toNat_ofNat_add (show u.toNat / 4096 % 0x10 + 0xe0 < 0x100 by omega)
    have hc := toNat_ofNat_add (show u.toNat / 64 % 0x40 + 0x80 < 0x100 by omega)
    have hd := toNat_ofNat_add (show u.toNat % 0x40 + 0x80 < 0x100 by omega)
    exact .three (by omega) (by omega) (isContinuation_ofNat _) (isContinuation_ofNat _)
      (by omega) (by omega)

namespace Form

variable {w : List UInt8} {v : ℕ}

theorem lt (h : Form w v) : v < 0x10000 := by
  cases h with
  | one hpos hb => omega
  | two hb hb' hc hv hform =>
    obtain ⟨hlow, hhigh⟩ := hc
    omega
  | three hb hb' hc hd hv hform =>
    obtain ⟨hlow, hhigh⟩ := hc
    obtain ⟨hlow', hhigh'⟩ := hd
    omega

/-- A value has one form. -/
theorem unitWord_eq (h : Form w v) : unitWord (UInt16.ofNat v) = w := by
  have hv : (UInt16.ofNat v).toNat = v := by
    rw [UInt16.toNat_ofNat', Nat.mod_eq_of_lt h.lt]
  simp only [unitWord, hv]
  cases h with
  | one hpos hb => rw [if_pos (by omega), UInt8.ofNat_toNat]
  | @two b c _ hb hb' hc hv hform =>
    obtain ⟨hlow, hhigh⟩ := hc
    -- the digits of `v` to base 64 are the payloads of the bytes
    have hlead : v / 64 % 0x20 + 0xc0 = b.toNat := by omega
    have hlast : v % 0x40 + 0x80 = c.toNat := by omega
    rw [if_neg (by omega), if_pos (by omega), hlead, hlast, UInt8.ofNat_toNat, UInt8.ofNat_toNat]
  | @three b c d _ hb hb' hc hd hv hform =>
    obtain ⟨hlow, hhigh⟩ := hc
    obtain ⟨hlow', hhigh'⟩ := hd
    have hlead : v / 4096 % 0x10 + 0xe0 = b.toNat := by omega
    have hmid : v / 64 % 0x40 + 0x80 = c.toNat := by omega
    have hlast : v % 0x40 + 0x80 = d.toNat := by omega
    rw [if_neg (by omega), if_neg (by omega), hlead, hmid, hlast, UInt8.ofNat_toNat,
      UInt8.ofNat_toNat, UInt8.ofNat_toNat]

theorem nextUnit_append (h : Form w v) (rest : List UInt8) :
    nextUnit (w ++ rest) = some (UInt16.ofNat v, rest) := by
  cases h with
  | one hpos hb =>
    simp only [List.singleton_append, nextUnit, if_pos hb, if_neg (Nat.ne_of_gt hpos)]
  | @two b c _ hb hb' hc hv hform =>
    have hone : ¬ b.toNat < 0x80 := by omega
    simp only [List.cons_append, List.nil_append, nextUnit, if_neg hone,
      if_neg (Nat.not_lt.mpr hb), if_pos hb', hv]
    exact if_pos ⟨hc, hform⟩
  | @three b c d _ hb hb' hc hd hv hform =>
    have hone : ¬ b.toNat < 0x80 := by omega
    have hcont : ¬ b.toNat < 0xc0 := by omega
    simp only [List.cons_append, List.nil_append, nextUnit, if_neg hone, if_neg hcont,
      if_neg (Nat.not_lt.mpr hb), if_pos hb', hv]
    exact if_pos ⟨hc, hd, hform⟩

/-- No byte of a word is zero, or the lead of a form of four bytes. -/
theorem bounds (h : Form w v) : ∀ b ∈ w, 0 < b.toNat ∧ b.toNat < 0xf0 := by
  cases h with
  | one hpos hb => exact List.forall_mem_singleton.mpr (by omega)
  | two hb hb' hc hv hform =>
    obtain ⟨hlow, hhigh⟩ := hc
    exact List.forall_mem_cons.mpr ⟨by omega, List.forall_mem_singleton.mpr (by omega)⟩
  | three hb hb' hc hd hv hform =>
    obtain ⟨hlow, hhigh⟩ := hc
    obtain ⟨hlow', hhigh'⟩ := hd
    exact List.forall_mem_cons.mpr ⟨by omega,
      List.forall_mem_cons.mpr ⟨by omega, List.forall_mem_singleton.mpr (by omega)⟩⟩

/-- A word has its continuation bytes behind its first. -/
theorem eq_cons (h : Form w v) :
    ∃ b tail, w = b :: tail ∧ ¬ IsContinuation b ∧ ∀ c ∈ tail, ¬ ¬ IsContinuation c := by
  cases h with
  | one hpos hb => exact ⟨_, [], rfl, fun hcont => absurd hcont.1 (by omega), by simp⟩
  | two hb hb' hc hv hform =>
    exact ⟨_, _, rfl, fun hcont => absurd hcont.2 (by omega), by simpa using hc⟩
  | three hb hb' hc hd hv hform =>
    exact ⟨_, _, rfl, fun hcont => absurd hcont.2 (by omega), by simpa using ⟨hc, hd⟩⟩

end Form

theorem form_of_nextUnit {bytes rest : List UInt8} {u : UInt16}
    (hnext : nextUnit bytes = some (u, rest)) :
    ∃ w v, Form w v ∧ u = UInt16.ofNat v ∧ bytes = w ++ rest := by
  cases bytes with
  | nil => cases hnext
  | cons b bytes =>
    -- the branches that read a unit, by the lead byte; all others fail
    simp only [nextUnit] at hnext
    split_ifs at hnext with hone hzero hcont htwo hthree
    · obtain ⟨rfl, rfl⟩ := Prod.mk.inj (Option.some.inj hnext)
      exact ⟨_, _, .one (Nat.pos_of_ne_zero hzero) hone, rfl, rfl⟩
    · split at hnext
      next c bytes =>
        split_ifs at hnext with hform
        obtain ⟨rfl, rfl⟩ := Prod.mk.inj (Option.some.inj hnext)
        exact ⟨_, _, .two (Nat.not_lt.mp hcont) htwo hform.1 rfl hform.2, rfl, rfl⟩
      next => cases hnext
    · split at hnext
      next c d bytes =>
        split_ifs at hnext with hform
        obtain ⟨rfl, rfl⟩ := Prod.mk.inj (Option.some.inj hnext)
        exact ⟨_, _, .three (Nat.not_lt.mp htwo) hthree hform.1 hform.2.1 rfl hform.2.2, rfl, rfl⟩
      next => cases hnext

/-- Modified UTF-8 as a code of the UTF-16 code units. -/
def code : PrefixCode UInt16 UInt8 where
  word := unitWord
  next := nextUnit
  word_ne_nil u := by
    obtain ⟨b, tail, hcons, -⟩ := (form_unitWord u).eq_cons
    simp [hcons]
  next_word_append u rest := by
    rw [(form_unitWord u).nextUnit_append, UInt16.ofNat_toNat]
  eq_word_append hnext := by
    obtain ⟨w, v, hform, rfl, rfl⟩ := form_of_nextUnit hnext
    rw [hform.unitWord_eq]

theorem code_markedBy : code.MarkedBy fun b => ¬ IsContinuation b :=
  ⟨fun u => (form_unitWord u).eq_cons⟩

theorem bounds_of_isText {bytes : List UInt8} (h : code.IsText bytes) :
    ∀ b ∈ bytes, 0 < b.toNat ∧ b.toNat < 0xf0 := by
  obtain ⟨units, rfl⟩ := h
  intro b hb
  obtain ⟨u, -, hu⟩ := List.mem_flatMap.mp hb
  exact (form_unitWord u).bounds b hu

/-! ### Characters -/

/-- The UTF-16 form of a character: its code point, or a surrogate pair. -/
def utf16Char (c : Char) : List UInt16 :=
  if c.toNat < 0x10000 then
    [UInt16.ofNat c.toNat]
  else
    [UInt16.ofNat ((c.toNat - 0x10000) / 0x400 + 0xd800),
      UInt16.ofNat ((c.toNat - 0x10000) % 0x400 + 0xdc00)]

/-- The UTF-16 form of a text. -/
def utf16 (cs : List Char) : List UInt16 := cs.flatMap utf16Char

/-- The UTF-8 form of a text. -/
def utf8 (cs : List Char) : List UInt8 := cs.flatMap String.utf8EncodeChar

theorem length_unitWord {v : ℕ} (hlow : 0x800 ≤ v) (hhigh : v < 0x10000) :
    (unitWord (UInt16.ofNat v)).length = 3 := by
  have hv : (UInt16.ofNat v).toNat = v := by
    rw [UInt16.toNat_ofNat', Nat.mod_eq_of_lt hhigh]
  simp only [unitWord, hv]
  rw [if_neg (by omega), if_neg (by omega)]
  rfl

/-- A supplementary character takes up six bytes, three for each half of the pair. -/
theorem length_encode_utf16Char {c : Char} (hlarge : 0x10000 ≤ c.toNat) :
    (code.encode (utf16Char c)).length = 6 := by
  have hmax : c.toNat < 0x110000 := by
    rcases c.valid with hlow | ⟨-, hhigh⟩
    · exact Nat.lt_trans hlow (by decide)
    · exact hhigh
  rw [utf16Char, if_neg (Nat.not_lt.mpr hlarge), PrefixCode.encode_cons, PrefixCode.encode_cons,
    PrefixCode.encode_nil, List.append_nil, List.length_append]
  simp only [code]
  rw [length_unitWord (by omega) (by omega), length_unitWord (by omega) (by omega)]

example : code.encode (utf16 ['😀']) = [0xed, 0xa0, 0xbd, 0xed, 0xb8, 0x80] := by
  decide

/-- Neither NUL nor supplementary. -/
def Plain (c : Char) : Prop := 0 < c.toNat ∧ c.toNat < 0x10000

instance (c : Char) : Decidable (Plain c) := inferInstanceAs (Decidable (_ ∧ _))

theorem utf16Char_of_plain {c : Char} (h : Plain c) : utf16Char c = [UInt16.ofNat c.toNat] :=
  if_pos h.2

/-- A plain character has the same bytes in both encodings. -/
theorem utf8EncodeChar_of_plain {c : Char} (h : Plain c) :
    String.utf8EncodeChar c = code.word (UInt16.ofNat c.toNat) := by
  obtain ⟨hpos, hlt⟩ := h
  have hunit : (UInt16.ofNat c.toNat).toNat = c.toNat := by
    rw [UInt16.toNat_ofNat', Nat.mod_eq_of_lt hlt]
  simp only [String.utf8EncodeChar, code, unitWord, hunit]
  -- both encoders split at the same code points, but for zero
  change (if c.toNat ≤ 0x7f then _ else if c.toNat ≤ 0x7ff then _ else
    if c.toNat ≤ 0xffff then _ else _) = _
  by_cases hone : c.toNat ≤ 0x7f
  · rw [if_pos hone, if_pos ⟨Nat.ne_of_gt hpos, hone⟩]
    rfl
  by_cases htwo : c.toNat ≤ 0x7ff
  · rw [if_neg hone, if_pos htwo, if_neg (fun h => hone h.2), if_pos htwo]
    rfl
  · rw [if_neg hone, if_neg htwo, if_pos (by omega), if_neg (fun h => hone h.2), if_neg htwo]
    rfl

theorem utf8EncodeChar_of_zero {c : Char} (hzero : c.toNat = 0) :
    String.utf8EncodeChar c = [0] := by
  have hword : String.utf8EncodeChar c = [UInt8.ofNat c.toNat] :=
    if_pos (show c.toNat ≤ 0x7f by omega)
  rw [hword, hzero]
  rfl

/-- The bytes of other characters give them away. -/
theorem plain_iff {c : Char} :
    Plain c ↔ ∀ b ∈ String.utf8EncodeChar c, 0 < b.toNat ∧ b.toNat < 0xf0 := by
  constructor
  · intro h
    rw [utf8EncodeChar_of_plain h]
    exact (form_unitWord _).bounds
  · intro h
    constructor
    · by_contra hzero
      rw [utf8EncodeChar_of_zero (Nat.eq_zero_of_not_pos hzero)] at h
      exact absurd (h 0 List.mem_cons_self).1 (by decide)
    -- a supplementary character leads with a byte of its own kind
    · by_contra hlarge
      have hlead : UInt8.ofNat (c.toNat / 262144 % 8 + 0xf0) ∈ String.utf8EncodeChar c := by
        have hone : ¬ c.val.toNat ≤ 0x7f := show ¬ c.toNat ≤ 0x7f by omega
        have htwo : ¬ c.val.toNat ≤ 0x7ff := show ¬ c.toNat ≤ 0x7ff by omega
        have hthree : ¬ c.val.toNat ≤ 0xffff := show ¬ c.toNat ≤ 0xffff by omega
        simp only [String.utf8EncodeChar, if_neg hone, if_neg htwo, if_neg hthree]
        exact List.mem_cons_self
      have hbyte := (h _ hlead).2
      rw [toNat_ofNat_add (by omega)] at hbyte
      omega

variable {cs : List Char}

theorem zero_mem_utf8 {c : Char} (hc : c ∈ cs) (hzero : c.toNat = 0) : 0 ∈ utf8 cs := by
  refine List.mem_flatMap.mpr ⟨c, hc, ?_⟩
  rw [utf8EncodeChar_of_zero hzero]
  exact List.mem_cons_self

theorem plain_of_utf8 (h : ∀ b ∈ utf8 cs, 0 < b.toNat ∧ b.toNat < 0xf0) : ∀ c ∈ cs, Plain c :=
  fun c hc => plain_iff.mpr fun b hb => h b (List.mem_flatMap.mpr ⟨c, hc, hb⟩)

/-- So has a plain text. -/
theorem utf8_of_plain (h : ∀ c ∈ cs, Plain c) : utf8 cs = code.encode (utf16 cs) := by
  induction cs with
  | nil => rfl
  | cons c cs ih =>
    obtain ⟨hc, hcs⟩ := List.forall_mem_cons.mp h
    rw [utf8, List.flatMap_cons, ← utf8, ih hcs, utf8EncodeChar_of_plain hc, utf16, utf16,
      List.flatMap_cons, utf16Char_of_plain hc, List.singleton_append, PrefixCode.encode_cons]

theorem exists_plain_of_units (hplain : ∀ c ∈ cs, Plain c) {units : List UInt16}
    (hunits : ∀ u ∈ units, u ∈ utf16 cs) :
    ∃ cs', units = utf16 cs' ∧ ∀ c ∈ cs', Plain c := by
  induction units with
  | nil => exact ⟨[], rfl, fun _ h => absurd h List.not_mem_nil⟩
  | cons u units ih =>
    obtain ⟨hu, hrest⟩ := List.forall_mem_cons.mp hunits
    obtain ⟨cs', rfl, hcs'⟩ := ih hrest
    obtain ⟨c, hc, huc⟩ := List.mem_flatMap.mp hu
    rw [utf16Char_of_plain (hplain c hc), List.mem_singleton] at huc
    refine ⟨c :: cs', ?_, List.forall_mem_cons.mpr ⟨hplain c hc, hcs'⟩⟩
    rw [utf16, utf16, List.flatMap_cons, utf16Char_of_plain (hplain c hc), huc,
      List.singleton_append]

/-- Plain texts are the only ones whose UTF-8 form is Modified UTF-8. -/
theorem isText_utf8_iff : code.IsText (utf8 cs) ↔ ∀ c ∈ cs, Plain c := by
  constructor
  · intro htext
    exact plain_of_utf8 (bounds_of_isText htext)
  · intro hplain
    exact ⟨utf16 cs, utf8_of_plain hplain⟩

theorem utf8_intercalate (sep : Char) (texts : List (List Char)) :
    utf8 ([sep].intercalate texts) =
      (String.utf8EncodeChar sep).intercalate (texts.map utf8) := by
  induction texts with
  | nil => rfl
  | cons text texts ih =>
    cases texts with
    | nil => simp
    | cons text' texts =>
      rw [List.map_cons, List.map_cons, List.intercalate_cons_cons, List.intercalate_cons_cons,
        ← List.map_cons, ← ih]
      simp [utf8]

end ModifiedUtf8
