import WhisperAndroid.Native.Whisper
import WhisperAndroid.Support.ModifiedUtf8

/-!
# The encoding of the transcript

`getTranscriptionText` joins the segment texts byte by byte and hands them to `NewStringUTF`
as they are. The texts are UTF-8, while `NewStringUTF` takes Modified UTF-8; and the blanks
come between segments, also where a segment ends inside a character.

## Main results

* `isText_joinSegments_iff` — joined texts are Modified UTF-8 just if each of them is
* `wellEncoded_iff` — the segments for which the string is the one that is meant
-/

namespace WhisperAndroid

open ModifiedUtf8

variable {D : Type} {s : WhisperState D} {texts : List CString}

/-- The string handed to Java is well encoded, and is that of the joined texts if each of
them is UTF-8. -/
structure WellEncoded (s : WhisperState D) : Prop where
  valid : ∃ bytes, getTranscriptionText (some s) = some bytes ∧ code.IsText bytes
  decoded : ∀ chars : List (List Char), s.resultAll = chars.map utf8 →
    (getTranscriptionText (some s)).bind code.decode = some (utf16 ([' '].intercalate chars))

/-! ### Joined texts -/

theorem joinSegments_eq (texts : List CString) : joinSegments texts = [0x20].intercalate texts := by
  induction texts with
  | nil => rfl
  | cons text texts ih =>
    cases texts with
    | nil => simp [joinSegments]
    | cons text' texts =>
      rw [joinSegments, ih, List.intercalate_cons_cons, List.append_assoc, List.singleton_append]
      simp

theorem joinSegments_utf8 (chars : List (List Char)) :
    joinSegments (chars.map utf8) = utf8 ([' '].intercalate chars) := by
  rw [joinSegments_eq, utf8_intercalate]
  rfl

/-- A blank is no part of a longer word, so that it does not mend a text that is cut. -/
theorem isText_joinSegments_iff :
    code.IsText (joinSegments texts) ↔ ∀ text ∈ texts, code.IsText text := by
  have hblank : code.word 0x20 = [0x20] := by decide
  rw [joinSegments_eq]
  exact code_markedBy.isText_intercalate_iff hblank texts

theorem getTranscriptionText_some (s : WhisperState D) :
    getTranscriptionText (some s) = some (joinSegments s.resultAll) := rfl

/-! ### Cut texts -/

/-- Texts in Modified UTF-8 that make up UTF-8 together are UTF-8 one by one: their code
units are characters, since those of the whole are. -/
theorem exists_plain_of_isText (hutf8 : ∃ cs, texts.flatten = utf8 cs)
    (htexts : ∀ text ∈ texts, code.IsText text) :
    ∀ text ∈ texts, ∃ cs, text = utf8 cs ∧ ∀ c ∈ cs, Plain c := by
  obtain ⟨cs, hcs⟩ := hutf8
  -- the code units of the texts, in a row, are the units of the characters
  obtain ⟨unitss, rfl⟩ := code.forall_isText_iff.mp htexts
  rw [← PrefixCode.encode_flatten] at hcs
  have hplain : ∀ c ∈ cs, Plain c := isText_utf8_iff.mp ⟨unitss.flatten, hcs.symm⟩
  rw [utf8_of_plain hplain] at hcs
  have hunits : unitss.flatten = utf16 cs := code.encode_injective hcs
  intro text htext
  obtain ⟨units, hmem, rfl⟩ := List.mem_map.mp htext
  obtain ⟨cs', rfl, hcs'⟩ := exists_plain_of_units hplain fun u hu =>
    hunits ▸ List.mem_flatten.mpr ⟨units, hmem, hu⟩
  exact ⟨cs', (utf8_of_plain hcs').symm, hcs'⟩

/-- For segment texts without NUL that make up UTF-8 together, the string is well encoded
exactly when no text ends inside a character and no character is supplementary. -/
theorem wellEncoded_iff (hnul : ∀ text ∈ s.resultAll, 0 ∉ text)
    (hutf8 : ∃ cs, s.resultAll.flatten = utf8 cs) :
    WellEncoded s ↔
      ∀ text ∈ s.resultAll, ∃ cs, text = utf8 cs ∧ ∀ c ∈ cs, c.toNat < 0x10000 := by
  constructor
  · intro hwell text htext
    obtain ⟨bytes, hbytes, hvalid⟩ := hwell.valid
    rw [getTranscriptionText_some, Option.some_inj] at hbytes
    rw [← hbytes, isText_joinSegments_iff] at hvalid
    obtain ⟨cs, rfl, hplain⟩ := exists_plain_of_isText hutf8 hvalid text htext
    exact ⟨cs, rfl, fun c hc => (hplain c hc).2⟩
  · intro hbasic
    -- without NUL, characters of the basic plane have the same bytes in both encodings
    have htexts : ∀ text ∈ s.resultAll, code.IsText text := by
      intro text htext
      obtain ⟨cs, rfl, hcs⟩ := hbasic text htext
      refine isText_utf8_iff.mpr fun c hc => ⟨?_, hcs c hc⟩
      by_contra hzero
      exact hnul _ htext (zero_mem_utf8 hc (Nat.eq_zero_of_not_pos hzero))
    have hvalid := isText_joinSegments_iff.mpr htexts
    refine ⟨⟨_, rfl, hvalid⟩, fun chars hchars => ?_⟩
    -- the joined string is the UTF-8 form of the joined characters, which are plain as well
    rw [hchars, joinSegments_utf8] at hvalid
    rw [getTranscriptionText_some, hchars, joinSegments_utf8, Option.bind_some,
      PrefixCode.decode_eq_some_iff]
    exact utf8_of_plain (isText_utf8_iff.mp hvalid)

/-- A context with two segments, `Olá` and `!`. -/
def accented : WhisperState Unit := ⟨⟨100, ()⟩, [[0x4f, 0x6c, 0xc3, 0xa1], [0x21]]⟩

theorem wellEncoded_iff_accented : WellEncoded accented ↔
    ∀ text ∈ accented.resultAll, ∃ cs, text = utf8 cs ∧ ∀ c ∈ cs, c.toNat < 0x10000 :=
  wellEncoded_iff (by decide) ⟨['O', 'l', 'á', '!'], by decide⟩

/-- A context with one segment, of one supplementary character. -/
def emoji : WhisperState Unit := ⟨⟨100, ()⟩, [[0xf0, 0x9f, 0x98, 0x80]]⟩

/-- A context whose two segments share an accented letter. -/
def cutLetter : WhisperState Unit := ⟨⟨100, ()⟩, [[0xc3], [0xa1]]⟩

/-- Both are UTF-8 without NUL, and neither is handed to Java as it should be. -/
theorem emoji_cutLetter_not_wellEncoded :
    ((∀ text ∈ emoji.resultAll, 0 ∉ text) ∧ emoji.resultAll.flatten = utf8 ['😀'] ∧
      ¬ WellEncoded emoji) ∧
    (∀ text ∈ cutLetter.resultAll, 0 ∉ text) ∧ cutLetter.resultAll.flatten = utf8 ['á'] ∧
      ¬ WellEncoded cutLetter := by
  have hinvalid : ∀ s : WhisperState Unit, ¬ code.IsText (joinSegments s.resultAll) →
      ¬ WellEncoded s := by
    intro s hs hwell
    obtain ⟨bytes, hbytes, hvalid⟩ := hwell.valid
    rw [getTranscriptionText_some, Option.some_inj] at hbytes
    exact hs (hbytes ▸ hvalid)
  refine ⟨⟨by decide, by decide, hinvalid emoji (by decide)⟩, by decide, by decide, ?_⟩
  exact hinvalid cutLetter (by decide)

end WhisperAndroid
