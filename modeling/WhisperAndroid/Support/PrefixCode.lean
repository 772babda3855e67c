import Mathlib.Data.List.Basic

/-!
# Variable-length codes

A code gives a word to every letter and reads one word at a time back from the front of a
string. A string of words can then be decoded in one way only.

In a marked code, the first symbol of a word occurs behind the first place of none, as the
lead bytes of UTF-8 do. A string that goes on with such a symbol can only be cut between
two words there. So strings that are joined by a separator of one symbol make a string of
words just if each of them is one.
-/

/-- Words over `β` for the letters of `α`, with a reader for the word in front of a string. -/
structure PrefixCode (α β : Type*) where
  word : α → List β
  next : List β → Option (α × List β)
  word_ne_nil : ∀ a, word a ≠ []
  next_word_append : ∀ a rest, next (word a ++ rest) = some (a, rest)
  eq_word_append : ∀ {symbols a rest}, next symbols = some (a, rest) → symbols = word a ++ rest

namespace PrefixCode

variable {α β : Type*} (C : PrefixCode α β) {as : List α} {symbols rest : List β}

/-! ### Encoding and decoding -/

/-- The words of some letters in a row. -/
def encode (as : List α) : List β := as.flatMap C.word

/-- Reads words until the string is empty, at most the given number of them. -/
def decodeFor : ℕ → List β → Option (List α)
  | _, [] => some []
  | 0, _ :: _ => none
  | fuel + 1, b :: bs => (C.next (b :: bs)).bind fun (a, rest) => (decodeFor fuel rest).map (a :: ·)

/-- A word takes up a symbol at least, so that the length bounds their number. -/
def decode (symbols : List β) : Option (List α) := C.decodeFor symbols.length symbols

/-- The string is a sequence of words. -/
def IsText (symbols : List β) : Prop := ∃ as, symbols = C.encode as

@[simp] theorem encode_nil : C.encode [] = [] := rfl

@[simp] theorem encode_cons (a : α) (as : List α) :
    C.encode (a :: as) = C.word a ++ C.encode as := List.flatMap_cons

@[simp] theorem encode_append (as as' : List α) :
    C.encode (as ++ as') = C.encode as ++ C.encode as' := List.flatMap_append

theorem encode_flatten (ass : List (List α)) :
    C.encode ass.flatten = (ass.map C.encode).flatten := by
  induction ass with
  | nil => rfl
  | cons as ass ih => simp [ih]

theorem length_word_pos (a : α) : 0 < (C.word a).length :=
  List.length_pos_iff.mpr (C.word_ne_nil a)

theorem decodeFor_encode {fuel : ℕ} (hfuel : (C.encode as).length ≤ fuel) :
    C.decodeFor fuel (C.encode as) = some as := by
  induction as generalizing fuel with
  | nil => cases fuel <;> rfl
  | cons a as ih =>
    have hword := C.length_word_pos a
    rw [encode_cons] at hfuel ⊢
    rw [List.length_append] at hfuel
    obtain ⟨fuel, rfl⟩ : ∃ more, fuel = more + 1 := ⟨fuel - 1, by omega⟩
    obtain ⟨b, bs, hcons⟩ : ∃ b bs, C.word a ++ C.encode as = b :: bs :=
      List.exists_cons_of_ne_nil (by simp [C.word_ne_nil a])
    -- the reader takes the first word and leaves the others
    have hnext := C.next_word_append a (C.encode as)
    rw [hcons] at hnext ⊢
    simp only [decodeFor, hnext, Option.bind_some]
    rw [ih (by omega), Option.map_some]

theorem encode_of_decodeFor {fuel : ℕ} (hdecode : C.decodeFor fuel symbols = some as) :
    symbols = C.encode as := by
  -- along the fuel: every round puts one word in front
  induction fuel generalizing symbols as with
  | zero =>
    cases symbols with
    | nil => rw [← Option.some.inj hdecode, encode_nil]
    | cons b bs => cases hdecode
  | succ fuel ih =>
    cases symbols with
    | nil => rw [← Option.some.inj hdecode, encode_nil]
    | cons b bs =>
      obtain ⟨⟨a, rest⟩, hnext, hrest⟩ := Option.bind_eq_some_iff.mp hdecode
      obtain ⟨as', hmore, rfl⟩ := Option.map_eq_some_iff.mp hrest
      rw [C.eq_word_append hnext, ih hmore, encode_cons]

theorem decode_encode_eq (as : List α) : C.decode (C.encode as) = some as :=
  C.decodeFor_encode (Nat.le_refl _)

theorem decode_eq_some_iff : C.decode symbols = some as ↔ symbols = C.encode as := by
  constructor
  · exact C.encode_of_decodeFor
  · rintro rfl
    exact C.decode_encode_eq as

theorem encode_injective : Function.Injective C.encode := by
  intro as as' heq
  have hdecode := C.decode_encode_eq as'
  rw [← heq, C.decode_encode_eq as] at hdecode
  exact Option.some.inj hdecode

theorem isText_iff_isSome : C.IsText symbols ↔ (C.decode symbols).isSome := by
  rw [Option.isSome_iff_exists]
  exact exists_congr fun as => C.decode_eq_some_iff.symm

instance (symbols : List β) : Decidable (C.IsText symbols) :=
  decidable_of_iff _ C.isText_iff_isSome.symm

theorem forall_isText_iff {parts : List (List β)} :
    (∀ part ∈ parts, C.IsText part) ↔ ∃ ass : List (List α), parts = ass.map C.encode := by
  induction parts with
  | nil => exact ⟨fun _ => ⟨[], rfl⟩, fun _ _ h => absurd h List.not_mem_nil⟩
  | cons part parts ih =>
    rw [List.forall_mem_cons, ih]
    constructor
    · rintro ⟨⟨as, rfl⟩, ass, rfl⟩
      exact ⟨as :: ass, rfl⟩
    · rintro ⟨ass, hparts⟩
      obtain ⟨as, ass, rfl, rfl, rfl⟩ := List.map_eq_cons_iff.mp hparts.symm
      exact ⟨⟨as, rfl⟩, ass, rfl⟩

/-- A word in front does not matter. -/
theorem isText_word_append_iff (a : α) : C.IsText (C.word a ++ rest) ↔ C.IsText rest := by
  constructor
  · rintro ⟨as, has⟩
    cases as with
    | nil => exact absurd has (by simp [C.word_ne_nil a])
    | cons a' as =>
      have hnext := C.next_word_append a rest
      rw [has, encode_cons, C.next_word_append] at hnext
      obtain ⟨-, rfl⟩ := Prod.mk.inj (Option.some.inj hnext)
      exact ⟨as, rfl⟩
  · rintro ⟨as, rfl⟩
    exact ⟨a :: as, (C.encode_cons a as).symm⟩

/-! ### Marked codes -/

/-- A word starts with a lead symbol and goes on with others. -/
structure MarkedBy (lead : β → Prop) : Prop where
  word_eq_cons : ∀ a, ∃ b tail, C.word a = b :: tail ∧ lead b ∧ ∀ c ∈ tail, ¬ lead c

namespace MarkedBy

variable {C} {lead : β → Prop} {s : β}

/-- A text is cut between two words wherever a lead symbol stands. -/
theorem isText_of_append (hC : C.MarkedBy lead) (hs : lead s) {front back : List β}
    (htext : C.IsText (front ++ s :: back)) : C.IsText front ∧ C.IsText (s :: back) := by
  obtain ⟨as, has⟩ := htext
  -- word by word, as long as the front reaches over the next one
  induction as generalizing front with
  | nil => simp at has
  | cons a as ih =>
    rw [encode_cons] at has
    rcases List.append_eq_append_iff.mp has with ⟨mid, hword, hback⟩ | ⟨mid, rfl, hrest⟩
    -- the cut is in the first word or at its end
    · obtain ⟨b, tail, hcons, -, htail⟩ := hC.word_eq_cons a
      cases mid with
      | nil =>
        rw [List.append_nil] at hword
        exact ⟨⟨[a], by simp [hword]⟩, as, hback⟩
      | cons c mid =>
        obtain ⟨rfl, -⟩ := List.cons.inj hback
        cases front with
        | nil =>
          refine ⟨⟨[], rfl⟩, a :: as, ?_⟩
          rw [encode_cons, hword, List.nil_append, hback]
        | cons x front =>
          rw [hcons, List.cons_append] at hword
          obtain ⟨-, rfl⟩ := List.cons.inj hword
          exact absurd hs (htail s (by simp))
    · obtain ⟨⟨as', rfl⟩, hmore⟩ := ih hrest.symm
      exact ⟨⟨a :: as', (C.encode_cons a as').symm⟩, hmore⟩

/-- Joined strings make a text just if each of them is one. -/
theorem isText_intercalate_iff (hC : C.MarkedBy lead) {a : α} (ha : C.word a = [s])
    (parts : List (List β)) : C.IsText ([s].intercalate parts) ↔ ∀ part ∈ parts, C.IsText part := by
  obtain ⟨b, tail, hcons, hlead, -⟩ := hC.word_eq_cons a
  rw [ha] at hcons
  obtain ⟨rfl, -⟩ := List.cons.inj hcons
  induction parts with
  | nil => exact ⟨fun _ _ h => absurd h List.not_mem_nil, fun _ => ⟨[], rfl⟩⟩
  | cons part parts ih =>
    cases parts with
    | nil => simp
    | cons part' parts =>
      rw [List.intercalate_cons_cons, List.append_assoc, List.forall_mem_cons, ← ih,
        List.singleton_append]
      constructor
      -- the separator is a lead symbol, and a whole word
      · intro htext
        obtain ⟨hfront, hback⟩ := hC.isText_of_append hlead htext
        rw [← List.singleton_append, ← ha, isText_word_append_iff, ha] at hback
        exact ⟨hfront, hback⟩
      · intro ⟨⟨as, hfront⟩, as', hback⟩
        exact ⟨as ++ a :: as', by simp [hfront, hback, ha]⟩

end MarkedBy

end PrefixCode
