import WhisperAndroid.Decode.Timestamps

/-!
# The segments of a window

The end of the main loop of `whisper_full_with_state`: the tokens of the best decoder are
cut at their timestamps, and every part that has text becomes a segment.

## Main results

* `windowSegments_text` — the text of a segment is that of its own tokens
* `windowSegments_tokens` — no token with text is lost, repeated or moved
* `windowSegments_inOrder` — the segments follow each other in time
-/

namespace WhisperAndroid.Decode

variable {v : Vocab} {F : Type}

/-- `whisper_segment` -/
structure Segment (F : Type) where
  t0 : ℤ
  t1 : ℤ
  text : List UInt8
  noSpeechProb : F
  tokens : List (TokenData F)
  speakerTurnNext : Bool

/-- What the cutting of a window depends on. -/
structure OutputParams (F : Type) where
  printSpecial : Bool
  tdrzEnable : Bool
  singleSegment : Bool
  seek : ℤ
  noSpeechProb : F

/-- `whisper_token_to_str`, a C string. -/
def tokenToStr (v : Vocab) (id : ℕ) : List UInt8 := (v.idToToken id).takeWhile (· ≠ 0)

/-- What a token adds to the text. -/
def printed (v : Vocab) (o : OutputParams F) (token : TokenData F) : List UInt8 :=
  if o.printSpecial ∨ token.id < v.tokenEot then tokenToStr v token.id else []

/-- The time of a token, in steps of 10 ms. -/
def tokenTime (v : Vocab) (o : OutputParams F) (token : TokenData F) : ℤ :=
  o.seek + 2 * ((token.tid : ℤ) - v.tokenBeg)

/-- The segment under way: its begin, its text, `speaker_turn_next` and the tokens from
`i0` on. -/
structure Pending (F : Type) where
  t0 : ℤ
  text : List UInt8
  speakerTurnNext : Bool
  tokens : List (TokenData F)

namespace Pending

/-- A new segment. -/
def start (t0 : ℤ) : Pending F := ⟨t0, [], false, []⟩

def read (v : Vocab) (o : OutputParams F) (s : Pending F) (token : TokenData F) : Pending F where
  t0 := s.t0
  text := s.text ++ printed v o token
  speakerTurnNext := s.speakerTurnNext || (o.tdrzEnable && token.id = v.tokenSolm)
  tokens := s.tokens ++ [token]

/-- The segment is added to the result if it has text. -/
def finish (o : OutputParams F) (s : Pending F) (t1 : ℤ) : List (Segment F) :=
  if s.text = [] then []
  else [⟨s.t0, t1, s.text, o.noSpeechProb, s.tokens, s.speakerTurnNext⟩]

end Pending

/-- A token ends a segment. -/
def endsSegment (v : Vocab) (o : OutputParams F) (token : TokenData F) : Bool :=
  v.tokenBeg < token.id && !o.singleSegment

/-- The loop over the tokens. Behind a timestamp it passes over those that follow
directly. The last segment ends at `tEnd`. -/
def cutTokens (v : Vocab) (o : OutputParams F) (tEnd : ℤ) :
    Bool → Pending F → List (TokenData F) → List (Segment F)
  | _, s, [] => s.finish o tEnd
  | passing, s, token :: tokens =>
    if passing && v.tokenBeg < token.id then cutTokens v o tEnd true s tokens
    else if endsSegment v o token then
      (s.read v o token).finish o (tokenTime v o token) ++
        cutTokens v o tEnd true (.start (tokenTime v o token)) tokens
    else cutTokens v o tEnd false (s.read v o token) tokens

/-- The segments of a window, from the tokens and the `seek_delta` of its decoder, in a call
without token timestamps: `whisper_wrap_segment`, which may split them at `max_len`, is not
called. -/
def windowSegments (v : Vocab) (o : OutputParams F) (seekDelta : ℤ) (tokens : List (TokenData F)) :
    List (Segment F) :=
  match tokens with
  | [] => []
  | front :: _ => cutTokens v o (o.seek + seekDelta) false (.start (tokenTime v o front)) tokens

variable {o : OutputParams F} {s : Pending F} {token : TokenData F} {tokens : List (TokenData F)}
  {tEnd : ℤ} {passing : Bool}

/-! ### Texts -/

theorem Pending.mem_finish {t1 : ℤ} {seg : Segment F} (h : seg ∈ s.finish o t1) :
    s.text ≠ [] ∧ seg = ⟨s.t0, t1, s.text, o.noSpeechProb, s.tokens, s.speakerTurnNext⟩ := by
  rw [finish] at h
  split_ifs at h with htext
  · simp at h
  · exact ⟨htext, List.mem_singleton.mp h⟩

/-- The text under way is that of the tokens under way. -/
def Pending.Printed (v : Vocab) (o : OutputParams F) (s : Pending F) : Prop :=
  s.text = s.tokens.flatMap (printed v o)

@[simp] theorem Pending.printed_start (t0 : ℤ) : (start t0).Printed v o := rfl

theorem Pending.Printed.read (h : s.Printed v o) : (s.read v o token).Printed v o := by
  rw [Printed] at h ⊢
  simp [Pending.read, h]

theorem cutTokens_text (hs : s.Printed v o) :
    ∀ seg ∈ cutTokens v o tEnd passing s tokens,
      seg.text = seg.tokens.flatMap (printed v o) ∧ seg.text ≠ [] := by
  have hfinish {s : Pending F} (hs : s.Printed v o) {t1 : ℤ} {seg : Segment F}
      (hseg : seg ∈ s.finish o t1) :
      seg.text = seg.tokens.flatMap (printed v o) ∧ seg.text ≠ [] := by
    obtain ⟨htext, rfl⟩ := Pending.mem_finish hseg
    exact ⟨hs, htext⟩
  induction tokens generalizing s passing with
  | nil => exact fun seg hseg => hfinish hs hseg
  | cons token tokens ih =>
    intro seg hseg
    rw [cutTokens] at hseg
    split_ifs at hseg with hpass hend
    · exact ih hs seg hseg
    · rcases List.mem_append.mp hseg with hseg | hseg
      · exact hfinish hs.read hseg
      · exact ih (Pending.printed_start _) seg hseg
    · exact ih hs.read seg hseg

/-! ### Tokens -/

/-- The tokens in some segments. -/
def tokensOf (segments : List (Segment F)) : List (TokenData F) := segments.flatMap (·.tokens)

/-- A token that shows in the text, other than a timestamp after 0.00. -/
def Visible (v : Vocab) (o : OutputParams F) (token : TokenData F) : Prop :=
  printed v o token ≠ [] ∧ token.id ≤ v.tokenBeg

instance (v : Vocab) (o : OutputParams F) (token : TokenData F) :
    Decidable (Visible v o token) :=
  inferInstanceAs (Decidable (_ ∧ _))

theorem tokensOf_append (l l' : List (Segment F)) :
    tokensOf (l ++ l') = tokensOf l ++ tokensOf l' := List.flatMap_append

theorem Pending.tokensOf_finish (t1 : ℤ) :
    tokensOf (s.finish o t1) = if s.text = [] then [] else s.tokens := by
  rw [finish]
  split_ifs <;> simp [tokensOf]

/-- A segment that is left out shows nothing. -/
theorem Pending.filter_finish (hs : s.Printed v o) (t1 : ℤ) :
    (tokensOf (s.finish o t1)).filter (Visible v o ·) = s.tokens.filter (Visible v o ·) := by
  rw [tokensOf_finish]
  split_ifs with htext
  · rw [hs, List.flatMap_eq_nil_iff] at htext
    rw [List.filter_nil, eq_comm, List.filter_eq_nil_iff]
    intro token htoken hvisible
    exact (of_decide_eq_true hvisible).1 (htext token htoken)
  · rfl

theorem Pending.sublist_finish (t1 : ℤ) : (tokensOf (s.finish o t1)).Sublist s.tokens := by
  rw [tokensOf_finish]
  split_ifs
  · exact List.nil_sublist _
  · exact List.Sublist.refl _

theorem cutTokens_sublist :
    (tokensOf (cutTokens v o tEnd passing s tokens)).Sublist (s.tokens ++ tokens) := by
  induction tokens generalizing s passing with
  | nil => simpa [cutTokens] using Pending.sublist_finish tEnd
  | cons token tokens ih =>
    rw [cutTokens]
    split_ifs with hpass hend
    · exact ih.trans (List.Sublist.append_left (List.sublist_cons_self token tokens) _)
    · have hfirst := Pending.sublist_finish (s := s.read v o token) (o := o) (tokenTime v o token)
      rw [tokensOf_append, List.append_cons]
      exact hfirst.append ih
    · rw [List.append_cons]
      exact ih

theorem cutTokens_filter (hs : s.Printed v o) :
    (tokensOf (cutTokens v o tEnd passing s tokens)).filter (Visible v o ·) =
      (s.tokens ++ tokens).filter (Visible v o ·) := by
  induction tokens generalizing s passing with
  | nil => simpa [cutTokens] using Pending.filter_finish hs tEnd
  | cons token tokens ih =>
    rw [cutTokens]
    split_ifs with hpass hend
    · have hhidden : ¬ Visible v o token := by
        simp only [Bool.and_eq_true, decide_eq_true_eq] at hpass
        exact fun hvisible => absurd hvisible.2 (not_le.mpr hpass.2)
      rw [ih hs, List.filter_append, List.filter_append, List.filter_cons_of_neg (by simpa)]
    · rw [tokensOf_append, List.filter_append, Pending.filter_finish hs.read,
        ih (Pending.printed_start _), ← List.filter_append, List.append_cons]
      rfl
    · rw [ih hs.read, List.append_cons]
      rfl

/-! ### Times -/

/-- Segments one after another between two times. Only the first begin is not bound by
the timestamps: it may come from a token that is none. -/
structure InOrder (lo hi first : ℤ) (segments : List (Segment F)) : Prop where
  pairwise : segments.Pairwise fun a b => a.t1 ≤ b.t0 ∧ b.t0 ≤ b.t1
  le_t1 : ∀ seg ∈ segments, lo ≤ seg.t1
  t1_le : ∀ seg ∈ segments, seg.t1 ≤ hi
  t0_le : ∀ seg ∈ segments, seg.t0 = first ∨ (lo ≤ seg.t0 ∧ seg.t0 ≤ seg.t1)

namespace InOrder

variable {lo hi first : ℤ} {segments : List (Segment F)}

theorem nil : InOrder lo hi first ([] : List (Segment F)) :=
  ⟨.nil, by simp, by simp, by simp⟩

theorem finish {t1 : ℤ} (hlo : lo ≤ t1) (hhi : t1 ≤ hi) :
    InOrder lo hi s.t0 (s.finish o t1) := by
  rw [Pending.finish]
  split_ifs
  · exact nil
  · exact ⟨List.pairwise_singleton _ _, by simpa, by simpa, by simp⟩

/-- Segments behind one that ends where they begin. -/
theorem append {t1 : ℤ} {before : List (Segment F)} (hbefore : InOrder lo t1 first before)
    (h : InOrder t1 hi t1 segments) (hlo : lo ≤ t1) (hhi : t1 ≤ hi) :
    InOrder lo hi first (before ++ segments) where
  pairwise := by
    refine List.pairwise_append.mpr ⟨hbefore.pairwise, h.pairwise, fun a ha b hb => ?_⟩
    have hend := hbefore.t1_le a ha
    rcases h.t0_le b hb with heq | hle
    · exact ⟨hend.trans heq.ge, heq.trans_le (h.le_t1 b hb)⟩
    · exact ⟨hend.trans hle.1, hle.2⟩
  le_t1 seg hseg := by
    rcases List.mem_append.mp hseg with hseg | hseg
    · exact hbefore.le_t1 seg hseg
    · exact hlo.trans (h.le_t1 seg hseg)
  t1_le seg hseg := by
    rcases List.mem_append.mp hseg with hseg | hseg
    · exact (hbefore.t1_le seg hseg).trans hhi
    · exact h.t1_le seg hseg
  t0_le seg hseg := by
    rcases List.mem_append.mp hseg with hseg | hseg
    · exact hbefore.t0_le seg hseg
    · right
      rcases h.t0_le seg hseg with heq | hle
      · exact ⟨hlo.trans heq.ge, heq.trans_le (h.le_t1 seg hseg)⟩
      · exact ⟨hlo.trans hle.1, hle.2⟩

theorem pairwise_t1 (h : InOrder lo hi first segments) :
    segments.Pairwise fun a b => a.t1 ≤ b.t1 :=
  h.pairwise.imp fun hab => hab.1.trans hab.2

/-- If the first segment begins in time, all do. -/
theorem t0_le_t1 (h : InOrder lo hi first segments) (hfirst : first = lo) :
    ∀ seg ∈ segments, lo ≤ seg.t0 ∧ seg.t0 ≤ seg.t1 := by
  intro seg hseg
  rcases h.t0_le seg hseg with heq | hle
  · rw [heq, hfirst]
    exact ⟨le_rfl, h.le_t1 seg hseg⟩
  · exact hle

end InOrder

/-- The timestamps of some tokens do not go back, and lie between two times. -/
structure Timed (v : Vocab) (o : OutputParams F) (lo hi : ℤ) (tokens : List (TokenData F)) :
    Prop where
  pairwise : tokens.Pairwise fun a b => v.tokenBeg < a.id → v.tokenBeg < b.id →
    tokenTime v o a ≤ tokenTime v o b
  bounds : ∀ token ∈ tokens, v.tokenBeg < token.id →
    lo ≤ tokenTime v o token ∧ tokenTime v o token ≤ hi

theorem Timed.tail {lo hi : ℤ} (h : Timed v o lo hi (token :: tokens)) : Timed v o lo hi tokens :=
  ⟨h.pairwise.of_cons, fun t ht => h.bounds t (List.mem_cons_of_mem _ ht)⟩

/-- Behind a timestamp all others are later. -/
theorem Timed.behind {lo hi : ℤ} (h : Timed v o lo hi (token :: tokens))
    (hbeg : v.tokenBeg < token.id) : Timed v o (tokenTime v o token) hi tokens :=
  ⟨h.pairwise.of_cons, fun t ht htbeg => ⟨List.rel_of_pairwise_cons h.pairwise ht hbeg htbeg,
    (h.bounds t (List.mem_cons_of_mem _ ht) htbeg).2⟩⟩

theorem cutTokens_inOrder {lo : ℤ} (h : Timed v o lo tEnd tokens) (hle : lo ≤ tEnd) :
    InOrder lo tEnd s.t0 (cutTokens v o tEnd passing s tokens) := by
  induction tokens generalizing s passing lo with
  | nil => exact .finish hle le_rfl
  | cons token tokens ih =>
    rw [cutTokens]
    split_ifs with hpass hend
    · exact ih h.tail hle
    · have hbeg : v.tokenBeg < token.id := by
        simp only [endsSegment, Bool.and_eq_true, decide_eq_true_eq] at hend
        exact hend.1
      obtain ⟨hlo, hhi⟩ := h.bounds token List.mem_cons_self hbeg
      exact .append (.finish (s := s.read v o token) hlo le_rfl)
        (ih (s := .start (tokenTime v o token)) (h.behind hbeg) hhi) hlo hhi
    · exact ih (s := s.read v o token) h.tail hle

/-! ### Windows -/

variable {seekDelta : ℤ}

/-- The text of a segment is that of its tokens. -/
theorem windowSegments_text :
    ∀ seg ∈ windowSegments v o seekDelta tokens,
      seg.text = seg.tokens.flatMap (printed v o) ∧ seg.text ≠ [] := by
  cases tokens with
  | nil => simp [windowSegments]
  | cons front tokens => exact cutTokens_text (Pending.printed_start _)

/-- The segments hold the tokens in their order, each at most once, and all that show. -/
theorem windowSegments_tokens :
    (tokensOf (windowSegments v o seekDelta tokens)).Sublist tokens ∧
      (tokensOf (windowSegments v o seekDelta tokens)).filter (Visible v o ·) =
        tokens.filter (Visible v o ·) := by
  cases tokens with
  | nil => exact ⟨List.Sublist.refl _, rfl⟩
  | cons front tokens => exact ⟨cutTokens_sublist, cutTokens_filter (Pending.printed_start _)⟩

/-- Without special tokens the texts make up that of all tokens. -/
theorem windowSegments_texts (hspecial : o.printSpecial = false) :
    (windowSegments v o seekDelta tokens).flatMap (·.text) = tokens.flatMap (printed v o) := by
  have hvisible (token : TokenData F) (h : printed v o token ≠ []) : Visible v o token := by
    refine ⟨h, ?_⟩
    rw [printed] at h
    split_ifs at h with hprint
    · have hlt : token.id < v.tokenEot := by simpa [hspecial] using hprint
      exact (hlt.trans v.tokenEot_lt_tokenBeg).le
    · exact absurd rfl h
  have hshown (l : List (TokenData F)) :
      (l.filter (Visible v o ·)).flatMap (printed v o) = l.flatMap (printed v o) := by
    induction l with
    | nil => rfl
    | cons token l ih =>
      rw [List.filter_cons]
      split_ifs with hshows
      · rw [List.flatMap_cons, ih, List.flatMap_cons]
      · have hnil : printed v o token = [] := by
          by_contra hne
          exact hshows (decide_eq_true (hvisible token hne))
        rw [ih, List.flatMap_cons, hnil, List.nil_append]
  rw [← hshown tokens, ← windowSegments_tokens.2, hshown, tokensOf, List.flatMap_assoc]
  refine List.flatMap_congr fun seg hseg => (windowSegments_text seg hseg).1

variable {w : WindowParams v F} {i n : ℕ} {d : Decoder F}

/-- The time of a timestamp of a decoder. -/
theorem tokenTime_eq (hd : d.Sound w i) (hmem : token ∈ d.tokens) (hbeg : v.tokenBeg ≤ token.id) :
    tokenTime v o token = o.seek + 2 * ((token.id - v.tokenBeg : ℕ) : ℤ) := by
  rw [tokenTime, hd.tid_eq token hmem hbeg, Nat.cast_sub hbeg]

theorem timed_of_sound (hd : d.Sound w i) :
    Timed v o o.seek (o.seek + d.seekDelta) (d.tokens.take n) := by
  have hpair : d.ids.Pairwise fun a b => v.tokenBeg ≤ b → a ≤ b :=
    hd.allowed.pairwise fun past b hb a ha hbeg => hb.not_before hbeg a ha
  have hmem {t : TokenData F} (ht : t ∈ d.tokens.take n) : t ∈ d.tokens := List.mem_of_mem_take ht
  refine ⟨?_, fun t ht hbeg => ?_⟩
  · rw [Decoder.ids, List.pairwise_map] at hpair
    refine (hpair.sublist (List.take_sublist n _)).imp_of_mem fun {a b} ha hb hab habeg hbbeg => ?_
    have hle := hab hbbeg.le
    rw [tokenTime_eq hd (hmem ha) habeg.le, tokenTime_eq hd (hmem hb) hbbeg.le]
    omega
  · have hwithin := hd.within t.id (List.mem_map_of_mem (hmem ht))
    rw [tokenTime_eq hd (hmem ht) hbeg.le]
    omega

/-- The segments of a window follow each other in time, between its begin and the window of
the decoder. -/
theorem windowSegments_inOrder (hd : d.Sound w i) :
    InOrder o.seek (o.seek + d.seekDelta)
      (((d.tokens.take n).head?).elim o.seek (tokenTime v o))
      (windowSegments v o d.seekDelta (d.tokens.take n)) := by
  have htimed : Timed v o o.seek (o.seek + d.seekDelta) (d.tokens.take n) := timed_of_sound hd
  cases htokens : d.tokens.take n with
  | nil => exact .nil
  | cons front tokens =>
    rw [htokens] at htimed
    exact cutTokens_inOrder (s := .start (tokenTime v o front)) htimed (by omega)

/-- If the first token is a timestamp, the segments follow each other from it on. -/
theorem windowSegments_anchored (hd : d.Sound w i)
    (hfront : ∀ front ∈ (d.tokens.take n).head?, v.tokenBeg ≤ front.id) :
    ∃ lo, o.seek ≤ lo ∧ lo ≤ o.seek + d.seekDelta ∧
      InOrder lo (o.seek + d.seekDelta) lo
        (windowSegments v o d.seekDelta (d.tokens.take n)) := by
  have htimed : Timed v o o.seek (o.seek + d.seekDelta) (d.tokens.take n) := timed_of_sound hd
  have hmem : ∀ t ∈ d.tokens.take n, t ∈ d.tokens := fun _ ht => List.mem_of_mem_take ht
  cases htokens : d.tokens.take n with
  | nil => exact ⟨o.seek, le_rfl, by omega, .nil⟩
  | cons front tokens =>
    rw [htokens] at hfront htimed hmem
    have hbeg : v.tokenBeg ≤ front.id := hfront front rfl
    have htime := tokenTime_eq (o := o) hd (hmem front List.mem_cons_self) hbeg
    have hwithin := hd.within front.id (List.mem_map_of_mem (hmem front List.mem_cons_self))
    refine ⟨tokenTime v o front, by omega, by omega, ?_⟩
    refine cutTokens_inOrder (s := .start (tokenTime v o front)) ⟨htimed.pairwise, ?_⟩ (by omega)
    intro t ht htbeg
    refine ⟨?_, (htimed.bounds t ht htbeg).2⟩
    rcases List.mem_cons.mp ht with rfl | ht
    · exact le_rfl
    · rcases hbeg.eq_or_lt with heq | hlt
      · have hlo := (htimed.bounds t (List.mem_cons_of_mem _ ht) htbeg).1
        omega
      · exact List.rel_of_pairwise_cons htimed.pairwise ht hlt htbeg

end WhisperAndroid.Decode
