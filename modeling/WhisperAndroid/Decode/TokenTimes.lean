import WhisperAndroid.Decode.Alignment
import WhisperAndroid.Decode.Certain
import WhisperAndroid.Decode.Segments

/-!
# Times of single tokens

The end of `whisper_exp_compute_token_level_timestamps_dtw`: along the path of the alignment
the tokens of the segments of a window get their `t_dtw`. An iterator walks over the tokens,
from one segment to the next; to follow one that points behind the last is undefined.

## Main results

* `token_times_in_order` — the text tokens and no others get a time, the times are in order,
  and the walk is undefined if the last token of the window is text
-/

namespace WhisperAndroid.Decode

open Table

section Tokens

variable {F : Type} (v : Vocab)

/-- `sot + [lang]` -/
def sotSequence (langId : ℕ) : List ℕ :=
  v.tokenSot :: if v.isMultilingual then [v.tokenLang langId] else []

/-- The text tokens of the segments. -/
def textTokens (segments : List (Segment F)) : List (TokenData F) :=
  (tokensOf segments).filter (·.id < v.tokenEot)

/-- The tokens that the network aligns. -/
def dtwTokens (langId : ℕ) (segments : List (Segment F)) : List ℕ :=
  sotSequence v langId ++ [v.tokenNot] ++ (textTokens v segments).map (·.id) ++ [v.tokenEot]

/-- The tokens left of them in the matrix. -/
def dtwRows (langId : ℕ) (segments : List (Segment F)) : ℕ :=
  (dtwTokens v langId segments).length - (sotSequence v langId).length - 1

/-- The tokens behind `seg_i` and `tok_i` with what has been written to `t_dtw`, the tokens from
`tok_i` to the end of its segment, and those of the segments after it. -/
structure Cursor (F : Type) where
  behind : List (TokenData F × Option ℤ)
  here : List (TokenData F)
  later : List (List (TokenData F))

namespace Cursor

/-- The tokens still ahead. -/
def ahead (c : Cursor F) : List (TokenData F) := c.here ++ c.later.flatten

/-- All tokens, those ahead without a time. -/
def tokens (c : Cursor F) : List (TokenData F × Option ℤ) := c.behind ++ c.ahead.map (·, none)

/-- `++tok_i`, and on to the next segment at the end of one. -/
def pass (stamp : Option ℤ) : Cursor F → Option (Cursor F)
  | ⟨behind, token :: next :: here, later⟩ =>
    some ⟨behind ++ [(token, stamp)], next :: here, later⟩
  | ⟨behind, [token], segment :: later⟩ => some ⟨behind ++ [(token, stamp)], segment, later⟩
  | ⟨_, [_], []⟩ => none
  | ⟨_, [], _⟩ => none

/-- How far the end is. -/
def room (c : Cursor F) : ℕ := c.here.length + (c.later.map (·.length + 1)).sum

theorem room_pass {stamp : Option ℤ} {c c' : Cursor F} (h : c.pass stamp = some c') :
    c'.room < c.room := by
  match c with
  | ⟨behind, token :: next :: here, later⟩ =>
    obtain rfl := Option.some_inj.mp h
    simp [room]
  | ⟨behind, [token], segment :: later⟩ =>
    obtain rfl := Option.some_inj.mp h
    simp only [room, List.map_cons, List.sum_cons, List.length_singleton]
    omega

/-- Skip the tokens that are not text and write the time to the next that is. -/
def stamp (time : ℤ) (c : Cursor F) : Option (Cursor F) :=
  match c.here with
  | [] => none
  | token :: _ =>
    if token.id < v.tokenEot then c.pass (some time)
    else
      match _h : c.pass none with
      | none => none
      | some c' => c'.stamp time
termination_by c.room
decreasing_by exact room_pass ‹_›

end Cursor

/-- The loop over the path. -/
def placeTimes (seek : ℤ) : ℤ → Cursor F → List (ℤ × ℤ) → Option (Cursor F)
  | _, c, [] => some c
  | lastV, c, row :: rows =>
    if row.1 ≠ lastV then
      (c.stamp v (row.2 * 2 + seek)).bind fun c => placeTimes seek row.1 c rows
    else placeTimes seek lastV c rows

/-- The tokens of the segments with their `t_dtw`. -/
def tokenTimes (seek : ℤ) (rows : List (ℤ × ℤ)) (segments : List (Segment F)) :
    Option (List (TokenData F × Option ℤ)) :=
  match segments with
  | [] => none
  | segment :: later =>
    (placeTimes v seek 0 ⟨[], segment.tokens, later.map (·.tokens)⟩ rows).map Cursor.tokens

end Tokens

/-! ### The frames at which tokens begin -/

/-- The frames at which the path goes to another token. -/
def arrivals : ℤ → List (ℤ × ℤ) → List ℤ
  | _, [] => []
  | lastV, row :: rows => (if row.1 ≠ lastV then [row.2] else []) ++ arrivals row.1 rows

theorem arrivals_concat {p : ℤ × ℤ} {rows : List (ℤ × ℤ)} (hlast : rows.getLast? = some p)
    (lastV : ℤ) (row : ℤ × ℤ) : arrivals lastV (rows ++ [row]) =
      arrivals lastV rows ++ if row.1 ≠ p.1 then [row.2] else [] := by
  induction rows generalizing lastV with
  | nil => cases hlast
  | cons first rows ih =>
    rw [List.cons_append, arrivals, arrivals]
    cases rows with
    | nil =>
      obtain rfl : first = p := by simpa using hlast
      simp [arrivals]
    | cons second rows => rw [ih (by simpa using hlast), List.append_assoc]

/-- Frames in order, up to a last one. -/
structure Frames (n m : ℕ) (frames : List ℤ) : Prop where
  length : frames.length = n
  pairwise : frames.Pairwise (· ≤ ·)
  bounds : ∀ frame ∈ frames, 0 ≤ frame ∧ frame ≤ m

theorem Frames.later {n m : ℕ} {frames : List ℤ} (h : Frames n m frames) :
    Frames n (m + 1) frames :=
  ⟨h.length, h.pairwise, fun frame hmem => by
    have hframe := h.bounds frame hmem
    push_cast
    omega⟩

theorem Frames.concat {n m : ℕ} {frames : List ℤ} (h : Frames n m frames) :
    Frames (n + 1) m (frames ++ [(m : ℤ)]) where
  length := by rw [List.length_append, h.length, List.length_singleton]
  pairwise := by
    rw [List.pairwise_append]
    refine ⟨h.pairwise, List.pairwise_singleton _ _, fun frame hmem last hlast => ?_⟩
    rw [List.mem_singleton.mp hlast]
    exact (h.bounds frame hmem).2
  bounds := by
    intro frame hmem
    rcases List.mem_append.mp hmem with hmem | hmem
    · exact h.bounds frame hmem
    · rw [List.mem_singleton.mp hmem]
      omega

/-- The path comes to every token but the first, one after the other. -/
theorem frames_of_route {q : ℕ × ℕ} {l : List (ℕ × ℕ)} (h : Route q l) :
    Frames q.1 q.2 (arrivals 0 (l.map pathRow)) := by
  induction h with
  | origin => exact ⟨rfl, .nil, by simp [arrivals, pathRow]⟩
  | @step p q l hroute hstep ih =>
    have hlast : (l.map pathRow).getLast? = some (pathRow p) := by
      rw [List.getLast?_map, hroute.getLast?, Option.map_some]
    rw [List.map_append, List.map_singleton, arrivals_concat hlast]
    cases hstep with
    | both i j => simpa [pathRow] using ih.later.concat
    | first i j => simpa [pathRow] using ih.concat
    | second i j => simpa [pathRow] using ih.later

/-! ### The walk -/

section Walk

variable {F : Type} {v : Vocab} {seek lastV time : ℤ} {c : Cursor F} {rows : List (ℤ × ℤ)}
  {token : TokenData F} {rest : List (TokenData F)} {tDtw : Option ℤ}

/-- The next text tokens get their times. -/
def Cursor.stampAt (v : Vocab) (seek : ℤ) (frames : List ℤ) (c : Cursor F) : Option (Cursor F) :=
  frames.foldlM (fun (c : Cursor F) frame => c.stamp v (frame * 2 + seek)) c

theorem placeTimes_eq : placeTimes v seek lastV c rows =
    c.stampAt v seek (arrivals lastV rows) := by
  induction rows generalizing lastV c with
  | nil => rfl
  | cons row rows ih =>
    rw [placeTimes, arrivals]
    split_ifs with hrow
    · rw [List.singleton_append, Cursor.stampAt, List.foldlM_cons]
      exact congrArg _ (funext fun c => ih)
    · rw [ih, not_ne_iff.mp hrow]
      rfl

namespace Cursor

/-- The iterators point to a token, and will as long as there are segments. -/
structure Valid (c : Cursor F) : Prop where
  here_ne_nil : c.here ≠ []
  later_ne_nil : ∀ segment ∈ c.later, segment ≠ []

/-- The walk has come past some tokens, to those given. -/
structure Past (c : Cursor F) (passed : List (TokenData F × Option ℤ))
    (rest : List (TokenData F)) (c' : Cursor F) : Prop where
  valid : c'.Valid
  behind : c'.behind = c.behind ++ passed
  ahead : c'.ahead = rest

theorem pass_eq_none (hc : c.Valid) (h : c.ahead = [token]) : c.pass tDtw = none := by
  match c with
  | ⟨_, [], _⟩ => rfl
  | ⟨_, [_], []⟩ => rfl
  | ⟨_, [_], segment :: later⟩ =>
    have hne := hc.later_ne_nil segment List.mem_cons_self
    simp_all [ahead]
  | ⟨_, _ :: _ :: _, _⟩ => simp [ahead] at h

theorem exists_pass (tDtw : Option ℤ) (hc : c.Valid) (h : c.ahead = token :: rest)
    (hrest : rest ≠ []) :
    ∃ c', c.pass tDtw = some c' ∧ c.Past [(token, tDtw)] rest c' := by
  match c with
  | ⟨_, [], _⟩ => exact absurd rfl hc.here_ne_nil
  | ⟨_, [_], []⟩ => simp_all [ahead]
  | ⟨behind, [_], segment :: later⟩ =>
    simp only [ahead, List.cons_append, List.nil_append, List.flatten_cons, List.cons.injEq] at h
    obtain ⟨rfl, rfl⟩ := h
    exact ⟨_, rfl, ⟨hc.later_ne_nil segment List.mem_cons_self,
      fun s hs => hc.later_ne_nil s (List.mem_cons_of_mem _ hs)⟩, rfl, rfl⟩
  | ⟨behind, _ :: next :: here, later⟩ =>
    simp only [ahead, List.cons_append, List.cons.injEq] at h
    obtain ⟨rfl, rfl⟩ := h
    exact ⟨_, rfl, ⟨List.cons_ne_nil _ _, hc.later_ne_nil⟩, rfl, rfl⟩

theorem here_eq_cons (hc : c.Valid) (h : c.ahead = token :: rest) :
    ∃ here, c.here = token :: here := by
  match hhere : c.here with
  | [] => exact absurd hhere hc.here_ne_nil
  | first :: here =>
    rw [ahead, hhere, List.cons_append, List.cons.injEq] at h
    exact ⟨here, by rw [h.1]⟩

theorem stamp_text (hc : c.Valid) (h : c.ahead = token :: rest) (htext : token.id < v.tokenEot) :
    c.stamp v time = c.pass (some time) := by
  obtain ⟨here, hhere⟩ := here_eq_cons hc h
  rw [stamp, hhere]
  exact if_pos htext

theorem stamp_special (hc : c.Valid) (h : c.ahead = token :: rest)
    (hspecial : ¬ token.id < v.tokenEot) :
    c.stamp v time = (c.pass none).bind fun c' => c'.stamp v time := by
  obtain ⟨here, hhere⟩ := here_eq_cons hc h
  rw [stamp, hhere]
  simp only [if_neg hspecial]
  split <;> simp_all

end Cursor

/-- The tokens with times for those that are text. -/
def withTimes (v : Vocab) : List ℤ → List (TokenData F) → List (TokenData F × Option ℤ)
  | _, [] => []
  | times, token :: tokens =>
    if token.id < v.tokenEot then (token, times.head?) :: withTimes v times.tail tokens
    else (token, none) :: withTimes v times tokens

theorem withTimes_nil (tokens : List (TokenData F)) :
    withTimes v [] tokens = tokens.map (·, none) := by
  induction tokens with
  | nil => rfl
  | cons token tokens ih =>
    rw [withTimes]
    split_ifs
    · rw [List.map_cons, ← ih]
      rfl
    · rw [List.map_cons, ← ih]

theorem map_fst_withTimes (times : List ℤ) (tokens : List (TokenData F)) :
    (withTimes v times tokens).map Prod.fst = tokens := by
  induction tokens generalizing times with
  | nil => rfl
  | cons token tokens ih =>
    rw [withTimes]
    split_ifs <;> rw [List.map_cons, ih]

/-- There is a time for each text token. -/
def Enough (v : Vocab) (times : List ℤ) (tokens : List (TokenData F)) : Prop :=
  (tokens.filter (·.id < v.tokenEot)).length = times.length

theorem Enough.special {times : List ℤ} (h : Enough v times (token :: rest))
    (hspecial : ¬ token.id < v.tokenEot) : Enough v times rest := by
  rwa [Enough, List.filter_cons_of_neg (by simpa using hspecial)] at h

theorem Enough.text {times : List ℤ} (h : Enough v times (token :: rest))
    (htext : token.id < v.tokenEot) :
    ∃ time later, times = time :: later ∧ Enough v later rest := by
  rw [Enough, List.filter_cons_of_pos (by simpa using htext), List.length_cons] at h
  match times with
  | time :: later => exact ⟨time, later, rfl, Nat.succ.inj h⟩

theorem Enough.map {times : List ℤ} {tokens : List (TokenData F)} (h : Enough v times tokens)
    (f : ℤ → ℤ) : Enough v (times.map f) tokens := by
  rwa [Enough, List.length_map]

theorem filterMap_snd_withTimes {times : List ℤ} {tokens : List (TokenData F)}
    (h : Enough v times tokens) : (withTimes v times tokens).filterMap Prod.snd = times := by
  induction tokens generalizing times with
  | nil => exact (List.length_eq_zero_iff.mp h.symm).symm
  | cons token tokens ih =>
    rw [withTimes]
    split_ifs with htext
    · obtain ⟨time, later, rfl, hlater⟩ := h.text htext
      exact congrArg _ (ih hlater)
    · exact ih (h.special htext)

theorem isSome_withTimes {times : List ℤ} {tokens : List (TokenData F)}
    (h : Enough v times tokens) :
    ∀ p ∈ withTimes v times tokens, p.2.isSome ↔ p.1.id < v.tokenEot := by
  induction tokens generalizing times with
  | nil => simp [withTimes]
  | cons token tokens ih =>
    rw [withTimes]
    split_ifs with htext
    · obtain ⟨time, later, rfl, hlater⟩ := h.text htext
      exact List.forall_mem_cons.mpr ⟨by simpa using htext, ih hlater⟩
    · exact List.forall_mem_cons.mpr ⟨by simpa using htext, ih (h.special htext)⟩

/-- The last token is text. -/
def EndsInText (v : Vocab) (tokens : List (TokenData F)) : Prop :=
  ∃ last ∈ tokens.getLast?, last.id < v.tokenEot

theorem endsInText_singleton : EndsInText v [token] ↔ token.id < v.tokenEot := by
  simp [EndsInText]

theorem endsInText_cons (hrest : rest ≠ []) :
    EndsInText v (token :: rest) ↔ EndsInText v rest := by
  rw [EndsInText, EndsInText, List.getLast?_cons_of_ne_nil hrest]

/-- The walk gives the frames to the text tokens in their order, and has to follow `tok_i` to
the end if the last one is text. -/
theorem walk (seek : ℤ) {frames : List ℤ} (hc : c.Valid) (h : Enough v frames c.ahead) :
    (c.stampAt v seek frames).map Cursor.tokens =
        some (c.behind ++ withTimes v (frames.map (· * 2 + seek)) c.ahead) ∧
          ¬ EndsInText v c.ahead ∨
      c.stampAt v seek frames = none ∧ EndsInText v c.ahead := by
  induction hahead : c.ahead generalizing c frames with
  | nil =>
    rw [Cursor.ahead, List.append_eq_nil_iff] at hahead
    exact absurd hahead.1 hc.here_ne_nil
  | cons token rest ih =>
    rw [hahead] at h
    by_cases htext : token.id < v.tokenEot
    · obtain ⟨frame, later, rfl, hlater⟩ := h.text htext
      rw [Cursor.stampAt, List.foldlM_cons, Cursor.stamp_text hc hahead htext]
      by_cases hrest : rest = []
      · subst hrest
        rw [Cursor.pass_eq_none hc hahead]
        exact .inr ⟨rfl, endsInText_singleton.mpr htext⟩
      · obtain ⟨c', hpass, hpast⟩ :=
          Cursor.exists_pass (some (frame * 2 + seek)) hc hahead hrest
        have hwalk := ih hpast.valid (hpast.ahead ▸ hlater) hpast.ahead
        rw [hpast.behind, List.append_assoc] at hwalk
        rw [hpass, endsInText_cons hrest, withTimes, if_pos htext]
        exact hwalk
    · by_cases hrest : rest = []
      · -- no text token is left, so no frame
        subst hrest
        obtain rfl : frames = [] := List.length_eq_zero_iff.mp (h.special htext).symm
        refine .inl ⟨?_, endsInText_singleton.not.mpr htext⟩
        rw [List.map_nil, withTimes_nil, ← hahead]
        rfl
      · obtain ⟨c', hpass, hpast⟩ := Cursor.exists_pass none hc hahead hrest
        have hwalk := ih hpast.valid (hpast.ahead ▸ h.special htext) hpast.ahead
        rw [endsInText_cons hrest]
        cases frames with
        | nil =>
          rcases hwalk with ⟨-, hends⟩ | ⟨hnone, -⟩
          · refine .inl ⟨?_, hends⟩
            rw [List.map_nil, withTimes_nil, ← hahead]
            rfl
          · cases hnone
        | cons frame frames =>
          rw [hpast.behind, List.append_assoc] at hwalk
          rw [Cursor.stampAt, List.foldlM_cons, Cursor.stamp_special hc hahead htext, hpass,
            withTimes, if_neg htext]
          exact hwalk

theorem tokenTimes_cases (seek : ℤ) {segments : List (Segment F)} (hsegments : segments ≠ [])
    (htokens : ∀ seg ∈ segments, seg.tokens ≠ [])
    (h : Enough v (arrivals 0 rows) (tokensOf segments)) :
    tokenTimes v seek rows segments =
        some (withTimes v ((arrivals 0 rows).map (· * 2 + seek)) (tokensOf segments)) ∧
          ¬ EndsInText v (tokensOf segments) ∨
      tokenTimes v seek rows segments = none ∧ EndsInText v (tokensOf segments) := by
  obtain ⟨segment, later, rfl⟩ := List.exists_cons_of_ne_nil hsegments
  let start : Cursor F := ⟨[], segment.tokens, later.map (·.tokens)⟩
  have hstart : start.Valid := by
    refine ⟨htokens _ List.mem_cons_self, fun s hs => ?_⟩
    obtain ⟨seg, hseg, rfl⟩ := List.mem_map.mp hs
    exact htokens seg (List.mem_cons_of_mem _ hseg)
  have hahead : start.ahead = tokensOf (segment :: later) := by
    simp [start, Cursor.ahead, tokensOf, List.flatMap_def]
  rw [← hahead] at h ⊢
  rw [tokenTimes, placeTimes_eq]
  rcases walk seek hstart h with ⟨hwalk, hends⟩ | ⟨hwalk, hends⟩
  · exact .inl ⟨hwalk, hends⟩
  · exact .inr ⟨by rw [hwalk, Option.map_none], hends⟩

end Walk

/-! ### The times of a window -/

section Window

variable {F : Type} {v : Vocab} {o : OutputParams F} {seekDelta : ℤ} {tokens : List (TokenData F)}

theorem dtwRows_eq (v : Vocab) (langId : ℕ) (segments : List (Segment F)) :
    dtwRows v langId segments = (textTokens v segments).length + 1 := by
  simp only [dtwRows, dtwTokens, List.length_append, List.length_map, List.length_singleton]
  omega

theorem tokens_ne_nil_of_window {seg : Segment F}
    (h : seg ∈ windowSegments v o seekDelta tokens) : seg.tokens ≠ [] := by
  intro hnil
  obtain ⟨htext, hne⟩ := windowSegments_text seg h
  rw [hnil] at htext
  exact hne htext

variable {S : Type} [LinearOrder S] [Zero S] [Add S]

/-- Along the alignment of the tokens of some segments with the frames the text tokens get their
times, which are in order and within the frames. The segments are those of a window, or those
that they are wrapped into. -/
theorem token_times_in_order (x : ℕ × ℕ → S) (langId M : ℕ) (rows : List (ℤ × ℤ)) (seek : ℤ)
    {segments : List (Segment F)} (hrows : DtwReturns x (dtwRows v langId segments) M rows)
    (hsegments : segments ≠ []) (htokens : ∀ seg ∈ segments, seg.tokens ≠ []) :
    ((tokenTimes v seek rows segments).isSome ↔ ¬ EndsInText v (tokensOf segments)) ∧
    ∀ out, tokenTimes v seek rows segments = some out →
      out.map Prod.fst = tokensOf segments ∧
      (∀ p ∈ out, p.2.isSome ↔ p.1.id < v.tokenEot) ∧
      (out.filterMap Prod.snd).Pairwise (· ≤ ·) ∧
      ∀ time ∈ out.filterMap Prod.snd, seek ≤ time ∧ time ≤ seek + 2 * (M - 1) := by
  obtain ⟨l, hl, rfl, -⟩ := hrows.exists_route
  have hframes := frames_of_route hl
  have henough : Enough v (arrivals 0 (l.map pathRow)) (tokensOf segments) := by
    rw [Enough, hframes.length, dtwRows_eq]
    rfl
  rcases tokenTimes_cases seek hsegments htokens henough with
    ⟨htimes, hends⟩ | ⟨htimes, hends⟩
  · have hmap := henough.map (· * 2 + seek)
    rw [htimes]
    refine ⟨iff_of_true rfl hends, fun out hout => ?_⟩
    obtain rfl := Option.some_inj.mp hout
    rw [filterMap_snd_withTimes hmap, List.pairwise_map]
    refine ⟨map_fst_withTimes _ _, isSome_withTimes hmap, ?_, fun time htime => ?_⟩
    · exact hframes.pairwise.imp fun hle => by omega
    · obtain ⟨frame, hframe, rfl⟩ := List.mem_map.mp htime
      have hbounds := hframes.bounds frame hframe
      have hM := hrows.1
      omega
  · rw [htimes]
    exact ⟨iff_of_false (by simp) (not_not.mpr hends), fun out hout => by cases hout⟩

/-- The segments of the first window of the example, with a text token in each. -/
def letterSegments : List (Segment ℤ) :=
  windowSegments english ⟨false, false, false, 0, 0⟩ 200 ((spokenDecoder 7).tokens)

theorem token_times_letters :
    letterSegments.length = 2 ∧
      ∃ out, tokenTimes english 0 [(0, 0), (1, 0), (2, 0), (2, 1)] letterSegments = some out ∧
        (out.filterMap Prod.snd).Pairwise (· ≤ ·) := by
  have hrows : DtwReturns tiedMatrix (dtwRows english 0 letterSegments) 2
      [(0, 0), (1, 0), (2, 0), (2, 1)] := ⟨by decide, 5, by decide⟩
  obtain ⟨hsome, hout⟩ := token_times_in_order tiedMatrix 0 2 _ 0 hrows (by decide)
    fun _ h => tokens_ne_nil_of_window h
  have hends : ¬ EndsInText english (tokensOf letterSegments) := by
    rintro ⟨last, hlast, htext⟩
    obtain rfl : certainToken english 50463 = last := Option.some_inj.mp hlast
    revert htext
    decide
  obtain ⟨out, htimes⟩ := Option.isSome_iff_exists.mp (hsome.mpr hends)
  exact ⟨by decide, out, htimes, (hout out htimes).2.2.1⟩

end Window

end WhisperAndroid.Decode
