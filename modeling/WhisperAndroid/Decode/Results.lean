import WhisperAndroid.Decode.MainLoop

/-!
# Results of the main loop

What the windows of a run leave behind together: the segments, their times and texts, and
the rolling context for the prompts.

## Main results

* `result_in_order` — the segments of all windows follow each other in time
* `result_text` — the texts are those of the decoded tokens
* `prompt_recent` — a prompt fits in the context and ends with what was decoded last
* `prompt_defined` — there is always a prompt, but for a budget of one token
-/

namespace WhisperAndroid.Decode

variable {v : Vocab} {F : Type} [ScoreScalar F] {p : FullParams v F} {nLen : ℤ}
  {network : ℤ → List ℕ → Logits v F} {past : PromptPast} {decoders : List (Ranked F)}
  {os : List (Turn F)} {s : LoopState F} {o : Turn F}

theorem Runs.resultAll_eq (h : Runs p nLen network past decoders os s) :
    s.resultAll = os.flatMap (·.segments p) := by
  induction h with
  | start => rfl
  | next _ _ _ _ _ ih => simp [LoopState.advance, ih]

/-! ### Times -/

/-- The first token of a window is a timestamp. -/
def Turn.Anchored (v : Vocab) (o : Turn F) : Prop :=
  ∀ front ∈ o.best.decoder.tokens.head?, v.tokenBeg ≤ front.id

/-- The segments of a window end between its begin and that of its decoder's next window, and
they follow each other in time if the first token says when. -/
theorem Turn.segments_inOrder (h : Chosen p nLen o.seek o.best) :
    (∃ first, InOrder o.seek (o.seek + o.best.decoder.seekDelta) first (o.segments p)) ∧
      (o.Anchored v → ∃ lo, o.seek ≤ lo ∧
        InOrder lo (o.seek + o.best.decoder.seekDelta) lo (o.segments p)) := by
  obtain ⟨t, i, n, d, hd, htokens, hdelta⟩ := h.of_sound
  rw [Turn.segments, Turn.Anchored, htokens, hdelta]
  split_ifs
  · refine ⟨⟨_, windowSegments_inOrder (o := o.outputParams p) hd⟩, fun hfront => ?_⟩
    obtain ⟨lo, hlo, -, horder⟩ := windowSegments_anchored (o := o.outputParams p) hd hfront
    exact ⟨lo, hlo, horder⟩
  · exact ⟨⟨o.seek, .nil⟩, fun _ => ⟨o.seek, le_rfl, .nil⟩⟩

/-- A window whose successor begins moves as far as its decoder at least. -/
theorem Turn.seekDelta_le (h : Chosen p nLen o.seek o.best)
    (hnext : o.seek + o.seekDelta p nLen + deltaMin < p.seekEnd nLen) :
    (o.best.decoder.seekDelta : ℤ) ≤ o.seekDelta p nLen := by
  obtain ⟨-, hle⟩ := h.bounds
  rw [deltaMin] at hnext
  rw [Turn.seekDelta] at hnext ⊢
  split_ifs at hnext ⊢
  · have hle' : (o.best.decoder.seekDelta : ℤ) ≤ (100 * chunkSize : ℕ) := by exact_mod_cast hle
    omega
  · exact le_rfl

/-- Where another window follows, all segments end before it. -/
theorem Runs.t1_le (h : Runs p nLen network past decoders os s)
    (hnext : s.seek + deltaMin < p.seekEnd nLen) : ∀ seg ∈ s.resultAll, seg.t1 ≤ s.seek := by
  induction h with
  | start => simp [LoopState.start]
  | @next os s o hruns hseek ho hfallback hbest ih =>
    have hchosen := ((hruns.next hseek ho hfallback hbest).chosen o (by simp)).2
    have hdelta : (o.best.decoder.seekDelta : ℤ) ≤ o.seekDelta p nLen :=
      Turn.seekDelta_le hchosen (by rw [ho]; exact hnext)
    obtain ⟨first, horder⟩ := (Turn.segments_inOrder hchosen).1
    obtain ⟨hpos, -⟩ := Chosen.bounds hchosen
    intro seg hseg
    have hadvance : (s.advance p nLen o).seek = s.seek + o.seekDelta p nLen := rfl
    rw [hadvance]
    rcases List.mem_append.mp hseg with hseg | hseg
    · have := ih hseek seg hseg
      omega
    · have := horder.t1_le seg hseg
      omega

theorem Runs.in_order (h : Runs p nLen network past decoders os s) :
    (s.resultAll.Pairwise fun a b => a.t1 ≤ b.t1) ∧ (∀ seg ∈ s.resultAll, p.seekStart ≤ seg.t1) ∧
      ((∀ o ∈ os, o.Anchored v) → (s.resultAll.Pairwise fun a b => a.t1 ≤ b.t0) ∧
        ∀ seg ∈ s.resultAll, p.seekStart ≤ seg.t0 ∧ seg.t0 ≤ seg.t1) := by
  induction h with
  | start => simp [LoopState.start]
  | @next os s o hruns hseek ho hfallback hbest ih =>
    obtain ⟨hends, hstart, hall⟩ := ih
    have hrun := hruns.next hseek ho hfallback hbest
    have hchosen := (hrun.chosen o (by simp)).2
    have hbegin : p.seekStart ≤ o.seek := (hrun.advances.1 o (by simp)).1
    obtain ⟨⟨first, horder⟩, hanchored⟩ := Turn.segments_inOrder hchosen
    have hbefore : ∀ seg ∈ s.resultAll, seg.t1 ≤ o.seek := ho ▸ hruns.t1_le hseek
    have hresult : (s.advance p nLen o).resultAll = s.resultAll ++ o.segments p := rfl
    rw [hresult]
    refine ⟨?_, ?_, fun hos => ?_⟩
    · refine List.pairwise_append.mpr ⟨hends, ?_, fun a ha b hb => ?_⟩
      · exact horder.pairwise_t1
      · exact (hbefore a ha).trans (horder.le_t1 b hb)
    · intro seg hseg
      rcases List.mem_append.mp hseg with hseg | hseg
      · exact hstart seg hseg
      · exact hbegin.trans (horder.le_t1 seg hseg)
    · obtain ⟨lo, hlo, horder'⟩ := hanchored (hos o (by simp))
      obtain ⟨hpair, hbounds⟩ := hall fun o' ho' => hos o' (List.mem_append_left _ ho')
      have htimes := horder'.t0_le_t1 rfl
      have hpair' := horder'.pairwise.imp fun hab => hab.1
      refine ⟨List.pairwise_append.mpr ⟨hpair, hpair', fun a ha b hb => ?_⟩, ?_⟩
      · exact (hbefore a ha).trans (hlo.trans (htimes b hb).1)
      · intro seg hseg
        rcases List.mem_append.mp hseg with hseg | hseg
        · exact hbounds seg hseg
        · obtain ⟨hle, hle'⟩ := htimes seg hseg
          exact ⟨hbegin.trans (hlo.trans hle), hle'⟩

/-- The segments of all windows are in order of their ends. If every window begins with a
timestamp, each segment begins after the one before has ended, and no segment ends before it
begins. -/
theorem result_in_order (h : Runs p nLen network past decoders os s) :
    (s.resultAll.Pairwise fun a b => a.t1 ≤ b.t1) ∧ (∀ seg ∈ s.resultAll, p.seekStart ≤ seg.t1) ∧
      ((∀ o ∈ os, o.Anchored v) → (s.resultAll.Pairwise fun a b => a.t1 ≤ b.t0) ∧
        ∀ seg ∈ s.resultAll, p.seekStart ≤ seg.t0 ∧ seg.t0 ≤ seg.t1) :=
  h.in_order

theorem spoken_anchored : ∀ o ∈ [firstTurn, secondTurn], o.Anchored english := by
  intro o ho front hfront
  obtain rfl : certainToken english 50363 = front := by
    rcases List.mem_pair.mp ho with rfl | rfl <;> exact Option.some_inj.mp hfront
  decide

theorem result_in_order_spoken :
    afterSecond.resultAll.map (·.t1) = [100, 200, 300, 400] ∧
      afterSecond.resultAll.Pairwise fun a b => a.t1 ≤ b.t0 :=
  ⟨rfl, ((result_in_order spoken_runs).2.2 spoken_anchored).1⟩

/-! ### Texts -/

/-- The text of a window with speech. -/
def Turn.text (p : FullParams v F) (o : Turn F) : List UInt8 :=
  if p.testing = false ∧ ¬ o.isNoSpeech p then
    o.best.decoder.tokens.flatMap (printed v (o.outputParams p))
  else []

/-- Every text is that of the tokens of its segment, and the tokens of a window go to its
segments in order, at most once. Without special tokens the texts make up what was decoded. -/
theorem result_text (h : Runs p nLen network past decoders os s) :
    (∀ seg ∈ s.resultAll, seg.text ≠ [] ∧ ∃ o ∈ os,
      seg.text = seg.tokens.flatMap (printed v (o.outputParams p))) ∧
      (tokensOf s.resultAll).Sublist (os.flatMap (·.best.decoder.tokens)) ∧
      (p.printSpecial = false → s.resultAll.flatMap (·.text) = os.flatMap (·.text p)) := by
  rw [h.resultAll_eq]
  refine ⟨fun seg hseg => ?_, ?_, fun hspecial => ?_⟩
  · obtain ⟨o, ho, hseg⟩ := List.mem_flatMap.mp hseg
    rw [Turn.segments] at hseg
    split_ifs at hseg
    · obtain ⟨htext, hne⟩ := windowSegments_text seg hseg
      exact ⟨hne, o, ho, htext⟩
    · simp at hseg
  · clear h
    induction os with
    | nil => exact List.Sublist.refl _
    | cons o os ih =>
      rw [List.flatMap_cons, List.flatMap_cons, tokensOf_append]
      refine List.Sublist.append ?_ ih
      rw [Turn.segments]
      split_ifs
      · exact windowSegments_tokens.1
      · exact List.nil_sublist _
  · rw [List.flatMap_assoc]
    refine List.flatMap_congr fun o _ => ?_
    rw [Turn.segments, Turn.text]
    split_ifs
    · exact windowSegments_texts (o := o.outputParams p) hspecial
    · rfl

theorem result_text_spoken : afterSecond.resultAll.flatMap (·.text) =
    [firstTurn, secondTurn].flatMap (·.text spokenParams) :=
  (result_text spoken_runs).2.2 rfl

/-! ### Prompts -/

omit [ScoreScalar F] in
theorem LoopState.pastAt_cases (p : FullParams v F) (nLen : ℤ) (s : LoopState F) :
    s.pastAt p nLen = ⟨[], []⟩ ∨ s.pastAt p nLen = s.past := by
  rw [pastAt]
  split_ifs
  · exact Or.inl rfl
  · exact Or.inr rfl

/-- What is carried stays, and the rest is the end of what was decoded. -/
theorem Runs.past_suffix (h : Runs p nLen network past decoders os s) :
    (s.past.past0 = [] ∨ s.past.past0 = (preparePast p.promptParams past).past0) ∧
      s.past.past1 <:+ (preparePast p.promptParams past).past1 ++ os.flatMap (·.decoded p) := by
  induction h with
  | start => exact ⟨Or.inr rfl, by simp [LoopState.start]⟩
  | @next os s o hruns hseek ho hfallback hbest ih =>
    obtain ⟨hcarried, hsuffix⟩ := ih
    obtain ⟨cool, hprompt⟩ := hfallback.prompt
    have hkept : (s.advance p nLen o).past.past0 = (s.pastAt p nLen).past0 := rfl
    have hrecent : (s.advance p nLen o).past.past1 <:+ (s.pastAt p nLen).past1 ++ o.decoded p :=
      afterWindow_suffix hprompt
    rw [hkept, List.flatMap_append, List.flatMap_singleton, ← List.append_assoc]
    rcases s.pastAt_cases p nLen with hpast | hpast
    · rw [hpast] at hrecent ⊢
      exact ⟨Or.inl rfl, hrecent.trans (List.suffix_append _ _)⟩
    · rw [hpast] at hrecent ⊢
      obtain ⟨before, hbefore⟩ := hsuffix
      refine ⟨hcarried, hrecent.trans ⟨before, ?_⟩⟩
      rw [← hbefore, List.append_assoc]

/-- A prompt leaves room in the context for all rounds of its window. Before the task tokens
it has the carried prompt and the end of what was decoded so far, or nothing. -/
theorem prompt_recent (h : Runs p nLen network past decoders (os ++ [o]) s)
    (hctx : 8 ≤ p.nTextCtx) :
    (∀ t, o.search.prompt.length + (p.window nLen t o.seek).nMax ≤ p.nTextCtx) ∧
      ∃ tokens, o.search.prompt = tokens ++ promptInit v p.promptParams ∧
        (tokens = [] ∨ ∃ carried recent, tokens = v.tokenPrev :: (carried ++ recent) ∧
          (carried = [] ∨
            (p.carryInitialPrompt ∧ carried = (preparePast p.promptParams past).past0)) ∧
          recent <:+ (preparePast p.promptParams past).past1 ++ os.flatMap (·.decoded p)) := by
  generalize hos : os ++ [o] = turns at h
  cases h with
  | start => simp at hos
  | @next os' s' o' hruns hseek ho hfallback hbest =>
    obtain ⟨rfl, hlast⟩ := List.append_inj' hos rfl
    obtain rfl := List.singleton_inj.mp hlast
    obtain ⟨cool, hprompt⟩ := hfallback.prompt
    obtain ⟨hcarried, hsuffix⟩ := hruns.past_suffix
    have hlength : o.search.prompt.length ≤ p.nTextCtx / 2 + 4 := prompt_length_le hprompt
    refine ⟨fun t => ?_, ?_⟩
    · have hmax : (p.window nLen t o.seek).nMax = p.nTextCtx / 2 - 4 := rfl
      omega
    · obtain ⟨tokens, htokens, hsplit⟩ := Option.map_eq_some_iff.mp hprompt
      refine ⟨tokens, hsplit.symm, (history_cases htokens).imp_right ?_⟩
      intro ⟨recent, htokens, hrecent, _⟩
      refine ⟨_, recent, htokens, ?_, hrecent.trans ?_⟩
      · rw [take0]
        split_ifs with htake
        · obtain ⟨hcarry, hne⟩ := canTake0_iff.mp htake
          rcases s'.pastAt_cases p nLen with hpast | hpast
          · rw [hpast] at hne
            exact absurd rfl hne
          · rw [hpast] at hne ⊢
            exact Or.inr ⟨hcarry, hcarried.resolve_left hne⟩
        · exact Or.inl rfl
      · rcases s'.pastAt_cases p nLen with hpast | hpast
        · rw [hpast]
          exact List.nil_suffix
        · rw [hpast]
          exact hsuffix

theorem prompt_recent_spoken :
    secondTurn.search.prompt.length + (spokenParams.window 3000 0 secondTurn.seek).nMax ≤ 448 ∧
      ∃ carried recent, secondTurn.search.prompt =
        english.tokenPrev :: (carried ++ recent) ++ promptInit english spokenParams.promptParams ∧
        recent <:+ [50363, 0, 50413, 50413, 0, 50463, 50463] := by
  obtain ⟨hroom, tokens, htokens, hnil | ⟨carried, recent, rfl, -, hrecent⟩⟩ :=
    prompt_recent (show Runs _ _ _ _ _ ([firstTurn] ++ [secondTurn]) _ from spoken_runs)
      (by decide)
  · rw [hnil] at htokens
    exact absurd htokens (by decide)
  · exact ⟨hroom 0, carried, recent, htokens, hrecent⟩

/-- Without the context of an earlier call every window has a prompt: the code does not read
behind the end of the decoded tokens, unless the budget is one token. -/
theorem prompt_defined (h : Runs p nLen network past decoders os s) (hno : p.noContext)
    (hone : maxPromptCtx p.promptParams ≠ 1) (cool : Bool) :
    ∃ prompt, windowPrompt v p.promptParams (s.pastAt p nLen) cool = some prompt := by
  have hbudget : InBudget p.promptParams (preparePast p.promptParams past) :=
    preparePast_inBudget hno hone
  refine InBudget.exists_prompt fun hcarry => ?_
  rcases s.pastAt_cases p nLen with hpast | hpast
  · rw [hpast]
    exact Or.inl rfl
  · rw [hpast]
    rcases h.past_suffix.1 with hnil | heq
    · exact Or.inl hnil
    · rw [heq]
      exact hbudget hcarry

theorem prompt_defined_spoken :
    canTake0 spokenParams.promptParams (afterSecond.pastAt spokenParams 3000) = true ∧
      ∃ prompt, windowPrompt english spokenParams.promptParams
        (afterSecond.pastAt spokenParams 3000) true = some prompt :=
  ⟨rfl, prompt_defined spoken_runs rfl (by decide) true⟩

end WhisperAndroid.Decode
