import WhisperAndroid.Decode.Certain

/-!
# Timestamps in a window

What holds of every decoder after any number of rounds, for both strategies, any network
and any callback: its sliding window is that of its last timestamp, and its tokens keep
the timestamp rule of the filters.

## Main results

* `Rounds.sound` — the invariant of the decoders
* `timestamps_paired` — timestamps appear in pairs, except directly before the end of text
* `timestamps_increase` — the window does not go back
* `special_tokens` — which tokens occur
* `exists_token_left` — there is always a token to sample
-/

namespace WhisperAndroid.Decode

variable {v : Vocab} {F : Type}

/-- The last timestamp after 0.00 and its index. -/
def lastTimestamp (v : Vocab) (ids : List ℕ) : Option (ℕ × ℕ) :=
  (ids.zipIdx.filter fun entry => v.tokenBeg < entry.1).getLast?

theorem lastTimestamp_concat (ids : List ℕ) (id : ℕ) :
    lastTimestamp v (ids ++ [id]) =
      if v.tokenBeg < id then some (id, ids.length) else lastTimestamp v ids := by
  rw [lastTimestamp, List.zipIdx_append, List.filter_append]
  split_ifs with h <;> simp [h, lastTimestamp]

theorem tokenBeg_lt_of_lastTimestamp {ids : List ℕ} {id k : ℕ}
    (h : lastTimestamp v ids = some (id, k)) : v.tokenBeg < id := by
  have hmem := List.mem_of_getLast? h
  simpa using (List.mem_filter.mp hmem).2

theorem getElem?_of_lastTimestamp {ids : List ℕ} {id k : ℕ}
    (h : lastTimestamp v ids = some (id, k)) : ids[k]? = some id := by
  have hmem := List.mem_of_getLast? h
  exact List.mem_zipIdx_iff_getElem?.mp (List.mem_filter.mp hmem).1

/-- The window of a decoder is that of its last timestamp, or a whole chunk. -/
def Decoder.Tracked (v : Vocab) (d : Decoder F) : Prop :=
  match lastTimestamp v d.ids with
  | none => d.hasTs = false ∧ d.seekDelta = 100 * chunkSize ∧ d.resultLen = 0
  | some (id, k) => d.hasTs = true ∧ d.seekDelta = 2 * (id - v.tokenBeg) ∧ d.resultLen = k + 1

/-- A token is allowed after others. -/
structure Allowed (p : FilterParams v F) (past : List ℕ) (id : ℕ) : Prop where
  lt : id < v.nVocab
  not_breaksPair : id ≠ 0 → breaksPair v past id = false
  not_before : v.tokenBeg ≤ id → ∀ earlier ∈ past, earlier ≤ id
  unfinished : v.tokenEot ∉ past
  initial_le : past = [] → ∀ tid0, p.maxInitialTid = some tid0 → id ≤ v.tokenBeg + tid0
  not_control : p.logitsFilterCallback = none → ¬ v.IsControl id
  not_solm : p.logitsFilterCallback = none → id = v.tokenSolm → p.tdrzEnable = true
  not_timestamp : p.logitsFilterCallback = none → p.noTimestamps → id < v.tokenBeg

/-- The last timestamp is the largest. -/
theorem le_of_lastTimestamp {p : FilterParams v F} {ids : List ℕ}
    (h : Stepwise (Allowed p) ids) {earlier : ℕ} (hmem : earlier ∈ ids) :
    earlier ≤ (lastTimestamp v ids).elim v.tokenBeg Prod.fst := by
  induction ids using List.reverseRecOn with
  | nil => simp at hmem
  | append_singleton ids id ih =>
    obtain ⟨hids, hid⟩ := Stepwise.concat_iff.mp h
    rw [lastTimestamp_concat]
    rcases List.mem_append.mp hmem with hold | hnew
    · split_ifs with hbeg
      · exact hid.not_before hbeg.le earlier hold
      · exact ih hids hold
    · rw [List.mem_singleton.mp hnew]
      split_ifs with hbeg
      · exact le_rfl
      · cases hlast : lastTimestamp v ids with
        | none => exact not_lt.mp hbeg
        | some entry => exact (not_lt.mp hbeg).trans (tokenBeg_lt_of_lastTimestamp hlast).le

namespace Decoder

variable {p : FilterParams v F} {d : Decoder F}

/-- What the filters leave is allowed. -/
theorem Tracked.allowed (htracked : d.Tracked v) (hsteps : Stepwise (Allowed p) d.ids)
    (hunfinished : v.tokenEot ∉ d.ids) {id : ℕ} (hlt : id < v.nVocab) (hkept : Kept p d id) :
    Allowed p d.ids id where
  lt := hlt
  not_breaksPair _ := hkept.not_breaksPair
  not_before hbeg earlier hmem := by
    have hle := le_of_lastTimestamp hsteps hmem
    rw [Tracked] at htracked
    cases hlast : lastTimestamp v d.ids with
    | none =>
      rw [hlast] at hle
      exact hle.trans hbeg
    | some entry =>
      rw [hlast] at hle htracked
      dsimp only at htracked
      obtain ⟨hts, hdelta, -⟩ := htracked
      have hnot := hkept.not_before hts hbeg
      rw [hdelta] at hnot
      simp only [Option.elim_some] at hle
      omega
  unfinished := hunfinished
  initial_le hnil := hkept.initial_le (by simpa [ids] using hnil)
  not_control := hkept.not_control
  not_solm := hkept.not_solm
  not_timestamp := hkept.not_timestamp

/-- Token 0 is a text, and allowed but for the pairs of timestamps. -/
theorem allowed_zero (hunfinished : v.tokenEot ∉ d.ids) : Allowed p d.ids 0 where
  lt := (Nat.zero_lt_of_lt v.large)
  not_breaksPair h := absurd rfl h
  not_before hbeg := absurd (Nat.zero_lt_of_lt v.tokenEot_lt_tokenBeg) (not_lt.mpr hbeg)
  unfinished := hunfinished
  initial_le _ _ _ := Nat.zero_le _
  not_control _ hcontrol := Nat.not_lt_zero _ hcontrol.bounds.1
  not_solm _ hsolm := absurd v.tokenEot_lt_tokenSolm (by simp [← hsolm])
  not_timestamp _ _ := Nat.zero_lt_of_lt v.tokenEot_lt_tokenBeg

/-- The window never goes back: the failure for it does not occur. -/
theorem Tracked.not_goesBack (htracked : d.Tracked v) {token : TokenData F} {i : ℕ}
    (hallowed : Allowed p d.ids token.id) : d.goesBack v i token = false := by
  by_contra hback
  simp only [goesBack, Bool.not_eq_false, Bool.and_eq_true, decide_eq_true_eq] at hback
  obtain ⟨⟨⟨hbeg, hts⟩, hdelta⟩, -⟩ := hback
  rw [Tracked] at htracked
  cases hlast : lastTimestamp v d.ids with
  | none =>
    rw [hlast] at htracked
    simp [htracked.1] at hts
  | some entry =>
    rw [hlast] at htracked
    have hmem : entry.1 ∈ d.ids := List.mem_of_getElem? (getElem?_of_lastTimestamp hlast)
    have hle := hallowed.not_before hbeg.le entry.1 hmem
    dsimp only at htracked
    omega

/-- A tracked window holds all timestamps. -/
theorem Tracked.bounds (htracked : d.Tracked v) (hsteps : Stepwise (Allowed p) d.ids) :
    2 ≤ d.seekDelta ∧ d.seekDelta ≤ 100 * chunkSize ∧ d.resultLen ≤ d.tokens.length ∧
      ∀ id ∈ d.ids, 2 * (id - v.tokenBeg) ≤ d.seekDelta := by
  have hle : ∀ id ∈ d.ids, _ := fun id hid => le_of_lastTimestamp hsteps hid
  rw [Tracked] at htracked
  cases hlast : lastTimestamp v d.ids with
  | none =>
    rw [hlast] at htracked hle
    obtain ⟨-, hdelta, hlen⟩ := htracked
    rw [hdelta, hlen, chunkSize]
    refine ⟨by omega, le_rfl, Nat.zero_le _, fun id hid => ?_⟩
    have := hle id hid
    simp only [Option.elim_none] at this
    omega
  | some entry =>
    rw [hlast] at htracked hle
    obtain ⟨-, hdelta, hlen⟩ := htracked
    have hbeg := tokenBeg_lt_of_lastTimestamp hlast
    have hget := getElem?_of_lastTimestamp hlast
    have hlt := (hsteps.forall_mem fun _ _ h => h.lt) _ (List.mem_of_getElem? hget)
    have hindex : entry.2 < d.tokens.length := by
      simpa [ids] using (List.getElem?_eq_some_iff.mp hget).1
    rw [hdelta, hlen]
    refine ⟨by omega, Vocab.sub_tokenBeg_le hlt, hindex, fun id hid => ?_⟩
    have := hle id hid
    simp only [Option.elim_some] at this
    omega

/-- What the end of the update may change: a decoder that goes on is left as it is. -/
structure Settled (w : WindowParams v F) (i : ℕ) (token : TokenData F) (d d' : Decoder F) :
    Prop where
  tokens_eq : d'.tokens = d.tokens
  seekDelta_eq : d'.seekDelta = d.seekDelta ∨ d'.seekDelta = 100 * chunkSize
  resultLen_eq : d'.resultLen = d.resultLen ∨ d'.resultLen = i + 1
  active : d'.Active → d' = d ∧ token.id ≠ v.tokenEot ∧ (i + 1 = w.nMax → 0 < d.resultLen)
  completed : d'.completed → w.testing = true ∨ 0 < d'.resultLen

variable {w : WindowParams v F} {i : ℕ} {token : TokenData F}

theorem complete_settled (hresult : 0 < d.resultLen ∨ w.filter.noTimestamps = true) :
    (d.complete w i).tokens = d.tokens ∧
      ((d.complete w i).seekDelta = d.seekDelta ∨
        (d.complete w i).seekDelta = 100 * chunkSize) ∧
      ((d.complete w i).resultLen = d.resultLen ∨ (d.complete w i).resultLen = i + 1) ∧
      (d.complete w i).completed = true ∧ 0 < (d.complete w i).resultLen := by
  rw [complete]
  split_ifs with h
  · simp
  · have hpos : 0 < d.resultLen := hresult.resolve_right fun hnone => h (Or.inr hnone)
    simp [hpos]

theorem settled_of_complete (hresult : 0 < d.resultLen ∨ w.filter.noTimestamps = true)
    {before : Decoder F} (htokens : d.tokens = before.tokens)
    (hdelta : d.seekDelta = before.seekDelta)
    (hlen : d.resultLen = before.resultLen ∨ d.resultLen = i + 1) :
    Settled w i token before (d.complete w i) := by
  obtain ⟨h1, h2, h3, h4, h5⟩ := complete_settled (i := i) hresult
  refine ⟨h1.trans htokens, hdelta ▸ h2, ?_, ?_, fun _ => Or.inr h5⟩
  · rcases h3 with h3 | h3
    · rwa [h3]
    · exact Or.inr h3
  · intro hactive
    simp [hactive.1] at h4

theorem settle_settled (hd : d.Active) : Settled w i token d (d.settle w i token) := by
  rw [settle]
  split_ifs with hend hnone haudio htesting hloop
  · exact settled_of_complete (Or.inl (Nat.succ_pos i)) rfl rfl (Or.inr rfl)
  · exact ⟨rfl, Or.inl rfl, Or.inl rfl, fun h => by simp [Active] at h,
      fun h => by simp [hd.1] at h⟩
  · refine settled_of_complete ?_ rfl rfl (Or.inl rfl)
    rcases Nat.eq_zero_or_pos d.resultLen with hzero | hpos
    · exact Or.inr (by simpa using fun h => hnone ⟨hzero, h⟩)
    · exact Or.inl hpos
  · exact ⟨rfl, Or.inr rfl, Or.inl rfl, fun h => by simp [Active] at h, fun _ => Or.inl htesting⟩
  · exact ⟨rfl, Or.inl rfl, Or.inl rfl, fun h => by simp [Active] at h,
      fun h => by simp [hd.1] at h⟩
  · refine ⟨rfl, Or.inl rfl, Or.inl rfl, fun _ => ⟨rfl, ?_, ?_⟩, fun h => by simp [hd.1] at h⟩
    · intro heot
      exact hend (by simp [endOfSegment, heot])
    · intro hlast
      exact Nat.pos_of_ne_zero fun hzero => hloop ⟨hlast, Or.inl hzero⟩

/-! ### The invariant -/

/-- What holds of a decoder after `i` rounds. -/
structure Sound (w : WindowParams v F) (i : ℕ) (d : Decoder F) : Prop where
  allowed : Stepwise (Allowed w.filter) d.ids
  tid_eq : ∀ token ∈ d.tokens, v.tokenBeg ≤ token.id → token.tid = token.id
  length_le : d.tokens.length ≤ i
  resultLen_le : d.resultLen ≤ d.tokens.length
  seekDelta_pos : 2 ≤ d.seekDelta
  seekDelta_le : d.seekDelta ≤ 100 * chunkSize
  within : ∀ id ∈ d.ids, 2 * (id - v.tokenBeg) ≤ d.seekDelta
  completed : d.completed → w.testing = true ∨ 0 < d.resultLen
  active : d.Active → d.tokens.length = i ∧ d.Tracked v ∧ v.tokenEot ∉ d.ids ∧
    (0 < i → i = w.nMax → 0 < d.resultLen)

variable [Scalar F]

@[simp] theorem ids_push : (d.push token).ids = d.ids ++ [token.id] := by
  simp [ids, push]

theorem sound_init (grammar : Grammar.GrammarState) :
    Sound w 0 (init grammar : Decoder F) where
  allowed := by simp [init, ids]
  tid_eq := by simp [init]
  length_le := le_rfl
  resultLen_le := le_rfl
  seekDelta_pos := by simp [init, chunkSize]
  seekDelta_le := le_rfl
  within := by simp [init, ids]
  completed := by simp [init]
  active := by simp [init, ids, Tracked, lastTimestamp]

/-- After the move of the window it is again that of the last timestamp. -/
theorem Tracked.observe (htracked : d.Tracked v) (hlength : d.tokens.length = i) :
    ((d.push token).observe v i token).Tracked v := by
  have hids : d.ids.length = i := by rw [ids, List.length_map, hlength]
  rw [Decoder.observe]
  split_ifs with hbeg
  · have hlast : lastTimestamp v (d.ids ++ [token.id]) = some (token.id, i) := by
      rw [lastTimestamp_concat, if_pos hbeg, hids]
    have hpushed : ({ d.push token with
        seekDelta := 2 * (token.id - v.tokenBeg), resultLen := i + 1, hasTs := true } :
          Decoder F).ids = d.ids ++ [token.id] := ids_push
    rw [Tracked, hpushed, hlast]
    exact ⟨rfl, rfl, rfl⟩
  · rw [Tracked, ids_push, lastTimestamp_concat, if_neg hbeg]
    exact htracked

omit [Scalar F] in
theorem observe_tokens : (d.observe v i token).tokens = d.tokens := by
  rw [observe]
  split_ifs <;> rfl

omit [Scalar F] in
theorem observe_active (hd : d.Active) : (d.observe v i token).Active := by
  rw [observe]
  split_ifs <;> exact hd

variable {network : List ℕ → Logits v F} {how : Sampling} {d' : Decoder F}

/-- A token that a decoder may sample is allowed after its tokens. -/
theorem Sound.choice (hd : Sound w i d) (hactive : d.Active)
    (hchoice : Choice w (network d.ids) how d token) :
    Allowed w.filter d.ids token.id ∧ (v.tokenBeg ≤ token.id → token.tid = token.id) := by
  obtain ⟨-, htracked, hunfinished, -⟩ := hd.active hactive
  obtain ⟨out, hout, hsampled⟩ := hchoice
  obtain ⟨hlt, htid, hkept | ⟨-, hzero⟩⟩ := kept_of_sampled hout hsampled
  · exact ⟨htracked.allowed hd.allowed hunfinished hlt hkept, htid⟩
  · exact ⟨hzero ▸ allowed_zero hunfinished, htid⟩

/-- The step of the invariant: a token and the update after it. -/
theorem Sound.update (hd : Sound w i d) (hactive : d.Active)
    (hchoice : Choice w (network d.ids) how d token)
    (hupdate : (d.push token).update w i = some d') :
    Sound w (i + 1) d' := by
  obtain ⟨hallowed, htid⟩ := hd.choice hactive hchoice
  obtain ⟨hlength, htracked, hunfinished, -⟩ := hd.active hactive
  have hback : (d.push token).goesBack v i token = false := htracked.not_goesBack hallowed
  have hlast : (d.push token).tokens.getLast? = some token := List.getLast?_concat
  rw [Decoder.update, hlast] at hupdate
  simp only [Option.bind_some, Option.bind_eq_bind, hback, Bool.false_eq_true, if_false]
    at hupdate
  obtain ⟨grammar, -, hupdate⟩ := Option.bind_eq_some_iff.mp hupdate
  obtain rfl := Option.some_inj.mp hupdate
  -- the decoder between the move of the window and the end of the update
  set moved : Decoder F := { (d.push token).observe v i token with grammar := grammar }
    with hmoved
  have htokens : moved.tokens = d.tokens ++ [token] := observe_tokens
  have hids : moved.ids = d.ids ++ [token.id] := by rw [ids, htokens, List.map_append]; rfl
  have hsteps : Stepwise (Allowed w.filter) moved.ids :=
    hids ▸ Stepwise.concat_iff.mpr ⟨hd.allowed, hallowed⟩
  have hmovedTracked : moved.Tracked v := htracked.observe hlength
  obtain ⟨hpos, hle, hlen, hwithin⟩ := hmovedTracked.bounds hsteps
  have hsettled : Settled w i token moved (moved.settle w i token) :=
    settle_settled (observe_active hactive)
  have hids' : (moved.settle w i token).ids = moved.ids := by
    rw [ids, ids, hsettled.tokens_eq]
  have htotal : moved.tokens.length = i + 1 := by simp [htokens, hlength]
  refine ⟨hids' ▸ hsteps, ?_, by rw [hsettled.tokens_eq, htotal], ?_, ?_, ?_, ?_,
    hsettled.completed, ?_⟩
  · intro tok htok hbeg
    rw [hsettled.tokens_eq, htokens, List.mem_append, List.mem_singleton] at htok
    rcases htok with htok | rfl
    · exact hd.tid_eq tok htok hbeg
    · exact htid hbeg
  · rcases hsettled.resultLen_eq with heq | heq <;> rw [heq, hsettled.tokens_eq]
    · exact hlen
    · exact htotal.ge
  · rcases hsettled.seekDelta_eq with heq | heq <;> rw [heq]
    · exact hpos
    · simp [chunkSize]
  · rcases hsettled.seekDelta_eq with heq | heq <;> rw [heq]
    exact hle
  · intro id hid
    have hold := hwithin id (hids' ▸ hid)
    rcases hsettled.seekDelta_eq with heq | heq <;> rw [heq]
    · exact hold
    · exact hold.trans hle
  · intro hgoes
    obtain ⟨heq, heot, hresult⟩ := hsettled.active hgoes
    rw [heq, hids, List.mem_append, List.mem_singleton, not_or]
    exact ⟨htotal, hmovedTracked, ⟨hunfinished, Ne.symm heot⟩, fun _ => hresult⟩

omit [Scalar F] in
theorem Sound.ended (hd : Sound w i d) (hended : ¬ d.Active) : Sound w (i + 1) d :=
  { hd with
    length_le := hd.length_le.trans (Nat.le_succ i)
    active := fun hactive => absurd hactive hended }

end Decoder

variable [Scalar F] {w : WindowParams v F} {network : List ℕ → Logits v F}
  {grammar : Grammar.GrammarState} {n i : ℕ} {ds : List (Decoder F)}

/-- The invariant holds of every decoder after any number of rounds. -/
theorem Rounds.sound (h : Rounds w network grammar n i ds) : ∀ d ∈ ds, d.Sound w i := by
  induction h with
  | start =>
    intro d hd
    rw [List.eq_of_mem_replicate hd]
    exact Decoder.sound_init grammar
  | next _ _ _ hround ih =>
    intro d' hd'
    obtain ⟨j, hj⟩ := List.mem_iff_getElem?.mp hd'
    rcases round_decoder hround hj with ⟨hd, hended⟩ |
      ⟨s, hs, hactive, how, token, hchoice, hupdate⟩
    · exact (ih d' hd).ended hended
    · exact (ih s hs).update hactive hchoice hupdate

/-! ### The timestamp rule -/

theorem lastWasTimestamp_concat (past : List ℕ) (b : ℕ) :
    lastWasTimestamp v (past ++ [b]) = decide (v.tokenBeg ≤ b) := by
  simp [lastWasTimestamp]

theorem penultimateWasTimestamp_singleton (b : ℕ) : penultimateWasTimestamp v [b] = true := by
  simp [penultimateWasTimestamp]

theorem penultimateWasTimestamp_concat (past : List ℕ) (a b : ℕ) :
    penultimateWasTimestamp v (past ++ [a] ++ [b]) = decide (v.tokenBeg ≤ a) := by
  simp [penultimateWasTimestamp]

/-- Every token was sampled from the logits after the tokens before it. -/
theorem Rounds.chosen (h : Rounds w network grammar n i ds) : ∀ d ∈ ds,
    Stepwise (fun past id => ∃ how s token, s.ids = past ∧ token.id = id ∧
      Choice w (network past) how s token) d.ids := by
  induction h with
  | start =>
    intro d hd
    simp [List.eq_of_mem_replicate hd, Decoder.init, Decoder.ids]
  | next _ _ _ hround ih =>
    intro d' hd'
    obtain ⟨j, hj⟩ := List.mem_iff_getElem?.mp hd'
    rcases round_decoder hround hj with ⟨hd, -⟩ | ⟨s, hs, -, how, token, hchoice, hupdate⟩
    · exact ih d' hd
    · have hids : d'.ids = s.ids ++ [token.id] := by
        rw [Decoder.ids, update_tokens hupdate]
        exact Decoder.ids_push
      rw [hids]
      exact Stepwise.concat_iff.mpr ⟨ih s hs, how, s, token, rfl, rfl, hchoice⟩

/-- The filters leave no token with a probability after some tokens. -/
def NothingLeft (w : WindowParams v F) (network : List ℕ → Logits v F) (past : List ℕ) : Prop :=
  ∃ d out, d.ids = past ∧
    processLogits w.depth w.filter d w.temperature (network past) = some out ∧
    ∀ i, computeProbs out.1 out.2 i ≤ 0

/-- A token keeps the pairs of timestamps, or it is token 0 because nothing was left. -/
theorem not_breaksPair_or_nothingLeft (h : Rounds w network grammar n i ds) {d : Decoder F}
    (hd : d ∈ ds) : Stepwise (fun past id =>
      breaksPair v past id = false ∨ (id = 0 ∧ NothingLeft w network past)) d.ids := by
  refine (h.chosen d hd).mono ?_
  intro past id ⟨how, s, token, hids, hid, out, hout, hsampled⟩
  obtain ⟨-, -, hkept | ⟨hnone, hzero⟩⟩ := kept_of_sampled hout hsampled
  · left
    rw [← hids, ← hid]
    exact hkept.not_breaksPair
  · exact .inr ⟨hid ▸ hzero, s, out, hids, hout, hnone⟩

/-- Timestamps never decrease, the window of a decoder that goes on is that of its last
timestamp, and no token that it may sample goes back: the failure for that is dead code. -/
theorem timestamps_increase (h : Rounds w network grammar n i ds) {d : Decoder F} (hd : d ∈ ds) :
    (d.ids.filter (v.tokenBeg ≤ ·)).Pairwise (· ≤ ·) ∧
      (d.Active → d.Tracked v ∧ ∀ how token, Choice w (network d.ids) how d token →
        (d.push token).goesBack v i token = false) := by
  have hsound := h.sound d hd
  constructor
  · rw [List.pairwise_filter]
    refine (hsound.allowed.pairwise fun past a ha b hb =>
      (show v.tokenBeg ≤ a → b ≤ a from fun hbeg => ha.not_before hbeg b hb)).imp ?_
    intro a b hab _ hb
    exact hab (by simpa using hb)
  · intro hactive
    obtain ⟨-, htracked, -, -⟩ := hsound.active hactive
    refine ⟨htracked, fun how token hchoice => ?_⟩
    exact htracked.not_goesBack (d := d) (hsound.choice hactive hchoice).1

theorem timestamps_increase_spoken : (spokenDecoder 7).Tracked english :=
  ((timestamps_increase (spoken_rounds 7 (by decide)) (List.mem_singleton_self _)).2
    ⟨rfl, rfl⟩).1

/-- Without a callback the tokens are texts, timestamps, the end of text as the last one, and
turns of speakers if they are enabled, where the vocabulary has no more languages than
`g_lang`. -/
theorem special_tokens (h : Rounds w network grammar n i ds) {d : Decoder F} (hd : d ∈ ds)
    (hcallback : w.filter.logitsFilterCallback = none) (hlang : v.nVocab ≤ 51866)
    {past rest : List ℕ} {id : ℕ} (hids : d.ids = past ++ id :: rest) :
    id < v.tokenEot ∨ (id = v.tokenEot ∧ rest = []) ∨
      (id = v.tokenSolm ∧ w.filter.tdrzEnable = true) ∨
      (v.tokenBeg ≤ id ∧ w.filter.noTimestamps = false) := by
  have hsteps := hids ▸ (h.sound d hd).allowed
  have hid := hsteps.of_middle
  rcases lt_or_ge id v.tokenEot with hlt | hge
  · exact Or.inl hlt
  rcases le_or_gt v.tokenBeg id with hbeg | hbeg
  · refine Or.inr (Or.inr (Or.inr ⟨hbeg, ?_⟩))
    by_contra hnone
    have := hid.not_timestamp hcallback (by simpa using hnone)
    omega
  rcases Vocab.special_cases hge hbeg with rfl | hspecial
  · refine Or.inr (Or.inl ⟨rfl, ?_⟩)
    cases rest with
    | nil => rfl
    | cons next rest =>
      have hnext : Stepwise (Allowed w.filter) ((past ++ [v.tokenEot]) ++ next :: rest) := by
        simpa using hsteps
      exact absurd (by simp) hnext.of_middle.unfinished
  · have hgap := Vocab.tokenTranslate_le hlang
    rcases hspecial with hsolm | hcontrol | hbetween
    · exact Or.inr (Or.inr (Or.inl ⟨hsolm, hid.not_solm hcallback hsolm⟩))
    · exact absurd hcontrol (hid.not_control hcallback)
    · omega

theorem special_tokens_spoken :
    50256 < english.tokenEot ∨ (50256 = english.tokenEot ∧ ([] : List ℕ) = []) ∨
      (50256 = english.tokenSolm ∧ (spokenWindow 0).filter.tdrzEnable = true) ∨
      (english.tokenBeg ≤ 50256 ∧ (spokenWindow 0).filter.noTimestamps = false) :=
  special_tokens (spoken_rounds 8 le_rfl) (List.mem_singleton_self _) rfl (by decide)
    (show (spokenDecoder 8).ids = [50363, 0, 50413, 50413, 0, 50463, 50463] ++ [50256] from rfl)

/-- Without a callback and a regular expression the filters and the timestamp rule always
leave a token to sample: the end of text, or at the beginning the timestamp 0.00. -/
theorem exists_token_left (h : Rounds w network grammar n i ds) {d : Decoder F} (hd : d ∈ ds)
    (hactive : d.Active) (hcallback : w.filter.logitsFilterCallback = none)
    (hregex : w.filter.suppressRegex = none)
    (htexts : ∀ id, v.tokenEot ≤ id → v.idToToken id ∉ [0x20] :: suppressedTexts)
    (hfirst : d.tokens = [] → w.filter.suppressBlank → w.filter.noTimestamps = false)
    (hraw : ∀ id, network d.ids id ≠ ⊥) {out : Logits v F × Logits v F}
    (hout : processLogits w.depth w.filter d w.temperature (network d.ids) = some out) :
    ∃ id, out.1 id ≠ ⊥ ∧ out.2 id ≠ ⊥ := by
  obtain ⟨scaled, filtered, hfiltered, hscaled, -, hleft⟩ := exists_filtered_of_processLogits hout
  obtain ⟨-, htracked, -, -⟩ := (h.sound d hd).active hactive
  have hbeg := v.tokenBeg_lt
  have heot := v.tokenEot_lt_tokenBeg
  -- a token from the end of text on is left where the settings and the past allow it
  have hkeep (id : ℕ) (hid : id < v.nVocab) (hge : v.tokenEot ≤ id)
      (hinitial : w.filter.suppressBlank → d.tokens = [] → id ≠ v.tokenEot)
      (hkept : Kept w.filter d id) : filtered ⟨id, hid⟩ ≠ ⊥ := by
    refine filterLogits_ne_bot hfiltered hcallback hregex ?_ hinitial hkept ((hscaled _).mpr
      (hraw _))
    intro text htext htoken
    exact htexts id hge ((Vocab.tokenToId_lt htoken).2 ▸ htext)
  apply hleft
  by_cases hfresh : d.tokens = [] ∧ w.filter.noTimestamps = false
  · obtain ⟨hnil, hnone⟩ := hfresh
    have hids : d.ids = [] := by simp [Decoder.ids, hnil]
    rw [Decoder.Tracked, hids] at htracked
    refine ⟨⟨v.tokenBeg, hbeg⟩, hkeep _ hbeg heot.le (fun _ _ => heot.ne') ?_⟩
    refine ⟨by simp [breaksPair, hids, lastWasTimestamp], ?_, fun _ tid0 _ => by omega, ?_, ?_, ?_⟩
    · simp [htracked.1]
    · exact fun _ hcontrol => absurd hcontrol.bounds.2 (lt_irrefl _)
    · exact fun _ hsolm => absurd hsolm v.tokenSolm_lt_tokenBeg.ne'
    · simp [hnone]
  · refine ⟨⟨v.tokenEot, heot.trans hbeg⟩, hkeep _ (heot.trans hbeg) le_rfl ?_ ?_⟩
    · intro hblank hnil
      exact absurd ⟨hnil, hfirst hnil hblank⟩ hfresh
    · refine ⟨?_, fun _ hge => absurd hge (not_le.mpr heot), fun _ tid0 _ => by omega, ?_, ?_,
        fun _ _ => heot⟩
      · simp [breaksPair, not_le.mpr heot]
      · exact fun _ hcontrol => absurd hcontrol.bounds.1 (lt_irrefl _)
      · exact fun _ hsolm => absurd hsolm v.tokenEot_lt_tokenSolm.ne

theorem empty_not_mem_nonSpeechTokens : "" ∉ nonSpeechTokens := by
  simp [nonSpeechTokens]

theorem nil_not_mem_suppressedTexts : [] ∉ suppressedTexts := by
  intro hmem
  obtain ⟨text, htext, hbytes⟩ := List.mem_map.mp hmem
  have hempty : text = "" := by
    rw [← String.toByteArray_inj]
    exact ByteArray.ext (Array.toList_eq_nil_iff.mp hbytes)
  subst hempty
  rcases List.mem_append.mp htext with hspeech | hquote
  · obtain ⟨token, htoken, hpair⟩ := List.mem_flatMap.mp hspeech
    have hnil : token = "" := by simpa using hpair
    exact empty_not_mem_nonSpeechTokens (hnil ▸ htoken)
  · simp at hquote

theorem texts_english (id : ℕ) (hid : english.tokenEot ≤ id) :
    english.idToToken id ∉ [0x20] :: suppressedTexts := by
  have hnil : english.idToToken id = [] :=
    if_neg (Nat.ne_of_gt (Nat.lt_of_lt_of_le (by decide) hid))
  rw [hnil]
  simp [nil_not_mem_suppressedTexts]

/-- A network that is sure of three tokens and of nothing afterwards. -/
def unsureNetwork (ids : List ℕ) : Logits english ℤ :=
  if ids.length < 3 then spokenNetwork ids else fun _ => ((0 : ℤ) : WithBot ℤ)

theorem exists_token_left_english :
    ∃ out, processLogits 0 (plainFilter english) (spokenDecoder 3) (0 : ℤ)
        (unsureNetwork [50363, 0, 50413]) = some out ∧ ∃ id, out.1 id ≠ ⊥ ∧ out.2 id ≠ ⊥ := by
  obtain ⟨out, hout⟩ : ∃ out, processLogits 0 (plainFilter english) (spokenDecoder 3) (0 : ℤ)
      (unsureNetwork [50363, 0, 50413]) = some out := exists_processLogits rfl rfl
  have hrounds : Rounds (spokenWindow 0) unsureNetwork ⟨[], [], ⟨0, 0⟩⟩ 1 3 [spokenDecoder 3] := by
    refine spoken_rounds_of 0 3 (by decide) (.inl rfl) fun j hj => ?_
    interval_cases j <;> rfl
  exact ⟨out, hout, exists_token_left hrounds (List.mem_singleton_self _) ⟨rfl, rfl⟩ rfl rfl
    texts_english (fun _ _ => rfl) (fun _ => WithBot.coe_ne_bot) hout⟩

end WhisperAndroid.Decode
