import WhisperAndroid.Decode.CachedNetwork
import WhisperAndroid.Decode.Timestamps

/-!
# The search through the cache

The loop of a window with its cache: the prompt is evaluated once and shared by all
decoders, a beam search copies the caches along, and every round evaluates the last token
of each decoder that goes on. Against this stands the plain search, in which the network
evaluates the prompt and all tokens of a decoder anew.

## Main results

* `Coherent.round` — the cells of a decoder stay those of its own tokens
* `CachedRounds.coherent` — the search through the cache is the plain search
-/

namespace WhisperAndroid.Decode

open SharedStore Grammar

variable {κ L F : Type}

/-! ### Plain evaluation -/

namespace Network

variable (net : Network L κ)

/-- The values of some tokens, each evaluated with all before it. -/
def values (ids : List ℕ) : List κ :=
  ids.foldl (fun before id => before ++ [net.embed id before.length before]) []

/-- The value of the last token. -/
def lastValue (ids : List ℕ) : κ := (net.values ids).getLast?.getD net.zero

/-- The logits after some tokens. -/
def logits (ids : List ℕ) : L := net.readout (net.lastValue ids)

/-- The positions and values of some tokens. -/
def history (ids : List ℕ) : Multiset (ℤ × κ) :=
  ↑((net.values ids).zipIdx.map fun x => ((x.2 : ℤ), x.1))

variable {net}

theorem values_concat (ids : List ℕ) (id : ℕ) :
    net.values (ids ++ [id]) =
      net.values ids ++ [net.embed id (net.values ids).length (net.values ids)] := by
  simp [values]

@[simp] theorem length_values (ids : List ℕ) : (net.values ids).length = ids.length := by
  induction ids using List.reverseRecOn with
  | nil => rfl
  | append_singleton ids id ih => simp [values_concat, ih]

theorem lastValue_concat (ids : List ℕ) (id : ℕ) :
    net.lastValue (ids ++ [id]) = net.embed id ids.length (net.values ids) := by
  simp [lastValue, values_concat]

@[simp] theorem history_nil : net.history [] = 0 := rfl

theorem history_concat (ids : List ℕ) (id : ℕ) :
    net.history (ids ++ [id]) =
      ((ids.length : ℤ), net.lastValue (ids ++ [id])) ::ₘ net.history ids := by
  rw [lastValue_concat, history, values_concat, List.zipIdx_append, List.map_append,
    ← Multiset.coe_add, add_comm]
  simp [history]

/-- A token after a history gets the value of plain evaluation. -/
theorem evalToken_history (hexact : net.OrderFree) {held : Sequences κ} {ids : List ℕ} {b : BatchToken}
    (hheld : held b.seqId = net.history ids) (hpos : b.pos = ids.length) :
    evalToken net held b = net.lastValue (ids ++ [b.token]) := by
  have hall : (net.history ids).filter (fun e => e.1 ≤ (b.pos : ℤ)) = net.history ids := by
    rw [Multiset.filter_eq_self]
    intro e he
    obtain ⟨x, hx, rfl⟩ := List.mem_map.mp (Multiset.mem_coe.mp he)
    have hlt := (List.getElem?_eq_some_iff.mp (List.mem_zipIdx_iff_getElem?.mp hx)).1
    rw [length_values] at hlt
    simp only [Nat.cast_le]
    omega
  have hvalues : (net.history ids).map Prod.snd = (net.values ids : Multiset κ) := by
    rw [history, Multiset.map_coe, List.map_map]
    exact congrArg _ (List.zipIdx_map_fst _ _)
  rw [evalToken, hheld, hall, hvalues, ← hexact.embed_eq, lastValue_concat, hpos]

end Network

/-! ### Batches -/

/-- `whisper_batch_prep_legacy` for the prompt, in the sequence of the first decoder -/
def promptBatch (prompt : List ℕ) : List BatchToken :=
  prompt.zipIdx.map fun x => ⟨x.1, x.2, 0⟩

/-- The last tokens of the decoders that go on, at the same position. -/
def decoderBatch (nPast : ℕ) (ds : List (Decoder F)) : List BatchToken :=
  ds.zipIdx.filterMap fun x =>
    if x.1.Active then x.1.tokens.getLast?.map fun token => ⟨token.id, nPast, x.2⟩ else none

section Batches

variable {net : Network L κ} {held : Sequences κ}

/-- Tokens after a history in one sequence. -/
theorem evalBatch_sequence (hexact : net.OrderFree) {ids rest : List ℕ} {s : ℤ}
    (hheld : held s = net.history ids) :
    (evalBatch net ((rest.zipIdx ids.length).map fun x => ⟨x.1, x.2, s⟩) held).1 =
        Function.update held s (net.history (ids ++ rest)) ∧
      (evalBatch net ((rest.zipIdx ids.length).map fun x => ⟨x.1, x.2, s⟩) held).2.getLast? =
        if rest = [] then none else some (net.lastValue (ids ++ rest)) := by
  induction rest generalizing ids held with
  | nil =>
    rw [List.append_nil, ← hheld, Function.update_eq_self]
    exact ⟨rfl, rfl⟩
  | cons id rest ih =>
    have hvalue : evalToken net held ⟨id, ids.length, s⟩ = net.lastValue (ids ++ [id]) :=
      Network.evalToken_history hexact hheld rfl
    have hnext : Function.update held s ((↑ids.length, net.lastValue (ids ++ [id])) ::ₘ held s) s =
        net.history (ids ++ [id]) := by
      rw [Function.update_self, hheld, Network.history_concat]
    obtain ⟨hview, hlast⟩ := ih hnext
    rw [List.length_append, List.length_singleton] at hview hlast
    rw [List.append_assoc, List.singleton_append] at hview hlast
    simp only [List.zipIdx_cons, List.map_cons, evalBatch, hvalue]
    refine ⟨by rw [hview, Function.update_idem], ?_⟩
    rw [List.getLast?_cons, hlast]
    cases rest with
    | nil => simp
    | cons id' rest => simp

/-- Tokens in sequences of their own, each after its history. -/
theorem evalBatch_sequences (hexact : net.OrderFree) {batch : List BatchToken}
    {hist : ℤ → List ℕ}
    (hnodup : (batch.map (·.seqId)).Nodup)
    (hheld : ∀ b ∈ batch, held b.seqId = net.history (hist b.seqId) ∧
      b.pos = (hist b.seqId).length) :
    (∀ b ∈ batch, (evalBatch net batch held).1 b.seqId =
        net.history (hist b.seqId ++ [b.token])) ∧
      (∀ s, (∀ b ∈ batch, b.seqId ≠ s) → (evalBatch net batch held).1 s = held s) ∧
      (evalBatch net batch held).2 =
        batch.map fun b => net.lastValue (hist b.seqId ++ [b.token]) := by
  induction batch generalizing held with
  | nil => exact ⟨by simp, fun _ _ => rfl, rfl⟩
  | cons b batch ih =>
    obtain ⟨hfresh, hnodup⟩ := List.nodup_cons.mp hnodup
    obtain ⟨⟨hfirst, hpos⟩, hrest⟩ := List.forall_mem_cons.mp hheld
    have hne : ∀ b' ∈ batch, b'.seqId ≠ b.seqId := fun b' hb' heq =>
      hfresh (List.mem_map.mpr ⟨b', hb', heq⟩)
    have hvalue := Network.evalToken_history hexact hfirst hpos
    have hrest' : ∀ b' ∈ batch, Function.update held b.seqId
        ((↑b.pos, evalToken net held b) ::ₘ held b.seqId) b'.seqId =
          net.history (hist b'.seqId) ∧ b'.pos = (hist b'.seqId).length := by
      intro b' hb'
      rw [Function.update_of_ne (hne b' hb')]
      exact hrest b' hb'
    obtain ⟨hown, hother, hvalues⟩ := ih hnodup hrest'
    simp only [evalBatch]
    refine ⟨List.forall_mem_cons.mpr ⟨?_, hown⟩, fun s hs => ?_, ?_⟩
    · rw [hother b.seqId hne, Function.update_self, hfirst, hvalue, hpos,
        Network.history_concat]
    · obtain ⟨hsb, hs⟩ := List.forall_mem_cons.mp hs
      rw [hother s hs, Function.update_of_ne hsb.symm]
    · rw [hvalues, hvalue, List.map_cons]

end Batches

/-! ### The search -/

/-- The decoders, the cache and the logits for each decoder. -/
structure CachedState (v : Vocab) (F κ : Type) where
  decoders : List (Decoder F)
  cache : KvCache κ
  raw : ℕ → Logits v F

/-- The copies of caches that a sampling phase leads to. -/
def beamMoves (sampled : List (Decoder F × Option ℕ)) : List (ℤ × ℤ) :=
  sampled.zipIdx.filterMap fun x => x.1.2.map fun k : ℕ => ((x.2 : ℤ), (k : ℤ))

section Search

variable {v : Vocab} (net : Network (Logits v F) κ) (pad : ℕ) (prompt : List ℕ)

/-- The logits of a batch go to the decoders of its sequences. -/
def batchLogits (batch : List BatchToken) (values : List κ) (raw : ℕ → Logits v F) (j : ℕ) :
    Logits v F :=
  match (batch.findIdx? fun b => b.seqId = (j : ℤ)).bind (values[·]?) with
  | some value => net.readout value
  | none => raw j

/-- The prompt is evaluated in a cleared cache, and its cells are shared by all decoders. -/
def startCache (nDecoders : ℕ) (cache : KvCache κ) : Option (KvCache κ × Logits v F) := do
  let (cache, values) ← decodeInternal net pad (cache.clear net.zero) (promptBatch prompt)
  let value ← values.getLast?
  let shared := (List.range (nDecoders - 1)).foldl
    (fun cache (j : ℕ) => cache.seqCp 0 (j + 1) (-1) (-1)) cache
  some (shared, net.readout value)

variable [Scalar F] (w : WindowParams v F)

/-- A round with the cache: after the update the decoders that go on, if any, are evaluated. -/
def CachedRound (i : ℕ) (s s' : CachedState v F κ) : Prop :=
  ∃ sampled, Sample w (fun j _ => s.raw j) i s.decoders sampled ∧
    updateAll w i (sampled.map (·.1)) = some s'.decoders ∧
    let cache := s.cache.copyBeams (beamMoves sampled)
    let batch := decoderBatch (prompt.length + i) s'.decoders
    if ∃ d ∈ s'.decoders, d.Active then
      ∃ values, decodeInternal net pad cache batch = some (s'.cache, values) ∧
        s'.raw = batchLogits net batch values s.raw
    else s'.cache = cache ∧ s'.raw = s.raw

/-- The states after `i` rounds of a window. -/
inductive CachedRounds (grammar : GrammarState) (nDecoders : ℕ) (cache : KvCache κ) :
    ℕ → CachedState v F κ → Prop
  | start {cache' : KvCache κ} {logits : Logits v F} :
      startCache net pad prompt nDecoders cache = some (cache', logits) →
      CachedRounds grammar nDecoders cache 0
        ⟨List.replicate nDecoders (Decoder.init grammar), cache', fun _ => logits⟩
  | next {i : ℕ} {s s' : CachedState v F κ} :
      CachedRounds grammar nDecoders cache i s → i < w.nMax → (∃ d ∈ s.decoders, d.Active) →
      CachedRound net pad prompt w i s s' → CachedRounds grammar nDecoders cache (i + 1) s'

end Search

/-! ### Coherence -/

/-- The cells and the logits of the decoders that go on are those of their own tokens, and
nothing is put aside. -/
structure Coherent {v : Vocab} (net : Network (Logits v F) κ) (prompt : List ℕ)
    (s : CachedState v F κ) : Prop where
  bounded : s.cache.Bounded
  aside : ∀ j : ℤ, maxDecoders ≤ j → s.cache.held j = 0
  held : ∀ (j : ℕ) (d : Decoder F), s.decoders[j]? = some d → d.Active →
    s.cache.held j = net.history (prompt ++ d.ids)
  raw : ∀ (j : ℕ) (d : Decoder F), s.decoders[j]? = some d → d.Active →
    s.raw j = net.logits (prompt ++ d.ids)

section Moves

variable {sampled : List (Decoder F × Option ℕ)} {ds : List (Decoder F)} {nPast : ℕ}

theorem mem_beamMoves {m : ℤ × ℤ} :
    m ∈ beamMoves sampled ↔ ∃ (j : ℕ) (d : Decoder F) (k : ℕ),
      sampled[j]? = some (d, some k) ∧ m = ((j : ℤ), (k : ℤ)) := by
  rw [beamMoves, List.mem_filterMap]
  constructor
  · intro ⟨⟨⟨d, source⟩, j⟩, hmem, hm⟩
    obtain ⟨k, rfl, rfl⟩ := Option.map_eq_some_iff.mp hm
    exact ⟨j, d, k, List.mem_zipIdx_iff_getElem?.mp hmem, rfl⟩
  · intro ⟨j, d, k, hj, hm⟩
    exact ⟨((d, some k), j), List.mem_zipIdx_iff_getElem?.mpr hj, by rw [hm]; rfl⟩

theorem mem_decoderBatch {b : BatchToken} :
    b ∈ decoderBatch nPast ds ↔ ∃ (j : ℕ) (d : Decoder F) (token : TokenData F),
      ds[j]? = some d ∧ d.Active ∧ d.tokens.getLast? = some token ∧ b = ⟨token.id, nPast, j⟩ := by
  rw [decoderBatch, List.mem_filterMap]
  constructor
  · intro ⟨⟨d, j⟩, hmem, hb⟩
    dsimp only at hb
    split_ifs at hb with hactive
    obtain ⟨token, htoken, rfl⟩ := Option.map_eq_some_iff.mp hb
    exact ⟨j, d, token, List.mem_zipIdx_iff_getElem?.mp hmem, hactive, htoken, rfl⟩
  · intro ⟨j, d, token, hj, hactive, htoken, hb⟩
    refine ⟨(d, j), List.mem_zipIdx_iff_getElem?.mpr hj, ?_⟩
    simp [hactive, htoken, hb]

/-- The entries of a list with their indices are in the order of these. -/
theorem pairwise_zipIdx {α : Type} (l : List α) : l.zipIdx.Pairwise fun x y => x.2 < y.2 := by
  have hrange : (l.zipIdx.map Prod.snd).Pairwise (· < ·) := by
    rw [List.zipIdx_map_snd]
    exact List.pairwise_lt_range'
  exact List.pairwise_map.mp hrange

theorem nodup_beamMoves : ((beamMoves sampled).map Prod.fst).Nodup := by
  rw [List.nodup_iff_pairwise_ne, List.pairwise_map, beamMoves, List.pairwise_filterMap]
  refine (pairwise_zipIdx sampled).imp fun {x y} hlt m hm m' hm' heq => ?_
  obtain ⟨k, -, rfl⟩ := Option.map_eq_some_iff.mp hm
  obtain ⟨k', -, rfl⟩ := Option.map_eq_some_iff.mp hm'
  exact hlt.ne (by simpa using heq)

theorem nodup_decoderBatch : ((decoderBatch nPast ds).map (·.seqId)).Nodup := by
  rw [List.nodup_iff_pairwise_ne, List.pairwise_map, decoderBatch, List.pairwise_filterMap]
  refine (pairwise_zipIdx ds).imp fun {x y} hlt b hb b' hb' heq => ?_
  split_ifs at hb hb'
  obtain ⟨_, -, rfl⟩ := Option.map_eq_some_iff.mp hb
  obtain ⟨_, -, rfl⟩ := Option.map_eq_some_iff.mp hb'
  exact hlt.ne (by simpa using heq)

theorem ordered_decoderBatch : Ordered (decoderBatch nPast ds) := by
  have hnodup : (decoderBatch nPast ds).Pairwise fun a b => a.seqId ≠ b.seqId :=
    List.pairwise_map.mp nodup_decoderBatch
  exact hnodup.imp fun hne heq => absurd heq hne

end Moves

section Coherence

variable {v : Vocab} {net : Network (Logits v F) κ} {pad nDecoders : ℕ} {prompt : List ℕ}
  {grammar : GrammarState}

/-- Sharing the cells of the first sequence with those after it, which have none. -/
theorem held_share {cache : KvCache κ} (hbounded : cache.Bounded)
    (hempty : ∀ s : ℤ, s ≠ 0 → cache.held s = 0) (m : ℕ) :
    let shared := (List.range m).foldl
      (fun cache (j : ℕ) => cache.seqCp 0 (j + 1) (-1) (-1)) cache
    shared.Bounded ∧
      ∀ s : ℤ, shared.held s = if 0 ≤ s ∧ s ≤ m then cache.held 0 else 0 := by
  induction m with
  | zero =>
    refine ⟨hbounded, fun s => ?_⟩
    split_ifs with hs
    · have hzero : s = 0 := by push_cast at hs; omega
      rw [hzero]
      rfl
    · exact hempty s fun hzero => hs (by simp [hzero])
  | succ m ih =>
    obtain ⟨hboundedShared, hheld⟩ := ih
    simp only [List.range_succ, List.foldl_append, List.foldl_cons, List.foldl_nil]
    have hnew := hheld ((m : ℤ) + 1)
    rw [if_neg (by omega)] at hnew
    refine ⟨hboundedShared.seqCp, fun s => ?_⟩
    rw [KvCache.held_seqCp hboundedShared hnew]
    by_cases hs : s = (m : ℤ) + 1
    · subst hs
      rw [Function.update_self, hheld, if_pos (by omega), if_pos (by push_cast; omega)]
    · rw [Function.update_of_ne hs, hheld]
      push_cast
      split_ifs <;> first | rfl | omega

theorem coherent_start {cache cache' : KvCache κ} {logits : Logits v F} [Scalar F]
    (hexact : net.OrderFree) (hpad : 0 < pad) (hmax : nDecoders ≤ maxDecoders)
    (hfits : (prompt.length : ℤ) ≤ maxPos)
    (h : startCache net pad prompt nDecoders cache = some (cache', logits)) :
    Coherent net prompt
      ⟨List.replicate nDecoders (Decoder.init grammar), cache', fun _ => logits⟩ := by
  obtain ⟨⟨evaluated, values⟩, hdecode, h⟩ := Option.bind_eq_some_iff.mp h
  obtain ⟨value, hlast, h⟩ := Option.bind_eq_some_iff.mp h
  obtain ⟨rfl, rfl⟩ := Prod.mk.inj (Option.some_inj.mp h)
  have hordered : Ordered (promptBatch prompt) := by
    rw [Ordered, promptBatch, List.pairwise_map]
    refine (pairwise_zipIdx prompt).imp fun {x y} hlt => ?_
    exact fun _ => hlt
  have hpositions : ∀ b ∈ promptBatch prompt, (b.pos : ℤ) < maxPos := by
    intro b hb
    obtain ⟨⟨id, k⟩, hmem, rfl⟩ := List.mem_map.mp hb
    have hlt := (List.getElem?_eq_some_iff.mp (List.mem_zipIdx_iff_getElem?.mp hmem)).1
    dsimp only at hlt ⊢
    omega
  obtain ⟨hview, hvalues, hbounded⟩ := decodeInternal_refines hexact hpad hordered hdecode
  have hclear : (cache.clear net.zero).held = fun _ => 0 :=
    funext fun s => KvCache.held_clear net.zero s
  have hnone : (cache.clear net.zero).held 0 = net.history [] := congrFun hclear 0
  have hbatch : ((prompt.zipIdx ([] : List ℕ).length).map fun x => ⟨x.1, x.2, 0⟩) =
      promptBatch prompt := rfl
  obtain ⟨hprompt, hlogits⟩ := evalBatch_sequence hexact hnone
  rw [hbatch, ← hview, List.nil_append] at hprompt
  rw [hbatch, ← hvalues, hlast, List.nil_append] at hlogits
  have hvalue : value = net.lastValue prompt := by
    split_ifs at hlogits
    exact Option.some_inj.mp hlogits
  have hzero : ∀ s : ℤ, s ≠ 0 → evaluated.held s = 0 := fun s hs => by
    rw [hprompt, Function.update_of_ne hs, hclear]
  have hfirst : evaluated.held 0 = net.history prompt := by rw [hprompt, Function.update_self]
  obtain ⟨hboundedShared, hheld⟩ :=
    held_share (hbounded (KvCache.bounded_clear _) hpositions) hzero (nDecoders - 1)
  have hids (j : ℕ) (d : Decoder F)
      (hd : (List.replicate nDecoders (Decoder.init grammar))[j]? = some d) :
      j < nDecoders ∧ d.ids = [] := by
    obtain ⟨hlt, rfl⟩ := List.getElem?_eq_some_iff.mp hd
    rw [List.length_replicate] at hlt
    refine ⟨hlt, ?_⟩
    rw [List.getElem_replicate]
    rfl
  refine ⟨hboundedShared, fun j hj => ?_, fun j d hd _ => ?_, fun j d hd _ => ?_⟩
  · rw [hheld, if_neg]
    rw [maxDecoders] at hj hmax
    omega
  · obtain ⟨hlt, hnil⟩ := hids j d hd
    rw [hheld, if_pos (by omega), hfirst, hnil, List.append_nil]
  · rw [(hids j d hd).2, List.append_nil, hvalue]
    rfl

variable [Scalar F] {w : WindowParams v F} {i : ℕ} {s s' : CachedState v F κ}
  {sampled : List (Decoder F × Option ℕ)}

/-- The copies before the update: a decoder that goes on holds the tokens of the one that it
continues. -/
theorem Coherent.copied (hs : Coherent net prompt s) (hmax : s.decoders.length ≤ maxDecoders)
    (hsample : Sample w (fun j _ => s.raw j) i s.decoders sampled) :
    let cache := s.cache.copyBeams (beamMoves sampled)
    cache.Bounded ∧ (∀ j : ℤ, maxDecoders ≤ j → cache.held j = 0) ∧
      ∀ (j : ℕ) (d : Decoder F) (source : Option ℕ), sampled[j]? = some (d, source) → d.Active →
        ∃ past token, past ∈ s.decoders ∧ past.Active ∧ d = past.push token ∧
          cache.held j = net.history (prompt ++ past.ids) := by
  have hmoves : ∀ m ∈ beamMoves sampled, (0 ≤ m.1 ∧ m.1 < maxDecoders) ∧ m.2 < maxDecoders := by
    intro m hm
    obtain ⟨j, d, k, hj, rfl⟩ := mem_beamMoves.mp hm
    have hlt := (List.getElem?_eq_some_iff.mp hj).1
    rw [hsample.length_eq] at hlt
    obtain ⟨old, -, ⟨-, -, hnone⟩ | ⟨-, k', past, -, -, hk, hpast, -⟩⟩ := hsample.continues hj
    · simp at hnone
    · have hltk := (List.getElem?_eq_some_iff.mp hpast).1
      rw [← hk, Option.getD_some] at hltk
      dsimp only
      omega
  have hseparate : Separate asideSeq (beamMoves sampled) := by
    refine ⟨nodup_beamMoves, fun a b h => by simpa [asideSeq] using h, ?_, ?_⟩
    all_goals
      intro m hm m' hm'
      have h := hmoves m hm
      have h' := hmoves m' hm'
      rw [asideSeq]
      omega
  have hfree : ∀ m ∈ beamMoves sampled, s.cache.held (asideSeq m.1) = 0 := fun m hm =>
    hs.aside _ (by have := hmoves m hm; rw [asideSeq]; omega)
  obtain ⟨hheld, hbounded⟩ := KvCache.held_copyBeams hseparate
    (fun m hm => (hmoves m hm).1.1) hs.bounded hfree
  refine ⟨hbounded, fun j hj => ?_, fun j d source hj hactive => ?_⟩
  · rw [hheld]
    by_cases haside : ∃ m ∈ beamMoves sampled, j = asideSeq m.1
    · obtain ⟨m, hm, rfl⟩ := haside
      exact assignThrough_tmp hseparate hm
    · rw [assignThrough_of_ne, hs.aside j hj]
      intro m hm
      refine ⟨?_, fun h => haside ⟨m, hm, h⟩⟩
      have := hmoves m hm
      omega
  · obtain ⟨old, hold, ⟨hended, rfl, -⟩ | ⟨hgoes, k, past, how, token, hk, hpast, hpastActive,
      -, rfl⟩⟩ := hsample.continues hj
    · exact absurd hactive hended
    · refine ⟨past, token, List.mem_of_getElem? hpast, hpastActive, rfl, ?_⟩
      rw [hheld]
      cases source with
      | some k' =>
        obtain rfl : k' = k := hk
        have hmove : ((j : ℤ), (k' : ℤ)) ∈ beamMoves sampled :=
          mem_beamMoves.mpr ⟨j, _, k', hj, rfl⟩
        exact (assignThrough_dst hseparate hmove).trans (hs.held k' past hpast hpastActive)
      | none =>
        obtain rfl : j = k := hk
        rw [assignThrough_of_ne, hs.held j past hpast hpastActive]
        intro m hm
        obtain ⟨j', d', k', hj', rfl⟩ := mem_beamMoves.mp hm
        constructor
        · intro heq
          have hjj : j = j' := by simpa using heq
          rw [hjj, hj'] at hj
          simp at hj
        · have hm' := hmoves _ hm
          have hlt := (List.getElem?_eq_some_iff.mp hpast).1
          rw [asideSeq]
          omega

omit [Scalar F] in
/-- The logits of a batch reach the decoder of each sequence. -/
theorem batchLogits_of_mem {batch : List BatchToken} {values : List κ} {raw : ℕ → Logits v F}
    {j : ℕ} {b : BatchToken} (hnodup : (batch.map (·.seqId)).Nodup) (hb : b ∈ batch)
    (hj : b.seqId = (j : ℤ)) {value : BatchToken → κ} (hvalues : values = batch.map value) :
    batchLogits net batch values raw j = net.readout (value b) := by
  cases hfind : batch.findIdx? fun b => b.seqId = (j : ℤ) with
  | none =>
    have hnone := List.findIdx?_eq_none_iff.mp hfind b hb
    simp [hj] at hnone
  | some k =>
    obtain ⟨hlt, hseq, -⟩ := List.findIdx?_eq_some_iff_getElem.mp hfind
    have hsame : batch[k] = b := by
      refine List.inj_on_of_nodup_map hnodup (List.getElem_mem hlt) hb ?_
      rw [hj]
      simpa using hseq
    have hget : values[k]? = some (value b) := by
      rw [hvalues, List.getElem?_map, List.getElem?_eq_getElem hlt, hsame]
      rfl
    rw [batchLogits, hfind, Option.bind_some, hget]

/-- A round keeps the coherence of the cache. -/
theorem Coherent.round (hexact : net.OrderFree) (hs : Coherent net prompt s) (hpad : 0 < pad)
    (hmax : s.decoders.length ≤ maxDecoders) (hfits : (prompt.length : ℤ) + i < maxPos)
    (hlength : ∀ d ∈ s.decoders, d.Active → d.tokens.length = i)
    (hround : CachedRound net pad prompt w i s s') : Coherent net prompt s' := by
  obtain ⟨sampled, hsample, hupdate, hdecode⟩ := hround
  obtain ⟨hbounded, haside, hcopied⟩ := hs.copied hmax hsample
  -- a decoder that goes on has one token more than the cells that it holds
  have hactive : ∀ (j : ℕ) (d' : Decoder F), s'.decoders[j]? = some d' → d'.Active →
      ∃ past token, past ∈ s.decoders ∧ past.Active ∧ d'.tokens = past.tokens ++ [token] ∧
        (s.cache.copyBeams (beamMoves sampled)).held j = net.history (prompt ++ past.ids) := by
    intro j d' hj hgoes
    obtain ⟨d, hd, hd'⟩ := updateAll_getElem? hupdate hj
    rw [List.getElem?_map] at hd
    obtain ⟨⟨_, source⟩, hsampled, rfl⟩ := Option.map_eq_some_iff.mp hd
    dsimp only at hd'
    split_ifs at hd' with hdactive
    · obtain ⟨past, token, hpast, hpastActive, rfl, hheld⟩ := hcopied j _ source hsampled hdactive
      exact ⟨past, token, hpast, hpastActive, update_tokens hd', hheld⟩
    · rw [Option.some_inj] at hd'
      rw [hd'] at hdactive
      exact absurd hgoes hdactive
  split_ifs at hdecode with hsome
  · obtain ⟨values, hdecode, hraw⟩ := hdecode
    set batch := decoderBatch (prompt.length + i) s'.decoders with hbatch
    obtain ⟨hview, hvalues, hbounded'⟩ :=
      decodeInternal_refines hexact hpad ordered_decoderBatch hdecode
    -- the tokens before the last one of each decoder
    let hist : ℤ → List ℕ := fun j =>
      prompt ++ ((s'.decoders[j.toNat]?).map fun d => d.ids.dropLast).getD []
    have hhist (j : ℕ) (d' past : Decoder F) (token : TokenData F)
        (hj : s'.decoders[j]? = some d') (htokens : d'.tokens = past.tokens ++ [token]) :
        hist j = prompt ++ past.ids := by
      simp [hist, hj, Decoder.ids, htokens]
    have hheld : ∀ b ∈ batch,
        (s.cache.copyBeams (beamMoves sampled)).held b.seqId = net.history (hist b.seqId) ∧
          b.pos = (hist b.seqId).length := by
      intro b hb
      obtain ⟨j, d', token', hj, hgoes, -, rfl⟩ := mem_decoderBatch.mp hb
      obtain ⟨past, token, hpast, hpastActive, htokens, hheld⟩ := hactive j d' hj hgoes
      dsimp only
      rw [hhist j d' past token hj htokens]
      refine ⟨hheld, ?_⟩
      rw [List.length_append, Decoder.ids, List.length_map, hlength past hpast hpastActive]
    obtain ⟨hown, hother, hbatchValues⟩ := evalBatch_sequences hexact nodup_decoderBatch hheld
    rw [← hview] at hown hother
    rw [← hvalues] at hbatchValues
    have hmem : ∀ (j : ℕ) (d' : Decoder F), s'.decoders[j]? = some d' → d'.Active →
        ∃ b ∈ batch, b.seqId = (j : ℤ) ∧ hist b.seqId ++ [b.token] = prompt ++ d'.ids := by
      intro j d' hj hgoes
      obtain ⟨past, token, -, -, htokens, -⟩ := hactive j d' hj hgoes
      refine ⟨⟨token.id, prompt.length + i, j⟩, mem_decoderBatch.mpr
        ⟨j, d', token, hj, hgoes, by rw [htokens, List.getLast?_concat], rfl⟩, rfl, ?_⟩
      dsimp only
      rw [hhist j d' past token hj htokens]
      simp [Decoder.ids, htokens]
    refine ⟨hbounded' hbounded fun b hb => ?_, fun j hj => ?_, fun j d' hj hgoes => ?_,
      fun j d' hj hgoes => ?_⟩
    · obtain ⟨j, d', token, -, -, -, rfl⟩ := mem_decoderBatch.mp hb
      dsimp only
      push_cast
      exact hfits
    · rw [hother j fun b hb => ?_, haside j hj]
      obtain ⟨j', d', token, hj', -, -, rfl⟩ := mem_decoderBatch.mp hb
      have hlt := (List.getElem?_eq_some_iff.mp hj').1
      rw [updateAll_length hupdate, List.length_map, hsample.length_eq] at hlt
      dsimp only
      omega
    · obtain ⟨b, hb, hseq, hids⟩ := hmem j d' hj hgoes
      rw [← hseq, hown b hb, hids]
    · obtain ⟨b, hb, hseq, hids⟩ := hmem j d' hj hgoes
      rw [hraw, batchLogits_of_mem nodup_decoderBatch hb hseq hbatchValues, hids]
      rfl
  · obtain ⟨hcache, -⟩ := hdecode
    refine ⟨hcache ▸ hbounded, fun j hj => hcache ▸ haside j hj, fun j d' hj hgoes => ?_,
      fun j d' hj hgoes => ?_⟩
    all_goals exact absurd ⟨d', List.mem_of_getElem? hj, hgoes⟩ hsome

/-- Through the cache the decoders make the rounds of the plain search. -/
theorem CachedRounds.coherent {cache : KvCache κ} (hexact : net.OrderFree) (hpad : 0 < pad)
    (hmax : nDecoders ≤ maxDecoders)
    (hfits : (prompt.length : ℤ) + w.nMax ≤ maxPos)
    (h : CachedRounds net pad prompt w grammar nDecoders cache i s) :
    Rounds w (fun ids => net.logits (prompt ++ ids)) grammar nDecoders i s.decoders ∧
      Coherent net prompt s := by
  induction h with
  | start hstart => exact ⟨.start, coherent_start hexact hpad hmax (by omega) hstart⟩
  | @next i s s' _ hi hgoes hround ih =>
    obtain ⟨hplain, hcoherent⟩ := ih
    obtain ⟨sampled, hsample, hupdate, -⟩ := id hround
    refine ⟨hplain.next hi hgoes ⟨sampled, ?_, hupdate⟩, ?_⟩
    · exact hsample.congr fun j d hd hactive => hcoherent.raw j d hd hactive
    · refine hcoherent.round hexact hpad (by rw [hplain.length_eq]; exact hmax) (by omega) ?_ hround
      exact fun d hd hactive => ((hplain.sound d hd).active hactive).1

end Coherence

end WhisperAndroid.Decode
