import WhisperAndroid.Decode.CachedSearch
import WhisperAndroid.Decode.MainLoop

/-!
# Room in the cache

With greedy sampling no cells become free within a window, so that the cells in use are the
first ones, and a batch takes those behind them. The size that `whisper_full_with_state`
gives the cache is then enough for all rounds, whatever the number of decoders.

## Main results

* `find_slot_complete` — a batch finds cells if there are any
* `Packed.findSlot` — a batch takes the cells behind those in use
* `cached_search_refines` — the search through the cache is the plain search
* `greedy_cache_suffices` — with greedy sampling every plain search goes through the cache
-/

namespace WhisperAndroid.Decode

variable {κ L F : Type}

/-- The cells that the cache has for a number of decoders: more than they need, for beams. -/
def selfCacheSize (nTextCtx nDecoders : ℕ) : ℕ :=
  ggmlPad nTextCtx 256 * if 1 < nDecoders then nDecoders + 2 else 1

/-- The cells in use are the first `m`. -/
structure Packed (m : ℕ) (cells : List (KvCell κ)) : Prop where
  le : m ≤ cells.length
  used : ∀ c ∈ cells.take m, 0 ≤ c.pos
  free : ∀ c ∈ cells.drop m, c.pos < 0

section Packed

variable {cells cells' : List (KvCell κ)} {m n head : ℕ}

/-- Only the positions matter. -/
theorem Packed.of_pos (h : Packed m cells) (hpos : cells'.map (·.pos) = cells.map (·.pos)) :
    Packed m cells' := by
  have hlength : cells'.length = cells.length := by simpa using congrArg List.length hpos
  refine ⟨hlength ▸ h.le, fun c hc => ?_, fun c hc => ?_⟩
  · have hmem : c.pos ∈ (cells'.take m).map (·.pos) := List.mem_map_of_mem hc
    rw [List.map_take, hpos, ← List.map_take] at hmem
    obtain ⟨c', hc', heq⟩ := List.mem_map.mp hmem
    exact heq ▸ h.used c' hc'
  · have hmem : c.pos ∈ (cells'.drop m).map (·.pos) := List.mem_map_of_mem hc
    rw [List.map_drop, hpos, ← List.map_drop] at hmem
    obtain ⟨c', hc', heq⟩ := List.mem_map.mp hmem
    exact heq ▸ h.free c' hc'

/-- A batch takes the cells behind those in use. -/
theorem Packed.findSlot (h : Packed m cells) (hhead : head ≤ m) (hn : 0 < n)
    (hroom : m + n ≤ cells.length) : Decode.findSlot cells n head = some m := by
  have hfree : FreeAt cells n m :=
    ⟨hroom, fun c hc => h.free c (List.mem_of_mem_take hc)⟩
  cases hfound : Decode.findSlot cells n head with
  | none => exact absurd hfree ((findSlot_none_iff (hhead.trans h.le)).mp hfound m)
  | some found =>
    have hle : found ≤ m := findSlot_le hfound hhead hfree
    obtain ⟨-, hunused⟩ := findSlot_some hfound
    rw [Option.some_inj]
    by_contra hne
    -- otherwise the first cell would be in use
    have hlt : found < m := lt_of_le_of_ne hle hne
    have hget : found < cells.length := hlt.trans_le h.le
    have hused : cells[found] ∈ cells.take m := by
      rw [List.mem_take_iff_getElem]
      exact ⟨found, by omega, rfl⟩
    have hmem : cells[found] ∈ (cells.drop found).take n := by
      rw [List.mem_take_iff_getElem]
      exact ⟨0, by rw [List.length_drop]; omega, by simp⟩
    exact absurd (h.used _ hused) (not_le.mpr (hunused _ hmem))

theorem length_evalCells (net : Network L κ) (own : ℕ) (batch : List BatchToken)
    (cells : List (KvCell κ)) : (evalCells net n own batch cells).length = cells.length := by
  induction batch generalizing own cells with
  | nil => rfl
  | cons b batch ih => rw [evalCells, ih, List.length_modify]

theorem length_markCells {batch : List BatchToken} (hroom : m + batch.length ≤ cells.length) :
    (Decode.markCells cells m batch).length = cells.length := by
  simp only [Decode.markCells, List.length_append, List.length_take, List.length_zipWith,
    List.length_drop]
  omega

theorem Packed.markCells {batch : List BatchToken} (h : Packed m cells)
    (hroom : m + batch.length ≤ cells.length) :
    Packed (m + batch.length) (Decode.markCells cells m batch) := by
  have hown : ((cells.drop m).take batch.length).length = batch.length := by
    rw [List.length_take, List.length_drop]
    omega
  have hzip : (List.zipWith (fun (b : BatchToken) (c : KvCell κ) => c.mark b.pos b.seqId) batch
      ((cells.drop m).take batch.length)).length = batch.length := by
    rw [List.length_zipWith, hown, min_self]
  have htake : (cells.take m).length = m := by rw [List.length_take, min_eq_left h.le]
  have hfirst : (cells.take m ++ List.zipWith (fun (b : BatchToken) (c : KvCell κ) =>
      c.mark b.pos b.seqId) batch ((cells.drop m).take batch.length)).length =
        m + batch.length := by
    rw [List.length_append, htake, hzip]
  rw [Decode.markCells, ← List.append_assoc]
  refine ⟨?_, ?_, ?_⟩
  · rw [List.length_append, hfirst]
    omega
  · rw [List.take_left' hfirst]
    intro c hc
    rcases List.mem_append.mp hc with hc | hc
    · exact h.used c hc
    · obtain ⟨i, hi⟩ := List.mem_iff_getElem?.mp hc
      obtain ⟨b, c', -, -, rfl⟩ := List.getElem?_zipWith_eq_some.mp hi
      exact Int.natCast_nonneg _
  · rw [List.drop_left' hfirst]
    intro c hc
    refine h.free c ?_
    rw [← List.drop_drop] at hc
    exact List.mem_of_mem_drop hc

theorem evalCells_pos (net : Network L κ) (own : ℕ) (batch : List BatchToken)
    (cells : List (KvCell κ)) :
    (evalCells net n own batch cells).map (·.pos) = cells.map (·.pos) := by
  induction batch generalizing own cells with
  | nil => rfl
  | cons b batch ih =>
    rw [evalCells, ih]
    refine List.ext_getElem? fun i => ?_
    rw [List.getElem?_map, List.getElem?_map, List.getElem?_modify]
    split_ifs <;> cases cells[i]? <;> rfl

/-- A batch is evaluated if it fits behind the cells in use. -/
theorem Packed.decodeInternal (net : Network L κ) (pad : ℕ) {cache : KvCache κ}
    {batch : List BatchToken} (h : Packed m cache.cells) (hhead : cache.head ≤ m)
    (hbatch : batch ≠ []) (hroom : m + batch.length ≤ cache.cells.length) :
    ∃ cache' values, Decode.decodeInternal net pad cache batch = some (cache', values) ∧
      Packed (m + batch.length) cache'.cells ∧ cache'.head ≤ m + batch.length ∧
      cache'.cells.length = cache.cells.length ∧ values.length = batch.length := by
  have hslot := h.findSlot hhead (List.length_pos_iff.mpr hbatch) hroom
  have hmarked := h.markCells hroom
  set marked := Decode.markCells cache.cells m batch with hdef
  have hpos := evalCells_pos (n := nKv pad marked) net m batch marked
  have hlength : (evalCells net (nKv pad marked) m batch marked).length = cache.cells.length := by
    rw [length_evalCells, hdef, length_markCells hroom]
  refine ⟨_, _, by rw [Decode.decodeInternal, hslot]; rfl, hmarked.of_pos hpos,
    Nat.le_add_right _ _, hlength, ?_⟩
  rw [List.length_map, List.length_take, List.length_drop, hlength]
  omega

end Packed

/-! ### A search through the cache -/

/-- The network of the spoken window, whose keys and values are positions. -/
def positionNetwork : Network (Logits english ℤ) ℕ where
  zero := 0
  embed _ pos _ := pos
  readout pos := certain english (spokenIds.getD pos 0)

theorem fresh_neg_iff : (-1 : ℤ) < 0 ↔ (∅ : Finset ℤ) = ∅ :=
  iff_of_true (by decide) rfl

/-- A cache as for three decoders. -/
def freshCache : KvCache ℕ := ⟨0, List.replicate 2560 ⟨-1, ∅, 0, fresh_neg_iff⟩⟩

theorem length_freshCache : freshCache.cells.length = 2560 := List.length_replicate

theorem positionNetwork_logits (ids : List ℕ) :
    positionNetwork.logits ([50257] ++ ids) = spokenNetwork ids := by
  rw [Network.logits]
  cases ids using List.reverseRecOn with
  | nil => rfl
  | append_singleton ids id =>
    rw [← List.append_assoc, Network.lastValue_concat]
    simp [positionNetwork, spokenNetwork]

theorem positionNetwork_orderFree : positionNetwork.OrderFree := fun _ _ _ _ _ => rfl

/-- Three decoders that are alike. -/
theorem positionNetwork_rounds :
    Rounds (spokenWindow 0) (fun ids => positionNetwork.logits ([50257] ++ ids))
      ⟨[], [], ⟨0, 0⟩⟩ 3 8 (List.replicate 3 (spokenDecoder 8)) := by
  rw [funext positionNetwork_logits]
  exact spoken_rounds_of 2 8 le_rfl (.inl rfl) fun j hj => spokenNetwork_ids j hj

/-! ### Reachable caches -/

/-- The caches that the operations lead to from a cleared one. -/
inductive Reachable (net : Network L κ) (pad : ℕ) : KvCache κ → Prop
  | clear (cache : KvCache κ) : Reachable net pad (cache.clear net.zero)
  | seqRm {cache : KvCache κ} (s p0 p1 : ℤ) :
      Reachable net pad cache → Reachable net pad (cache.seqRm s p0 p1)
  | seqCp {cache : KvCache κ} (s d p0 p1 : ℤ) :
      Reachable net pad cache → Reachable net pad (cache.seqCp s d p0 p1)
  | decode {cache cache' : KvCache κ} {batch : List BatchToken} {values : List κ} :
      Reachable net pad cache → decodeInternal net pad cache batch = some (cache', values) →
      Reachable net pad cache'

section Reachable

variable {net : Network L κ} {pad n : ℕ} {cache : KvCache κ}

/-- The head is among the cells. -/
theorem Reachable.head_le (h : Reachable net pad cache) : cache.head ≤ cache.cells.length := by
  induction h with
  | clear | seqCp => exact Nat.zero_le _
  | @seqRm cache s p0 p1 _ ih =>
    simp only [KvCache.seqRm, List.length_map]
    cases hfind : cache.cells.findIdx? fun c =>
        KvCache.Removes s (if p0 < 0 then 0 else p0) (if p1 < 0 then maxPos else p1) c ∧
          (c.remove s).seqId = ∅ with
    | none => exact ih
    | some i => exact (List.findIdx?_eq_some_iff_getElem.mp hfind).1.le
  | decode _ hdecode ih =>
    obtain ⟨head, hslot, hcells⟩ := Option.bind_eq_some_iff.mp hdecode
    obtain ⟨hroom, -⟩ := findSlot_some hslot
    obtain ⟨rfl, -⟩ := Prod.mk.inj (Option.some_inj.mp hcells)
    dsimp only
    rw [length_evalCells, length_markCells hroom]
    exact (Nat.le_add_right _ _).trans hroom

/-- Whatever the operations left, a batch finds cells exactly if there are enough free ones
next to each other, and then it takes such cells. -/
theorem find_slot_complete (h : Reachable net pad cache) :
    (findSlot cache.cells n cache.head = none ↔ ∀ start, ¬ FreeAt cache.cells n start) ∧
      ∀ found, findSlot cache.cells n cache.head = some found → FreeAt cache.cells n found :=
  ⟨findSlot_none_iff h.head_le, fun _ hfound => findSlot_some hfound⟩

/-- A cache of six cells, after five tokens of one sequence. -/
def filledCache : KvCache ℕ :=
  ⟨0, (List.range 5).map (fun i => ⟨i, {0}, i, by simp⟩) ++ [⟨-1, ∅, 0, fresh_neg_iff⟩]⟩

theorem filledCache_reachable : Reachable positionNetwork 32 filledCache := by
  have hclear : Reachable positionNetwork 32
      ((⟨0, List.replicate 6 ⟨-1, ∅, 0, fresh_neg_iff⟩⟩ : KvCache ℕ).clear 0) := .clear _
  have hdecode : decodeInternal positionNetwork 32
      ((⟨0, List.replicate 6 ⟨-1, ∅, 0, fresh_neg_iff⟩⟩ : KvCache ℕ).clear 0)
      ((List.range 5).map fun i => ⟨0, i, 0⟩) = some (filledCache, List.range 5) := rfl
  exact hclear.decode hdecode

/-- Without the second token and the last two, the head is at the second cell. -/
def gapCache : KvCache ℕ := (filledCache.seqRm 0 3 5).seqRm 0 1 2

theorem find_slot_complete_gaps :
    (findSlot gapCache.cells 3 1 = some 3 ∧ FreeAt gapCache.cells 3 3) ∧
      findSlot gapCache.cells 4 1 = none ∧ ∀ start, ¬ FreeAt gapCache.cells 4 start := by
  have hreachable : Reachable positionNetwork 32 gapCache :=
    (filledCache_reachable.seqRm 0 3 5).seqRm 0 1 2
  have hthree : findSlot gapCache.cells 3 gapCache.head = some 3 := by decide +kernel
  have hfour : findSlot gapCache.cells 4 gapCache.head = none := by decide +kernel
  exact ⟨⟨hthree, (find_slot_complete hreachable).2 3 hthree⟩, hfour,
    (find_slot_complete hreachable).1.mp hfour⟩

end Reachable

/-! ### The search -/

section Search

open Grammar

variable [Scalar F] {v : Vocab} {net : Network (Logits v F) κ} {pad nDecoders : ℕ}
  {prompt : List ℕ} {grammar : GrammarState} {w : WindowParams v F} {cache : KvCache κ} {i : ℕ}
  {ds : List (Decoder F)} {s : CachedState v F κ}

omit [Scalar F] in
theorem Packed.clear (cache : KvCache κ) (zero : κ) : Packed 0 (cache.clear zero).cells := by
  refine ⟨Nat.zero_le _, by simp, fun c hc => ?_⟩
  obtain ⟨_, -, rfl⟩ := List.mem_map.mp hc
  exact neg_one_lt_zero

/-- The state of a cache that fits the decoders for some rounds more. -/
structure Roomy (prompt : List ℕ) (nDecoders size i : ℕ) (cache : KvCache κ) : Prop where
  packed : ∃ m ≤ prompt.length + nDecoders * i, cache.head ≤ m ∧ Packed m cache.cells
  size_eq : cache.cells.length = size

omit [Scalar F] in
/-- Sharing the prompt leaves the cells where they are. -/
theorem Roomy.share {size : ℕ} (h : Roomy prompt nDecoders size i cache) (k : ℕ) :
    Roomy prompt nDecoders size i ((List.range k).foldl
      (fun cache (j : ℕ) => cache.seqCp 0 (j + 1) (-1) (-1)) cache) := by
  induction k with
  | zero => exact h
  | succ k ih =>
    rw [List.range_succ, List.foldl_append]
    obtain ⟨⟨m, hm, -, hpacked⟩, hsize⟩ := ih
    refine ⟨⟨m, hm, Nat.zero_le _, hpacked.of_pos ?_⟩, ?_⟩
    · rw [List.foldl_cons, List.foldl_nil, KvCache.seqCp_cells, List.map_map]
      exact List.map_congr_left fun c _ => congrArg Prod.fst (KvCache.entry_cpCell c)
    · rw [List.foldl_cons, List.foldl_nil, KvCache.seqCp_cells, List.length_map, hsize]

omit [Scalar F] in
theorem exists_startCache (hprompt : prompt ≠ []) (hroom : prompt.length ≤ cache.cells.length) :
    ∃ cache' logits, startCache net pad prompt nDecoders cache = some (cache', logits) ∧
      Roomy prompt nDecoders cache.cells.length 0 cache' := by
  have hclear : (cache.clear net.zero).cells.length = cache.cells.length := List.length_map _
  have hbatch : (promptBatch prompt).length = prompt.length := by simp [promptBatch]
  have hne : promptBatch prompt ≠ [] := by
    rw [← List.length_pos_iff, hbatch]
    exact List.length_pos_iff.mpr hprompt
  obtain ⟨cache', values, hdecode, hpacked, hhead, hsize, hvalues⟩ :=
    (Packed.clear cache net.zero).decodeInternal net pad (Nat.le_refl 0) hne (by omega)
  obtain ⟨value, hvalue⟩ : ∃ value, values.getLast? = some value := by
    have hpos : values ≠ [] := by
      rw [← List.length_pos_iff, hvalues]
      exact List.length_pos_iff.mpr hne
    exact ⟨_, List.getLast?_eq_some_getLast hpos⟩
  have hroomy : Roomy prompt nDecoders cache.cells.length 0 cache' :=
    ⟨⟨_, by omega, hhead, hpacked⟩, hsize.trans hclear⟩
  refine ⟨_, net.readout value, ?_, hroomy.share (nDecoders - 1)⟩
  rw [startCache, hdecode]
  simp only [Option.bind_eq_bind, Option.bind_some, hvalue]

/-- A greedy round goes through a cache with room for it. -/
theorem exists_cachedRound {size : ℕ} (hgreedy : w.strategy = .greedy)
    (hs : Coherent net prompt s) (hroomy : Roomy prompt nDecoders size i s.cache)
    (hlength : s.decoders.length = nDecoders)
    (hroom : prompt.length + nDecoders * (i + 1) ≤ size)
    (hround : Round w (fun ids => net.logits (prompt ++ ids)) i s.decoders ds) :
    ∃ s', CachedRound net pad prompt w i s s' ∧ s'.decoders = ds ∧
      Roomy prompt nDecoders size (i + 1) s'.cache := by
  have hlengthDs : ds.length = nDecoders := (round_length hround).trans hlength
  have htokens : ∀ d ∈ ds, d.Active → d.tokens ≠ [] := by
    intro d hd hactive
    obtain ⟨j, hj⟩ := List.mem_iff_getElem?.mp hd
    rcases round_decoder hround hj with ⟨-, hended⟩ | ⟨_, -, -, _, _, -, hupdate⟩
    · exact absurd hactive hended
    · rw [update_tokens hupdate, Decoder.push]
      simp
  obtain ⟨sampled, hsample, hupdate⟩ := hround
  have hsampled : Sample w (fun j _ => s.raw j) i s.decoders sampled :=
    hsample.congr fun j d hd hactive => (hs.raw j d hd hactive).symm
  have hmoves : beamMoves sampled = [] := by
    cases hsample with
    | greedy tokens => simp [beamMoves, List.zipIdx_map]
    | beamSearch _ _ hstrategy => simp [hgreedy] at hstrategy
  obtain ⟨⟨m, hm, hhead, hpacked⟩, hsize⟩ := hroomy
  have hmul : nDecoders * (i + 1) = nDecoders * i + nDecoders := Nat.mul_succ _ _
  by_cases hgoes : ∃ d ∈ ds, d.Active
  · set batch := decoderBatch (prompt.length + i) ds with hbatch
    have hle : batch.length ≤ nDecoders := by
      rw [hbatch, decoderBatch, ← hlengthDs, ← List.length_zipIdx (l := ds) (i := 0)]
      exact List.length_filterMap_le _ _
    have hne : batch ≠ [] := by
      obtain ⟨d, hd, hactive⟩ := hgoes
      obtain ⟨j, hj⟩ := List.mem_iff_getElem?.mp hd
      have hlast := List.getLast?_eq_some_getLast (htokens d hd hactive)
      exact List.ne_nil_of_mem (mem_decoderBatch.mpr ⟨j, d, _, hj, hactive, hlast, rfl⟩)
    obtain ⟨cache', values, hdecode, hpacked', hhead', hsize', -⟩ :=
      hpacked.decodeInternal net pad hhead hne (by omega)
    refine ⟨⟨ds, cache', batchLogits net batch values s.raw⟩, ⟨sampled, hsampled, hupdate, ?_⟩,
      rfl, ⟨_, ?_, hhead', hpacked'⟩, hsize'.trans hsize⟩
    · rw [hmoves]
      dsimp only
      rw [if_pos hgoes]
      exact ⟨values, hdecode, rfl⟩
    · omega
  · refine ⟨⟨ds, s.cache, s.raw⟩, ⟨sampled, hsampled, hupdate, ?_⟩, rfl,
      ⟨m, by omega, hhead, hpacked⟩, hsize⟩
    rw [hmoves]
    dsimp only
    rw [if_neg hgoes]
    exact ⟨rfl, rfl⟩

theorem exists_cachedRounds (hexact : net.OrderFree) (hgreedy : w.strategy = .greedy)
    (hpad : 0 < pad) (hmax : nDecoders ≤ maxDecoders) (hprompt : prompt ≠ [])
    (hfits : (prompt.length : ℤ) + w.nMax ≤ maxPos)
    (hroom : prompt.length + nDecoders * w.nMax ≤ cache.cells.length)
    (h : Rounds w (fun ids => net.logits (prompt ++ ids)) grammar nDecoders i ds) :
    ∃ s, CachedRounds net pad prompt w grammar nDecoders cache i s ∧ s.decoders = ds ∧
      Roomy prompt nDecoders cache.cells.length i s.cache := by
  induction h with
  | start =>
    have hpromptRoom : prompt.length ≤ cache.cells.length := by omega
    obtain ⟨cache', logits, hstart, hroomy⟩ := exists_startCache hprompt hpromptRoom
    exact ⟨_, .start hstart, rfl, hroomy⟩
  | @next i ds ds' hrounds hi hgoes hround ih =>
    obtain ⟨s, hcached, rfl, hroomy⟩ := ih
    obtain ⟨-, hcoherent⟩ := hcached.coherent hexact hpad hmax hfits
    have hle : nDecoders * (i + 1) ≤ nDecoders * w.nMax := Nat.mul_le_mul_left _ hi
    obtain ⟨s', hcachedRound, hds, hroomy'⟩ :=
      exists_cachedRound hgreedy hcoherent hroomy hrounds.length_eq (by omega) hround
    exact ⟨s', hcached.next hi hgoes hcachedRound, hds, hroomy'⟩

omit [Scalar F] in
/-- What the cache has is more than the prompt and all rounds of all decoders. -/
theorem le_selfCacheSize (nDecoders : ℕ) {nTextCtx : ℕ} (hctx : 8 ≤ nTextCtx)
    (hprompt : prompt.length ≤ nTextCtx / 2 + 4) :
    prompt.length + nDecoders * (nTextCtx / 2 - 4) ≤ selfCacheSize nTextCtx nDecoders := by
  have hpadded : nTextCtx ≤ ggmlPad nTextCtx 256 := le_ggmlPad nTextCtx (by decide)
  rw [selfCacheSize]
  split_ifs with hmany
  · calc prompt.length + nDecoders * (nTextCtx / 2 - 4)
        ≤ nTextCtx * 2 + nTextCtx * nDecoders := by
          rw [Nat.mul_comm nDecoders]
          exact Nat.add_le_add (by omega) (Nat.mul_le_mul_right _ (by omega))
      _ = nTextCtx * (nDecoders + 2) := by rw [Nat.mul_add, Nat.add_comm]
      _ ≤ ggmlPad nTextCtx 256 * (nDecoders + 2) := Nat.mul_le_mul_right _ hpadded
  · have hmul : nDecoders * (nTextCtx / 2 - 4) ≤ 1 * (nTextCtx / 2 - 4) :=
      Nat.mul_le_mul_right _ (not_lt.mp hmany)
    omega

end Search

/-! ### Both directions -/

section Refinement

open Grammar

variable [Scalar F] {v : Vocab} {net : Network (Logits v F) κ} {pad nDecoders : ℕ}
  {prompt : List ℕ} {grammar : GrammarState} {w : WindowParams v F} {cache : KvCache κ} {i : ℕ}
  {ds : List (Decoder F)} {s : CachedState v F κ}

/-- With exact sums, through the cache the decoders make the rounds of the plain search, in
which the network evaluates the prompt and all tokens of a decoder anew, and in every state reached the cells
and the logits of a decoder that goes on are those of its own tokens. -/
theorem cached_search_refines (hexact : net.OrderFree) (hpad : 0 < pad) (hmax : nDecoders ≤ maxDecoders)
    (hfits : (prompt.length : ℤ) + w.nMax ≤ maxPos)
    (h : CachedRounds net pad prompt w grammar nDecoders cache i s) :
    Rounds w (fun ids => net.logits (prompt ++ ids)) grammar nDecoders i s.decoders ∧
      Coherent net prompt s :=
  h.coherent hexact hpad hmax hfits

theorem cached_search_refines_spoken : ∃ s,
    CachedRounds positionNetwork 32 [50257] (spokenWindow 0) ⟨[], [], ⟨0, 0⟩⟩ 3 freshCache 8 s ∧
      Coherent positionNetwork [50257] s := by
  have hroom : 1 + 3 * (spokenWindow 0).nMax ≤ freshCache.cells.length := by
    rw [length_freshCache]
    decide
  have hpad : 0 < 32 := by decide
  obtain ⟨s, hcached, -⟩ := exists_cachedRounds positionNetwork_orderFree rfl hpad (by decide)
    (by decide) (by decide) hroom positionNetwork_rounds
  exact ⟨s, hcached, (cached_search_refines positionNetwork_orderFree (by decide) (by decide)
    (by decide) hcached).2⟩

/-- With greedy sampling every plain search goes through the cache that the main loop makes
for its decoders: a batch always finds its cells. -/
theorem greedy_cache_suffices (hexact : net.OrderFree) (hgreedy : w.strategy = .greedy)
    (hpad : 0 < pad) (hmax : nDecoders ≤ maxDecoders) (hctx : 8 ≤ w.nTextCtx) (hint : (w.nTextCtx : ℤ) ≤ maxPos)
    (hne : prompt ≠ []) (hprompt : prompt.length ≤ w.nTextCtx / 2 + 4)
    (hsize : selfCacheSize w.nTextCtx nDecoders ≤ cache.cells.length) :
    Rounds w (fun ids => net.logits (prompt ++ ids)) grammar nDecoders i ds ↔
      ∃ s, CachedRounds net pad prompt w grammar nDecoders cache i s ∧ s.decoders = ds := by
  have hfits : (prompt.length : ℤ) + w.nMax ≤ maxPos := by
    rw [WindowParams.nMax]
    omega
  constructor
  · intro h
    have hroom := (le_selfCacheSize nDecoders hctx hprompt).trans hsize
    obtain ⟨s, hcached, hds, -⟩ := exists_cachedRounds hexact hgreedy hpad hmax hne hfits
      hroom h
    exact ⟨s, hcached, hds⟩
  · intro ⟨s, hcached, hds⟩
    exact hds ▸ (hcached.coherent hexact hpad hmax hfits).1

theorem greedy_cache_suffices_spoken : ∃ s,
    CachedRounds positionNetwork 32 [50257] (spokenWindow 0) ⟨[], [], ⟨0, 0⟩⟩ 3 freshCache 8 s ∧
      s.decoders = List.replicate 3 (spokenDecoder 8) :=
  (greedy_cache_suffices positionNetwork_orderFree rfl (by decide) (by decide) (by decide)
    (by decide) (by decide) (by decide) (by rw [length_freshCache]; decide)).mp
      positionNetwork_rounds

end Refinement

end WhisperAndroid.Decode
