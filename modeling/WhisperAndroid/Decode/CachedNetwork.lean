import Mathlib.Algebra.Order.Group.Multiset
import WhisperAndroid.Decode.KvCache
import WhisperAndroid.Decode.Vocabulary

/-!
# Evaluation through the cache

`whisper_decode_internal` takes cells for a batch, and evaluates each of its tokens with
the cells that the mask leaves it. The computation graph itself is a parameter: what it
stores for a token is a function of the token, its position and the values attended to.

## Main results

* `lt_nKv` — the cells of all sequences are among those that the mask looks at
* `decodeInternal_refines` — each token of a batch sees its own sequence and nothing else
-/

namespace WhisperAndroid.Decode

open SharedStore

variable {κ : Type}

/-- The part of the model that the search does not look into: what a cell holds for a
token, from the cells attended to in the order of the cache, and the logits that it leads to. -/
structure Network (L κ : Type) where
  zero : κ
  embed : ℕ → ℕ → List κ → κ
  readout : κ → L

/-- The sums over the cells do not depend on their order, as in exact arithmetic. Those of floats
do in their last bits. -/
def Network.OrderFree {L : Type} (net : Network L κ) : Prop :=
  ∀ token pos, ∀ {l l' : List κ}, l.Perm l' → net.embed token pos l = net.embed token pos l'

/-- What a cell holds for a token, from the cells attended to in any order. -/
noncomputable def Network.embedSet {L : Type} (net : Network L κ) (token pos : ℕ)
    (attended : Multiset κ) : κ :=
  net.embed token pos attended.toList

theorem Network.OrderFree.embed_eq {L : Type} {net : Network L κ} (h : net.OrderFree)
    (token pos : ℕ) (l : List κ) : net.embed token pos l = net.embedSet token pos l :=
  h token pos (Multiset.coe_eq_coe.mp (Multiset.coe_toList (l : Multiset κ))).symm

/-- One token of a `whisper_batch` -/
structure BatchToken where
  token : ℕ
  pos : ℕ
  seqId : ℤ
  deriving DecidableEq, Repr

/-- A cell is in use. -/
def inUse (cells : List (KvCell κ)) (i : ℕ) : Bool :=
  cells[i]?.any fun c => 0 ≤ c.pos && c.seqId ≠ ∅

/-- The loop of `whisper_kv_cache_cell_max`, down from the given cell -/
def cellMaxFrom (cells : List (KvCell κ)) : ℕ → ℕ
  | 0 => 1
  | i + 1 => if inUse cells (i + 1) then i + 2 else cellMaxFrom cells i

/-- `whisper_kv_cache_cell_max` -/
def cellMax (cells : List (KvCell κ)) : ℕ := cellMaxFrom cells (cells.length - 1)

/-- `GGML_PAD` -/
def ggmlPad (x n : ℕ) : ℕ := (x + n - 1) / n * n

/-- `kv_self.n`, the number of cells that the mask looks at -/
def nKv (pad : ℕ) (cells : List (KvCell κ)) : ℕ :=
  min cells.length (max pad (ggmlPad (cellMax cells) pad))

/-- The mask leaves a cell to a token. -/
def sees (b : BatchToken) (c : KvCell κ) : Bool := b.seqId ∈ c.seqId && c.pos ≤ (b.pos : ℤ)

/-- The values of the other cells that the mask leaves to a token. -/
def attended (n own : ℕ) (cells : List (KvCell κ)) (b : BatchToken) : List κ :=
  (cells.zipIdx.filter fun x => x.2 < n && x.2 ≠ own && sees b x.1).map fun x => x.1.value

/-- The cells that `whisper_kv_cache_find_slot` marks for a batch. -/
def markCells (cells : List (KvCell κ)) (head : ℕ) (batch : List BatchToken) : List (KvCell κ) :=
  cells.take head ++
    (List.zipWith (fun b c => c.mark b.pos b.seqId) batch ((cells.drop head).take batch.length) ++
      cells.drop (head + batch.length))

section Network

variable {L : Type} (net : Network L κ)

/-- The values of a batch, whose tokens only see those before them in their sequence. -/
def evalCells (n : ℕ) : ℕ → List BatchToken → List (KvCell κ) → List (KvCell κ)
  | _, [], cells => cells
  | own, b :: batch, cells =>
    evalCells n (own + 1) batch (cells.modify own fun c =>
      { c with value := net.embed b.token b.pos (attended n own cells b) })

/-- `whisper_decode_internal`: the cache, and the values that the logits of the batch are
read from. -/
def decodeInternal (pad : ℕ) (cache : KvCache κ) (batch : List BatchToken) :
    Option (KvCache κ × List κ) := do
  let head ← findSlot cache.cells batch.length cache.head
  let cells := markCells cache.cells head batch
  let cells := evalCells net (nKv pad cells) head batch cells
  some (⟨head, cells⟩, ((cells.drop head).take batch.length).map (·.value))

/-! ### Evaluation of sequences -/

/-- What the cells of all sequences hold. -/
abbrev Sequences (κ : Type) := ℤ → Multiset (ℤ × κ)

/-- The value of a token among those of its sequence. -/
noncomputable def evalToken (held : Sequences κ) (b : BatchToken) : κ :=
  net.embedSet b.token b.pos (((held b.seqId).filter fun e => e.1 ≤ (b.pos : ℤ)).map Prod.snd)

/-- The tokens of a batch one after another, each in its own sequence. -/
noncomputable def evalBatch : List BatchToken → Sequences κ → Sequences κ × List κ
  | [], held => (held, [])
  | b :: batch, held =>
    let value := evalToken net held b
    let rest := evalBatch batch
      (Function.update held b.seqId ((↑b.pos, value) ::ₘ held b.seqId))
    (rest.1, value :: rest.2)

end Network

/-! ### The mask -/

theorem lt_cellMaxFrom {cells : List (KvCell κ)} {i k : ℕ} (hle : i ≤ k)
    (h : inUse cells i = true) : i < cellMaxFrom cells k := by
  induction k with
  | zero =>
    rw [Nat.le_zero.mp hle]
    exact Nat.one_pos
  | succ k ih =>
    rw [cellMaxFrom]
    split_ifs with hlast
    · omega
    · rcases Nat.le_succ_iff.mp hle with hle | rfl
      · exact ih hle
      · exact absurd h hlast

theorem le_ggmlPad (x : ℕ) {n : ℕ} (hn : 0 < n) : x ≤ ggmlPad x n := by
  rw [ggmlPad]
  have hdiv := Nat.div_add_mod (x + n - 1) n
  have hmod := Nat.mod_lt (x + n - 1) hn
  rw [Nat.mul_comm]
  omega

/-- The mask looks at all cells that a sequence uses. -/
theorem lt_nKv {cells : List (KvCell κ)} {pad i : ℕ} {c : KvCell κ} (hpad : 0 < pad)
    (hget : cells[i]? = some c) {s : ℤ} (hs : s ∈ c.seqId) : i < nKv pad cells := by
  have hlt := (List.getElem?_eq_some_iff.mp hget).1
  have huse : inUse cells i = true := by
    have hne : c.seqId ≠ ∅ := Finset.ne_empty_of_mem hs
    simp [inUse, hget, KvCell.pos_nonneg hs, hne]
  have hmax : i < cellMax cells := lt_cellMaxFrom (by omega) huse
  have hle := le_ggmlPad (cellMax cells) hpad
  rw [nKv]
  omega

/-- The values attended to, for a token between other cells. -/
theorem attended_eq {n : ℕ} {before after : List (KvCell κ)} {c : KvCell κ} {b : BatchToken}
    (hn : ∀ i c', (before ++ c :: after)[i]? = some c' → b.seqId ∈ c'.seqId → i < n) :
    attended n before.length (before ++ c :: after) b =
      ((before ++ after).filter (sees b)).map (·.value) := by
  -- away from the token itself only the cell decides, not its place
  have hpart (part : List (KvCell κ)) (k : ℕ)
      (hpart : ∀ x ∈ part.zipIdx k, x.2 ≠ before.length ∧
        (before ++ c :: after)[x.2]? = some x.1) :
      ((part.zipIdx k).filter fun x => x.2 < n && x.2 ≠ before.length && sees b x.1).map
          (fun x => x.1.value) = (part.filter (sees b)).map (·.value) := by
    have hfilter : ((part.zipIdx k).filter fun x =>
        x.2 < n && x.2 ≠ before.length && sees b x.1) =
        (part.zipIdx k).filter (sees b ∘ Prod.fst) := by
      refine List.filter_congr fun x hx => ?_
      obtain ⟨hne, hget⟩ := hpart x hx
      by_cases hsees : sees b x.1 = true
      · have hmem : b.seqId ∈ x.1.seqId := by
          simp only [sees, Bool.and_eq_true, decide_eq_true_eq] at hsees
          exact hsees.1
        simp [hsees, hne, hn _ _ hget hmem]
      · simp [hsees]
    have hmap : (fun x : KvCell κ × ℕ => x.1.value) = (·.value) ∘ Prod.fst := rfl
    rw [hfilter, hmap, ← List.map_map, ← List.filter_map, List.zipIdx_map_fst]
  have hbefore := hpart before 0 fun x hx => by
    rw [List.mem_zipIdx_iff_getElem?] at hx
    have hlt := (List.getElem?_eq_some_iff.mp hx).1
    exact ⟨hlt.ne, by rw [List.getElem?_append_left hlt, hx]⟩
  have hafter := hpart after (before.length + 1) fun x hx => by
    obtain ⟨hle, hget⟩ := List.mem_zipIdx_iff_le_and_getElem?_sub.mp hx
    refine ⟨by omega, ?_⟩
    rw [List.getElem?_append_right (by omega), List.getElem?_cons, if_neg (by omega), ← hget]
    congr 1
  rw [attended, List.zipIdx_append, List.zipIdx_cons, List.filter_append, List.filter_cons,
    List.map_append]
  simp only [Nat.zero_add, ne_eq, not_true, decide_false, Bool.and_false, Bool.false_and,
    Bool.false_eq_true, if_false]
  simp only [ne_eq] at hbefore hafter
  rw [hbefore, hafter, List.filter_append, List.map_append]

/-! ### A batch -/

section Batch

variable {L : Type} {net : Network L κ} {batch : List BatchToken} {n : ℕ}

/-- Later tokens of a sequence have later positions. -/
def Ordered (batch : List BatchToken) : Prop :=
  batch.Pairwise fun a b => a.seqId = b.seqId → a.pos < b.pos

/-- The positions and values of a sequence in some cells. -/
abbrev heldBy (cells : List (KvCell κ)) : Sequences κ :=
  fun s => view KvCell.seqId (fun c => (c.pos, c.value)) s cells

/-- What a token sees of its sequence. -/
theorem values_of_sees (cells : List (KvCell κ)) (b : BatchToken) :
    (((cells.filter (sees b)).map (·.value) : List κ) : Multiset κ) =
      ((heldBy cells b.seqId).filter fun e => e.1 ≤ (b.pos : ℤ)).map Prod.snd := by
  simp only [heldBy, view, Multiset.filter_coe, Multiset.map_coe, List.filter_map,
    List.filter_filter, List.map_map]
  congr 2
  refine List.filter_congr fun c _ => ?_
  simp [sees, Bool.and_comm]

/-- The cells of a batch before they are evaluated. -/
abbrev marked (batch : List BatchToken) (cells : List (KvCell κ)) : List (KvCell κ) :=
  List.zipWith (fun b c => c.mark b.pos b.seqId) batch cells

theorem modify_middle {α : Type} (f : α → α) (before after : List α) (a : α) :
    (before ++ a :: after).modify before.length f = before ++ f a :: after := by
  induction before with
  | nil => rfl
  | cons x before ih => simp [ih]

/-- In a batch a later token is not seen. -/
theorem filter_sees_marked {b : BatchToken} {cells : List (KvCell κ)}
    (hordered : ∀ b' ∈ batch, b.seqId = b'.seqId → b.pos < b'.pos)
    (hfree : ∀ c ∈ cells, c.seqId = ∅) : (marked batch cells).filter (sees b) = [] := by
  rw [List.filter_eq_nil_iff]
  intro c hc hsees
  obtain ⟨i, hi⟩ := List.mem_iff_getElem?.mp hc
  obtain ⟨b', c', hb', hc', rfl⟩ := List.getElem?_zipWith_eq_some.mp hi
  simp only [sees, Bool.and_eq_true, decide_eq_true_eq, KvCell.mem_seqId_mark,
    hfree c' (List.mem_of_getElem? hc'), Finset.notMem_empty, or_false] at hsees
  have hlt := hordered b' (List.mem_of_getElem? hb') hsees.1
  have hle : (b'.pos : ℤ) ≤ b.pos := hsees.2
  omega

/-- The evaluation of a batch between other cells, whose own cells were free. -/
theorem evalCells_refines (hexact : net.OrderFree) {own before after : List (KvCell κ)}
    (hlength : own.length = batch.length) (hfree : ∀ c ∈ own, c.seqId = ∅)
    (hordered : Ordered batch)
    (hn : ∀ i c s, (before ++ (marked batch own ++ after))[i]? = some c → s ∈ c.seqId → i < n) :
    ∃ done, evalCells net n before.length batch (before ++ (marked batch own ++ after)) =
        before ++ (done ++ after) ∧
      heldBy (before ++ (done ++ after)) = (evalBatch net batch (heldBy (before ++ after))).1 ∧
      done.map (·.value) = (evalBatch net batch (heldBy (before ++ after))).2 ∧
      done.map (·.pos) = batch.map fun b => (b.pos : ℤ) := by
  induction batch generalizing own before with
  | nil => exact ⟨[], by simp [evalCells], by simp [evalBatch], rfl, rfl⟩
  | cons b batch ih =>
    obtain ⟨c, own, rfl⟩ := List.exists_cons_of_length_eq_add_one hlength
    obtain ⟨hfirst, hordered⟩ := List.pairwise_cons.mp hordered
    obtain ⟨hc, hfree⟩ := List.forall_mem_cons.mp hfree
    have hlength : own.length = batch.length := by simpa using hlength
    -- the value of the first token is that of its sequence
    have hvalue : net.embed b.token b.pos (attended n before.length
        (before ++ c.mark b.pos b.seqId :: (marked batch own ++ after)) b) =
        evalToken net (heldBy (before ++ after)) b := by
      have hseen : ∀ i c', (before ++ c.mark b.pos b.seqId :: (marked batch own ++ after))[i]? =
          some c' → b.seqId ∈ c'.seqId → i < n := fun i c' => hn i c' b.seqId
      rw [attended_eq hseen, hexact.embed_eq, evalToken, ← values_of_sees]
      simp [List.filter_append, filter_sees_marked hfirst hfree]
    set value := evalToken net (heldBy (before ++ after)) b with hdef
    set first : KvCell κ := { c.mark b.pos b.seqId with value := value } with hfirstCell
    have hstep : evalCells net n before.length (b :: batch)
        (before ++ (marked (b :: batch) (c :: own) ++ after)) =
        evalCells net n (before ++ [first]).length batch
          ((before ++ [first]) ++ (marked batch own ++ after)) := by
      rw [evalCells]
      simp only [marked, List.zipWith_cons_cons, List.cons_append]
      rw [modify_middle, hvalue]
      simp [hfirstCell]
    have hheld : heldBy ((before ++ [first]) ++ after) =
        Function.update (heldBy (before ++ after)) b.seqId
          ((↑b.pos, value) ::ₘ heldBy (before ++ after) b.seqId) := by
      funext s
      have hsplit : heldBy ((before ++ [first]) ++ after) s =
          heldBy [first] s + heldBy (before ++ after) s := by
        simp only [heldBy, view_append]
        rw [add_assoc, add_left_comm]
      have howner : ∀ s', s' ∈ first.seqId ↔ s' = b.seqId := fun s' => by
        rw [hfirstCell]
        simp [KvCell.mark, hc]
      rw [hsplit]
      by_cases hs : s = b.seqId
      · subst hs
        rw [Function.update_self]
        simp [heldBy, view, hfirstCell, KvCell.mark]
      · rw [Function.update_of_ne hs]
        simp [heldBy, view, howner, hs]
    have hn' : ∀ i c' s, ((before ++ [first]) ++ (marked batch own ++ after))[i]? = some c' →
        s ∈ c'.seqId → i < n := by
      intro i c' s hget hmem
      rw [List.append_assoc, List.singleton_append] at hget
      rcases lt_trichotomy i before.length with hlt | rfl | hgt
      · refine hn i c' s ?_ hmem
        rw [List.getElem?_append_left hlt] at hget ⊢
        exact hget
      · refine hn _ (c.mark b.pos b.seqId) s ?_ ?_
        · simp [marked]
        · simp only [List.getElem?_append_right le_rfl, Nat.sub_self, List.getElem?_cons_zero,
            Option.some_inj] at hget
          rw [← hget] at hmem
          exact hmem
      · refine hn i c' s ?_ hmem
        rw [List.getElem?_append_right hgt.le] at hget ⊢
        obtain ⟨k, hk⟩ : ∃ k, i - before.length = k + 1 := ⟨i - before.length - 1, by omega⟩
        rw [hk] at hget ⊢
        simpa [marked] using hget
    obtain ⟨done, heval, hview, hvalues, hpos⟩ := ih hlength hfree hordered hn'
    rw [hheld] at hview hvalues
    refine ⟨first :: done, ?_, ?_, ?_, ?_⟩
    · rw [hstep, heval]
      simp
    · rw [evalBatch, ← hview]
      simp
    · rw [evalBatch, ← hvalues]
      simp [hfirstCell, hdef]
    · rw [List.map_cons, hpos]
      simp [hfirstCell, KvCell.mark]

/-- Each token of a batch sees its own sequence and nothing else, and no cell that a
sequence uses is overwritten. -/
theorem decodeInternal_refines {pad : ℕ} {cache cache' : KvCache κ} {values : List κ}
    (hexact : net.OrderFree) (hpad : 0 < pad) (hordered : Ordered batch)
    (h : decodeInternal net pad cache batch = some (cache', values)) :
    cache'.held = (evalBatch net batch cache.held).1 ∧
      values = (evalBatch net batch cache.held).2 ∧
      (cache.Bounded → (∀ b ∈ batch, (b.pos : ℤ) < maxPos) → cache'.Bounded) := by
  obtain ⟨head, hslot, h⟩ := Option.bind_eq_some_iff.mp h
  obtain ⟨hroom, hfree⟩ := findSlot_some hslot
  set before := cache.cells.take head with hbefore
  set own := (cache.cells.drop head).take batch.length with hown
  set after := cache.cells.drop (head + batch.length) with hafter
  have hcells : cache.cells = before ++ (own ++ after) := by
    rw [hbefore, hown, hafter, ← List.drop_drop, List.take_append_drop, List.take_append_drop]
  have hbeforeLength : before.length = head := by
    rw [hbefore, List.length_take]
    omega
  have hownLength : own.length = batch.length := by
    rw [hown, List.length_take, List.length_drop]
    omega
  have hownFree : ∀ c ∈ own, c.seqId = ∅ := fun c hc => c.neg_iff.mp (hfree c hc)
  have hmarked : markCells cache.cells head batch = before ++ (marked batch own ++ after) := rfl
  have hn : ∀ i c s, (before ++ (marked batch own ++ after))[i]? = some c → s ∈ c.seqId →
      i < nKv pad (before ++ (marked batch own ++ after)) := 
    fun i c s hget => lt_nKv hpad hget
  obtain ⟨done, heval, hview, hvalues, hpos⟩ :=
    evalCells_refines hexact hownLength hownFree hordered hn
  -- the cells of the batch were free, so that without them all sequences are the same
  have hheld : heldBy (before ++ after) = cache.held := by
    funext s
    have hnone : view KvCell.seqId (fun c => (c.pos, c.value)) s own = 0 :=
      view_eq_zero_iff.mpr fun c hc => by simp [hownFree c hc]
    simp only [heldBy, KvCache.held, hcells, view_append, hnone, zero_add]
  have hdoneLength : done.length = batch.length := by
    simpa using congrArg List.length hpos
  dsimp only at h
  rw [hmarked, ← hbeforeLength, heval] at h
  obtain ⟨rfl, rfl⟩ := Prod.mk.inj (Option.some_inj.mp h)
  rw [hheld] at hview hvalues
  refine ⟨hview, ?_, fun hbounded hbatch => ?_⟩
  · rw [← hvalues, List.drop_left, ← hdoneLength, List.take_left]
  · intro c hc
    rcases List.mem_append.mp hc with hc | hc
    · exact hbounded c (hcells ▸ List.mem_append_left _ hc)
    · rcases List.mem_append.mp hc with hc | hc
      · have hmem : c.pos ∈ done.map (·.pos) := List.mem_map_of_mem hc
        rw [hpos] at hmem
        obtain ⟨b, hb, hbpos⟩ := List.mem_map.mp hmem
        exact hbpos ▸ hbatch b hb
      · exact hbounded c (hcells ▸ List.mem_append_right _ (List.mem_append_right _ hc))

end Batch

end WhisperAndroid.Decode
