import Mathlib.Data.Finset.Insert
import WhisperAndroid.Support.Loop
import WhisperAndroid.Support.SharedStore

/-!
# The cache of keys and values

`whisper_kv_cache`: cells that hold the keys and values of one token at one position, each
shared by the sequences that went through that token. A new batch of tokens takes free
cells next to each other.

## Main results

* `findSlot_some` — the cells that a batch takes are free
* `findSlot_none_iff` — the search fails only if there are not enough free cells anywhere
  next to each other, wherever it starts
* `KvCache.held_seqRm`, `KvCache.held_seqCp` — what the operations make of the sequences
* `KvCache.held_copyBeams` — the copies of a beam search are simultaneous
-/

namespace WhisperAndroid.Decode

open SharedStore

variable {κ : Type}

/-- `whisper_kv_cell` with its keys and values. It is free if no sequence uses it. -/
@[ext] structure KvCell (κ : Type) where
  pos : ℤ
  seqId : Finset ℤ
  value : κ
  neg_iff : pos < 0 ↔ seqId = ∅

/-- `whisper_kv_cache` -/
structure KvCache (κ : Type) where
  head : ℕ
  cells : List (KvCell κ)

/-- The largest `whisper_pos` -/
def maxPos : ℤ := 2147483647

namespace KvCell

/-- The cell without any sequence. -/
def free (c : KvCell κ) : KvCell κ := ⟨-1, ∅, c.value, by simp⟩

/-- The cell without a sequence, or without any for a negative id. -/
def remove (seqId : ℤ) (c : KvCell κ) : KvCell κ :=
  if h : seqId < 0 ∨ c.seqId.erase seqId = ∅ then c.free
  else
    { c with
      seqId := c.seqId.erase seqId
      neg_iff := by
        rw [not_or] at h
        have hne : c.seqId ≠ ∅ := fun hnil => h.2 (by simp [hnil])
        simp [h.2, c.neg_iff, hne] }

/-- The cell with one more sequence, if it is in use. -/
def share (seqId : ℤ) (c : KvCell κ) (h : 0 ≤ c.pos) : KvCell κ :=
  { c with seqId := insert seqId c.seqId, neg_iff := by simp [not_lt.mpr h] }

/-- The cell for a token of a sequence. -/
def mark (pos : ℕ) (seqId : ℤ) (c : KvCell κ) : KvCell κ :=
  { c with
    pos := pos, seqId := insert seqId c.seqId
    neg_iff := by simp [not_lt.mpr (Int.natCast_nonneg pos)] }

theorem pos_nonneg {c : KvCell κ} {s : ℤ} (h : s ∈ c.seqId) : 0 ≤ c.pos := by
  by_contra hneg
  have hnil := c.neg_iff.mp (not_le.mp hneg)
  simp [hnil] at h

@[simp] theorem mem_seqId_mark {c : KvCell κ} {pos : ℕ} {s s' : ℤ} :
    s' ∈ (c.mark pos s).seqId ↔ s' = s ∨ s' ∈ c.seqId := by
  simp [mark]

end KvCell

namespace KvCache

/-- `whisper_kv_cache_clear`, where `zero` is what the cleared buffer holds -/
def clear (zero : κ) (cache : KvCache κ) : KvCache κ where
  head := 0
  cells := cache.cells.map fun _ => ⟨-1, ∅, zero, by simp⟩

/-- The cells that `whisper_kv_cache_seq_rm` removes the sequence from. -/
def Removes (seqId p0 p1 : ℤ) (c : KvCell κ) : Prop :=
  p0 ≤ c.pos ∧ c.pos < p1 ∧ (seqId < 0 ∨ seqId ∈ c.seqId)

instance (seqId p0 p1 : ℤ) (c : KvCell κ) : Decidable (Removes seqId p0 p1 c) :=
  inferInstanceAs (Decidable (_ ∧ _))

def rmCell (seqId p0 p1 : ℤ) (c : KvCell κ) : KvCell κ :=
  if Removes seqId p0 p1 c then c.remove seqId else c

/-- `whisper_kv_cache_seq_rm` sets the head to the first cell that becomes free. -/
def seqRm (seqId p0 p1 : ℤ) (cache : KvCache κ) : KvCache κ :=
  let p0 := if p0 < 0 then 0 else p0
  let p1 := if p1 < 0 then maxPos else p1
  { head := (cache.cells.findIdx? fun c =>
      Removes seqId p0 p1 c ∧ (c.remove seqId).seqId = ∅).getD cache.head
    cells := cache.cells.map (rmCell seqId p0 p1) }

def cpCell (seqIdSrc seqIdDst p0 p1 : ℤ) (c : KvCell κ) : KvCell κ :=
  if h : seqIdSrc ∈ c.seqId ∧ p0 ≤ c.pos ∧ c.pos < p1 then
    c.share seqIdDst (KvCell.pos_nonneg h.1)
  else c

/-- `whisper_kv_cache_seq_cp` -/
def seqCp (seqIdSrc seqIdDst p0 p1 : ℤ) (cache : KvCache κ) : KvCache κ :=
  let p0 := if p0 < 0 then 0 else p0
  let p1 := if p1 < 0 then maxPos else p1
  { head := 0
    cells := cache.cells.map (cpCell seqIdSrc seqIdDst p0 p1) }

end KvCache

/-! ### The search for free cells -/

/-- One turn of the loop of `whisper_kv_cache_find_slot`, from the head and `n_tested`, to
whether it found cells and where. -/
def slotStep (cells : List (KvCell κ)) (n : ℕ) (s : ℕ × ℕ) : (ℕ × ℕ) ⊕ (Bool × ℕ) :=
  if cells.length < s.1 + n then .inl (0, s.2 + (cells.length - s.1))
  else
    match ((cells.drop s.1).take n).findIdx? fun c => 0 ≤ c.pos with
    | none => .inr (true, s.1)
    | some i =>
      if cells.length ≤ s.2 + (i + 1) then .inr (false, s.1 + (i + 1))
      else .inl (s.1 + (i + 1), s.2 + (i + 1))

/-- The search of `whisper_kv_cache_find_slot`, which goes twice through all cells at most. -/
def findSlot (cells : List (KvCell κ)) (n head : ℕ) : Option ℕ :=
  if cells.length < n then none
  else
    match Loop.runFor (slotStep cells n) (2 * cells.length + 2) (head, 0) with
    | some (true, found) => some found
    | _ => none

/-- There are `n` free cells from the given one on. -/
def FreeAt (cells : List (KvCell κ)) (n start : ℕ) : Prop :=
  start + n ≤ cells.length ∧ ∀ c ∈ (cells.drop start).take n, c.pos < 0

section FindSlot

variable {cells : List (KvCell κ)} {n head start : ℕ} {s s' : ℕ × ℕ}

/-- A cell in use stands in the way of all runs of cells around it. -/
theorem not_freeAt_of_used {i : ℕ} (hused : ∃ c ∈ cells[start + i]?, 0 ≤ c.pos) {other : ℕ}
    (hle : start ≤ other) (hlt : other ≤ start + i) (hn : i < n) : ¬ FreeAt cells n other := by
  intro ⟨_, hfree⟩
  obtain ⟨c, hc, hpos⟩ := hused
  have hmem : c ∈ (cells.drop other).take n := by
    rw [List.mem_iff_getElem?]
    refine ⟨start + i - other, ?_⟩
    rw [List.getElem?_take, if_pos (by omega), List.getElem?_drop]
    have hindex : other + (start + i - other) = start + i := by omega
    rwa [hindex]
  exact absurd (hfree c hmem) (not_lt.mpr hpos)

/-- How far the search has come: on its first way, after the end, or past all cells. -/
def Searched (cells : List (KvCell κ)) (n head : ℕ) (s : ℕ × ℕ) : Prop :=
  s.1 ≤ cells.length ∧
    ((s.1 = head + s.2 ∧ ∀ start, head ≤ start → start < s.1 → ¬ FreeAt cells n start) ∨
      (head + s.2 = cells.length + s.1 ∧
        (∀ start, head ≤ start → ¬ FreeAt cells n start) ∧
        ∀ start < s.1, ¬ FreeAt cells n start) ∨
      ∀ start, ¬ FreeAt cells n start)

theorem used_of_findIdx? {i : ℕ}
    (h : ((cells.drop start).take n).findIdx? (fun c => 0 ≤ c.pos) = some i) :
    i < n ∧ ∃ c ∈ cells[start + i]?, 0 ≤ c.pos := by
  obtain ⟨hlt, hpos, -⟩ := List.findIdx?_eq_some_iff_getElem.mp h
  have hget : ((cells.drop start).take n)[i]? = some ((cells.drop start).take n)[i] :=
    List.getElem?_eq_getElem hlt
  rw [List.length_take] at hlt
  rw [List.getElem?_take, if_pos (by omega), List.getElem?_drop] at hget
  exact ⟨by omega, _, hget, by simpa using hpos⟩

/-- A turn that goes on does so from the first cell, or behind a cell in use. -/
theorem slotStep_inl (h : slotStep cells n s = .inl s') :
    (cells.length < s.1 + n ∧ s' = (0, s.2 + (cells.length - s.1))) ∨
      (s.1 + n ≤ cells.length ∧ ∃ i < n, (∃ c ∈ cells[s.1 + i]?, 0 ≤ c.pos) ∧
        s' = (s.1 + (i + 1), s.2 + (i + 1)) ∧ s.2 + (i + 1) < cells.length) := by
  rw [slotStep] at h
  split_ifs at h with hend
  · exact Or.inl ⟨hend, (Sum.inl.inj h).symm⟩
  · refine Or.inr ⟨not_lt.mp hend, ?_⟩
    split at h
    · simp at h
    · rename_i i hi
      obtain ⟨hlt, hused⟩ := used_of_findIdx? hi
      split_ifs at h with hall
      exact ⟨i, hlt, hused, (Sum.inl.inj h).symm, not_le.mp hall⟩

theorem slotStep_inr {found : Bool} {at' : ℕ} (h : slotStep cells n s = .inr (found, at')) :
    (found = true ∧ at' = s.1 ∧ FreeAt cells n at') ∨
      (found = false ∧ s.1 + n ≤ cells.length ∧ ∃ i < n, (∃ c ∈ cells[s.1 + i]?, 0 ≤ c.pos) ∧
        cells.length ≤ s.2 + (i + 1)) := by
  rw [slotStep] at h
  split_ifs at h with hend
  split at h
  · rename_i hnone
    obtain ⟨rfl, rfl⟩ := Prod.mk.inj (Sum.inr.inj h)
    refine Or.inl ⟨rfl, rfl, not_lt.mp hend, fun c hc => ?_⟩
    have hfree := List.findIdx?_eq_none_iff.mp hnone c hc
    simpa using hfree
  · rename_i i hi
    obtain ⟨hlt, hused⟩ := used_of_findIdx? hi
    split_ifs at h with hall
    obtain ⟨rfl, -⟩ := Prod.mk.inj (Sum.inr.inj h)
    exact Or.inr ⟨rfl, not_lt.mp hend, i, hlt, hused, hall⟩

/-- Behind a cell in use no run of cells that starts before it is left out. -/
theorem not_freeAt_of_step {i : ℕ} (hi : i < n) (hused : ∃ c ∈ cells[s.1 + i]?, 0 ≤ c.pos)
    {bound : ℕ} (hbefore : ∀ start, bound ≤ start → start < s.1 → ¬ FreeAt cells n start) :
    ∀ start, bound ≤ start → start < s.1 + (i + 1) → ¬ FreeAt cells n start := by
  intro start hbound hstart
  rcases lt_or_ge start s.1 with hlt | hge
  · exact hbefore start hbound hlt
  · exact not_freeAt_of_used hused hge (by omega) hi

theorem Searched.step (h : Searched cells n head s) (hstep : slotStep cells n s = .inl s') :
    Searched cells n head s' := by
  obtain ⟨hle, hphase⟩ := h
  rcases slotStep_inl hstep with ⟨hend, rfl⟩ | ⟨hroom, i, hi, hused, rfl, -⟩
  · -- nothing that starts here or later fits before the end
    have hlate : ∀ start, s.1 ≤ start → ¬ FreeAt cells n start := fun start hstart hfree => by
      have := hfree.1
      omega
    refine ⟨Nat.zero_le _, Or.inr ?_⟩
    rcases hphase with ⟨heq, hfirst⟩ | ⟨heq, hsecond, hbegin⟩ | hall
    · refine Or.inl ⟨by dsimp only; omega, fun start hstart => ?_, fun start hstart => ?_⟩
      · rcases lt_or_ge start s.1 with hlt | hge
        · exact hfirst start hstart hlt
        · exact hlate start hge
      · exact absurd hstart (Nat.not_lt_zero _)
    · refine Or.inr fun start => ?_
      rcases lt_or_ge start s.1 with hlt | hge
      · exact hbegin start hlt
      · exact hlate start hge
    · exact Or.inr hall
  · refine ⟨by dsimp only; omega, ?_⟩
    rcases hphase with ⟨heq, hfirst⟩ | ⟨heq, hsecond, hbegin⟩ | hall
    · exact Or.inl ⟨by dsimp only; omega, not_freeAt_of_step hi hused hfirst⟩
    · refine Or.inr (Or.inl ⟨by dsimp only; omega, hsecond, fun start hstart => ?_⟩)
      exact not_freeAt_of_step hi hused (fun other _ hlt => hbegin other hlt) start
        (Nat.zero_le _) hstart
    · exact Or.inr (Or.inr hall)

theorem Searched.failed (h : Searched cells n head s) {at' : ℕ}
    (hstep : slotStep cells n s = .inr (false, at')) : ∀ start, ¬ FreeAt cells n start := by
  obtain ⟨hle, hphase⟩ := h
  obtain ⟨-, hroom, i, hi, hused, htested⟩ := (slotStep_inr hstep).resolve_left (by simp)
  intro start
  rcases hphase with ⟨heq, hfirst⟩ | ⟨heq, hsecond, hbegin⟩ | hall
  · -- the first way has gone through all cells, so it started at the first one
    intro hfree
    refine not_freeAt_of_step hi hused hfirst start ?_ ?_ hfree
    · omega
    · have := hfree.1
      omega
  · rcases lt_or_ge start head with hlt | hge
    · exact not_freeAt_of_step hi hused (fun other _ hlt => hbegin other hlt) start
        (Nat.zero_le _) (by omega)
    · exact hsecond start hge
  · exact hall start

/-- The search ends within the turns of `findSlot`. -/
theorem exists_runFor_slotStep (hn : n ≤ cells.length) (hhead : head ≤ cells.length) :
    ∃ r, Loop.runFor (slotStep cells n) (2 * cells.length + 2) (head, 0) = some r := by
  -- a turn that starts over is followed by one that tests a cell
  refine Loop.exists_runFor_of_measure (I := fun s => s.1 ≤ cells.length)
    (fun s => 2 * (cells.length - s.2) + if cells.length < s.1 + n then 1 else 0) ?_ hhead ?_
  · intro s s' hs hnext
    rcases slotStep_inl hnext with ⟨hend, rfl⟩ | ⟨hroom, i, hi, -, rfl, htested⟩
    · refine ⟨Nat.zero_le _, ?_⟩
      rw [if_pos hend, if_neg (by dsimp only; omega)]
      dsimp only
      omega
    · refine ⟨by dsimp only; omega, ?_⟩
      rw [if_neg (not_lt.mpr hroom)]
      dsimp only
      split_ifs <;> omega
  · dsimp only
    split_ifs <;> omega

/-- The cells that a batch takes are free. -/
theorem findSlot_some {found : ℕ} (h : findSlot cells n head = some found) :
    FreeAt cells n found := by
  rw [findSlot] at h
  split_ifs at h with hn
  split at h
  · rename_i found' hrun
    obtain rfl := Option.some_inj.mp h
    obtain ⟨t, -, hdone⟩ := Loop.exists_reaches_of_runFor hrun
    obtain ⟨-, -, hfree⟩ := (slotStep_inr hdone).resolve_right (by simp)
    exact hfree
  · simp at h

/-- The search fails only if there are not enough free cells next to each other. -/
theorem findSlot_none_iff (hhead : head ≤ cells.length) :
    findSlot cells n head = none ↔ ∀ start, ¬ FreeAt cells n start := by
  constructor
  · intro hnone start hfree
    have hn : n ≤ cells.length := by
      have := hfree.1
      omega
    rw [findSlot, if_neg (not_lt.mpr hn)] at hnone
    obtain ⟨⟨found, at'⟩, hrun⟩ := exists_runFor_slotStep hn hhead
    rw [hrun] at hnone
    cases found with
    | true => simp at hnone
    | false =>
      obtain ⟨t, hreach, hdone⟩ := Loop.exists_reaches_of_runFor hrun
      have hsearched : Searched cells n head t :=
        hreach.invariant (fun _ _ h hnext => h.step hnext)
          ⟨hhead, Or.inl ⟨rfl, fun start hle hlt => absurd hlt (not_lt.mpr hle)⟩⟩
      exact hsearched.failed hdone start hfree
  · intro hnone
    cases hfound : findSlot cells n head with
    | none => rfl
    | some found => exact absurd (findSlot_some hfound) (hnone found)

/-- The search takes no cells behind the first ones that are free. -/
theorem findSlot_le {found : ℕ} (h : findSlot cells n head = some found)
    (hstart : head ≤ start) (hfree : FreeAt cells n start) : found ≤ start := by
  rw [findSlot] at h
  split_ifs at h with hn
  split at h
  · rename_i found' hrun
    obtain rfl := Option.some_inj.mp h
    obtain ⟨t, hreach, hdone⟩ := Loop.exists_reaches_of_runFor hrun
    obtain ⟨-, rfl, -⟩ := (slotStep_inr hdone).resolve_right (by simp)
    have hsearched : Searched cells n head t :=
      hreach.invariant (fun _ _ h hnext => h.step hnext)
        ⟨hstart.trans (by have := hfree.1; omega),
          Or.inl ⟨rfl, fun start hle hlt => absurd hlt (not_lt.mpr hle)⟩⟩
    rcases hsearched.2 with ⟨-, hfirst⟩ | ⟨-, hsecond, -⟩ | hall
    · by_contra! hlt
      exact hfirst start hstart hlt hfree
    · exact absurd hfree (hsecond start hstart)
    · exact absurd hfree (hall start)
  · simp at h

end FindSlot

/-! ### Sequences -/

/-- `WHISPER_MAX_DECODERS` -/
def maxDecoders : ℕ := 8

/-- The sequence in which the cells for a decoder are put aside. -/
def asideSeq (j : ℤ) : ℤ := maxDecoders + j

namespace KvCache

/-- The caches of a beam search: the cells of a decoder's source are put aside for it, and
then every decoder takes over its own. A move is a decoder and its source. -/
def copyBeams (moves : List (ℤ × ℤ)) (cache : KvCache κ) : KvCache κ :=
  moves.foldl (fun cache m =>
      ((cache.seqRm m.1 (-1) (-1)).seqCp (asideSeq m.1) m.1 (-1) (-1)).seqRm
        (asideSeq m.1) (-1) (-1))
    (moves.foldl (fun cache m => cache.seqCp m.2 (asideSeq m.1) (-1) (-1)) cache)

/-- The positions and values of a sequence. -/
def held (cache : KvCache κ) (s : ℤ) : Multiset (ℤ × κ) :=
  view KvCell.seqId (fun c => (c.pos, c.value)) s cache.cells

/-- No position is too large for the ranges of the operations. -/
def Bounded (cache : KvCache κ) : Prop := ∀ c ∈ cache.cells, c.pos < maxPos

variable {cache : KvCache κ} {s d : ℤ}

theorem held_clear (zero : κ) (s : ℤ) : (cache.clear zero).held s = 0 := by
  simp [held, clear, view_eq_zero_iff]

theorem bounded_clear (zero : κ) : (cache.clear zero).Bounded := by
  intro c hc
  obtain ⟨-, -, rfl⟩ := List.mem_map.mp hc
  simp [maxPos]

theorem seqRm_cells :
    (cache.seqRm s (-1) (-1)).cells = cache.cells.map (rmCell s 0 maxPos) := rfl

theorem seqCp_cells :
    (cache.seqCp s d (-1) (-1)).cells = cache.cells.map (cpCell s d 0 maxPos) := rfl

theorem mem_seqId_rmCell {c : KvCell κ} (hs : 0 ≤ s) (hc : c.pos < maxPos) {o : ℤ} :
    o ∈ (rmCell s 0 maxPos c).seqId ↔ o ≠ s ∧ o ∈ c.seqId := by
  have hremoves : Removes s 0 maxPos c ↔ s ∈ c.seqId :=
    ⟨fun h => h.2.2.resolve_left (not_lt.mpr hs), fun h => ⟨KvCell.pos_nonneg h, hc, Or.inr h⟩⟩
  rw [rmCell]
  split_ifs with hrm
  · rw [KvCell.remove]
    split_ifs with hnil
    · rw [← Finset.mem_erase, hnil.resolve_left (not_lt.mpr hs)]
      rfl
    · exact Finset.mem_erase
  · rw [hremoves] at hrm
    have hne : o ∈ c.seqId → o ≠ s := fun ho heq => by
      subst heq
      exact hrm ho
    exact (and_iff_right_of_imp hne).symm

theorem entry_rmCell {c : KvCell κ} {o : ℤ} (ho : o ∈ (rmCell s 0 maxPos c).seqId) :
    ((rmCell s 0 maxPos c).pos, (rmCell s 0 maxPos c).value) = (c.pos, c.value) := by
  rw [rmCell, KvCell.remove] at ho ⊢
  split_ifs at ho ⊢
  · simp [KvCell.free] at ho
  all_goals rfl

theorem mem_seqId_cpCell {c : KvCell κ} (hc : c.pos < maxPos) {o : ℤ} :
    o ∈ (cpCell s d 0 maxPos c).seqId ↔ (o = d ∧ s ∈ c.seqId) ∨ o ∈ c.seqId := by
  rw [cpCell]
  split_ifs with h
  · simp [KvCell.share, h.1]
  · have hs : s ∉ c.seqId := fun hs => h ⟨hs, KvCell.pos_nonneg hs, hc⟩
    simp [hs]

theorem entry_cpCell (c : KvCell κ) :
    ((cpCell s d 0 maxPos c).pos, (cpCell s d 0 maxPos c).value) = (c.pos, c.value) := by
  rw [cpCell]
  split_ifs <;> rfl

/-- Removing a sequence leaves all others as they are. -/
theorem held_seqRm (hs : 0 ≤ s) (hbounded : cache.Bounded) :
    (cache.seqRm s (-1) (-1)).held = Function.update cache.held s 0 := by
  funext o
  rw [held, seqRm_cells]
  by_cases ho : o = s
  · subst ho
    rw [Function.update_self, view_eq_zero_iff]
    intro c hc
    obtain ⟨c', hc', rfl⟩ := List.mem_map.mp hc
    exact fun hmem => ((mem_seqId_rmCell hs (hbounded c' hc')).mp hmem).1 rfl
  · rw [Function.update_of_ne ho]
    refine view_map (fun c hc => ?_) fun c hc hmem => ?_
    · rw [mem_seqId_rmCell hs (hbounded c hc), and_iff_right ho]
    · exact entry_rmCell ((mem_seqId_rmCell hs (hbounded c hc)).mpr ⟨ho, hmem⟩)

/-- A sequence without cells takes over those of another. -/
theorem held_seqCp (hbounded : cache.Bounded) (hempty : cache.held d = 0) :
    (cache.seqCp s d (-1) (-1)).held = Function.update cache.held d (cache.held s) := by
  have hfree := view_eq_zero_iff.mp hempty
  funext o
  rw [held, seqCp_cells]
  by_cases ho : o = d
  · subst ho
    rw [Function.update_self]
    refine view_map (fun c hc => ?_) fun c _ _ => entry_cpCell c
    rw [mem_seqId_cpCell (hbounded c hc)]
    simp [hfree c hc]
  · rw [Function.update_of_ne ho]
    refine view_map (fun c hc => ?_) fun c _ _ => entry_cpCell c
    rw [mem_seqId_cpCell (hbounded c hc)]
    simp [ho]

theorem Bounded.seqRm (h : cache.Bounded) : (cache.seqRm s (-1) (-1)).Bounded := by
  intro c hc
  obtain ⟨c', hc', rfl⟩ := List.mem_map.mp hc
  have hpos := h c' hc'
  show (rmCell s 0 maxPos c').pos < maxPos
  rw [rmCell, KvCell.remove]
  split_ifs
  · exact (show (-1 : ℤ) < maxPos by decide)
  all_goals exact hpos

theorem Bounded.seqCp (h : cache.Bounded) : (cache.seqCp s d (-1) (-1)).Bounded := by
  intro c hc
  obtain ⟨c', hc', rfl⟩ := List.mem_map.mp hc
  have hpos : (cpCell s d 0 maxPos c').pos = c'.pos := congrArg Prod.fst (entry_cpCell c')
  show (cpCell s d 0 maxPos c').pos < maxPos
  rw [hpos]
  exact h c' hc'

section CopyBeams

variable {moves : List (ℤ × ℤ)}

theorem held_putAside (hseparate : Separate asideSeq moves) (hbounded : cache.Bounded)
    (haside : ∀ m ∈ moves, cache.held (asideSeq m.1) = 0) :
    let cache' := moves.foldl (fun cache m => cache.seqCp m.2 (asideSeq m.1) (-1) (-1)) cache
    cache'.held =
        moves.foldl (fun f m => Function.update f (asideSeq m.1) (f m.2)) cache.held ∧
      cache'.Bounded := by
  induction moves generalizing cache with
  | nil => exact ⟨rfl, hbounded⟩
  | cons m moves ih =>
    have hfirst := held_seqCp (s := m.2) hbounded (haside m List.mem_cons_self)
    simp only [List.foldl_cons]
    rw [← hfirst]
    refine ih hseparate.tail hbounded.seqCp fun a ha => ?_
    rw [hfirst, Function.update_of_ne (hseparate.ne_of_mem ha).2]
    exact haside a (List.mem_cons_of_mem _ ha)

/-- A decoder takes over the cells that were put aside for it. -/
theorem held_takeOver {j : ℤ} (hj : 0 ≤ j) (hbounded : cache.Bounded) :
    (((cache.seqRm j (-1) (-1)).seqCp (asideSeq j) j (-1) (-1)).seqRm (asideSeq j) (-1) (-1)).held =
      Function.update (Function.update cache.held j (cache.held (asideSeq j))) (asideSeq j) 0 := by
  have hne : asideSeq j ≠ j := by
    rw [asideSeq, maxDecoders]
    omega
  have hempty : (cache.seqRm j (-1) (-1)).held j = 0 := by
    rw [held_seqRm hj hbounded, Function.update_self]
  rw [held_seqRm (by rw [asideSeq, maxDecoders]; omega) hbounded.seqRm.seqCp,
    held_seqCp hbounded.seqRm hempty, held_seqRm hj hbounded, Function.update_of_ne hne,
    Function.update_idem]

/-- The copies of a beam search are simultaneous: every decoder gets what its source held,
although the source may get the cells of another. -/
theorem held_copyBeams (hseparate : Separate asideSeq moves) (hnonneg : ∀ m ∈ moves, 0 ≤ m.1)
    (hbounded : cache.Bounded) (haside : ∀ m ∈ moves, cache.held (asideSeq m.1) = 0) :
    (cache.copyBeams moves).held = assignThrough asideSeq moves cache.held ∧
      (cache.copyBeams moves).Bounded := by
  obtain ⟨hsaved, hboundedSaved⟩ := held_putAside hseparate hbounded haside
  rw [copyBeams, assignThrough, ← hsaved]
  revert hboundedSaved
  generalize moves.foldl (fun cache m => cache.seqCp m.2 (asideSeq m.1) (-1) (-1)) cache = saved
  clear hsaved haside hseparate
  intro hboundedSaved
  induction moves generalizing saved with
  | nil => exact ⟨rfl, hboundedSaved⟩
  | cons m moves ih =>
    simp only [List.foldl_cons]
    rw [← held_takeOver (hnonneg m List.mem_cons_self) hboundedSaved]
    exact ih (fun a ha => hnonneg a (List.mem_cons_of_mem _ ha)) _
      hboundedSaved.seqRm.seqCp.seqRm

end CopyBeams

end KvCache

end WhisperAndroid.Decode
