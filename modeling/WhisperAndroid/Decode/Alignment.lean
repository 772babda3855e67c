import Mathlib.Algebra.Order.Monoid.WithTop
import Mathlib.Algebra.Order.Ring.Nat
import WhisperAndroid.Support.Loop
import WhisperAndroid.Support.Table

/-!
# The alignment of tokens with the audio

`dtw_and_backtrace`: from the matrix of attentions of tokens to frames, a table of costs is
filled, and the path that led to its last cell is written backwards into `N + M - 1` rows. An
abort and a row outside `bt` are no result. No value of the matrix is NaN or infinite, and
no sum overflows.

## Main results

* `dtw_returns_path` — when there is a result, and that it is a path from the first token
  and frame to the last, with the cost in the last cell
* `dtw_cheapest_iff` — which ties lead to a path that is not a cheapest
-/

namespace WhisperAndroid.Decode

open Table

section Dtw

variable {F : Type} [LinearOrder F] [Zero F] [Add F]

/-- An entry of `cost` with that of `trace`, tensors of the same shape. -/
structure DtwCell (F : Type) where
  cost : WithTop F
  trace : ℤ

/-- The tensors before the loops. -/
def dtwInit (p : ℕ × ℕ) : DtwCell F := ⟨if p = (0, 0) then 0 else ⊤, -1⟩

/-- The values of `c` and `t` after the comparisons. -/
def dtwChoice (c0 c1 c2 : WithTop F) : DtwCell F :=
  if c0 < c1 ∧ c0 < c2 then ⟨c0, 0⟩
  else if c1 < c0 ∧ c1 < c2 then ⟨c1, 1⟩
  else ⟨c2, 2⟩

/-- What the loops write into a cell. -/
def dtwCell (x : ℕ × ℕ → F) (t : ℕ × ℕ → DtwCell F) (p : ℕ × ℕ) : DtwCell F :=
  let chosen := dtwChoice (t (p.1 - 1, p.2 - 1)).cost (t (p.1 - 1, p.2)).cost
    (t (p.1, p.2 - 1)).cost
  ⟨x (p.1 - 1, p.2 - 1) + chosen.cost, chosen.trace⟩

/-- The cells in the order of the two loops. -/
def dtwOrder (N M : ℕ) : List (ℕ × ℕ) :=
  (List.range M).flatMap fun j => (List.range N).map fun i => (i + 1, j + 1)

/-- The tensors after the loops. -/
def dtwTable (x : ℕ × ℕ → F) (N M : ℕ) : ℕ × ℕ → DtwCell F :=
  fill (dtwCell x) (dtwOrder N M) dtwInit

/-- `trace` with its first row and then its first column overwritten -/
def dtwTrace (x : ℕ × ℕ → F) (N M : ℕ) (p : ℕ × ℕ) : ℤ :=
  if p.2 = 0 then 1 else if p.1 = 0 then 2 else (dtwTable x N M p).trace

/-- The backtrace on its way, with the rows of `bt` behind `bt_row_idx`. -/
structure Backtrace where
  i : ℕ
  j : ℕ
  rows : List (ℤ × ℤ)

/-- A round of the backtrace. The row is written if `bt_row_idx` has not become negative. -/
def backtraceStep (maxRows : ℤ) (trace : ℕ × ℕ → ℤ) (s : Backtrace) :
    Backtrace ⊕ Option (List (ℤ × ℤ)) :=
  if 0 < s.i ∨ 0 < s.j then
    if s.rows.length < maxRows then
      let rows := ((s.i : ℤ) - 1, (s.j : ℤ) - 1) :: s.rows
      if trace (s.i, s.j) = 0 then .inl ⟨s.i - 1, s.j - 1, rows⟩
      else if trace (s.i, s.j) = 1 then .inl ⟨s.i - 1, s.j, rows⟩
      else if trace (s.i, s.j) = 2 then .inl ⟨s.i, s.j - 1, rows⟩
      else .inr none
    else .inr none
  else .inr (some s.rows)

/-- `BT_MAX_ROWS` -/
def btMaxRows (N M : ℕ) : ℤ := N + M - 1

/-- `dtw_and_backtrace` returns the rows: the assertion holds, as `ggml_n_dims` is 2 only for
more than one row, and the backtrace comes to its end. -/
def DtwReturns (x : ℕ × ℕ → F) (N M : ℕ) (rows : List (ℤ × ℤ)) : Prop :=
  1 < M ∧ Loop.Returns (backtraceStep (btMaxRows N M) (dtwTrace x N M)) ⟨N, M, []⟩ (some rows)

variable {x : ℕ × ℕ → F} {N M i j : ℕ}

/-! ### The table -/

theorem mem_dtwOrder {p : ℕ × ℕ} :
    p ∈ dtwOrder N M ↔ 0 < p.1 ∧ p.1 ≤ N ∧ 0 < p.2 ∧ p.2 ≤ M := by
  obtain ⟨i, j⟩ := p
  simp only [dtwOrder, List.mem_flatMap, List.mem_map, List.mem_range, Prod.mk.injEq]
  constructor
  · rintro ⟨j', hj, i', hi, rfl, rfl⟩
    omega
  · rintro ⟨hi, hiN, hj, hjM⟩
    exact ⟨j - 1, by omega, i - 1, by omega, by omega, by omega⟩

/-- The order of the cells: column after column. -/
def Earlier (p q : ℕ × ℕ) : Prop := p.2 < q.2 ∨ p.2 = q.2 ∧ p.1 < q.1

theorem dtwOrder_earlier : (dtwOrder N M).Pairwise Earlier := by
  rw [dtwOrder, List.pairwise_flatMap]
  refine ⟨fun j _ => ?_, ?_⟩
  · rw [List.pairwise_map]
    exact List.pairwise_lt_range.imp fun h => .inr ⟨rfl, Nat.succ_lt_succ h⟩
  · refine List.pairwise_lt_range.imp fun h p hp q hq => .inl ?_
    obtain ⟨i, -, rfl⟩ := List.mem_map.mp hp
    obtain ⟨i', -, rfl⟩ := List.mem_map.mp hq
    exact Nat.succ_lt_succ h

theorem dtwTable_inner (hi : i < N) (hj : j < M) :
    dtwTable x N M (i + 1, j + 1) = dtwCell x (dtwTable x N M) (i + 1, j + 1) := by
  refine fill_apply (r := Earlier) ?_ dtwOrder_earlier ?_ (mem_dtwOrder.mpr ?_)
  · intro p q h h'
    rw [Earlier] at h h'
    omega
  · intro p hp t t' h
    rw [mem_dtwOrder] at hp
    have hfirst : p.1 - 1 < p.1 := Nat.sub_lt hp.1 one_pos
    have hsecond : p.2 - 1 < p.2 := Nat.sub_lt hp.2.2.1 one_pos
    rw [dtwCell, dtwCell, h (p.1 - 1, p.2 - 1) (.inl hsecond),
      h (p.1 - 1, p.2) (.inr ⟨rfl, hfirst⟩), h (p.1, p.2 - 1) (.inl hsecond)]
  · exact ⟨i.succ_pos, hi, j.succ_pos, hj⟩

/-- The cost in a cell, with that of the cell of `x` it belongs to included. -/
def dtwCost (x : ℕ × ℕ → F) (N M i j : ℕ) : WithTop F := (dtwTable x N M (i, j)).cost

theorem dtwCost_zero : dtwCost x N M 0 0 = 0 := by
  rw [dtwCost, dtwTable, fill_of_notMem (by simp [mem_dtwOrder])]
  rfl

theorem dtwCost_zero_left : dtwCost x N M 0 (j + 1) = ⊤ := by
  rw [dtwCost, dtwTable, fill_of_notMem (by simp [mem_dtwOrder])]
  simp [dtwInit]

theorem dtwCost_zero_right : dtwCost x N M (i + 1) 0 = ⊤ := by
  rw [dtwCost, dtwTable, fill_of_notMem (by simp [mem_dtwOrder])]
  simp [dtwInit]

/-- The choice in an inner cell. -/
def dtwChosen (x : ℕ × ℕ → F) (N M i j : ℕ) : DtwCell F :=
  dtwChoice (dtwCost x N M i j) (dtwCost x N M i (j + 1)) (dtwCost x N M (i + 1) j)

theorem dtwTable_succ (hi : i < N) (hj : j < M) : dtwTable x N M (i + 1, j + 1) =
    ⟨x (i, j) + (dtwChosen x N M i j).cost, (dtwChosen x N M i j).trace⟩ :=
  dtwTable_inner hi hj

theorem dtwCost_succ (hi : i < N) (hj : j < M) :
    dtwCost x N M (i + 1) (j + 1) = x (i, j) + (dtwChosen x N M i j).cost := by
  rw [dtwCost, dtwTable_succ hi hj]

theorem dtwTrace_succ (hi : i < N) (hj : j < M) :
    dtwTrace x N M (i + 1, j + 1) = (dtwChosen x N M i j).trace := by
  rw [dtwTrace, if_neg (Nat.succ_ne_zero j), if_neg (Nat.succ_ne_zero i), dtwTable_succ hi hj]

/-- The entry of `trace` in a cell, by the cell it leads back to. -/
inductive Traced : ℤ → ℕ × ℕ → ℕ × ℕ → Prop
  | both (i j : ℕ) : Traced 0 (i, j) (i + 1, j + 1)
  | first (i j : ℕ) : Traced 1 (i, j) (i + 1, j)
  | second (i j : ℕ) : Traced 2 (i, j) (i, j + 1)

theorem Traced.forward {t : ℤ} {p q : ℕ × ℕ} (h : Traced t p q) : Forward p q := by
  cases h with
  | both i j => exact .both i j
  | first i j => exact .first i j
  | second i j => exact .second i j

/-- The choice in an inner cell leads to a cell with a finite cost, so not out of the grid. -/
theorem dtwChosen_cases
    (hfinite : ∀ p, Forward p (i, j) → dtwCost x N M (p.1 + 1) (p.2 + 1) ≠ ⊤) :
    (i = 0 ∧ j = 0 ∧ dtwChosen x N M i j = ⟨0, 0⟩) ∨
    ∃ t p, Traced t p (i, j) ∧
      dtwChosen x N M i j = ⟨dtwCost x N M (p.1 + 1) (p.2 + 1), t⟩ := by
  rw [dtwChosen]
  match i, j with
  | 0, 0 =>
    rw [dtwCost_zero, dtwCost_zero_left, dtwCost_zero_right]
    exact .inl ⟨rfl, rfl, by simp [dtwChoice]⟩
  | i + 1, 0 =>
    -- only the cell before in the first direction is inside
    have hlt := lt_top_iff_ne_top.mpr (hfinite _ (.first i 0))
    rw [dtwCost_zero_right, dtwCost_zero_right]
    exact .inr ⟨1, _, .first i 0, by simp_all [dtwChoice]⟩
  | 0, j + 1 =>
    rw [dtwCost_zero_left, dtwCost_zero_left]
    exact .inr ⟨2, _, .second 0 j, by simp [dtwChoice]⟩
  | i + 1, j + 1 =>
    unfold dtwChoice
    split_ifs
    · exact .inr ⟨0, _, .both i j, rfl⟩
    · exact .inr ⟨1, _, .first i (j + 1), rfl⟩
    · exact .inr ⟨2, _, .second (i + 1) j, rfl⟩

/-! ### The backtrace -/

/-- A cell in a row of `bt` -/
def pathRow (p : ℕ × ℕ) : ℤ × ℤ := (p.1, p.2)

variable {maxRows : ℤ} {trace : ℕ × ℕ → ℤ} {rows : List (ℤ × ℤ)}

theorem backtraceStep_inner {t : ℤ} {p : ℕ × ℕ} (htraced : Traced t p (i, j))
    (htrace : trace (i + 1, j + 1) = t) (hroom : rows.length < maxRows) :
    Loop.Next (backtraceStep maxRows trace) ⟨i + 1, j + 1, rows⟩
      ⟨p.1 + 1, p.2 + 1, pathRow (i, j) :: rows⟩ := by
  rw [Loop.next_iff, backtraceStep, if_pos (.inl i.succ_pos), if_pos hroom, htrace]
  cases htraced <;> simp [pathRow]

theorem backtraceStep_origin (htrace : trace (1, 1) = 0) (hroom : rows.length < maxRows) :
    Loop.Next (backtraceStep maxRows trace) ⟨1, 1, rows⟩ ⟨0, 0, pathRow (0, 0) :: rows⟩ := by
  rw [Loop.next_iff, backtraceStep, if_pos (.inl one_pos), if_pos hroom, htrace]
  simp [pathRow]

theorem returns_at_origin :
    Loop.Returns (backtraceStep maxRows trace) ⟨0, 0, rows⟩ (some rows) :=
  Loop.returns_of_done (by simp [backtraceStep])

/-- The path that leads to a cell: it has the cost of the cell, and the backtrace writes it in
front of the rows it has. -/
structure LedTo (x : ℕ × ℕ → F) (N M : ℕ) (p : ℕ × ℕ) (l : List (ℕ × ℕ)) : Prop where
  path : Route p l
  cost : dtwCost x N M (p.1 + 1) (p.2 + 1) = sum x l
  returns : ∀ (maxRows : ℤ) (rows : List (ℤ × ℤ)), rows.length + l.length ≤ maxRows →
    Loop.Returns (backtraceStep maxRows (dtwTrace x N M)) ⟨p.1 + 1, p.2 + 1, rows⟩
      (some (l.map pathRow ++ rows))

theorem exists_ledTo (hi : i < N) (hj : j < M) : ∃ l, LedTo x N M (i, j) l := by
  -- the cell before is nearer to the origin
  induction h : i + j using Nat.strong_induction_on generalizing i j with
  | _ n ih =>
    have before : ∀ p, Forward p (i, j) → ∃ l, LedTo x N M p l := by
      rintro p hp
      cases hp with
      | both i j => exact ih (i + j) (by omega) (by omega) (by omega) rfl
      | first i j => exact ih (i + j) (by omega) (by omega) (by omega) rfl
      | second i j => exact ih (i + j) (by omega) (by omega) (by omega) rfl
    have hfinite : ∀ p, Forward p (i, j) → dtwCost x N M (p.1 + 1) (p.2 + 1) ≠ ⊤ := by
      intro p hp
      obtain ⟨l, hl⟩ := before p hp
      rw [hl.cost]
      exact WithTop.coe_ne_top
    rcases dtwChosen_cases hfinite with ⟨rfl, rfl, hchosen⟩ | ⟨t, p, htraced, hchosen⟩
    · refine ⟨_, .origin, ?_, fun maxRows rows hroom => ?_⟩
      · rw [dtwCost_succ hi hj, hchosen]
        rfl
      · have htrace : dtwTrace x N M (1, 1) = 0 := by rw [dtwTrace_succ hi hj, hchosen]
        rw [List.length_singleton] at hroom
        rw [(backtraceStep_origin htrace (by omega)).returns_iff]
        exact returns_at_origin
    · obtain ⟨l, hl⟩ := before p htraced.forward
      refine ⟨_, hl.path.step htraced.forward, ?_, fun maxRows rows hroom => ?_⟩
      · rw [dtwCost_succ hi hj, hchosen, hl.cost, sum_concat, WithTop.coe_add]
      · have htrace : dtwTrace x N M (i + 1, j + 1) = t := by rw [dtwTrace_succ hi hj, hchosen]
        rw [List.length_append, List.length_singleton] at hroom
        rw [(backtraceStep_inner htraced htrace (by omega)).returns_iff, List.map_append,
          List.append_assoc]
        refine hl.returns _ _ ?_
        rw [List.length_cons]
        omega

theorem backtraceStep_edge (x : ℕ × ℕ → F) (N M j : ℕ) (maxRows : ℤ) (rows : List (ℤ × ℤ)) :
    backtraceStep maxRows (dtwTrace x N M) ⟨0, j + 1, rows⟩ =
      if rows.length < maxRows then .inl ⟨0, j, (-1, j) :: rows⟩ else .inr none := by
  simp [backtraceStep, dtwTrace]

/-- Along the edge every round writes a row. -/
theorem le_of_returns_edge {result : List (ℤ × ℤ)}
    (h : Loop.Returns (backtraceStep maxRows (dtwTrace x N M)) ⟨0, j + 1, rows⟩ (some result)) :
    rows.length + (j + 1) ≤ maxRows := by
  induction j generalizing rows with
  | zero =>
    by_contra hfull
    have hdone := backtraceStep_edge x N M 0 maxRows rows
    rw [if_neg (by omega)] at hdone
    cases (Loop.returns_done_iff hdone).mp h
  | succ j ih =>
    have hstep := backtraceStep_edge x N M (j + 1) maxRows rows
    split_ifs at hstep
    · have hlong := ih ((Loop.Next.returns_iff hstep).mp h)
      rw [List.length_cons] at hlong
      push_cast at hlong ⊢
      omega
    · cases (Loop.returns_done_iff hstep).mp h

/-! ### The result -/

theorem exists_dtwReturns (x : ℕ × ℕ → F) (hN : 0 < N) (hM : 1 < M) :
    ∃ l, Route (N - 1, M - 1) l ∧ DtwReturns x N M (l.map pathRow) ∧
      dtwCost x N M N M = sum x l := by
  obtain ⟨n, rfl⟩ := Nat.exists_eq_succ_of_ne_zero hN.ne'
  obtain ⟨m, rfl⟩ := Nat.exists_eq_succ_of_ne_zero (by omega : M ≠ 0)
  obtain ⟨l, hl⟩ := exists_ledTo (x := x) n.lt_succ_self m.lt_succ_self
  refine ⟨l, hl.path, ⟨hM, ?_⟩, hl.cost⟩
  have hreturns := hl.returns (btMaxRows (n + 1) (m + 1)) [] ?_
  · rwa [List.append_nil] at hreturns
  · have hlen := hl.path.length_le
    rw [btMaxRows]
    push_cast
    simp only [List.length_nil] at hlen ⊢
    omega

/-- Without tokens the rows are one too few for the frames. -/
theorem DtwReturns.pos (h : DtwReturns x N M rows) : 0 < N := by
  obtain ⟨hM, hrows⟩ := h
  by_contra hN
  obtain rfl : N = 0 := by omega
  obtain ⟨m, rfl⟩ := Nat.exists_eq_succ_of_ne_zero (by omega : M ≠ 0)
  have hlong := le_of_returns_edge hrows
  rw [btMaxRows, List.length_nil] at hlong
  push_cast at hlong
  omega

theorem DtwReturns.exists_route (h : DtwReturns x N M rows) :
    ∃ l, Route (N - 1, M - 1) l ∧ rows = l.map pathRow ∧ dtwCost x N M N M = sum x l := by
  obtain ⟨l, hroute, hl, hcost⟩ := exists_dtwReturns x h.pos h.1
  exact ⟨l, hroute, Option.some_inj.mp (h.2.unique hl.2), hcost⟩

/-- `dtw_and_backtrace` returns if there are tokens and more than one frame, and then a path
from the first token and frame to the last, which has the cost of the last cell. -/
theorem dtw_returns_path (x : ℕ × ℕ → F) (N M : ℕ) :
    ((∃ rows, DtwReturns x N M rows) ↔ 0 < N ∧ 1 < M) ∧
      ∀ rows, DtwReturns x N M rows → ∃ l, Route (N - 1, M - 1) l ∧ rows = l.map pathRow ∧
        dtwCost x N M N M = sum x l := by
  refine ⟨⟨?_, ?_⟩, fun rows h => h.exists_route⟩
  · rintro ⟨rows, h⟩
    exact ⟨h.pos, h.1⟩
  · rintro ⟨hN, hM⟩
    obtain ⟨l, -, h, -⟩ := exists_dtwReturns x hN hM
    exact ⟨_, h⟩

/-! ### Ties -/

/-- No two equal costs are taken for the larger third one, as they are if `c0 == c1`. -/
def Untied (x : ℕ × ℕ → F) (N M : ℕ) : Prop :=
  ∀ i < N, ∀ j < M, ¬ (dtwCost x N M i j = dtwCost x N M i (j + 1) ∧
    dtwCost x N M i j < dtwCost x N M (i + 1) j)

omit [Zero F] [Add F] in
theorem dtwChoice_le {c0 c1 c2 : WithTop F} (h : ¬ (c0 = c1 ∧ c0 < c2)) :
    (dtwChoice c0 c1 c2).cost ≤ c0 ∧ (dtwChoice c0 c1 c2).cost ≤ c1 ∧
      (dtwChoice c0 c1 c2).cost ≤ c2 := by
  unfold dtwChoice
  split_ifs <;> grind

omit [Zero F] [Add F] in
theorem dtwChoice_of_tie {c0 c1 c2 : WithTop F} (h : c0 = c1 ∧ c0 < c2) :
    (dtwChoice c0 c1 c2).cost = c2 := by
  obtain ⟨rfl, -⟩ := h
  simp [dtwChoice]

omit [LinearOrder F] in
theorem coe_sum (x : ℕ × ℕ → F) (l : List (ℕ × ℕ)) :
    ((sum x l : F) : WithTop F) = sum (fun p => (x p : WithTop F)) l := by
  induction l using List.reverseRecOn with
  | nil => rfl
  | append_singleton l p ih => rw [sum_concat, sum_concat, WithTop.coe_add, ih]

theorem le_sum_of_untied [AddLeftMono F] (h : Untied x N M) (hi : i < N) (hj : j < M)
    {l : List (ℕ × ℕ)} (hl : Route (i, j) l) : dtwCost x N M (i + 1) (j + 1) ≤ sum x l := by
  rw [coe_sum]
  refine hl.le_sum (t := fun p => dtwCost x N M (p.1 + 1) (p.2 + 1)) ?_ fun p r hforward hle => ?_
  · rw [dtwCost_succ (by omega) (by omega), dtwChosen, dtwCost_zero]
    refine add_le_add_right (dtwChoice_le ?_).1 _
    rw [← dtwCost_zero (x := x) (N := N) (M := M)]
    exact h 0 (by omega) 0 (by omega)
  · have hr : r.1 < N ∧ r.2 < M := ⟨hle.1.trans_lt hi, hle.2.trans_lt hj⟩
    have hchosen := dtwChoice_le (h r.1 hr.1 r.2 hr.2)
    rw [dtwCost_succ hr.1 hr.2]
    refine add_le_add_right ?_ _
    cases hforward with
    | both i j => exact hchosen.1
    | first i j => exact hchosen.2.1
    | second i j => exact hchosen.2.2

/-- Every cell has the cost of a cheapest path to it, just if there are no ties of this kind. -/
theorem dtw_cheapest_iff [AddLeftStrictMono F] (x : ℕ × ℕ → F) (N M : ℕ) :
    (∀ i < N, ∀ j < M, ∀ l, Route (i, j) l → dtwCost x N M (i + 1) (j + 1) ≤ sum x l) ↔
      Untied x N M := by
  constructor
  · intro h i hi j hj htie
    -- the tied costs are finite, so that there is a cell before
    have hne : dtwCost x N M i j ≠ ⊤ := htie.2.ne_top
    match i, j with
    | 0, j => exact hne (by rw [htie.1, dtwCost_zero_left])
    | i + 1, 0 => exact hne dtwCost_zero_right
    | i + 1, j + 1 =>
      obtain ⟨l, hl⟩ := exists_ledTo (x := x) (i.lt_succ_self.trans hi) (j.lt_succ_self.trans hj)
      have hle := h _ hi _ hj _ (hl.path.step (.both i j))
      rw [dtwCost_succ hi hj, dtwChosen, dtwChoice_of_tie htie, sum_concat, WithTop.coe_add,
        ← hl.cost] at hle
      exact hle.not_gt (WithTop.add_lt_add_left WithTop.coe_ne_top htie.2)
  · intro h i hi j hj l hl
    have : AddLeftMono F := addLeftMono_of_addLeftStrictMono F
    exact le_sum_of_untied h hi hj hl

/-- Two tokens, the second of which fits the first frame badly. -/
def tiedMatrix (p : ℕ × ℕ) : ℕ := if p = (1, 0) then 5 else 0

theorem tiedMatrix_not_cheapest :
    ¬ ∀ i < 2, ∀ j < 2, ∀ l, Route (i, j) l →
      dtwCost tiedMatrix 2 2 (i + 1) (j + 1) ≤ WithTop.some (sum tiedMatrix l) := by
  rw [dtw_cheapest_iff]
  intro h
  exact h 1 (by decide) 1 (by decide) (by decide)

end Dtw

end WhisperAndroid.Decode
