import Mathlib.Algebra.Order.Monoid.Unbundled.Basic
import Mathlib.Data.List.Chain
import Mathlib.Data.List.Induction
import Mathlib.Logic.Function.Basic

/-!
# Tables filled cell by cell

A table is filled in a given order of its cells, each from the table as it is when its turn
comes. If a cell looks only at cells of earlier turns, then in the filled table every cell
agrees with what it is computed from. Above this are the paths through a grid which go
forwards in at least one direction, with the sum of the values on them.

## Main results

* `Table.fill_apply` — the equation that a filled table satisfies
* `Table.Route.le_sum` — a table bounded by its neighbours is bounded by all paths
-/

namespace Table

/-! ### Filling -/

section Fill

variable {ι α : Type*} [DecidableEq ι]

/-- Compute the cells of the list one after the other. -/
def fill (f : (ι → α) → ι → α) (cells : List ι) (t : ι → α) : ι → α :=
  cells.foldl (fun t c => Function.update t c (f t c)) t

variable {f : (ι → α) → ι → α} {cells : List ι} {t : ι → α} {c : ι}

theorem fill_concat (f : (ι → α) → ι → α) (cells : List ι) (c : ι) (t : ι → α) :
    fill f (cells ++ [c]) t =
      Function.update (fill f cells t) c (f (fill f cells t) c) := by
  simp [fill]

theorem fill_of_notMem (h : c ∉ cells) : fill f cells t c = t c := by
  induction cells using List.reverseRecOn with
  | nil => rfl
  | append_singleton cells d ih =>
    rw [List.mem_append, List.mem_singleton, not_or] at h
    rw [fill_concat, Function.update_of_ne h.2, ih h.1]

/-- The order `r` of the turns is that of the list, and a cell looks only at cells before it. -/
theorem fill_apply {r : ι → ι → Prop} (hasymm : ∀ c d, r c d → ¬ r d c)
    (hturns : cells.Pairwise r)
    (hlooks : ∀ c ∈ cells, ∀ t t' : ι → α, (∀ d, r d c → t d = t' d) → f t c = f t' c)
    (hc : c ∈ cells) : fill f cells t c = f (fill f cells t) c := by
  induction cells using List.reverseRecOn with
  | nil => cases hc
  | append_singleton cells last ih =>
    rw [List.pairwise_append] at hturns
    obtain ⟨hturns, -, hlast⟩ := hturns
    -- the last cell is not looked at, neither by an earlier cell nor by itself
    have hunseen : ∀ d ∈ cells ++ [last], f (fill f (cells ++ [last]) t) d =
        f (fill f cells t) d := by
      intro d hd
      refine hlooks d hd _ _ fun e he => ?_
      have hne : e ≠ last := by
        rintro rfl
        rcases List.mem_append.mp hd with hd | hd
        · exact hasymm _ _ he (hlast d hd e List.mem_cons_self)
        · rw [List.mem_singleton.mp hd] at he
          exact hasymm _ _ he he
      rw [fill_concat, Function.update_of_ne hne]
    rw [hunseen c hc, fill_concat]
    rcases List.mem_append.mp hc with hmem | hmem
    · have hne : c ≠ last := by
        rintro rfl
        exact hasymm _ _ (hlast c hmem c List.mem_cons_self) (hlast c hmem c List.mem_cons_self)
      rw [Function.update_of_ne hne]
      exact ih hturns (fun d hd => hlooks d (List.mem_append_left _ hd)) hmem
    · rw [List.mem_singleton.mp hmem, Function.update_self]

end Fill

/-! ### Paths -/

/-- One step through a grid. -/
inductive Forward : ℕ × ℕ → ℕ × ℕ → Prop
  | both (i j : ℕ) : Forward (i, j) (i + 1, j + 1)
  | first (i j : ℕ) : Forward (i, j) (i + 1, j)
  | second (i j : ℕ) : Forward (i, j) (i, j + 1)

theorem Forward.le {p q : ℕ × ℕ} (h : Forward p q) : p ≤ q := by
  cases h <;> simp [Prod.le_def]

/-- The cells passed through from the origin to a cell, which is the last of them. -/
inductive Route : ℕ × ℕ → List (ℕ × ℕ) → Prop
  | origin : Route (0, 0) [(0, 0)]
  | step {p q l} : Route p l → Forward p q → Route q (l ++ [q])

namespace Route

variable {p q : ℕ × ℕ} {l : List (ℕ × ℕ)}

theorem length_le (h : Route q l) : l.length ≤ q.1 + q.2 + 1 := by
  induction h with
  | origin => simp
  | step _ hstep ih =>
    rw [List.length_append, List.length_singleton]
    cases hstep <;> simp_all <;> omega

theorem getLast? (h : Route q l) : l.getLast? = some q := by
  cases h <;> simp

end Route

/-! ### Sums along a path -/

section Sum

variable {C : Type*} [Zero C] [Add C]

/-- The sum of the values on a path, the last one added last. -/
def sum (x : ℕ × ℕ → C) (l : List (ℕ × ℕ)) : C := l.foldl (fun c p => x p + c) 0

@[simp]
theorem sum_concat (x : ℕ × ℕ → C) (l : List (ℕ × ℕ)) (p : ℕ × ℕ) :
    sum x (l ++ [p]) = x p + sum x l := by
  simp [sum]

/-- If a table exceeds no neighbour by more than the value of a cell, it exceeds no path. -/
theorem Route.le_sum [Preorder C] [AddLeftMono C] {x t : ℕ × ℕ → C} {q : ℕ × ℕ}
    {l : List (ℕ × ℕ)} (h : Route q l) (horigin : t (0, 0) ≤ x (0, 0) + 0)
    (hnext : ∀ p r, Forward p r → r ≤ q → t r ≤ x r + t p) : t q ≤ sum x l := by
  induction h with
  | origin => exact horigin
  | step _ hstep ih =>
    rw [sum_concat]
    exact (hnext _ _ hstep le_rfl).trans <| add_le_add_right
      (ih fun p r hforward hle => hnext p r hforward (hle.trans hstep.le)) _

end Sum

end Table
