import Mathlib.Algebra.Order.Group.Nat
import Mathlib.Order.Monotone.Basic
import Mathlib.Tactic.Linarith
import Mathlib.Tactic.Ring

/-!
# Rescaling an index range

Taking every `p / q`-th index, rounded down: index `i` of the new range stands for index
`i * p / q` of a range of `n`, and the new range has `n * q / p` indices. With `q ≤ p` the
map is strictly increasing, and with `p ≤ q` it leaves out at most the last index.
-/

namespace Rescale

variable {n p q i k : ℕ}

/-- The new range does not reach behind the old one. -/
theorem index_lt (hi : i < n * q / p) : i * p / q < n := by
  have hp : 0 < p := by
    by_contra hp
    rw [Nat.eq_zero_of_not_pos hp, Nat.div_zero] at hi
    exact absurd hi (Nat.not_lt_zero i)
  have hnext : (i + 1) * p ≤ n * q := (Nat.le_div_iff_mul_le hp).mp hi
  refine Nat.div_lt_of_lt_mul ?_
  linarith

theorem monotone (p q : ℕ) : Monotone fun i => i * p / q :=
  fun _ _ hij => Nat.div_le_div_right (Nat.mul_le_mul_right p hij)

/-- Scaling down takes no index twice. -/
theorem strictMono (hq : 0 < q) (hqp : q ≤ p) : StrictMono fun i => i * p / q := by
  refine strictMono_nat_of_lt_succ fun i => ?_
  have hstep : i * p + q ≤ (i + 1) * p := by linarith
  calc i * p / q < (i * p + q) / q := by rw [Nat.add_div_right _ hq]; exact Nat.lt_succ_self _
    _ ≤ (i + 1) * p / q := Nat.div_le_div_right hstep

/-- Scaling up leaves out no index but possibly the last. -/
theorem exists_index_eq (hp : 0 < p) (hpq : p ≤ q) (hk : k + 2 ≤ n) :
    ∃ i < n * q / p, i * p / q = k := by
  -- the first index that is not in front of `k`
  obtain ⟨i, hlow, hhigh⟩ : ∃ i, k * q ≤ i * p ∧ i * p < k * q + p := by
    refine ⟨(k * q + (p - 1)) / p, ?_, ?_⟩
    · have := Nat.lt_div_mul_add (a := k * q + (p - 1)) hp
      omega
    · have := Nat.div_mul_le_self (k * q + (p - 1)) p
      omega
  have hq : 0 < q := by omega
  refine ⟨i, ?_, Nat.div_eq_of_lt_le hlow (by linarith)⟩
  have hroom : (k + 2) * q ≤ n * q := Nat.mul_le_mul_right q hk
  exact (Nat.le_div_iff_mul_le hp).mpr (by linarith)

end Rescale
