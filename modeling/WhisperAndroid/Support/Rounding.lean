import Mathlib.Data.Int.Log
import Mathlib.Data.Rat.Floor
import Mathlib.Tactic.FieldSimp
import Mathlib.Tactic.Linarith
import Mathlib.Tactic.Positivity

/-!
# Rounding to a number of digits

Rationals rounded to the nearest number with `p` binary digits, ties to even, with exponents
that are not bounded. Rounded numbers are integers times a power of two.

## Main results

* `Rounding.roundTo_natCast` — integers of `p` digits are not changed
* `Rounding.one_le_roundTo_div_iff` — the rounded quotient of an integer and a rounded number
  tells which of them is larger
-/

namespace Rounding

/-- The nearest integer, the even one of two. -/
def roundEven (q : ℚ) : ℤ :=
  if q - ⌊q⌋ < 1 / 2 then ⌊q⌋
  else if 1 / 2 < q - ⌊q⌋ then ⌊q⌋ + 1
  else if Even ⌊q⌋ then ⌊q⌋ else ⌊q⌋ + 1

theorem roundEven_intCast (n : ℤ) : roundEven n = n := by
  simp [roundEven]

theorem floor_le_roundEven (q : ℚ) : ⌊q⌋ ≤ roundEven q := by
  rw [roundEven]
  split_ifs <;> omega

theorem roundEven_le_floor_add_one (q : ℚ) : roundEven q ≤ ⌊q⌋ + 1 := by
  rw [roundEven]
  split_ifs <;> omega

/-- Integers are bounds of what is rounded. -/
theorem le_roundEven {n : ℤ} {q : ℚ} (h : n ≤ q) : n ≤ roundEven q :=
  (Int.le_floor.mpr h).trans (floor_le_roundEven q)

theorem roundEven_le {n : ℤ} {q : ℚ} (h : q ≤ n) : roundEven q ≤ n := by
  rcases h.lt_or_eq with hlt | rfl
  · exact (roundEven_le_floor_add_one q).trans (Int.floor_lt.mpr hlt)
  · rw [roundEven_intCast]

/-! ### Digits -/

/-- The exponent of the last of `p` digits. -/
def lastDigit (p : ℕ) (q : ℚ) : ℤ := Int.log 2 q + 1 - p

/-- A positive number rounded to `p` digits. -/
def roundPos (p : ℕ) (q : ℚ) : ℚ := roundEven (q / 2 ^ lastDigit p q) * 2 ^ lastDigit p q

/-- Rounded to `p` digits. -/
def roundTo (p : ℕ) (q : ℚ) : ℚ :=
  if 0 < q then roundPos p q else if q < 0 then -roundPos p (-q) else 0

variable {p : ℕ} {q x : ℚ}

@[simp] theorem roundTo_zero : roundTo p 0 = 0 := by simp [roundTo]

theorem roundTo_of_pos (hq : 0 < q) : roundTo p q = roundPos p q := if_pos hq

theorem roundTo_neg (q : ℚ) : roundTo p (-q) = -roundTo p q := by
  rcases lt_trichotomy q 0 with h | rfl | h
  · rw [roundTo, if_pos (neg_pos.mpr h), roundTo, if_neg h.not_gt, if_pos h, neg_neg]
  · simp
  · rw [roundTo, if_neg (neg_neg_iff_pos.mpr h).not_gt, if_pos (neg_neg_iff_pos.mpr h), neg_neg,
      roundTo_of_pos h]

theorem digit_pos (p : ℕ) (q : ℚ) : (0 : ℚ) < 2 ^ lastDigit p q :=
  zpow_pos two_pos _

/-- The digits are those before the point once it is moved behind the last of them. -/
theorem digits_bounds (hp : 0 < p) (hq : 0 < q) :
    (2 : ℚ) ^ (p - 1) ≤ q / 2 ^ lastDigit p q ∧ q / 2 ^ lastDigit p q < 2 ^ p := by
  have hlow := Int.zpow_log_le_self (b := 2) (r := q) one_lt_two hq
  have hhigh := Int.lt_zpow_succ_log_self (b := 2) one_lt_two q
  rw [le_div_iff₀ (digit_pos p q), div_lt_iff₀ (digit_pos p q), lastDigit, ← zpow_natCast,
    ← zpow_natCast, ← zpow_add₀ two_ne_zero, ← zpow_add₀ two_ne_zero]
  push_cast at hlow hhigh
  refine ⟨?_, ?_⟩
  · rwa [show ((p - 1 : ℕ) : ℤ) + (Int.log 2 q + 1 - p) = Int.log 2 q by omega]
  · rwa [show (p : ℤ) + (Int.log 2 q + 1 - p) = Int.log 2 q + 1 by omega]

/-- A rounded number is an integer of about `p` digits times a power of two. -/
theorem exists_digits (hp : 0 < p) (hq : 0 < q) :
    ∃ n : ℤ, 2 ^ (p - 1) ≤ n ∧ n ≤ 2 ^ p ∧ roundTo p q = n * 2 ^ lastDigit p q := by
  obtain ⟨hlow, hhigh⟩ := digits_bounds hp hq
  refine ⟨roundEven (q / 2 ^ lastDigit p q), le_roundEven ?_, roundEven_le ?_, ?_⟩
  · exact_mod_cast hlow
  · exact_mod_cast hhigh.le
  · rw [roundTo_of_pos hq, roundPos]

theorem roundTo_pos (hp : 0 < p) (hq : 0 < q) : 0 < roundTo p q := by
  obtain ⟨n, hn, -, hround⟩ := exists_digits hp hq
  have hpos : (0 : ℤ) < n := lt_of_lt_of_le (by positivity) hn
  rw [hround]
  have := digit_pos p q
  positivity

theorem roundTo_nonneg (hp : 0 < p) (hq : 0 ≤ q) : 0 ≤ roundTo p q := by
  rcases hq.eq_or_lt with rfl | hpos
  · simp
  · exact (roundTo_pos hp hpos).le

/-- Powers of two are bounds of what is rounded. -/
theorem lastDigit_le {e : ℤ} (hq : 0 < q) (h : q < 2 ^ e) : lastDigit p q ≤ e - p := by
  have hlow := Int.zpow_log_le_self (b := 2) (r := q) one_lt_two hq
  push_cast at hlow
  have hlt : Int.log 2 q < e := (zpow_lt_zpow_iff_right₀ one_lt_two).mp (hlow.trans_lt h)
  rw [lastDigit]
  omega

theorem le_lastDigit {e : ℤ} (h : (2 : ℚ) ^ e ≤ q) : e + 1 - p ≤ lastDigit p q := by
  have hhigh := Int.lt_zpow_succ_log_self (b := 2) one_lt_two q
  push_cast at hhigh
  have hlt : e < Int.log 2 q + 1 := (zpow_lt_zpow_iff_right₀ one_lt_two).mp (h.trans_lt hhigh)
  rw [lastDigit]
  omega

theorem roundTo_le_zpow {e : ℤ} (hp : 0 < p) (hq : 0 < q) (h : q < 2 ^ e) :
    roundTo p q ≤ 2 ^ e := by
  obtain ⟨n, -, hn, hround⟩ := exists_digits hp hq
  have hn' : (n : ℚ) ≤ 2 ^ p := by exact_mod_cast hn
  calc
    roundTo p q = n * 2 ^ lastDigit p q := hround
    _ ≤ 2 ^ p * 2 ^ lastDigit p q := mul_le_mul_of_nonneg_right hn' (digit_pos p q).le
    _ ≤ 2 ^ (p : ℤ) * 2 ^ (e - p) := by
      rw [zpow_natCast]
      exact mul_le_mul_of_nonneg_left
        (zpow_le_zpow_right₀ one_le_two (lastDigit_le hq h)) (pow_pos two_pos p).le
    _ = 2 ^ e := by rw [← zpow_add₀ two_ne_zero, add_sub_cancel]

theorem zpow_le_roundTo {e : ℤ} (hp : 0 < p) (h : (2 : ℚ) ^ e ≤ q) : 2 ^ e ≤ roundTo p q := by
  have hq : 0 < q := (zpow_pos two_pos e).trans_le h
  obtain ⟨n, hn, -, hround⟩ := exists_digits hp hq
  have hn' : (2 : ℚ) ^ (p - 1) ≤ n := by exact_mod_cast hn
  calc
    (2 : ℚ) ^ e = 2 ^ ((p - 1 : ℕ) : ℤ) * 2 ^ (e + 1 - p) := by
      rw [← zpow_add₀ two_ne_zero]
      congr 1
      omega
    _ ≤ 2 ^ (p - 1) * 2 ^ lastDigit p q := by
      rw [zpow_natCast]
      exact mul_le_mul_of_nonneg_left
        (zpow_le_zpow_right₀ one_le_two (le_lastDigit h)) (by positivity)
    _ ≤ n * 2 ^ lastDigit p q := mul_le_mul_of_nonneg_right hn' (digit_pos p q).le
    _ = roundTo p q := hround.symm

/-- Integers of `p` digits are not changed. -/
theorem roundTo_natCast {n : ℕ} (h : n < 2 ^ p) : roundTo p n = n := by
  rcases n.eq_zero_or_pos with rfl | hn
  · simp
  have hpos : (0 : ℚ) < n := by exact_mod_cast hn
  have hexp : lastDigit p (n : ℚ) ≤ 0 := by
    have hlt : (n : ℚ) < 2 ^ (p : ℤ) := by
      rw [zpow_natCast]
      exact_mod_cast h
    simpa using lastDigit_le (p := p) hpos hlt
  obtain ⟨k, hk⟩ : ∃ k : ℕ, lastDigit p (n : ℚ) = -k := ⟨_, (Int.eq_neg_comm.mp
    (Int.toNat_of_nonneg (neg_nonneg.mpr hexp)))⟩
  rw [roundTo_of_pos hpos, roundPos, hk, zpow_neg, zpow_natCast, div_inv_eq_mul]
  have hint : ((n : ℚ) * 2 ^ k) = ((n * 2 ^ k : ℤ) : ℚ) := by push_cast; ring
  rw [hint, roundEven_intCast]
  push_cast
  field_simp

/-- Less than one by a unit in the last digit, a number is rounded to less than one. -/
theorem roundTo_lt_one (hp : 0 < p) (hq : 0 < q) (h : q * 2 ^ p ≤ 2 ^ p - 1) :
    roundTo p q < 1 := by
  have hpow : (0 : ℚ) < 2 ^ p := by positivity
  have hlt : q < 2 ^ (0 : ℤ) := by
    rw [zpow_zero]
    nlinarith
  have hexp := lastDigit_le (p := p) hq hlt
  rw [zero_sub] at hexp
  rcases hexp.eq_or_lt with heq | hless
  · -- the digits are less than the power of two above them
    have hround : roundEven (q / 2 ^ lastDigit p q) ≤ 2 ^ p - 1 := by
      refine roundEven_le ?_
      rw [heq, zpow_neg, zpow_natCast, div_inv_eq_mul]
      push_cast
      exact h
    have hround' : ((roundEven (q / 2 ^ lastDigit p q) : ℤ) : ℚ) ≤ 2 ^ p - 1 := by
      exact_mod_cast hround
    rw [roundTo_of_pos hq, roundPos, heq, zpow_neg, zpow_natCast, ← div_eq_mul_inv,
      div_lt_one hpow]
    rw [heq, zpow_neg, zpow_natCast] at hround'
    linarith
  · calc
      roundTo p q ≤ 2 ^ (-1 : ℤ) := by
        refine roundTo_le_zpow hp hq ((Int.lt_zpow_succ_log_self one_lt_two q).trans_le ?_)
        rw [lastDigit] at hless
        exact zpow_le_zpow_right₀ one_le_two (by omega)
      _ < 1 := by norm_num

/-- The rounded quotient of an integer and a rounded number tells which of them is larger. -/
theorem one_le_roundTo_div_iff (hp : 0 < p) (n : ℕ) {y : ℚ} (hy : 0 < y) (hsmall : y < 2 ^ p) :
    1 ≤ roundTo p (n / roundTo p y) ↔ roundTo p y ≤ n := by
  have hpos := roundTo_pos hp hy
  constructor
  · contrapose!
    intro hlt
    rcases n.eq_zero_or_pos with rfl | hn
    · simp
    have hn' : (0 : ℚ) < n := by exact_mod_cast hn
    refine roundTo_lt_one hp (div_pos hn' hpos) ?_
    -- both are integers times the same power of two, and one integer is less by one at least
    obtain ⟨m, hm, hmax, hround⟩ := exists_digits hp hy
    obtain ⟨k, hk⟩ : ∃ k : ℕ, lastDigit p y = -k := by
      have hexp := lastDigit_le (p := p) (e := p) hy (by rwa [zpow_natCast])
      exact ⟨(-lastDigit p y).toNat, by omega⟩
    rw [hk, zpow_neg, zpow_natCast, ← div_eq_mul_inv] at hround
    have hscale : (0 : ℚ) < 2 ^ k := by positivity
    rw [hround, lt_div_iff₀ hscale] at hlt
    have hless : (n : ℤ) * 2 ^ k ≤ m - 1 := by
      have hlt' : (n : ℤ) * 2 ^ k < m := by exact_mod_cast hlt
      omega
    have hless' : (n : ℚ) * 2 ^ k ≤ m - 1 := by exact_mod_cast hless
    have hmax' : (m : ℚ) ≤ 2 ^ p := by exact_mod_cast hmax
    have hmpos : (0 : ℚ) < m := lt_of_le_of_lt (by positivity) hlt
    rw [hround, div_div_eq_mul_div, div_mul_eq_mul_div, div_le_iff₀ hmpos]
    have hpow : (0 : ℚ) < 2 ^ p := by positivity
    calc
      (n : ℚ) * 2 ^ k * 2 ^ p ≤ (m - 1) * 2 ^ p := mul_le_mul_of_nonneg_right hless' hpow.le
      _ ≤ (2 ^ p - 1) * m := by linarith
  · intro hle
    have hone : (2 : ℚ) ^ (0 : ℤ) ≤ n / roundTo p y := by rwa [zpow_zero, one_le_div hpos]
    simpa using zpow_le_roundTo hp hone

/-- The same with an integer of more than `p` digits, which is rounded itself. -/
theorem one_le_roundTo_natCast_div_iff (hp : 0 < p) (n : ℕ) {y : ℚ} (hy : 0 < y)
    (hsmall : y < 2 ^ p) : 1 ≤ roundTo p (roundTo p n / roundTo p y) ↔ roundTo p y ≤ n := by
  rcases lt_or_ge n (2 ^ p) with hn | hn
  · rw [roundTo_natCast hn, one_le_roundTo_div_iff hp n hy hsmall]
  · have hlarge : (2 : ℚ) ^ (p : ℤ) ≤ n := by
      rw [zpow_natCast]
      exact_mod_cast hn
    have hbound : roundTo p y ≤ 2 ^ (p : ℤ) := roundTo_le_zpow hp hy (by rwa [zpow_natCast])
    have hone : (2 : ℚ) ^ (0 : ℤ) ≤ roundTo p n / roundTo p y := by
      rw [zpow_zero, one_le_div (roundTo_pos hp hy)]
      exact hbound.trans (zpow_le_roundTo hp hlarge)
    exact iff_of_true (by simpa using zpow_le_roundTo hp hone) (hbound.trans hlarge)

end Rounding
