import Mathlib.Algebra.Ring.Int.Parity
import Mathlib.Data.Rat.Floor
import Mathlib.Tactic.IntervalCases

/-!
# Machine arithmetic with its undefined cases

The C++ operations of the WAV reader that are not defined on all their operands,
as functions into `Except Fault`, and the float operations it uses as a class.

Everything the reader computes is generic in the float type. `ℚ` is the instance
without rounding.
-/

namespace WhisperAndroid

/-- What ends a native call other than by its return: undefined behaviour, or an
exception that escapes through JNI. -/
inductive Fault
  | divisionByZero
  | intOverflow
  /-- A vector constructed with a negative element count throws `std::length_error`. -/
  | lengthError
  /-- A float that `size_t` cannot represent is converted to it. -/
  | sizeConversion
  /-- A read stores bytes behind the end of its buffer. -/
  | heapOverrun
  deriving DecidableEq, Repr

def intMin : ℤ := -2 ^ 31

def intMax : ℤ := 2 ^ 31 - 1

/-- The value is one of an `int`. -/
def IntFits (n : ℤ) : Prop := intMin ≤ n ∧ n ≤ intMax

instance (n : ℤ) : Decidable (IntFits n) := inferInstanceAs (Decidable (_ ∧ _))

/-- The result of an `int` operation. -/
def intResult (n : ℤ) : Except Fault ℤ :=
  if n < intMin ∨ intMax < n then .error .intOverflow else .ok n

/-- `int` division, which truncates towards zero. -/
def intDiv (a b : ℤ) : Except Fault ℤ :=
  if b = 0 then .error .divisionByZero
  else if intMax < a.tdiv b then .error .intOverflow
  else .ok (a.tdiv b)

/-- `int` subtraction. -/
def intSub (a b : ℤ) : Except Fault ℤ :=
  if a - b < intMin ∨ intMax < a - b then .error .intOverflow else .ok (a - b)

/-- The element count of `std::vector v(n)` for an `int` argument. -/
def vectorSize (n : ℤ) : Except Fault ℕ :=
  if n < 0 then .error .lengthError else .ok n.toNat

/-- The float operations of the WAV reader. The two conversions to `size_t`
truncate, and are undefined on a value that `size_t` cannot represent. -/
class FloatArith (F : Type) where
  ofInt : ℤ → F
  add : F → F → F
  div : F → F → F
  /-- `static_cast<size_t>(n / x)` for a `size_t` operand. -/
  quotToSize : ℕ → F → Option ℕ
  /-- `static_cast<size_t>(n * x)` for a `size_t` operand. -/
  prodToSize : ℕ → F → Option ℕ

/-- Truncation to a natural number, undefined from `-1` down. -/
def truncToSize (q : ℚ) : Option ℕ :=
  if q ≤ -1 then none else some ⌊q⌋.toNat

/-- Exact arithmetic. Division by zero has no finite value to convert. -/
instance : FloatArith ℚ where
  ofInt n := n
  add x y := x + y
  div x y := x / y
  quotToSize n x := if x = 0 then none else truncToSize (n / x)
  prodToSize n x := truncToSize (n * x)

theorem intResult_eq_ok_iff {n m : ℤ} : intResult n = .ok m ↔ IntFits n ∧ m = n := by
  rw [intResult, IntFits]
  split_ifs with h
  · refine iff_of_false (by simp) ?_
    omega
  · rw [Except.ok.injEq]
    omega

theorem exists_intResult_iff {n : ℤ} : (∃ m, intResult n = .ok m) ↔ IntFits n := by
  simp [intResult_eq_ok_iff]

/-! ### Truncating division -/

theorem tdiv_nonneg_iff_of_pos {a b : ℤ} (hb : 0 < b) : 0 ≤ a.tdiv b ↔ -b < a := by
  -- up to `-b` the quotient is at most `-1`
  constructor
  · intro hq
    by_contra hle
    have hmono : a.tdiv b ≤ (-b).tdiv b := Int.tdiv_le_tdiv hb (not_lt.mp hle)
    rw [Int.neg_tdiv, Int.tdiv_self hb.ne'] at hmono
    omega
  · intro hlt
    rcases le_or_gt 0 a with ha | ha
    · exact Int.tdiv_nonneg ha hb.le
    -- truncation towards zero: a small negative dividend has quotient zero
    · have hzero : (-a).tdiv b = 0 := Int.tdiv_eq_zero_of_lt (by omega) (by omega)
      rw [Int.neg_tdiv] at hzero
      omega

theorem tdiv_nonneg_iff_of_neg {a b : ℤ} (hb : b < 0) : 0 ≤ a.tdiv b ↔ a < -b := by
  have hflip : a.tdiv b = (-a).tdiv (-b) := by rw [Int.tdiv_neg, Int.neg_tdiv, neg_neg]
  rw [hflip, tdiv_nonneg_iff_of_pos (by omega)]
  omega

/-- Twice a truncated quotient reaches the dividend only for the divisor one, or
two on an even dividend. -/
theorem le_two_mul_tdiv_iff {a b : ℤ} (ha : 0 < a) (hq : 0 ≤ a.tdiv b) :
    a ≤ 2 * a.tdiv b ↔ b = 1 ∨ b = 2 ∧ Even a := by
  have hsplit := Int.tdiv_mul_add_tmod a b
  have hrem : 0 ≤ a.tmod b := Int.tmod_nonneg b ha.le
  constructor
  · intro hle
    have hpos : 0 < a.tdiv b := by omega
    have hb : 0 < b := by
      by_contra hb
      have := Int.tdiv_nonpos_of_nonneg_of_nonpos ha.le (not_lt.mp hb)
      omega
    -- from three on, the truncated quotient is at most a third of the dividend
    have hsmall : b < 3 := by
      by_contra hb
      have : a.tdiv b * 3 ≤ a.tdiv b * b := mul_le_mul_of_nonneg_left (by omega) hq
      omega
    interval_cases b
    · exact .inl rfl
    · refine .inr ⟨rfl, ?_⟩
      rw [Int.even_iff]
      omega
  · rintro (rfl | ⟨rfl, heven⟩)
    · rw [Int.tdiv_one]
      omega
    · rw [Int.tdiv_eq_ediv_of_nonneg ha.le]
      obtain ⟨half, rfl⟩ := heven
      omega

/-- The only `int` quotient that does not fit is that of the minimum and minus one. -/
theorem tdiv_le_intMax_iff {a b : ℤ} (hmin : intMin ≤ a) (hmax : a ≤ intMax) :
    a.tdiv b ≤ intMax ↔ b ≠ -1 ∨ intMin < a := by
  unfold intMin intMax at *
  rcases eq_or_ne b (-1) with rfl | hb
  · rw [Int.tdiv_neg, Int.tdiv_one]
    omega
  · refine iff_of_true ?_ (.inl hb)
    have habs := Int.natAbs_tdiv_le_natAbs a b
    rcases eq_or_ne b 1 with rfl | hone
    · rwa [Int.tdiv_one]
    -- any other quotient is at most half as large as `a`
    · have hhalf : (a.tdiv b).natAbs ≤ a.natAbs / 2 := by
        rcases eq_or_ne b 0 with rfl | hzero
        · simp
        · rw [Int.natAbs_tdiv]
          exact Nat.div_le_div_left (by omega) (by decide)
      omega

/-! ### Spec lemmas -/

theorem bind_eq_ok_iff {α β : Type} {x : Except Fault α} {f : α → Except Fault β} {b : β} :
    x >>= f = .ok b ↔ ∃ a, x = .ok a ∧ f a = .ok b := by
  cases x with
  | error fault => simp [bind, Except.bind]
  | ok a => simp [bind, Except.bind]

theorem exists_bind_eq_ok_iff {α β : Type} {x : Except Fault α} {f : α → Except Fault β} :
    (∃ b, x >>= f = .ok b) ↔ ∃ a, x = .ok a ∧ ∃ b, f a = .ok b := by
  simp only [bind_eq_ok_iff]
  exact ⟨fun ⟨b, a, ha, hb⟩ => ⟨a, ha, b, hb⟩, fun ⟨a, ha, b, hb⟩ => ⟨b, a, ha, hb⟩⟩

theorem exists_mapM_eq_ok_iff {α β : Type} {f : α → Except Fault β} {l : List α} :
    (∃ bs, l.mapM f = .ok bs) ↔ ∀ a ∈ l, ∃ b, f a = .ok b := by
  induction l with
  | nil => simp [pure, Except.pure]
  | cons a l ih =>
    rw [List.forall_mem_cons, ← ih, List.mapM_cons, exists_bind_eq_ok_iff]
    constructor
    · rintro ⟨b, hb, h⟩
      obtain ⟨bs, hbs, -⟩ := exists_bind_eq_ok_iff.mp h
      exact ⟨⟨b, hb⟩, bs, hbs⟩
    · rintro ⟨⟨b, hb⟩, bs, hbs⟩
      exact ⟨b, hb, exists_bind_eq_ok_iff.mpr ⟨bs, hbs, _, rfl⟩⟩

theorem ite_throw_eq_ok_iff {α : Type} {P : Prop} [Decidable P] {fault : Fault}
    {rest : Except Fault α} {a : α} :
    (if P then throw fault else rest) = .ok a ↔ ¬ P ∧ rest = .ok a := by
  split_ifs with hP
  · simp [hP]
  · simp [hP]

theorem intDiv_eq_ok_iff {a b q : ℤ} :
    intDiv a b = .ok q ↔ b ≠ 0 ∧ a.tdiv b ≤ intMax ∧ q = a.tdiv b := by
  unfold intDiv
  split_ifs with hzero hover
  · simp [hzero]
  · simp [hover]
  · simp [hzero, not_lt.mp hover, eq_comm]

theorem intSub_eq_ok_iff {a b d : ℤ} :
    intSub a b = .ok d ↔ intMin ≤ a - b ∧ a - b ≤ intMax ∧ d = a - b := by
  unfold intSub
  split_ifs with hover
  · constructor
    · intro h
      cases h
    · rintro ⟨hlow, hhigh, -⟩
      omega
  · push Not at hover
    simp [hover.1, hover.2, eq_comm]

theorem vectorSize_eq_ok_iff {n : ℤ} {count : ℕ} :
    vectorSize n = .ok count ↔ 0 ≤ n ∧ count = n.toNat := by
  unfold vectorSize
  split_ifs with hneg
  · simp [hneg]
  · simp [not_lt.mp hneg, eq_comm]

end WhisperAndroid
