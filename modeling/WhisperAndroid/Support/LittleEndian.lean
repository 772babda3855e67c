import Mathlib.Data.Fin.VecNotation
import Mathlib.Data.Fintype.Pi
import Mathlib.Data.Nat.Digits.Lemmas
import Mathlib.Tactic.Ring

/-!
# Little-endian integers in memory

A buffer is a block of memory of fixed size. `Buffer.toNat` reads it as an
unsigned little-endian integer and `Buffer.toInt` as a two's-complement one;
`Buffer.ofNat` and `Buffer.ofInt` write an integer into it. Reading undoes
writing within the range of the width.

`Buffer.store` is what a possibly incomplete write leaves behind: the bytes
received at the front and the previous contents behind them. `Buffer.slice` is
the same for a write that takes its bytes from some offset of a longer string.
-/

/-- A block of `width` bytes of memory. -/
abbrev Buffer (width : ℕ) := Fin width → UInt8

namespace Buffer

variable {width : ℕ}

/-- Cleared memory. -/
def zero : Buffer width := fun _ => 0

/-! ### Partial writes -/

/-- The memory after `received` has been copied to the front of `old`. -/
def store (old : Buffer width) (received : List UInt8) : Buffer width :=
  fun i => received.getD i (old i)

/-- The bytes of a string from offset `p` on, with `old` where the string has ended. -/
def slice (old : Buffer width) (bytes : List UInt8) (p : ℕ) : Buffer width :=
  fun i => bytes.getD (p + i) (old i)

@[simp] theorem store_nil (old : Buffer width) : old.store [] = old := by
  funext i
  simp [store]

theorem store_take_drop (old : Buffer width) (bytes : List UInt8) (p : ℕ) :
    old.store ((bytes.drop p).take width) = old.slice bytes p := by
  funext i
  simp [store, slice, List.getD_eq_getElem?_getD]

theorem slice_of_length_le {bytes : List UInt8} {p : ℕ} (old : Buffer width)
    (hend : bytes.length ≤ p) : old.slice bytes p = old := by
  funext i
  simp [slice, List.getElem?_eq_none (show bytes.length ≤ p + i by omega)]

/-- A slice that lies inside the string does not see the old memory. -/
theorem slice_congr {bytes : List UInt8} {p : ℕ} (hfull : p + width ≤ bytes.length)
    (old new : Buffer width) : old.slice bytes p = new.slice bytes p := by
  funext i
  have hi : p + (i : ℕ) < bytes.length := by omega
  simp [slice, List.getElem?_eq_getElem hi]

/-- A slice does not see a cut behind it. -/
theorem slice_take {p t : ℕ} (old : Buffer width) (bytes : List UInt8) (ht : p + width ≤ t) :
    old.slice (bytes.take t) p = old.slice bytes p := by
  funext i
  simp only [slice, List.getD_eq_getElem?_getD]
  rw [List.getElem?_take_of_lt (by omega)]

/-- A slice from behind the front does not see it. -/
theorem slice_append_of_le {front : List UInt8} {p : ℕ} (old : Buffer width)
    (hfront : front.length ≤ p) (rest : List UInt8) :
    old.slice (front ++ rest) p = old.slice rest (p - front.length) := by
  funext i
  simp only [slice, List.getD_eq_getElem?_getD]
  rw [List.getElem?_append_right (by omega), Nat.sub_add_comm hfront]

theorem slice_ofFn_append (old b : Buffer width) (rest : List UInt8) :
    old.slice (List.ofFn b ++ rest) 0 = b := by
  funext i
  have hi : (i : ℕ) < (List.ofFn b).length := by simp
  simp [slice, List.getElem?_append_left hi]

/-- A slice reads back the buffer written at its offset. -/
theorem slice_append (old b : Buffer width) (front rest : List UInt8) :
    old.slice (front ++ (List.ofFn b ++ rest)) front.length = b := by
  rw [slice_append_of_le old le_rfl, Nat.sub_self, slice_ofFn_append]

/-- Memory that goes on as the string does at an offset is not changed by what is left. -/
theorem slice_eq_self_of_prefix {bytes front rest : List UInt8} {p : ℕ} (b : Buffer width)
    (hbegins : bytes.drop p <+: front ++ (List.ofFn b ++ rest)) :
    b.slice bytes (p + front.length) = b := by
  funext i
  -- a byte of the string is the one it goes on with, and behind its end `b` stays
  rcases lt_or_ge (p + front.length + i) bytes.length with hi | hi
  · have hsame := List.prefix_iff_getElem?.mp hbegins (front.length + i)
      (by rw [List.length_drop]; omega)
    rw [List.getElem?_append_right (by omega), Nat.add_sub_cancel_left,
      List.getElem?_append_left (by simp)] at hsame
    simp only [List.getElem?_ofFn, i.isLt, dif_pos, Fin.eta, List.getElem_drop, Option.some_inj,
      ← add_assoc] at hsame
    simp [slice, List.getElem?_eq_getElem hi, hsame]
  · simp [slice, List.getElem?_eq_none hi]

/-- What is left of a string goes on as two slices in a row do. -/
theorem drop_prefix_slices {width' : ℕ} (a : Buffer width) (b : Buffer width')
    {bytes : List UInt8} {p : ℕ} (hend : bytes.length ≤ p + (width + width')) :
    bytes.drop p <+: List.ofFn (a.slice bytes p) ++ List.ofFn (b.slice bytes (p + width)) := by
  refine List.prefix_iff_getElem?.mpr fun j hj => ?_
  rw [List.length_drop] at hj
  have hbyte : bytes[p + j]? = some bytes[p + j] := List.getElem?_eq_getElem (by omega)
  -- the byte belongs to the first slice or to the second
  rcases lt_or_ge j width with hlow | hhigh
  · rw [List.getElem?_append_left (by simpa using hlow)]
    simp [slice, hlow, hbyte]
  · have hoffset : p + width + (j - width) = p + j := by omega
    have hlow : j - width < width' := by omega
    rw [List.getElem?_append_right (by simpa using hhigh)]
    simp [slice, hlow, hoffset, hbyte]

/-! ### Unsigned values -/

/-- The unsigned little-endian value of a buffer. -/
def toNat (b : Buffer width) : ℕ := Nat.ofDigits 256 (List.ofFn fun i => (b i).toNat)

/-- The low bytes of a natural number. -/
def ofNat (n : ℕ) : Buffer width := fun i => UInt8.ofNat (n / 256 ^ (i : ℕ))

theorem toNat_succ (b : Buffer (width + 1)) :
    b.toNat = (b 0).toNat + 256 * toNat (fun i => b i.succ) := by
  simp [toNat, List.ofFn_succ, Nat.ofDigits_cons]

theorem toNat_lt (b : Buffer width) : b.toNat < 256 ^ width := by
  have hbound := Nat.ofDigits_lt_base_pow_length (b := 256)
    (l := List.ofFn fun i => (b i).toNat) (by norm_num) (by
      intro digit hdigit
      obtain ⟨i, rfl⟩ := (List.mem_ofFn' _ _).mp hdigit
      exact (b i).toNat_lt)
  simpa [toNat] using hbound

theorem toNat_ofNat (n : ℕ) : (ofNat n : Buffer width).toNat = n % 256 ^ width := by
  -- induction on the width; the bytes behind the first are those of `n / 256`
  induction width generalizing n with
  | zero => simp [toNat, Nat.mod_one]
  | succ width ih =>
    have htail : (fun i : Fin width => (ofNat n : Buffer (width + 1)) i.succ) =
        ofNat (n / 256) := by
      funext i
      simp [ofNat, Nat.div_div_eq_div_mul, pow_succ']
    rw [toNat_succ, htail, ih, pow_succ', Nat.mod_mul]
    simp [ofNat]

/-! ### Signed values -/

/-- The two's-complement value of a buffer. -/
def toInt (b : Buffer width) : ℤ :=
  if 2 * b.toNat < 256 ^ width then b.toNat else b.toNat - 256 ^ width

/-- The two's-complement representation of an integer. -/
def ofInt (x : ℤ) : Buffer width := ofNat (x % 256 ^ width).toNat

theorem toInt_lt (b : Buffer width) : 2 * b.toInt < 256 ^ width := by
  have hlt : (b.toNat : ℤ) < 256 ^ width := by exact_mod_cast b.toNat_lt
  unfold toInt
  split_ifs with hhalf
  · exact_mod_cast hhalf
  · have hpos : (0 : ℤ) < 256 ^ width := by positivity
    omega

theorem neg_le_toInt (b : Buffer width) : -256 ^ width ≤ 2 * b.toInt := by
  unfold toInt
  split_ifs with hhalf
  · have hpos : (0 : ℤ) < 256 ^ width := by positivity
    omega
  · have hge : (256 ^ width : ℤ) ≤ 2 * b.toNat := by exact_mod_cast not_lt.mp hhalf
    omega

/-- Reading a natural number back as a signed value: the upper half of the range
turns negative. -/
theorem toInt_ofNat {n : ℕ} (hn : n < 256 ^ width) :
    (ofNat n : Buffer width).toInt = if 2 * n < 256 ^ width then (n : ℤ) else n - 256 ^ width := by
  rw [toInt, toNat_ofNat, Nat.mod_eq_of_lt hn]

theorem toInt_ofNat_of_lt {n : ℕ} (hn : 2 * n < 256 ^ width) :
    (ofNat n : Buffer width).toInt = n := by
  rw [toInt_ofNat (by omega), if_pos hn]

theorem toInt_ofInt {x : ℤ} (hlow : -256 ^ width ≤ 2 * x) (hhigh : 2 * x < 256 ^ width) :
    (ofInt x : Buffer width).toInt = x := by
  have hpos : (0 : ℤ) < 256 ^ width := by positivity
  have hmod := Int.emod_nonneg x hpos.ne'
  have hlt : (x % 256 ^ width).toNat < 256 ^ width := by
    have hupper := Int.emod_lt_of_pos x hpos
    zify
    rwa [Int.toNat_of_nonneg hmod]
  rw [ofInt, toInt_ofNat hlt]
  zify
  -- the residue is `x` itself, or `x` shifted into the upper half of the range
  rw [Int.toNat_of_nonneg hmod]
  rcases le_or_gt 0 x with hx | hx
  · rw [Int.emod_eq_of_lt hx (by omega), if_pos hhigh]
  · have hshift : x % 256 ^ width = x + 256 ^ width := by
      rw [← Int.add_emod_right, Int.emod_eq_of_lt (by omega) (by omega)]
    rw [hshift, if_neg (by omega)]
    ring

end Buffer
