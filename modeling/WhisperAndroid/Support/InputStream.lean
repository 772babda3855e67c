import WhisperAndroid.Support.LittleEndian

/-!
# Binary input streams

A C++ input stream over a finite byte string: `read`, relative `seekg`, and the
two state bits they set. A short read stores what is left and sets `eofbit` and
`failbit`; a read on a stream that is not good stores nothing. A relative seek
clears `eofbit` first, may leave the position behind the end of the string, and
fails only on a failed stream or a negative target.

`InputStream.goodAt` is the good stream at a position and `InputStream.endedAt`
the one a short read from there leaves. The lemmas say what each operation makes
of a good stream and that a failed stream stays failed.
-/

/-- A stream over a byte string with its position and state bits. -/
structure InputStream where
  bytes : List UInt8
  pos : ℕ
  eofbit : Bool
  failbit : Bool

namespace InputStream

/-- Neither state bit is set. -/
def good (s : InputStream) : Bool := !s.eofbit && !s.failbit

/-- The bytes between the position and the end. -/
def rest (s : InputStream) : List UInt8 := s.bytes.drop s.pos

/-- `istream::read` of `n` bytes: the bytes it stores, and the stream after it. -/
def read (s : InputStream) (n : ℤ) : List UInt8 × InputStream :=
  if s.good then
    let received := s.rest.take n.toNat
    let short := (received.length : ℤ) != n
    (received, { s with pos := s.pos + received.length, eofbit := short, failbit := short })
  else
    ([], { s with failbit := true }) -- the sentry fails, and `eofbit` stays

/-- `istream::read` into a buffer, which may be left partly unwritten. -/
def readInto {width : ℕ} (s : InputStream) (old : Buffer width) : Buffer width × InputStream :=
  let (received, s) := s.read width
  (old.store received, s)

/-- `istream::seekg` relative to the position. -/
def seekg (s : InputStream) (offset : ℤ) : InputStream :=
  let s := { s with eofbit := false }
  if s.failbit then s
  else if s.pos + offset < 0 then { s with failbit := true }
  else { s with pos := (s.pos + offset).toNat }

variable {s : InputStream} {bytes : List UInt8} {p width : ℕ} {offset n : ℤ}

/-! ### Good streams -/

/-- The good stream at position `p`. -/
def goodAt (bytes : List UInt8) (p : ℕ) : InputStream := ⟨bytes, p, false, false⟩

/-- The stream after a read from position `p` that met the end of the string. -/
def endedAt (bytes : List UInt8) (p : ℕ) : InputStream := ⟨bytes, max p bytes.length, true, true⟩

@[simp] theorem good_goodAt : (goodAt bytes p).good = true := rfl

@[simp] theorem rest_goodAt : (goodAt bytes p).rest = bytes.drop p := rfl

@[simp] theorem failbit_endedAt : (endedAt bytes p).failbit = true := rfl

@[simp] theorem rest_endedAt : (endedAt bytes p).rest = [] := by
  simp [endedAt, rest]

/-- What a read stores is cut off by the end of the string, and by a failed stream. -/
theorem length_read_fst (s : InputStream) (n : ℤ) :
    (s.read n).1.length = if s.good then min n.toNat s.rest.length else 0 := by
  by_cases hgood : s.good <;> simp [read, hgood]

theorem read_goodAt_fst : ((goodAt bytes p).read n).1 = (bytes.drop p).take n.toNat := by
  simp [read]

/-- A read that the string can satisfy advances the position. -/
theorem readInto_goodAt (old : Buffer width) (hfull : p + width ≤ bytes.length) :
    (goodAt bytes p).readInto old = (old.slice bytes p, goodAt bytes (p + width)) := by
  have hlength : ((bytes.drop p).take width).length = width := by
    rw [List.length_take, List.length_drop]
    omega
  simp only [readInto, read, good_goodAt, if_true, rest_goodAt, Int.toNat_natCast, hlength,
    Buffer.store_take_drop, bne_self_eq_false]
  rfl

/-- A read behind the end of the string stores what is left and fails the stream. -/
theorem readInto_goodAt_short (old : Buffer width) (hwidth : 0 < width)
    (hshort : bytes.length < p + width) :
    (goodAt bytes p).readInto old = (old.slice bytes p, endedAt bytes p) := by
  have hlength : ((bytes.drop p).take width).length = bytes.length - p := by
    rw [List.length_take, List.length_drop]
    omega
  have hne : (((bytes.length - p : ℕ) : ℤ) != width) = true := by
    rw [bne_iff_ne]
    omega
  have hpos : p + (bytes.length - p) = max p bytes.length := by omega
  simp only [readInto, read, good_goodAt, if_true, rest_goodAt, Int.toNat_natCast, hlength, hne,
    Buffer.store_take_drop]
  simp only [goodAt, endedAt, hpos]

theorem failbit_readInto_goodAt (old : Buffer width) (hwidth : 0 < width)
    (hshort : bytes.length < p + width) : ((goodAt bytes p).readInto old).2.failbit = true := by
  rw [readInto_goodAt_short old hwidth hshort, failbit_endedAt]

theorem seekg_goodAt (htarget : 0 ≤ p + offset) :
    (goodAt bytes p).seekg offset = goodAt bytes (p + offset).toNat := by
  simp [seekg, goodAt, not_lt.mpr htarget]

theorem failbit_seekg_goodAt (htarget : p + offset < 0) :
    ((goodAt bytes p).seekg offset).failbit = true := by
  simp [seekg, goodAt, htarget]

/-! ### Failed streams -/

theorem good_eq_false_of_failbit (hfail : s.failbit = true) : s.good = false := by
  simp [good, hfail]

theorem readInto_of_failbit (hfail : s.failbit = true) (old : Buffer width) :
    s.readInto old = (old, s) := by
  obtain ⟨bytes, pos, eofbit, failbit⟩ := s
  obtain rfl : failbit = true := hfail
  simp [readInto, read, good]

theorem failbit_readInto (hfail : s.failbit = true) (old : Buffer width) :
    (s.readInto old).2.failbit = true := by
  rw [readInto_of_failbit hfail]
  exact hfail

theorem failbit_seekg (hfail : s.failbit = true) (offset : ℤ) :
    (s.seekg offset).failbit = true := by
  simp [seekg, hfail]

end InputStream
