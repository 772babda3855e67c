import WhisperAndroid.Wav.ChunkWalk

/-!
# Files that never end

The chunk loop tests only the stream, and a relative seek backwards leaves it
good: a negative chunk size can send the scan to an offset it has already been
at. Since a scan goes on only from offsets inside the file, this is the only way
in which it does not end.
-/

namespace WhisperAndroid

variable {F : Type} [FloatArith F] {stale : Stale} {bytes : List UInt8}

/-- The scan goes on from the chunk at offset `p` to offset `q`. -/
def ChunkLeadsTo (bytes : List UInt8) (p q : ℕ) : Prop := nextOffset bytes p = some q

instance (p q : ℕ) : Decidable (ChunkLeadsTo bytes p q) := inferInstanceAs (Decidable (_ = _))

/-- The walk over the offsets of a file as a loop of its own. -/
def offsetStep (bytes : List UInt8) (p : ℕ) : ℕ ⊕ Unit :=
  match nextOffset bytes p with
  | some q => .inl q
  | none => .inr ()

theorem next_offsetStep_iff {p q : ℕ} :
    Loop.Next (offsetStep bytes) p q ↔ ChunkLeadsTo bytes p q := by
  unfold Loop.Next offsetStep ChunkLeadsTo
  cases nextOffset bytes p <;> simp

theorem next_offsetStep_eq : Loop.Next (offsetStep bytes) = ChunkLeadsTo bytes := by
  funext p q
  exact propext next_offsetStep_iff

/-- A chunk that leads on has its header inside the file. -/
theorem ChunkLeadsTo.header_le {p q : ℕ} (h : ChunkLeadsTo bytes p q) : p + 8 ≤ bytes.length :=
  (nextOffset_eq_some_iff.mp h).1

/-- The chunk loop ends exactly when the walk over the offsets does. -/
theorem scan_terminates_iff (stale : Stale) (round p : ℕ) (fmt : Option ℕ) :
    Loop.Terminates (scanStep F stale) (stateAt bytes round p fmt) ↔
      Loop.Terminates (offsetStep bytes) p := by
  -- the offset guides the loop, whatever round and format it is in
  refine Loop.terminates_iff_of_guided
    (fun s p => ∃ round fmt, s = stateAt bytes round p fmt) ?_ ?_ ⟨round, fmt, rfl⟩
  · rintro _ p q ⟨round, fmt, rfl⟩ hnext
    exact ⟨_, next_of_nextOffset (next_offsetStep_iff.mp hnext), round + 1, _, rfl⟩
  · rintro _ p ⟨⟩ ⟨round, fmt, rfl⟩ hdone
    have hstop : nextOffset bytes p = none := by
      unfold offsetStep at hdone
      cases h : nextOffset bytes p with
      | none => rfl
      | some q => simp [h] at hdone
    exact ⟨_, returns_of_stop hstop⟩

theorem offsetStep_terminates_iff (p : ℕ) :
    Loop.Terminates (offsetStep bytes) p ↔
      ∀ q, Relation.ReflTransGen (ChunkLeadsTo bytes) p q →
        ¬ Relation.TransGen (ChunkLeadsTo bytes) q q := by
  -- the walk goes on only from headers inside the file, which are finitely many
  have hfinite :
      {q | Loop.Reaches (offsetStep bytes) p q ∧ ∃ r, Loop.Next (offsetStep bytes) q r}.Finite := by
    refine (Set.finite_lt_nat bytes.length).subset ?_
    rintro q ⟨-, r, hnext⟩
    have hheader := (next_offsetStep_iff.mp hnext).header_le
    exact Set.mem_ofPred.mpr (by omega)
  rw [Loop.terminates_iff_acyclic hfinite, Loop.Reaches, next_offsetStep_eq]

/-- `read_wav` ends on a file exactly when its chunks, followed from the first one
on, lead back to no chunk already seen. -/
theorem exists_readsTo_iff_acyclic (stale : Stale) (bytes : List UInt8) :
    (∃ outcome, ReadsTo F stale (some bytes) outcome) ↔
      (HasRiffHeader bytes → ∀ p, Relation.ReflTransGen (ChunkLeadsTo bytes) 12 p →
        ¬ Relation.TransGen (ChunkLeadsTo bytes) p p) := by
  by_cases hriff : HasRiffHeader bytes
  · simp only [readsTo_iff_returns hriff, hriff, true_imp_iff]
    rw [← offsetStep_terminates_iff, ← scan_terminates_iff (F := F) stale 0 12 none]
    rfl
  · simp [hriff, readsTo_of_not_hasRiffHeader hriff]

/-- A header and one chunk that declares the size `-8`: the chunk is followed by itself. -/
def selfChunk : List UInt8 :=
  [0x52, 0x49, 0x46, 0x46, 0x0c, 0, 0, 0, 0x57, 0x41, 0x56, 0x45,
    0x4c, 0x49, 0x53, 0x54, 0xf8, 0xff, 0xff, 0xff]

theorem selfChunk_leadsTo : ChunkLeadsTo selfChunk 12 12 := by
  decide

/-- On this file of 20 bytes `read_wav` does not end. -/
theorem selfChunk_not_readsTo : ¬ ∃ outcome, ReadsTo ℚ .zero (some selfChunk) outcome := by
  have hriff : HasRiffHeader selfChunk := by decide
  have hround : ∀ s, (∃ round fmt, s = stateAt selfChunk round 12 fmt) →
      ∃ s', Loop.Next (scanStep ℚ .zero) s s' ∧
        ∃ round fmt, s' = stateAt selfChunk round 12 fmt := by
    rintro _ ⟨round, fmt, rfl⟩
    exact ⟨_, next_of_nextOffset selfChunk_leadsTo, round + 1, _, rfl⟩
  simp only [readsTo_iff_returns hriff]
  exact Loop.not_terminates_of_stays hround ⟨0, none, rfl⟩

end WhisperAndroid
