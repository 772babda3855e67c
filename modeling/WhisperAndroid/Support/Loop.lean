import Mathlib.Data.Set.Finite.Basic
import Mathlib.Logic.Relation
import Mathlib.Order.Lattice

/-!
# Loops that may not end

A loop is a function `step : σ → σ ⊕ ρ`: from a state it either goes round again
in a new state or leaves with a result. `Loop.runFor` executes it with a bound on
the number of rounds, and `Loop.Returns` says that some bound is enough.

## Main results

* `Loop.Returns.unique` — a loop leaves with at most one result
* `Loop.returns_iff_exists_reaches` — the result is that of the last state reached
* `Loop.terminates_iff_of_guided` — a loop guided by a simpler one ends with it
* `Loop.terminates_iff_acyclic` — when only finitely many states go round, a loop
  ends exactly when it never comes back to a state
-/

namespace Loop

variable {σ τ ρ κ : Type*}

/-- Run a loop for at most the given number of rounds. -/
def runFor (step : σ → σ ⊕ ρ) : ℕ → σ → Option ρ
  | 0, _ => none
  | rounds + 1, s =>
    match step s with
    | .inl s' => runFor step rounds s'
    | .inr r => some r

/-- The loop started in `s` leaves with the result `r`. -/
def Returns (step : σ → σ ⊕ ρ) (s : σ) (r : ρ) : Prop :=
  ∃ rounds, runFor step rounds s = some r

/-- The loop started in `s` goes round finitely often. -/
def Terminates (step : σ → σ ⊕ ρ) (s : σ) : Prop :=
  ∃ r, Returns step s r

/-- One round takes `s` to `s'`. -/
def Next (step : σ → σ ⊕ ρ) (s s' : σ) : Prop := step s = .inl s'

/-- Some number of rounds takes `s` to `s'`. -/
abbrev Reaches (step : σ → σ ⊕ ρ) : σ → σ → Prop := Relation.ReflTransGen (Next step)

variable {step : σ → σ ⊕ ρ} {s s' t : σ} {r r' : ρ}

theorem next_iff : Next step s s' ↔ step s = .inl s' := Iff.rfl

theorem Next.unique (h : Next step s s') (h' : Next step s t) : s' = t :=
  Sum.inl.inj (h.symm.trans h')

/-! ### Results -/

@[simp] theorem runFor_zero (s : σ) : runFor step 0 s = none := rfl

theorem runFor_succ_next (h : Next step s s') (rounds : ℕ) :
    runFor step (rounds + 1) s = runFor step rounds s' := by
  rw [next_iff] at h
  simp only [runFor, h]

theorem runFor_succ_done (h : step s = .inr r) (rounds : ℕ) :
    runFor step (rounds + 1) s = some r := by
  simp only [runFor, h]

theorem returns_of_done (h : step s = .inr r) : Returns step s r :=
  ⟨1, runFor_succ_done h 0⟩

theorem returns_done_iff (h : step s = .inr r) : Returns step s r' ↔ r' = r := by
  constructor
  · rintro ⟨_ | rounds, hrun⟩
    · simp at hrun
    · rw [runFor_succ_done h] at hrun
      exact (Option.some_inj.mp hrun).symm
  · rintro rfl
    exact returns_of_done h

/-- A result found within a bound is found within every larger one. -/
theorem runFor_mono {few many : ℕ} (hle : few ≤ many) (h : runFor step few s = some r) :
    runFor step many s = some r := by
  -- induction on the smaller bound: both runs make the same first round
  induction few generalizing many s with
  | zero => simp at h
  | succ few ih =>
    obtain ⟨many, rfl⟩ : ∃ m, many = m + 1 := ⟨many - 1, by omega⟩
    cases hstep : step s with
    | inl s' =>
      rw [runFor_succ_next hstep] at h ⊢
      exact ih (by omega) h
    | inr q =>
      rw [runFor_succ_done hstep] at h ⊢
      exact h

/-- A loop leaves with at most one result. -/
theorem Returns.unique (h : Returns step s r) (h' : Returns step s r') : r = r' := by
  obtain ⟨rounds, hrun⟩ := h
  obtain ⟨rounds', hrun'⟩ := h'
  have hmax := runFor_mono (le_max_left rounds rounds') hrun
  rw [runFor_mono (le_max_right rounds rounds') hrun'] at hmax
  exact (Option.some_inj.mp hmax).symm

theorem Next.returns_iff (h : Next step s s') : Returns step s r ↔ Returns step s' r := by
  constructor
  · rintro ⟨_ | rounds, hrun⟩
    · simp at hrun
    · exact ⟨rounds, by rwa [runFor_succ_next h] at hrun⟩
  · rintro ⟨rounds, hrun⟩
    exact ⟨rounds + 1, by rwa [runFor_succ_next h]⟩

theorem Reaches.returns_iff (h : Reaches step s t) : Returns step s r ↔ Returns step t r := by
  induction h with
  | refl => rfl
  | tail _ hstep ih => rw [ih, hstep.returns_iff]

theorem Reaches.terminates_iff (h : Reaches step s t) : Terminates step s ↔ Terminates step t :=
  exists_congr fun _ => h.returns_iff

theorem exists_reaches_of_runFor {rounds : ℕ} (h : runFor step rounds s = some r) :
    ∃ t, Reaches step s t ∧ step t = .inr r := by
  induction rounds generalizing s with
  | zero => simp at h
  | succ rounds ih =>
    cases hstep : step s with
    | inl s' =>
      obtain ⟨t, hreach, hdone⟩ := ih (by rwa [runFor_succ_next hstep] at h)
      exact ⟨t, .head hstep hreach, hdone⟩
    | inr q =>
      rw [runFor_succ_done hstep, Option.some_inj] at h
      exact ⟨s, .refl, h ▸ hstep⟩

/-- The result of a loop is the result of the last state it reaches. -/
theorem returns_iff_exists_reaches :
    Returns step s r ↔ ∃ t, Reaches step s t ∧ step t = .inr r := by
  constructor
  · rintro ⟨rounds, hrun⟩
    exact exists_reaches_of_runFor hrun
  · rintro ⟨t, hreach, hdone⟩
    exact hreach.returns_iff.mpr (returns_of_done hdone)

/-! ### Termination -/

/-- A loop that follows a simpler loop round by round, and ends by itself where
the simpler one leaves, ends exactly when the simpler one does. -/
theorem terminates_iff_of_guided {guide : τ → τ ⊕ κ} (R : σ → τ → Prop)
    (hnext : ∀ s a a', R s a → Next guide a a' → ∃ s', Next step s s' ∧ R s' a')
    (hdone : ∀ s a q, R s a → guide a = .inr q → Terminates step s) {a : τ} (hR : R s a) :
    Terminates step s ↔ Terminates guide a := by
  constructor
  · rintro ⟨r, rounds, hrun⟩
    -- induction on the rounds of the followed loop; the guide cannot outlast them
    induction rounds generalizing s a with
    | zero => simp at hrun
    | succ rounds ih =>
      cases hguide : guide a with
      | inl a' =>
        obtain ⟨s', hs, hR'⟩ := hnext s a a' hR hguide
        obtain ⟨q, hq⟩ := ih hR' (by rwa [runFor_succ_next hs] at hrun)
        exact ⟨q, (show Next guide a a' from hguide).returns_iff.mpr hq⟩
      | inr q => exact ⟨q, returns_of_done hguide⟩
  · rintro ⟨q, rounds, hrun⟩
    -- the other way round the guide is run; `hdone` takes over where it leaves
    induction rounds generalizing s a with
    | zero => simp at hrun
    | succ rounds ih =>
      cases hguide : guide a with
      | inl a' =>
        obtain ⟨s', hs, hR'⟩ := hnext s a a' hR hguide
        obtain ⟨r, hr⟩ := ih hR' (by rwa [runFor_succ_next hguide] at hrun)
        exact ⟨r, hs.returns_iff.mpr hr⟩
      | inr q => exact hdone s a q hR hguide

/-- A loop whose rounds make a measure smaller leaves within one round more than it. -/
theorem exists_runFor_of_measure {I : σ → Prop} (μ : σ → ℕ)
    (hround : ∀ s s', I s → Next step s s' → I s' ∧ μ s' < μ s) {rounds : ℕ} (hs : I s)
    (hlt : μ s < rounds) : ∃ r, runFor step rounds s = some r := by
  induction rounds generalizing s with
  | zero => exact absurd hlt (Nat.not_lt_zero _)
  | succ rounds ih =>
    cases hstep : step s with
    | inl s' =>
      obtain ⟨hs', hμ⟩ := hround s s' hs hstep
      rw [runFor_succ_next hstep]
      exact ih hs' (by omega)
    | inr r => exact ⟨r, runFor_succ_done hstep rounds⟩

/-- What every round preserves holds of the last state reached. -/
theorem Reaches.invariant {I : σ → Prop} (hround : ∀ s s', I s → Next step s s' → I s')
    (h : Reaches step s t) (hs : I s) : I t := by
  induction h with
  | refl => exact hs
  | tail _ hstep ih => exact hround _ _ ih hstep

/-- A set of states that every round stays in is never left. -/
theorem not_terminates_of_stays {I : σ → Prop} (hstays : ∀ s, I s → ∃ s', Next step s s' ∧ I s')
    (hs : I s) : ¬ Terminates step s := by
  rintro ⟨r, rounds, hrun⟩
  induction rounds generalizing s with
  | zero => simp at hrun
  | succ rounds ih =>
    obtain ⟨s', hnext, hs'⟩ := hstays s hs
    exact ih hs' (by rwa [runFor_succ_next hnext] at hrun)

/-- A loop that comes back to a state it has left does not end. -/
theorem not_terminates_of_cycle (hreach : Reaches step s t)
    (hcycle : Relation.TransGen (Next step) t t) : ¬ Terminates step s := by
  rw [hreach.terminates_iff]
  refine not_terminates_of_stays (I := fun u => Relation.TransGen (Next step) u u) ?_ hcycle
  intro u hu
  obtain ⟨v, hnext, hback⟩ := Relation.TransGen.head'_iff.mp hu
  exact ⟨v, hnext, Relation.TransGen.tail' hback hnext⟩

/-! ### Loops with finitely many states -/

/-- The state after `rounds` rounds, or the last one before the loop leaves. -/
private def after (step : σ → σ ⊕ ρ) (s : σ) : ℕ → σ
  | 0 => s
  | rounds + 1 => (step (after step s rounds)).elim id fun _ => after step s rounds

section Diverging

/-- A loop that never leaves goes round from every state it reaches. -/
private theorem exists_next_of_reaches (hdiverges : ¬ Terminates step s)
    (hreach : Reaches step s t) : ∃ u, Next step t u := by
  cases hstep : step t with
  | inl u => exact ⟨u, hstep⟩
  | inr q => exact absurd ⟨q, hreach.returns_iff.mpr (returns_of_done hstep)⟩ hdiverges

private theorem after_succ_of_reaches (hdiverges : ¬ Terminates step s) {n : ℕ}
    (hreach : Reaches step s (after step s n)) :
    Next step (after step s n) (after step s (n + 1)) := by
  obtain ⟨u, hu⟩ := exists_next_of_reaches hdiverges hreach
  have hsucc : after step s (n + 1) = u := by
    rw [after, next_iff.mp hu, Sum.elim_inl, id]
  rwa [hsucc]

private theorem reaches_after (hdiverges : ¬ Terminates step s) (n : ℕ) :
    Reaches step s (after step s n) := by
  induction n with
  | zero => exact .refl
  | succ n ih => exact .tail ih (after_succ_of_reaches hdiverges ih)

private theorem after_path (hdiverges : ¬ Terminates step s) (n k : ℕ) :
    Relation.TransGen (Next step) (after step s n) (after step s (n + k + 1)) := by
  have hnext (m : ℕ) := after_succ_of_reaches hdiverges (reaches_after hdiverges m)
  induction k with
  | zero => exact .single (hnext n)
  | succ k ih => exact .tail ih (hnext (n + k + 1))

end Diverging

/-- If the reachable states that go round are finitely many, a loop ends exactly
when it never comes back to a state. -/
theorem terminates_iff_acyclic
    (hfinite : {t | Reaches step s t ∧ ∃ u, Next step t u}.Finite) :
    Terminates step s ↔ ∀ t, Reaches step s t → ¬ Relation.TransGen (Next step) t t := by
  refine ⟨fun hterm t hreach hcycle => not_terminates_of_cycle hreach hcycle hterm, ?_⟩
  contrapose!
  intro hdiverges
  have hrange : Set.range (after step s) ⊆ {t | Reaches step s t ∧ ∃ u, Next step t u} := by
    rintro _ ⟨n, rfl⟩
    exact ⟨reaches_after hdiverges n, exists_next_of_reaches hdiverges (reaches_after hdiverges n)⟩
  -- infinitely many rounds through finitely many states meet one state twice
  have hnot : ¬ Function.Injective (after step s) := fun hinj =>
    Set.infinite_range_of_injective hinj (hfinite.subset hrange)
  obtain ⟨m, n, hsame, hne⟩ := Function.not_injective_iff.mp hnot
  wlog hlt : m < n generalizing m n
  · exact this n m hsame.symm hne.symm (by omega)
  obtain ⟨k, rfl⟩ : ∃ k, n = m + k + 1 := ⟨n - m - 1, by omega⟩
  have hcycle := after_path hdiverges m k
  rw [← hsame] at hcycle
  exact ⟨after step s m, reaches_after hdiverges m, hcycle⟩

end Loop
