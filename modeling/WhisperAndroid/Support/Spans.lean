import Mathlib.Data.List.Basic
import Mathlib.Data.List.Pairwise
import Mathlib.Order.Monotone.Basic

/-!
# Spans along a line

Lists of spans of an order, each with a start and a stop. A list is *laid* between two bounds
if the bounds and all starts and stops are in order, so that the spans do not overlap. A list
*widens* another if each span of the other is inside one of its spans.
-/

/-- A part of a line. Nothing says that it stops behind its start. -/
@[ext]
structure Span (α : Type*) where
  start : α
  stop : α
deriving DecidableEq, Repr

namespace Span

variable {α β : Type*}

/-- The same span on another line. -/
def map (f : α → β) (s : Span α) : Span β := ⟨f s.start, f s.stop⟩

/-- The starts and stops of the spans as they follow each other. -/
def ends (l : List (Span α)) : List α := l.flatMap fun s => [s.start, s.stop]

variable [Preorder α]

/-- The spans follow each other between `lo` and `hi`. -/
def Laid (lo hi : α) (l : List (Span α)) : Prop :=
  (lo :: (ends l ++ [hi])).Pairwise (· ≤ ·)

/-- The first span is within the second. -/
def Inside (s t : Span α) : Prop := t.start ≤ s.start ∧ s.stop ≤ t.stop

/-- The points between `a` and `b` are in one span. -/
def Covered (l : List (Span α)) (a b : α) : Prop :=
  ∃ s ∈ l, s.start ≤ a ∧ b ≤ s.stop

/-- Every span of `l` is inside one of `l'`. -/
def Widens (l' l : List (Span α)) : Prop := ∀ s ∈ l, Covered l' s.start s.stop

variable {lo lo' hi hi' a b : α} {s t : Span α} {l l' l'' : List (Span α)}

/-! ### Laid spans -/

@[simp]
theorem laid_nil : Laid lo hi [] ↔ lo ≤ hi := by
  simp [Laid, ends]

@[simp]
theorem laid_cons : Laid lo hi (s :: l) ↔ lo ≤ s.start ∧ s.start ≤ s.stop ∧ Laid s.stop hi l := by
  rw [Laid, Laid, ← List.isChain_iff_pairwise, ← List.isChain_iff_pairwise]
  simp [ends]

omit [Preorder α] in
theorem ends_sublist (h : l'.Sublist l) : (ends l').Sublist (ends l) := by
  induction h with
  | slnil => exact .refl _
  | cons s _ ih => exact ih.trans (List.sublist_append_right _ _)
  | cons_cons s _ ih => exact (ih.cons_cons _).cons_cons _

namespace Laid

theorem lo_le_hi (h : Laid lo hi l) : lo ≤ hi :=
  (List.pairwise_cons.mp h).1 hi (by simp)

theorem mono (h : Laid lo hi l) (hlo : lo' ≤ lo) (hhi : hi ≤ hi') : Laid lo' hi' l := by
  induction l generalizing lo lo' with
  | nil => exact laid_nil.mpr (hlo.trans ((laid_nil.mp h).trans hhi))
  | cons s l ih =>
    obtain ⟨hstart, hstop, hrest⟩ := laid_cons.mp h
    exact laid_cons.mpr ⟨hlo.trans hstart, hstop, ih hrest le_rfl⟩

theorem append_iff : Laid lo hi (l ++ s :: l') ↔ Laid lo s.start l ∧ Laid s.start hi (s :: l') := by
  induction l generalizing lo with
  | nil => simp
  | cons t l ih =>
    rw [List.cons_append, laid_cons, ih]
    simp only [laid_cons, and_assoc]

theorem concat (h : Laid lo s.start l) (hstop : s.start ≤ s.stop) (hhi : s.stop ≤ hi) :
    Laid lo hi (l ++ [s]) :=
  append_iff.mpr ⟨h, laid_cons.mpr ⟨le_rfl, hstop, laid_nil.mpr hhi⟩⟩

theorem sublist (h : Laid lo hi l) (hl : l'.Sublist l) : Laid lo hi l' :=
  List.Pairwise.sublist (((ends_sublist hl).append_right _).cons_cons lo) h

theorem map [Preorder β] {f : α → β} (h : Laid lo hi l) (hf : Monotone f) :
    Laid (f lo) (f hi) (l.map (Span.map f)) := by
  induction l generalizing lo with
  | nil => exact laid_nil.mpr (hf (laid_nil.mp h))
  | cons s l ih =>
    obtain ⟨hstart, hstop, hrest⟩ := laid_cons.mp h
    exact laid_cons.mpr ⟨hf hstart, hf hstop, ih hrest⟩

/-- The first span can start earlier. -/
theorem earlier (h : Laid lo hi (s :: l)) (hlo : lo' ≤ a) (ha : a ≤ s.start) :
    Laid lo' hi (⟨a, s.stop⟩ :: l) :=
  have ⟨_, hstop, hrest⟩ := laid_cons.mp h
  laid_cons.mpr ⟨hlo, ha.trans hstop, hrest⟩

/-- Two spans that follow each other can become one. -/
theorem merge (h : Laid lo hi (s :: t :: l)) : Laid lo hi (⟨s.start, t.stop⟩ :: l) := by
  obtain ⟨hstart, hstop, hrest⟩ := laid_cons.mp h
  obtain ⟨hgap, hstop', hrest'⟩ := laid_cons.mp hrest
  exact laid_cons.mpr ⟨hstart, hstop.trans (hgap.trans hstop'), hrest'⟩

theorem bounds (h : Laid lo hi l) : ∀ s ∈ l, lo ≤ s.start ∧ s.start ≤ s.stop ∧ s.stop ≤ hi := by
  intro s hs
  obtain ⟨front, back, rfl⟩ := List.append_of_mem hs
  obtain ⟨hfront, hback⟩ := append_iff.mp h
  obtain ⟨-, hstop, hrest⟩ := laid_cons.mp hback
  exact ⟨hfront.lo_le_hi, hstop, hrest.lo_le_hi⟩

theorem pairwise (h : Laid lo hi l) : l.Pairwise fun s t => s.stop ≤ t.start := by
  induction l generalizing lo with
  | nil => exact .nil
  | cons s l ih =>
    obtain ⟨-, -, hrest⟩ := laid_cons.mp h
    exact .cons (fun t ht => (hrest.bounds t ht).1) (ih hrest)

end Laid

/-! ### Wider spans -/

omit [Preorder α] in
theorem exists_mem_of_forall₂ {r : Span α → Span α → Prop} (h : List.Forall₂ r l l') (ht : t ∈ l') :
    ∃ s ∈ l, r s t := by
  induction h with
  | nil => exact absurd ht List.not_mem_nil
  | cons hr _ ih =>
    rcases List.mem_cons.mp ht with rfl | ht
    · exact ⟨_, List.mem_cons_self, hr⟩
    · obtain ⟨s, hs, hr⟩ := ih ht
      exact ⟨s, List.mem_cons_of_mem _ hs, hr⟩

theorem Covered.of_widens (h : Covered l a b) (hw : Widens l' l) : Covered l' a b := by
  obtain ⟨s, hs, ha, hb⟩ := h
  obtain ⟨t, ht, hstart, hstop⟩ := hw s hs
  exact ⟨t, ht, hstart.trans ha, hb.trans hstop⟩

theorem Covered.map [Preorder β] {f : α → β} (h : Covered l a b) (hf : Monotone f) :
    Covered (l.map (Span.map f)) (f a) (f b) := by
  obtain ⟨s, hs, ha, hb⟩ := h
  exact ⟨s.map f, List.mem_map_of_mem hs, hf ha, hf hb⟩

namespace Widens

theorem refl (l : List (Span α)) : Widens l l :=
  fun s hs => ⟨s, hs, le_rfl, le_rfl⟩

theorem trans (h : Widens l'' l') (h' : Widens l' l) : Widens l'' l :=
  fun s hs => (h' s hs).of_widens h

theorem cons (hstart : t.start ≤ s.start) (hstop : s.stop ≤ t.stop) (h : Widens l' l) :
    Widens (t :: l') (s :: l) := by
  intro r hr
  rcases List.mem_cons.mp hr with rfl | hr
  · exact ⟨t, List.mem_cons_self, hstart, hstop⟩
  · obtain ⟨r', hr', hle⟩ := h r hr
    exact ⟨r', List.mem_cons_of_mem _ hr', hle⟩

theorem merge (h : Laid lo hi (s :: t :: l)) : Widens (⟨s.start, t.stop⟩ :: l) (s :: t :: l) := by
  obtain ⟨-, hstop, hrest⟩ := laid_cons.mp h
  obtain ⟨hgap, hstop', -⟩ := laid_cons.mp hrest
  intro r hr
  rcases List.mem_cons.mp hr with rfl | hr
  · exact ⟨_, List.mem_cons_self, le_rfl, hgap.trans hstop'⟩
  · rcases List.mem_cons.mp hr with rfl | hr
    · exact ⟨_, List.mem_cons_self, hstop.trans hgap, le_rfl⟩
    · exact ⟨r, List.mem_cons_of_mem _ hr, le_rfl, le_rfl⟩

theorem of_forall₂ (h : List.Forall₂ Inside l l') : Widens l' l := by
  induction h with
  | nil => exact .refl []
  | cons hinside _ ih => exact .cons hinside.1 hinside.2 ih

end Widens

end Span
