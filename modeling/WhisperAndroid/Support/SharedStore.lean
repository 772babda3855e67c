import Mathlib.Data.Finset.Basic
import Mathlib.Data.Multiset.MapFold
import Mathlib.Logic.Function.Basic

/-!
# Stores with shared cells

A store is a list of cells that several owners may share. What an owner holds is a
multiset, so that the place of a cell does not matter. Giving the cells of one owner to
another that has none copies a whole sequence at once, and through temporary owners many
sequences can be copied as if at the same time.

## Main results

* `view_map` — what a change of the owners makes of what they hold
* `assignThrough_dst` — assignments through temporaries are simultaneous
-/

namespace SharedStore

section Views

variable {C ι α : Type*} [DecidableEq ι] (owners : C → Finset ι) (content : C → α)

/-- What an owner holds. -/
def view (o : ι) (cells : List C) : Multiset α :=
  ↑((cells.filter (o ∈ owners ·)).map content)

variable {owners content} {o o' : ι} {cells cells' : List C}

@[simp] theorem view_append :
    view owners content o (cells ++ cells') =
      view owners content o cells + view owners content o cells' := by
  simp [view]

theorem view_eq_zero_iff : view owners content o cells = 0 ↔ ∀ c ∈ cells, o ∉ owners c := by
  simp [view]

/-- After a change of all cells an owner holds what another held before, if the change
gives it the cells of that one and keeps their contents. -/
theorem view_map {f : C → C} (howners : ∀ c ∈ cells, o ∈ owners (f c) ↔ o' ∈ owners c)
    (hcontent : ∀ c ∈ cells, o' ∈ owners c → content (f c) = content c) :
    view owners content o (cells.map f) = view owners content o' cells := by
  induction cells with
  | nil => rfl
  | cons c cells ih =>
    have hrest := ih (fun c hc => howners c (List.mem_cons_of_mem _ hc))
      fun c hc => hcontent c (List.mem_cons_of_mem _ hc)
    have hfirst := howners c List.mem_cons_self
    simp only [view, List.map_cons, List.filter_cons] at hrest ⊢
    by_cases hc : o' ∈ owners c
    · rw [if_pos (by simpa using hfirst.mpr hc), if_pos (by simpa using hc), List.map_cons,
        List.map_cons, hcontent c List.mem_cons_self hc, ← Multiset.cons_coe, hrest,
        Multiset.cons_coe]
    · rw [if_neg (by simpa [hfirst] using hc), if_neg (by simpa using hc), hrest]

end Views

/-! ### Simultaneous assignment -/

section Assign

variable {ι M : Type*} [DecidableEq ι] [Zero M] (tmp : ι → ι)

/-- Copy each source to the temporary of its destination, and then each temporary to its
destination, which clears the temporary. A move is a destination and a source. -/
def assignThrough (moves : List (ι × ι)) (f : ι → M) : ι → M :=
  moves.foldl (fun f m => Function.update (Function.update f m.1 (f (tmp m.1))) (tmp m.1) 0)
    (moves.foldl (fun f m => Function.update f (tmp m.1) (f m.2)) f)

variable {tmp} {moves : List (ι × ι)} {f : ι → M} {o : ι}

/-- The temporaries are neither sources nor destinations, and the destinations differ. -/
structure Separate (tmp : ι → ι) (moves : List (ι × ι)) : Prop where
  nodup : (moves.map Prod.fst).Nodup
  injective : Function.Injective tmp
  ne_dst : ∀ m ∈ moves, ∀ m' ∈ moves, tmp m.1 ≠ m'.1
  ne_src : ∀ m ∈ moves, ∀ m' ∈ moves, tmp m.1 ≠ m'.2

omit [DecidableEq ι] in
theorem Separate.tail {m : ι × ι} (h : Separate tmp (m :: moves)) : Separate tmp moves where
  nodup := (List.nodup_cons.mp h.nodup).2
  injective := h.injective
  ne_dst a ha b hb := h.ne_dst a (List.mem_cons_of_mem _ ha) b (List.mem_cons_of_mem _ hb)
  ne_src a ha b hb := h.ne_src a (List.mem_cons_of_mem _ ha) b (List.mem_cons_of_mem _ hb)

omit [DecidableEq ι] in
theorem Separate.ne_of_mem {m m' : ι × ι} (h : Separate tmp (m :: moves)) (hm' : m' ∈ moves) :
    m'.1 ≠ m.1 ∧ tmp m'.1 ≠ tmp m.1 := by
  have hne : m'.1 ≠ m.1 := fun heq =>
    (List.nodup_cons.mp h.nodup).1 (heq ▸ List.mem_map_of_mem hm')
  exact ⟨hne, fun heq => hne (h.injective heq)⟩

omit [Zero M] in
theorem saved_of_ne (ho : ∀ m ∈ moves, o ≠ tmp m.1) :
    moves.foldl (fun f m => Function.update f (tmp m.1) (f m.2)) f o = f o := by
  induction moves generalizing f with
  | nil => rfl
  | cons m moves ih =>
    rw [List.foldl_cons, ih fun a ha => ho a (List.mem_cons_of_mem _ ha),
      Function.update_of_ne (ho m List.mem_cons_self)]

omit [Zero M] in
theorem saved_tmp (h : Separate tmp moves) {m : ι × ι} (hm : m ∈ moves) :
    moves.foldl (fun f m => Function.update f (tmp m.1) (f m.2)) f (tmp m.1) = f m.2 := by
  induction moves generalizing f with
  | nil => simp at hm
  | cons m' moves ih =>
    rw [List.foldl_cons]
    rcases List.mem_cons.mp hm with rfl | hm
    · rw [saved_of_ne fun a ha => (h.ne_of_mem ha).2.symm, Function.update_self]
    · rw [ih h.tail hm, Function.update_of_ne]
      exact (h.ne_src m' List.mem_cons_self m (List.mem_cons_of_mem _ hm)).symm

theorem restored_of_ne (ho : ∀ m ∈ moves, o ≠ m.1 ∧ o ≠ tmp m.1) :
    moves.foldl (fun f m =>
      Function.update (Function.update f m.1 (f (tmp m.1))) (tmp m.1) 0) f o = f o := by
  induction moves generalizing f with
  | nil => rfl
  | cons m moves ih =>
    obtain ⟨hdst, htmp⟩ := ho m List.mem_cons_self
    rw [List.foldl_cons, ih fun a ha => ho a (List.mem_cons_of_mem _ ha),
      Function.update_of_ne htmp, Function.update_of_ne hdst]

theorem restored_dst (h : Separate tmp moves) {m : ι × ι} (hm : m ∈ moves) :
    moves.foldl (fun f m =>
      Function.update (Function.update f m.1 (f (tmp m.1))) (tmp m.1) 0) f m.1 = f (tmp m.1) := by
  induction moves generalizing f with
  | nil => simp at hm
  | cons m' moves ih =>
    rw [List.foldl_cons]
    rcases List.mem_cons.mp hm with rfl | hm
    · have hown : m.1 ≠ tmp m.1 := (h.ne_dst m List.mem_cons_self m List.mem_cons_self).symm
      rw [restored_of_ne, Function.update_of_ne hown, Function.update_self]
      intro a ha
      exact ⟨(h.ne_of_mem ha).1.symm,
        (h.ne_dst a (List.mem_cons_of_mem _ ha) m List.mem_cons_self).symm⟩
    · have hother := h.ne_dst m (List.mem_cons_of_mem _ hm) m' List.mem_cons_self
      rw [ih h.tail hm, Function.update_of_ne (h.ne_of_mem hm).2, Function.update_of_ne hother]

theorem restored_tmp (h : Separate tmp moves) {m : ι × ι} (hm : m ∈ moves) :
    moves.foldl (fun f m =>
      Function.update (Function.update f m.1 (f (tmp m.1))) (tmp m.1) 0) f (tmp m.1) = 0 := by
  induction moves generalizing f with
  | nil => simp at hm
  | cons m' moves ih =>
    rw [List.foldl_cons]
    rcases List.mem_cons.mp hm with rfl | hm
    · rw [restored_of_ne, Function.update_self]
      intro a ha
      exact ⟨h.ne_dst m List.mem_cons_self a (List.mem_cons_of_mem _ ha),
        (h.ne_of_mem ha).2.symm⟩
    · exact ih h.tail hm

/-- A destination gets what its source held before all assignments. -/
theorem assignThrough_dst (h : Separate tmp moves) {m : ι × ι} (hm : m ∈ moves) :
    assignThrough tmp moves f m.1 = f m.2 := by
  rw [assignThrough, restored_dst h hm, saved_tmp h hm]

/-- The temporaries are empty afterwards. -/
theorem assignThrough_tmp (h : Separate tmp moves) {m : ι × ι} (hm : m ∈ moves) :
    assignThrough tmp moves f (tmp m.1) = 0 :=
  restored_tmp h hm

/-- Everything else stays. -/
theorem assignThrough_of_ne (ho : ∀ m ∈ moves, o ≠ m.1 ∧ o ≠ tmp m.1) :
    assignThrough tmp moves f o = f o := by
  rw [assignThrough, restored_of_ne ho, saved_of_ne fun m hm => (ho m hm).2]

end Assign

end SharedStore
