import Mathlib.Data.Int.ConditionallyCompleteOrder
import Mathlib.Data.List.Destutter
import Mathlib.Order.Monotone.Basic
import Mathlib.Tactic.Linarith
import Mathlib.Tactic.Ring

/-!
# Knots of a rising line

A table of integer arguments with their values, and the line through its knots. A table whose
knots are *in step*, a greater argument with a greater value, becomes a rising table when it is
sorted and repeated arguments are dropped, in whatever order the sort leaves equal arguments.
The line through a rising table rises, and so does its rounding to the integers below.
-/

/-- An argument with its value. -/
@[ext]
structure Knot where
  arg : ℤ
  val : ℤ
deriving DecidableEq, Repr

namespace Knot

/-- A greater argument has a greater value. -/
def InStep (t : List Knot) : Prop := ∀ a ∈ t, ∀ b ∈ t, a.arg ≤ b.arg → a.val ≤ b.val

/-- The arguments increase, and the values with them. -/
def Rising (t : List Knot) : Prop := t.Pairwise fun a b => a.arg < b.arg ∧ a.val ≤ b.val

/-- The second knot is the same or behind in both ways. -/
def Leads (a b : Knot) : Prop := a.arg ≤ b.arg ∧ a.val ≤ b.val ∧ (a.arg = b.arg → a.val = b.val)

variable {a b k : Knot} {t t' l : List Knot} {x y : ℤ}

/-! ### Tables -/

theorem leads_of_arg_lt (harg : a.arg < b.arg) (hval : a.val ≤ b.val) : Leads a b :=
  ⟨harg.le, hval, fun heq => absurd heq harg.ne⟩

theorem Leads.refl (a : Knot) : Leads a a := ⟨le_rfl, le_rfl, fun _ => rfl⟩

theorem Leads.trans (h : Leads a b) (h' : Leads b k) : Leads a k := by
  obtain ⟨harg, hval, heq⟩ := h
  obtain ⟨harg', hval', heq'⟩ := h'
  refine ⟨harg.trans harg', hval.trans hval', fun h => ?_⟩
  rw [heq (le_antisymm harg (h ▸ harg')), heq' (le_antisymm harg' (h ▸ harg))]

namespace InStep

theorem nil : InStep [] := nofun

theorem singleton (a : Knot) : InStep [a] := by
  intro b hb c hc _
  rw [List.mem_singleton.mp hb, List.mem_singleton.mp hc]

/-- Two tables with a knot between them. -/
theorem append (h : InStep t) (h' : InStep t') (k : Knot) (hk : ∀ a ∈ t, Leads a k)
    (hk' : ∀ b ∈ t', Leads k b) : InStep (t ++ t') := by
  intro a ha b hb hab
  rcases List.mem_append.mp ha with ha | ha <;> rcases List.mem_append.mp hb with hb | hb
  · exact h a ha b hb hab
  · exact ((hk a ha).trans (hk' b hb)).2.1
  · obtain ⟨harg, -, hval⟩ := (hk b hb).trans (hk' a ha)
    exact (hval (le_antisymm harg hab)).ge
  · exact h' a ha b hb hab

/-- Sorted and without repeated arguments the table is rising. -/
theorem rising (h : InStep t) (hperm : t'.Perm t) (hsorted : t'.Pairwise fun a b => a.arg ≤ b.arg) :
    Rising (t'.destutter fun a b => a.arg ≠ b.arg) := by
  have hsub := List.destutter_sublist (fun a b : Knot => a.arg ≠ b.arg) t'
  have hchain : (t'.destutter fun a b => a.arg ≠ b.arg).IsChain fun a b => a.arg < b.arg := by
    have hne := List.isChain_destutter (fun a b : Knot => a.arg ≠ b.arg) t'
    have hle := (hsorted.sublist hsub).isChain
    exact List.isChain_iff_getElem.mpr fun i hi =>
      lt_of_le_of_ne (hle.getElem i hi) (hne.getElem i hi)
  have : IsTrans Knot fun a b => a.arg < b.arg := ⟨fun _ _ _ => lt_trans⟩
  refine (List.isChain_iff_pairwise.mp hchain).imp_of_mem fun ha hb hab => ⟨hab, ?_⟩
  exact h _ (hperm.mem_iff.mp (hsub.subset ha)) _ (hperm.mem_iff.mp (hsub.subset hb)) hab.le

end InStep

/-! ### The line -/

/-- The line between two knots, rounded towards the first. -/
def between (a b : Knot) (x : ℤ) : ℤ := a.val + ((x - a.arg) * (b.val - a.val)).tdiv (b.arg - a.arg)

/-- The line through `a` and the knots behind it, level on both sides. -/
def line (a : Knot) : List Knot → ℤ → ℤ
  | [], _ => a.val
  | b :: l, x => if x ≤ a.arg then a.val else if x < b.arg then between a b x else line b l x

theorem between_mono (hval : a.val ≤ b.val) (harg : a.arg < b.arg) (hx : a.arg ≤ x) (hxy : x ≤ y) :
    between a b x ≤ between a b y := by
  have hnonneg : ∀ z, a.arg ≤ z → 0 ≤ (z - a.arg) * (b.val - a.val) := fun z hz =>
    mul_nonneg (by linarith) (by linarith)
  rw [between, between, Int.tdiv_eq_ediv_of_nonneg (hnonneg x hx),
    Int.tdiv_eq_ediv_of_nonneg (hnonneg y (hx.trans hxy))]
  have hmul : (x - a.arg) * (b.val - a.val) ≤ (y - a.arg) * (b.val - a.val) :=
    mul_le_mul_of_nonneg_right (by linarith) (by linarith)
  have := Int.ediv_le_ediv (show 0 < b.arg - a.arg by linarith) hmul
  linarith

theorem between_start : between a b a.arg = a.val := by
  rw [between, sub_self, zero_mul, Int.zero_tdiv, add_zero]

theorem between_stop (harg : a.arg < b.arg) : between a b b.arg = b.val := by
  rw [between, Int.mul_tdiv_cancel_left _ (by linarith)]
  ring

theorem line_of_le (h : x ≤ a.arg) : line a l x = a.val := by
  cases l with
  | nil => rfl
  | cons b l => exact if_pos h

/-- A knot on the line between two others. -/
structure On (a b k : Knot) : Prop where
  le_arg : a.arg ≤ k.arg
  arg_le : k.arg ≤ b.arg
  val_eq : k.val = between a b k.arg

namespace On

theorem start (harg : a.arg ≤ b.arg) : On a b a := ⟨le_rfl, harg, between_start.symm⟩

theorem stop (harg : a.arg < b.arg) : On a b b := ⟨harg.le, le_rfl, (between_stop harg).symm⟩

variable (hval : a.val ≤ b.val) (harg : a.arg < b.arg)

include hval harg

theorem start_leads (h : On a b k) : Leads a k := by
  obtain ⟨hle, -, heq⟩ := h
  refine ⟨hle, ?_, fun hak => ?_⟩
  · have := between_mono hval harg le_rfl hle
    rwa [between_start, ← heq] at this
  · rw [heq, ← hak, between_start]

theorem leads_stop (h : On a b k) : Leads k b := by
  obtain ⟨hle, hle', heq⟩ := h
  refine ⟨hle', ?_, fun hkb => ?_⟩
  · have := between_mono hval harg hle hle'
    rwa [between_stop harg, ← heq] at this
  · rw [heq, hkb, between_stop harg]

/-- Knots on one line are in step. -/
theorem inStep (h : ∀ k ∈ t, On a b k) : InStep t := by
  intro k hk k' hk' hle
  rw [(h k hk).val_eq, (h k' hk').val_eq]
  exact between_mono hval harg (h k hk).le_arg hle

end On

theorem le_line (h : Rising (a :: l)) (x : ℤ) : a.val ≤ line a l x := by
  induction l generalizing a with
  | nil => exact le_rfl
  | cons b l ih =>
    obtain ⟨hhead, htail⟩ := List.pairwise_cons.mp h
    obtain ⟨harg, hval⟩ := hhead b List.mem_cons_self
    rw [line]
    split_ifs with hx hxb
    · exact le_rfl
    · have := between_mono hval harg le_rfl (not_le.mp hx).le
      rwa [between_start] at this
    · exact hval.trans (ih htail)

theorem line_le (h : Rising (a :: l)) (hlast : ∀ b ∈ a :: l, b.val ≤ y) (x : ℤ) :
    line a l x ≤ y := by
  induction l generalizing a with
  | nil => exact hlast a List.mem_cons_self
  | cons b l ih =>
    obtain ⟨hhead, htail⟩ := List.pairwise_cons.mp h
    obtain ⟨harg, hval⟩ := hhead b List.mem_cons_self
    rw [line]
    split_ifs with hx hxb
    · exact hlast a List.mem_cons_self
    · have hle := between_mono hval harg (not_le.mp hx).le hxb.le
      rw [between_stop harg] at hle
      exact hle.trans (hlast b (List.mem_cons_of_mem _ List.mem_cons_self))
    · exact ih htail fun c hc => hlast c (List.mem_cons_of_mem _ hc)

/-- The line rises. -/
theorem line_mono (h : Rising (a :: l)) : Monotone (line a l) := by
  intro x y hxy
  induction l generalizing a with
  | nil => exact le_rfl
  | cons b l ih =>
    obtain ⟨hhead, htail⟩ := List.pairwise_cons.mp h
    obtain ⟨harg, hval⟩ := hhead b List.mem_cons_self
    by_cases hx : x ≤ a.arg
    · rw [line, if_pos hx]
      exact le_line h y
    · have hy : ¬ y ≤ a.arg := fun hy => hx (hxy.trans hy)
      rw [line, line, if_neg hx, if_neg hy]
      split_ifs with hxb hyb hyb
      · exact between_mono hval harg (not_le.mp hx).le hxy
      · have hle := between_mono hval harg (not_le.mp hx).le hxb.le
        rw [between_stop harg] at hle
        exact hle.trans (le_line htail y)
      · exact absurd (hxy.trans_lt hyb) hxb
      · exact ih htail

end Knot
