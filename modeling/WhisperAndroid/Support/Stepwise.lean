import Mathlib.Data.List.Infix
import Mathlib.Data.List.Pairwise

/-!
# Sequences built step by step

A sequence whose elements are each allowed after those before it, over arbitrary
elements. What one step allows becomes a property of the whole sequence: of every
beginning, of neighbours and of pairs however far apart.

## Main results

* `Stepwise.concat_iff` — one element more
* `Stepwise.pairwise` — a relation to all that came before holds between any two
* `Stepwise.of_middle` — what a step says of the last few elements holds anywhere
-/

variable {α : Type*}

/-- Every element of the sequence is allowed after those before it. -/
def Stepwise (allowed : List α → α → Prop) (l : List α) : Prop :=
  ∀ past a, past ++ [a] <+: l → allowed past a

namespace Stepwise

variable {allowed allowed' : List α → α → Prop} {l l' : List α} {a : α}

@[simp] theorem nil : Stepwise allowed [] := by
  intro past a h
  simp at h

theorem concat_iff : Stepwise allowed (l ++ [a]) ↔ Stepwise allowed l ∧ allowed l a := by
  constructor
  · intro h
    exact ⟨fun past b hb => h past b (hb.trans (List.prefix_append _ _)),
      h l a List.prefix_rfl⟩
  · intro ⟨hl, ha⟩ past b hb
    rcases List.prefix_concat_iff.mp hb with heq | hbefore
    · obtain ⟨rfl, hlast⟩ := List.append_inj' heq rfl
      rwa [List.singleton_inj.mp hlast]
    · exact hl past b hbefore

/-- A beginning of a stepwise sequence is one. -/
theorem of_prefix (h : Stepwise allowed l) (hl : l' <+: l) : Stepwise allowed l' :=
  fun past a ha => h past a (ha.trans hl)

theorem take (h : Stepwise allowed l) (n : ℕ) : Stepwise allowed (l.take n) :=
  h.of_prefix (List.take_prefix n l)

theorem mono (h : Stepwise allowed l) (hle : ∀ past a, allowed past a → allowed' past a) :
    Stepwise allowed' l :=
  fun past a ha => hle past a (h past a ha)

/-- What every step says of the new element holds of all elements. -/
theorem forall_mem {P : α → Prop} (h : Stepwise allowed l) (hP : ∀ past a, allowed past a → P a) :
    ∀ a ∈ l, P a := by
  induction l using List.reverseRecOn with
  | nil => simp
  | append_singleton l b ih =>
    obtain ⟨hl, hb⟩ := concat_iff.mp h
    intro a ha
    rcases List.mem_append.mp ha with ha | ha
    · exact ih hl a ha
    · rw [List.mem_singleton.mp ha]
      exact hP l b hb

/-- What every step says of the new element and all before it holds of any two. -/
theorem pairwise {R : α → α → Prop} (h : Stepwise allowed l)
    (hR : ∀ past a, allowed past a → ∀ b ∈ past, R b a) : l.Pairwise R := by
  induction l using List.reverseRecOn with
  | nil => exact .nil
  | append_singleton l b ih =>
    obtain ⟨hl, hb⟩ := concat_iff.mp h
    refine List.pairwise_append.mpr ⟨ih hl, List.pairwise_singleton R b, ?_⟩
    intro a ha c hc
    rw [List.mem_singleton.mp hc]
    exact hR l b hb a ha

/-- What a step allows after the elements before it, anywhere in the sequence. -/
theorem of_middle {past rest : List α} (h : Stepwise allowed (past ++ a :: rest)) :
    allowed past a :=
  h past a ⟨rest, by simp⟩

end Stepwise
