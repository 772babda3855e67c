import Mathlib.Computability.ContextFreeGrammar
import Mathlib.Computability.MyhillNerode
import Mathlib.Order.WellFoundedSet

/-!
# Leftmost derivations as a stack machine

A sentential form of a context-free grammar is read as a stack with its top in
front. The machine replaces a nonterminal on top by the right side of a rule and
pops a terminal that accepts the next input symbol; a terminal stands for a class of
input symbols.

## Main results

* `Leftmost.spells_initial_iff` — the words spelled by the initial nonterminal are
  those that match a word of the language of the grammar
* `Leftmost.spelledBy_foldl_advance` — the set of stacks after some input spells the
  left quotient by that input
* `Leftmost.foldl_advance_nonempty_iff` — a stack is left exactly when the input begins
  a word
* `Leftmost.wellFounded_expands_iff_acyclic` — the replacement of nonterminals ends
  from every stack exactly when no nonterminal is left recursive
-/

namespace Leftmost

open Relation

variable {T α : Type*} {g : ContextFreeGrammar T}

/-- A sentential form spells a word by leftmost replacement, each terminal accepting
the input symbol at its place. -/
inductive Spells (g : ContextFreeGrammar T) (accepts : T → α → Prop) :
    List (Symbol T g.NT) → List α → Prop
  | nil : Spells g accepts [] []
  | terminal {t : T} {a : α} {β : List (Symbol T g.NT)} {w : List α} :
      accepts t a → Spells g accepts β w → Spells g accepts (.terminal t :: β) (a :: w)
  | nonterminal {n : g.NT} {γ β : List (Symbol T g.NT)} {w : List α} :
      ⟨n, γ⟩ ∈ g.rules → Spells g accepts (γ ++ β) w → Spells g accepts (.nonterminal n :: β) w

/-- Replace the nonterminal on top of a stack. -/
inductive Expands (g : ContextFreeGrammar T) :
    List (Symbol T g.NT) → List (Symbol T g.NT) → Prop
  | mk {n : g.NT} {γ : List (Symbol T g.NT)} (β : List (Symbol T g.NT)) :
      ⟨n, γ⟩ ∈ g.rules → Expands g (.nonterminal n :: β) (γ ++ β)

/-- There is no nonterminal on top. -/
def Settled {N : Type*} (β : List (Symbol T N)) : Prop := ∀ n γ, β ≠ .nonterminal n :: γ

/-- The stacks without a nonterminal on top that replacement leads to. -/
def frontier (g : ContextFreeGrammar T) (β : List (Symbol T g.NT)) :
    Set (List (Symbol T g.NT)) :=
  {β' | ReflTransGen (Expands g) β β' ∧ Settled β'}

/-- The stacks after one more input symbol. -/
def advance (g : ContextFreeGrammar T) (accepts : T → α → Prop)
    (S : Set (List (Symbol T g.NT))) (a : α) : Set (List (Symbol T g.NT)) :=
  {β | ∃ t γ, .terminal t :: γ ∈ S ∧ accepts t a ∧ β ∈ frontier g γ}

/-- The words that some stack of a set spells. -/
def spelledBy (g : ContextFreeGrammar T) (accepts : T → α → Prop)
    (S : Set (List (Symbol T g.NT))) : Language α :=
  {w | ∃ β ∈ S, Spells g accepts β w}

variable {accepts : T → α → Prop} {t : T} {n m : g.NT} {a : α} {w : List α}
  {β γ δ : List (Symbol T g.NT)} {S : Set (List (Symbol T g.NT))}

theorem mem_spelledBy : w ∈ spelledBy g accepts S ↔ ∃ β ∈ S, Spells g accepts β w := Iff.rfl

/-! ### The words of a sentential form -/

@[simp] theorem spells_nil_iff : Spells g accepts [] w ↔ w = [] := by
  constructor
  · intro h
    cases h
    rfl
  · intro h
    exact h ▸ .nil

theorem spells_terminal_iff :
    Spells g accepts (.terminal t :: β) w ↔
      ∃ a v, w = a :: v ∧ accepts t a ∧ Spells g accepts β v := by
  constructor
  · intro h
    cases h with
    | terminal haccepts hrest => exact ⟨_, _, rfl, haccepts, hrest⟩
  · intro ⟨a, v, hw, haccepts, hrest⟩
    exact hw ▸ .terminal haccepts hrest

theorem Spells.append {v : List α} (hβ : Spells g accepts β w) (hγ : Spells g accepts γ v) :
    Spells g accepts (β ++ γ) (w ++ v) := by
  induction hβ with
  | nil => exact hγ
  | terminal haccepts _ ih => exact .terminal haccepts ih
  | nonterminal hrule _ ih =>
    rw [List.append_assoc] at ih
    exact .nonterminal hrule ih

theorem Spells.exists_split (h : Spells g accepts δ w) (hδ : δ = β ++ γ) :
    ∃ u v, w = u ++ v ∧ Spells g accepts β u ∧ Spells g accepts γ v := by
  induction h generalizing β with
  | nil =>
    obtain ⟨rfl, rfl⟩ := List.append_eq_nil_iff.mp hδ.symm
    exact ⟨[], [], rfl, .nil, .nil⟩
  | @terminal t a δ w haccepts hrest ih =>
    cases β with
    | nil =>
      subst hδ
      exact ⟨[], a :: w, rfl, .nil, .terminal haccepts hrest⟩
    | cons s β =>
      injection hδ with hs hδ
      subst hs
      obtain ⟨u, v, rfl, hu, hv⟩ := ih hδ
      exact ⟨a :: u, v, rfl, .terminal haccepts hu, hv⟩
  | @nonterminal n δ' δ w hrule hrest ih =>
    cases β with
    | nil =>
      subst hδ
      exact ⟨[], w, rfl, .nil, .nonterminal hrule hrest⟩
    | cons s β =>
      injection hδ with hs hδ
      subst hs hδ
      obtain ⟨u, v, hw, hu, hv⟩ := ih (List.append_assoc δ' β γ).symm
      exact ⟨u, v, hw, .nonterminal hrule hu, hv⟩

theorem spells_append_iff :
    Spells g accepts (β ++ γ) w ↔
      ∃ u v, w = u ++ v ∧ Spells g accepts β u ∧ Spells g accepts γ v := by
  constructor
  · intro h
    exact h.exists_split rfl
  · intro ⟨u, v, hw, hu, hv⟩
    exact hw ▸ hu.append hv

/-! ### Leftmost and arbitrary derivations -/

theorem Spells.of_produces (hstep : g.Produces β γ) (h : Spells g accepts γ w) :
    Spells g accepts β w := by
  obtain ⟨r, hrule, hrewrites⟩ := hstep
  obtain ⟨p, q, rfl, rfl⟩ := hrewrites.exists_parts
  rw [List.append_assoc, spells_append_iff] at h ⊢
  obtain ⟨u, v, hw, hu, hv⟩ := h
  exact ⟨u, v, hw, hu, .nonterminal hrule hv⟩

theorem spells_terminals_iff {ts : List T} :
    Spells g accepts (ts.map .terminal) w ↔ List.Forall₂ accepts ts w := by
  induction ts generalizing w with
  | nil => rw [List.map_nil, spells_nil_iff, List.forall₂_nil_left_iff]
  | cons t ts ih =>
    rw [List.map_cons, spells_terminal_iff, List.forall₂_cons_left_iff]
    constructor
    · intro ⟨a, v, hw, haccepts, hrest⟩
      exact ⟨a, v, haccepts, ih.mp hrest, hw⟩
    · intro ⟨a, v, haccepts, hrest, hw⟩
      exact ⟨a, v, hw, haccepts, ih.mpr hrest⟩

theorem Spells.exists_derives (h : Spells g accepts β w) :
    ∃ ts : List T, g.Derives β (ts.map .terminal) ∧ List.Forall₂ accepts ts w := by
  induction h with
  | nil => exact ⟨[], ReflTransGen.refl, .nil⟩
  | @terminal t a β w haccepts _ ih =>
    obtain ⟨ts, hderives, hmatch⟩ := ih
    exact ⟨t :: ts, hderives.append_left [.terminal t], .cons haccepts hmatch⟩
  | @nonterminal n γ β w hrule _ ih =>
    obtain ⟨ts, hderives, hmatch⟩ := ih
    exact ⟨ts, .head ⟨_, hrule, .head β⟩ hderives, hmatch⟩

/-- A sentential form spells a word if and only if it derives, in any order, a word
of terminals that accept the word. -/
theorem spells_iff_exists_derives :
    Spells g accepts β w ↔
      ∃ ts : List T, g.Derives β (ts.map .terminal) ∧ List.Forall₂ accepts ts w := by
  constructor
  · exact Spells.exists_derives
  · intro ⟨ts, hderives, hmatch⟩
    induction hderives using ReflTransGen.head_induction_on with
    | refl => exact spells_terminals_iff.mpr hmatch
    | head hstep _ ih => exact ih.of_produces hstep

theorem spells_initial_iff :
    Spells g accepts [.nonterminal g.initial] w ↔
      ∃ ts ∈ g.language, List.Forall₂ accepts ts w :=
  spells_iff_exists_derives

/-! ### Reading input -/

theorem expands_iff :
    Expands g β γ ↔ ∃ n ρ δ, ⟨n, ρ⟩ ∈ g.rules ∧ β = .nonterminal n :: δ ∧ γ = ρ ++ δ := by
  constructor
  · intro h
    cases h with
    | mk δ hrule => exact ⟨_, _, δ, hrule, rfl, rfl⟩
  · intro ⟨n, ρ, δ, hrule, hβ, hγ⟩
    rw [hβ, hγ]
    exact .mk δ hrule

theorem Expands.append_right (h : Expands g β γ) (δ : List (Symbol T g.NT)) :
    Expands g (β ++ δ) (γ ++ δ) := by
  cases h with
  | mk β hrule =>
    rw [List.append_assoc]
    exact .mk (β ++ δ) hrule

theorem expands_append_right (h : ReflTransGen (Expands g) β γ) (δ : List (Symbol T g.NT)) :
    ReflTransGen (Expands g) (β ++ δ) (γ ++ δ) :=
  h.lift (· ++ δ) fun _ _ hstep => hstep.append_right δ

theorem Spells.of_expands (h : ReflTransGen (Expands g) β γ) (hγ : Spells g accepts γ w) :
    Spells g accepts β w := by
  induction h using ReflTransGen.head_induction_on with
  | refl => exact hγ
  | head hstep _ ih =>
    cases hstep with
    | mk β hrule => exact .nonterminal hrule ih

theorem settled_nil {N : Type*} : Settled ([] : List (Symbol T N)) := fun _ _ => nofun

theorem settled_terminal {N : Type*} (t : T) (β : List (Symbol T N)) :
    Settled (.terminal t :: β) :=
  fun _ _ => nofun

theorem frontier_of_settled (h : Settled β) : frontier g β = {β} := by
  ext γ
  constructor
  · intro ⟨hreach, _⟩
    cases hreach.cases_head with
    | inl heq => exact heq.symm
    | inr hstep =>
      obtain ⟨_, hstep, _⟩ := hstep
      cases hstep with
      | mk => exact absurd rfl (h _ _)
  · intro heq
    obtain rfl : γ = β := heq
    exact ⟨.refl, h⟩

theorem mem_frontier_nonterminal :
    γ ∈ frontier g (.nonterminal n :: β) ↔ ∃ δ, ⟨n, δ⟩ ∈ g.rules ∧ γ ∈ frontier g (δ ++ β) := by
  constructor
  · intro ⟨hreach, hsettled⟩
    cases hreach.cases_head with
    | inl heq => exact absurd heq.symm (hsettled n β)
    | inr hstep =>
      obtain ⟨_, hstep, hreach⟩ := hstep
      cases hstep with
      | mk _ hrule => exact ⟨_, hrule, hreach, hsettled⟩
  · intro ⟨δ, hrule, hreach, hsettled⟩
    exact ⟨.head (.mk β hrule) hreach, hsettled⟩

theorem spells_iff_exists_frontier :
    Spells g accepts β w ↔ ∃ γ ∈ frontier g β, Spells g accepts γ w := by
  constructor
  · intro h
    induction h with
    | nil => exact ⟨[], ⟨.refl, settled_nil⟩, .nil⟩
    | @terminal t a β w haccepts hrest =>
      exact ⟨.terminal t :: β, ⟨.refl, settled_terminal t β⟩, .terminal haccepts hrest⟩
    | nonterminal hrule _ ih =>
      obtain ⟨γ, ⟨hreach, hsettled⟩, hγ⟩ := ih
      exact ⟨γ, ⟨.head (.mk _ hrule) hreach, hsettled⟩, hγ⟩
  · intro ⟨γ, ⟨hreach, _⟩, hγ⟩
    exact hγ.of_expands hreach

theorem mem_advance_singleton :
    γ ∈ advance g accepts {β} a ↔ ∃ t δ, β = .terminal t :: δ ∧ accepts t a ∧ γ ∈ frontier g δ := by
  constructor
  · intro ⟨t, δ, hmem, haccepts, hγ⟩
    exact ⟨t, δ, hmem.symm, haccepts, hγ⟩
  · intro ⟨t, δ, hβ, haccepts, hγ⟩
    exact ⟨t, δ, hβ.symm, haccepts, hγ⟩

/-- Each stack is advanced by itself. -/
theorem mem_advance_iff : γ ∈ advance g accepts S a ↔ ∃ β ∈ S, γ ∈ advance g accepts {β} a := by
  constructor
  · intro ⟨t, δ, hmem, h⟩
    exact ⟨_, hmem, t, δ, rfl, h⟩
  · intro ⟨β, hmem, t, δ, hβ, h⟩
    obtain rfl : .terminal t :: δ = β := hβ
    exact ⟨t, δ, hmem, h⟩

theorem mem_foldl_advance_iff :
    γ ∈ w.foldl (advance g accepts) S ↔ ∃ β ∈ S, γ ∈ w.foldl (advance g accepts) {β} := by
  induction w generalizing S with
  | nil => simp
  | cons a w ih =>
    rw [List.foldl_cons, ih]
    constructor
    · intro ⟨δ, hδ, hγ⟩
      obtain ⟨β, hβ, hδ⟩ := mem_advance_iff.mp hδ
      exact ⟨β, hβ, ih.mpr ⟨δ, hδ, hγ⟩⟩
    · intro ⟨β, hβ, hγ⟩
      obtain ⟨δ, hδ, hγ⟩ := ih.mp hγ
      exact ⟨δ, mem_advance_iff.mpr ⟨β, hβ, hδ⟩, hγ⟩

theorem foldl_advance_empty : w.foldl (advance g accepts) ∅ = ∅ := by
  ext γ
  rw [mem_foldl_advance_iff]
  simp

theorem settled_of_mem_advance (h : β ∈ advance g accepts S a) : Settled β := by
  obtain ⟨_, _, _, _, _, hsettled⟩ := h
  exact hsettled

theorem settled_of_mem_foldl_advance (hS : ∀ β ∈ S, Settled β)
    (h : β ∈ w.foldl (advance g accepts) S) : Settled β := by
  induction w generalizing S with
  | nil => exact hS β h
  | cons a w ih => exact ih (fun _ => settled_of_mem_advance) h

/-- Reading a symbol takes the left quotient of what the stacks spell. -/
theorem spelledBy_advance (hS : ∀ β ∈ S, Settled β) (a : α) :
    spelledBy g accepts (advance g accepts S a) =
      (spelledBy g accepts S).leftQuotient [a] := by
  ext w
  rw [Language.mem_leftQuotient, mem_spelledBy, mem_spelledBy]
  constructor
  · intro ⟨β, ⟨t, γ, hmem, haccepts, hfrontier⟩, hβ⟩
    exact ⟨_, hmem, .terminal haccepts (spells_iff_exists_frontier.mpr ⟨β, hfrontier, hβ⟩)⟩
  · intro ⟨β, hmem, hβ⟩
    cases hβ with
    | @terminal t _ γ _ haccepts hrest =>
      obtain ⟨β, hfrontier, hβ⟩ := spells_iff_exists_frontier.mp hrest
      exact ⟨β, ⟨t, γ, hmem, haccepts, hfrontier⟩, hβ⟩
    | nonterminal => exact absurd rfl (hS _ hmem _ _)

theorem spelledBy_foldl_advance (hS : ∀ β ∈ S, Settled β) (w : List α) :
    spelledBy g accepts (w.foldl (advance g accepts) S) =
      (spelledBy g accepts S).leftQuotient w := by
  induction w generalizing S with
  | nil => rfl
  | cons a w ih =>
    rw [List.foldl_cons, ih fun _ => settled_of_mem_advance, spelledBy_advance hS,
      ← Language.leftQuotient_append, List.singleton_append]

variable (accepts) in
/-- Among settled stacks only the empty one spells the empty word. -/
theorem nil_mem_iff (hS : ∀ β ∈ S, Settled β) : [] ∈ S ↔ [] ∈ spelledBy g accepts S := by
  constructor
  · intro h
    exact ⟨[], h, .nil⟩
  · intro ⟨β, hmem, hβ⟩
    cases hβ with
    | nil => exact hmem
    | nonterminal => exact absurd rfl (hS _ hmem _ _)

theorem spelledBy_frontier :
    spelledBy g accepts (frontier g β) = {w | Spells g accepts β w} := by
  ext w
  exact spells_iff_exists_frontier.symm

/-- After some input there is an empty stack if and only if the form spells the
input. -/
theorem nil_mem_foldl_advance_iff :
    [] ∈ w.foldl (advance g accepts) (frontier g β) ↔ Spells g accepts β w := by
  have hsettled : ∀ γ ∈ frontier g β, Settled γ := fun _ h => h.2
  rw [nil_mem_iff accepts fun _ => settled_of_mem_foldl_advance hsettled,
    spelledBy_foldl_advance hsettled, Language.mem_leftQuotient, List.append_nil,
    spelledBy_frontier]
  rfl

/-! ### Symbols of the rules -/

section Symbols

variable {P : Symbol T g.NT → Prop} (hrules : ∀ r ∈ g.rules, ∀ x ∈ r.output, P x)
include hrules

theorem forall_mem_of_expands (h : ∀ x ∈ β, P x) (hreach : ReflTransGen (Expands g) β γ) :
    ∀ x ∈ γ, P x := by
  induction hreach with
  | refl => exact h
  | tail _ hstep ih =>
    obtain ⟨n, ρ, δ, hrule, rfl, rfl⟩ := expands_iff.mp hstep
    exact List.forall_mem_append.mpr ⟨hrules _ hrule, (List.forall_mem_cons.mp ih).2⟩

theorem forall_mem_of_mem_advance (hS : ∀ β ∈ S, ∀ x ∈ β, P x)
    (h : β ∈ advance g accepts S a) : ∀ x ∈ β, P x := by
  obtain ⟨t, γ, hmem, _, hreach, _⟩ := h
  exact forall_mem_of_expands hrules (List.forall_mem_cons.mp (hS _ hmem)).2 hreach

/-- What holds of the symbols of the rules holds of the symbols on the stacks. -/
theorem forall_mem_of_mem_foldl_advance (hS : ∀ β ∈ S, ∀ x ∈ β, P x)
    (h : β ∈ w.foldl (advance g accepts) S) : ∀ x ∈ β, P x := by
  induction w generalizing S with
  | nil => exact hS β h
  | cons a w ih => exact ih (fun _ => forall_mem_of_mem_advance hrules hS) h

theorem forall_mem_of_mem_frontier (h : β ∈ frontier g [.nonterminal n]) : ∀ x ∈ β, P x := by
  obtain ⟨δ, hrule, hreach, _⟩ := mem_frontier_nonterminal.mp h
  rw [List.append_nil] at hreach
  exact forall_mem_of_expands hrules (hrules _ hrule) hreach

end Symbols

/-! ### Viable prefixes -/

/-- Each symbol of a sentential form spells a word. -/
def Productive (g : ContextFreeGrammar T) (accepts : T → α → Prop)
    (β : List (Symbol T g.NT)) : Prop :=
  ∀ x ∈ β, ∃ w, Spells g accepts [x] w

theorem Productive.exists_spells (h : Productive g accepts β) : ∃ w, Spells g accepts β w := by
  induction β with
  | nil => exact ⟨[], .nil⟩
  | cons x β ih =>
    obtain ⟨⟨u, hu⟩, hβ⟩ := List.forall_mem_cons.mp h
    obtain ⟨v, hv⟩ := ih hβ
    exact ⟨u ++ v, hu.append hv⟩

/-- When every symbol of the rules spells a word, a stack is left after some input if
and only if the input begins a word. -/
theorem foldl_advance_nonempty_iff (hrules : ∀ r ∈ g.rules, Productive g accepts r.output)
    (hsettled : ∀ β ∈ S, Settled β) (hS : ∀ β ∈ S, Productive g accepts β) :
    (w.foldl (advance g accepts) S).Nonempty ↔ ∃ v, w ++ v ∈ spelledBy g accepts S := by
  simp_rw [← Language.mem_leftQuotient, ← spelledBy_foldl_advance hsettled]
  constructor
  · intro ⟨β, hβ⟩
    have hproductive : Productive g accepts β := forall_mem_of_mem_foldl_advance hrules hS hβ
    obtain ⟨v, hv⟩ := hproductive.exists_spells
    exact ⟨v, β, hβ, hv⟩
  · intro ⟨v, β, hβ, _⟩
    exact ⟨β, hβ⟩

/-! ### Left recursion -/

/-- Replacement can remove all symbols. -/
def Nullable (g : ContextFreeGrammar T) (β : List (Symbol T g.NT)) : Prop :=
  ReflTransGen (Expands g) β []

/-- A right side of the first nonterminal has the second one behind symbols that
replacement can remove. -/
def LeftCorner (g : ContextFreeGrammar T) (n m : g.NT) : Prop :=
  ∃ β γ, ⟨n, β ++ .nonterminal m :: γ⟩ ∈ g.rules ∧ Nullable g β

theorem LeftCorner.transGen_expands (h : LeftCorner g n m) (δ : List (Symbol T g.NT)) :
    ∃ δ', TransGen (Expands g) (.nonterminal n :: δ) (.nonterminal m :: δ') := by
  obtain ⟨β, γ, hrule, hnull⟩ := h
  refine ⟨γ ++ δ, .head' (.mk δ hrule) ?_⟩
  rw [List.append_assoc]
  exact expands_append_right hnull _

/-- Replacement above a stack reaches that stack only through a nullable top. -/
theorem acc_append (hβ : ∀ β₁ m β₂, β = β₁ ++ .nonterminal m :: β₂ → Nullable g β₁ →
      ∀ δ, (Nullable g [.nonterminal m] → Acc (flip (Expands g)) δ) →
        Acc (flip (Expands g)) (.nonterminal m :: δ))
    (hδ : Nullable g β → Acc (flip (Expands g)) δ) : Acc (flip (Expands g)) (β ++ δ) := by
  induction β with
  | nil => exact hδ .refl
  | cons s β ih =>
    cases s with
    | terminal t => exact ⟨_, fun _ h => nomatch h⟩
    | nonterminal m =>
      refine hβ [] m β rfl .refl (β ++ δ) fun hm => ih ?_ ?_
      · intro β₁ m' β₂ heq hnull
        exact hβ (.nonterminal m :: β₁) m' β₂ (by rw [heq]; rfl)
          ((expands_append_right hm β₁).trans hnull)
      · intro hnull
        exact hδ ((expands_append_right hm β).trans hnull)

theorem acc_nonterminal (hn : Acc (flip (LeftCorner g)) n) :
    ∀ δ, (Nullable g [.nonterminal n] → Acc (flip (Expands g)) δ) →
      Acc (flip (Expands g)) (.nonterminal n :: δ) := by
  induction hn with
  | intro n _ ih =>
    intro δ hδ
    refine ⟨_, fun β' hstep => ?_⟩
    cases hstep with
    | @mk _ γ _ hrule =>
      refine acc_append ?_ ?_
      · intro β₁ m β₂ heq hnull
        exact ih m ⟨β₁, β₂, heq ▸ hrule, hnull⟩
      · intro hnull
        refine hδ (.head (.mk [] hrule) ?_)
        rwa [List.append_nil]

/-- Where replacement ends, there is no infinite descent into left corners. -/
theorem acc_leftCorner (hβ : Acc (flip (Expands g)) β) (heq : β = .nonterminal n :: δ) :
    Acc (flip (LeftCorner g)) n := by
  have htrans := hβ.transGen
  clear hβ
  induction htrans generalizing n δ with
  | intro β _ ih =>
    refine ⟨_, fun m hcorner => ?_⟩
    obtain ⟨δ', htrans⟩ := LeftCorner.transGen_expands hcorner δ
    exact ih _ (transGen_swap.mpr (heq ▸ htrans)) rfl

theorem not_acc_of_leftRecursive (hcycle : TransGen (LeftCorner g) n n) :
    ¬ Acc (flip (Expands g)) (.nonterminal n :: δ) := by
  intro hacc
  have hcorner := (acc_leftCorner hacc rfl).transGen
  clear hacc
  -- a cycle is a descent that never ends
  induction hcorner with
  | intro m _ ih => exact ih m (transGen_swap.mpr hcycle) hcycle

/-- Replacement ends from every stack exactly when there is no infinite descent into
left corners. -/
theorem wellFounded_expands_iff :
    WellFounded (flip (Expands g)) ↔ WellFounded (flip (LeftCorner g)) := by
  constructor
  · intro hexpands
    exact ⟨fun n => acc_leftCorner (hexpands.apply [.nonterminal n]) rfl⟩
  · intro hcorner
    refine ⟨fun β => ?_⟩
    rw [← List.append_nil β]
    exact acc_append (fun _ m _ _ _ => acc_nonterminal (hcorner.apply m))
      fun _ => ⟨_, fun _ h => nomatch h⟩

/-- Since the rules are finitely many, an infinite descent comes back to a
nonterminal. -/
theorem wellFounded_leftCorner_iff :
    WellFounded (flip (LeftCorner g)) ↔ ∀ n, ¬ TransGen (LeftCorner g) n n := by
  constructor
  · intro hwf n hcycle
    exact hwf.transGen.irrefl.irrefl n (transGen_swap.mpr hcycle)
  · intro hacyclic
    have hfinite : (ContextFreeRule.input '' (g.rules : Set (ContextFreeRule T g.NT))).Finite :=
      g.rules.finite_toSet.image _
    have : IsStrictOrder g.NT (flip (TransGen (LeftCorner g))) :=
      { irrefl := hacyclic
        trans := fun _ _ _ h h' => h'.trans h }
    have hwf := Set.wellFoundedOn_iff.mp
      (hfinite.wellFoundedOn (r := flip (TransGen (LeftCorner g))))
    refine ⟨fun n => ?_⟩
    induction hwf.apply n with
    | intro n _ ih =>
      refine ⟨_, fun m hcorner => ?_⟩
      by_cases hm : ∃ k, LeftCorner g m k
      · obtain ⟨k, _, _, hrule, _⟩ := hm
        obtain ⟨_, _, hrule', _⟩ := id hcorner
        exact ih m ⟨.single hcorner, ⟨_, hrule, rfl⟩, ⟨_, hrule', rfl⟩⟩
      · exact ⟨_, fun k hk => absurd ⟨k, hk⟩ hm⟩

theorem wellFounded_expands_iff_acyclic :
    WellFounded (flip (Expands g)) ↔ ∀ n, ¬ TransGen (LeftCorner g) n n :=
  wellFounded_expands_iff.trans wellFounded_leftCorner_iff

end Leftmost
