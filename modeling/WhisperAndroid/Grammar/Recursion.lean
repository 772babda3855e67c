import WhisperAndroid.Grammar.Stacks

/-!
# Left recursion in a grammar

The recursion of `whisper_grammar_advance_stack` ends on every stack if and only if no
rule comes back to itself behind symbols that may be empty.
-/

namespace WhisperAndroid.Grammar

open Leftmost Relation

section Grammar

variable {rules : Rules} {start id depth chr : ℕ} {s : Sequence} {rule : List Sequence}
  {pos : Pos} {stack : Stack} {live live' : List Stack} {chrs : List ℕ}
  {β γ : List (Symbol CharClass ℕ)}

/-- Every reference in a sentential form has a rule. -/
def Rules.Closed (rules : Rules) (β : List (Symbol CharClass ℕ)) : Prop :=
  ∀ id, .nonterminal id ∈ β → id < rules.alternates.length

theorem Rules.Closed.append {rules : Rules} (hβ : rules.Closed β) (hγ : rules.Closed γ) :
    rules.Closed (β ++ γ) := by
  intro id hid
  cases List.mem_append.mp hid with
  | inl hid => exact hβ id hid
  | inr hid => exact hγ id hid

theorem closed_of_getElem? (h : rules.alternates[id]? = some rule) (hs : s ∈ rule) :
    rules.Closed s :=
  rules.closed rule (List.mem_of_getElem? h) s hs

theorem exists_of_starts {positions : List Pos} (h : List.Forall₂ Starts positions rule)
    (hpos : pos ∈ positions) : ∃ s ∈ rule, Starts pos s := by
  induction h with
  | nil => exact nomatch hpos
  | @cons pos' s _ rule hstarts _ ih =>
    cases List.mem_cons.mp hpos with
    | inl heq => exact ⟨s, List.mem_cons_self, heq ▸ hstarts⟩
    | inr hpos =>
      obtain ⟨s', hs', hstarts'⟩ := ih hpos
      exact ⟨s', List.mem_cons_of_mem s hs', hstarts'⟩

theorem exists_of_starts' {positions : List Pos} (h : List.Forall₂ Starts positions rule)
    (hs : s ∈ rule) : ∃ pos ∈ positions, Starts pos s := by
  induction h with
  | nil => exact nomatch hs
  | @cons pos s' positions _ hstarts _ ih =>
    cases List.mem_cons.mp hs with
    | inl heq => exact ⟨pos, List.mem_cons_self, heq ▸ hstarts⟩
    | inr hs =>
      obtain ⟨pos', hpos', hstarts'⟩ := ih hs
      exact ⟨pos', List.mem_cons_of_mem pos hpos', hstarts'⟩

theorem advanceStack_ruleRef {next : Pos} (hrule : rules.alternates[id]? = some rule) :
    advanceStack rules.encode (depth + 1) ((⟨.ruleRef, id⟩ :: next) :: stack) =
      (alternateStarts (encodeRule rule)).flatMapM fun subpos =>
        advanceStack rules.encode depth (pushUnlessEnd subpos (pushUnlessEnd next stack)) := by
  have hget : rules.encode[id]? = some (encodeRule rule) := encode_getElem?.mpr ⟨rule, hrule, rfl⟩
  simp only [advanceStack, elementType, elementValue, List.headD_cons, hget, Option.bind_eq_bind,
    Option.bind_some, List.tail_cons]

/-- Without endless replacement the recursion ends. -/
theorem exists_advanceStack (hacc : Acc (flip (Expands (rules.toGrammar start))) β)
    (hclosed : rules.Closed β) (hdenotes : Denotes stack β) :
    ∃ depth live, advanceStack rules.encode depth stack = some live := by
  induction hacc generalizing stack with
  | intro β _ ih =>
    cases stack with
    | nil => exact ⟨1, [[]], rfl⟩
    | cons pos stack =>
      obtain ⟨symbol, s, after, γ, hpos, hafter, hstack, rfl⟩ := hdenotes.exists_top
      cases symbol with
      | terminal cls =>
        refine ⟨1, [pos :: stack], ?_⟩
        rw [advanceStack, hpos, encodeSymbol, elementType_class_append]
        cases cls.positive <;> rfl
      | nonterminal id =>
        obtain rfl : pos = ⟨.ruleRef, id⟩ :: (encodeSequence s ++ after) := hpos
        have hid : id < rules.alternates.length := hclosed id List.mem_cons_self
        have hrule := List.getElem?_eq_getElem hid
        have hrest : Denotes (Grammar.pushUnlessEnd (encodeSequence s ++ after) stack) (s ++ γ) :=
          hstack.pushUnlessEnd ⟨after, rfl, hafter⟩
        obtain ⟨depth, live, h⟩ := exists_common_depth
          (F := fun d subpos => advanceStack rules.encode d
            (Grammar.pushUnlessEnd subpos
              (Grammar.pushUnlessEnd (encodeSequence s ++ after) stack)))
          (fun _ _ _ _ => advanceStack_mono) fun subpos hsubpos => by
            obtain ⟨s', hs', hstarts⟩ :=
              exists_of_starts (alternateStarts_of_getElem? hrule) hsubpos
            have hstep : Expands (rules.toGrammar start) (.nonterminal id :: (s ++ γ))
                (s' ++ (s ++ γ)) := .mk _ (mem_toGrammar_rules.mpr ⟨_, hrule, hs'⟩)
            exact ih _ hstep ((closed_of_getElem? hrule hs').append fun i hi =>
                hclosed i (List.mem_cons_of_mem _ hi))
              (hrest.pushUnlessEnd hstarts)
        exact ⟨depth + 1, live, by rw [advanceStack_ruleRef hrule, h]⟩

/-- Where the recursion ends, there is no endless replacement. -/
theorem acc_of_advanceStack (hdenotes : Denotes stack β)
    (h : advanceStack rules.encode depth stack = some live) :
    Acc (flip (Expands (rules.toGrammar start))) β := by
  induction depth generalizing stack β live with
  | zero => exact nomatch h
  | succ depth ih =>
    refine ⟨_, fun β' hstep => ?_⟩
    obtain ⟨id, s', γ', hmem, rfl, rfl⟩ := expands_iff.mp hstep
    obtain ⟨rule, hrule, hs'⟩ := mem_toGrammar_rules.mp hmem
    cases stack with
    | nil => exact nomatch denotes_nil_left.mp hdenotes
    | cons pos stack =>
      obtain ⟨symbol, s, after, γ, hpos, hafter, hstack, heq⟩ := hdenotes.exists_top
      obtain ⟨rfl, rfl⟩ := List.cons.inj heq
      obtain rfl : pos = ⟨.ruleRef, id⟩ :: (encodeSequence s ++ after) := hpos
      rw [advanceStack_ruleRef hrule] at h
      obtain ⟨subpos, hsubpos, hstarts⟩ :=
        exists_of_starts' (alternateStarts_of_getElem? hrule) hs'
      obtain ⟨x, hx⟩ := exists_flatMapM_iff.mp ⟨live, h⟩ subpos hsubpos
      exact ih ((hstack.pushUnlessEnd ⟨after, rfl, hafter⟩).pushUnlessEnd hstarts) hx

theorem Rules.Closed.of_expands (hclosed : rules.Closed β)
    (h : ReflTransGen (Expands (rules.toGrammar start)) β γ) : rules.Closed γ := by
  induction h with
  | refl => exact hclosed
  | tail _ hstep ih =>
    obtain ⟨id, s, δ, hmem, rfl, rfl⟩ := expands_iff.mp hstep
    obtain ⟨rule, hrule, hs⟩ := mem_toGrammar_rules.mp hmem
    exact (closed_of_getElem? hrule hs).append fun i hi => ih i (List.mem_cons_of_mem _ hi)

theorem closed_of_mem_advance {S : Set (List (Symbol CharClass ℕ))}
    (hS : ∀ β ∈ S, rules.Closed β)
    (hβ : β ∈ advance (rules.toGrammar start) CharClass.Accepts S chr) : rules.Closed β := by
  obtain ⟨cls, γ, hmem, _, hreach, _⟩ := hβ
  have hγ : rules.Closed γ := fun i hi => hS _ hmem i (List.mem_cons_of_mem _ hi)
  exact hγ.of_expands hreach

/-- The descent into left corners does not depend on the start. -/
theorem leftCorner_toGrammar_congr {start' n m : ℕ}
    (h : LeftCorner (rules.toGrammar start) n m) : LeftCorner (rules.toGrammar start') n m := by
  obtain ⟨β, γ, hmem, hnull⟩ := h
  refine ⟨β, γ, mem_toGrammar_rules.mpr (mem_toGrammar_rules.mp hmem), ?_⟩
  refine ReflTransGen.mono (fun β' γ' hstep => ?_) _ _ hnull
  obtain ⟨id, s, δ, hmem, hβ', hγ'⟩ := expands_iff.mp hstep
  exact expands_iff.mpr
    ⟨id, s, δ, mem_toGrammar_rules.mpr (mem_toGrammar_rules.mp hmem), hβ', hγ'⟩

section Returning

variable (hwf : WellFounded (flip (Expands (rules.toGrammar start))))
include hwf

theorem exists_acceptStack (hdenotes : Denotes stack β) (hsettled : Settled β)
    (hclosed : rules.Closed β) (chr : ℕ) :
    ∃ depth live, acceptStack rules.encode depth chr stack = some live := by
  cases stack with
  | nil => exact ⟨0, [], rfl⟩
  | cons pos stack =>
    obtain ⟨symbol, s, after, γ, rfl, hafter, hstack, rfl⟩ := hdenotes.exists_top
    cases symbol with
    | nonterminal id => exact absurd rfl (hsettled id _)
    | terminal cls =>
      obtain ⟨depth, live, h⟩ := exists_advanceStack (hwf.apply (s ++ γ))
        (fun i hi => hclosed i (List.mem_cons_of_mem _ hi))
        (hstack.pushUnlessEnd ⟨after, rfl, hafter⟩)
      by_cases haccepts : cls.Accepts chr
      · refine ⟨depth, live, ?_⟩
        rw [acceptStack, matchChar_top hafter]
        simpa [haccepts] using h
      · refine ⟨0, [], ?_⟩
        rw [acceptStack, matchChar_top hafter]
        simp [haccepts]

theorem exists_accept {S : Set (List (Symbol CharClass ℕ))} (hlive : Matches live S)
    (hsettled : ∀ β ∈ S, Settled β) (hclosed : ∀ β ∈ S, rules.Closed β) (chr : ℕ) :
    ∃ depth live', accept rules.encode depth live chr = some live' := by
  refine exists_common_depth (fun _ _ _ _ => acceptStack_mono) fun stack hstack => ?_
  obtain ⟨β, hβ, hdenotes⟩ := hlive.1 stack hstack
  exact exists_acceptStack hwf hdenotes (hsettled β hβ) (hclosed β hβ) chr

theorem exists_acceptAll {S : Set (List (Symbol CharClass ℕ))} (hlive : Matches live S)
    (hsettled : ∀ β ∈ S, Settled β) (hclosed : ∀ β ∈ S, rules.Closed β) (chrs : List ℕ) :
    ∃ depth live', acceptAll rules.encode depth live chrs = some live' := by
  induction chrs generalizing live S with
  | nil => exact ⟨0, live, rfl⟩
  | cons chr chrs ih =>
    obtain ⟨depth, next, hnext⟩ := exists_accept hwf hlive hsettled hclosed chr
    obtain ⟨depth', live', hlive'⟩ := ih (accept_matches start hlive hsettled hnext)
      (fun _ => settled_of_mem_advance) (fun _ => closed_of_mem_advance hclosed)
    refine ⟨max depth depth', live', ?_⟩
    rw [acceptAll, List.foldlM_cons, accept_mono (le_max_left _ _) hnext]
    exact acceptAll_mono (le_max_right _ _) hlive'

omit hwf in
theorem initStacks_mono {depth' : ℕ} (hle : depth ≤ depth')
    (h : initStacks rules.encode depth start = some live) :
    initStacks rules.encode depth' start = some live := by
  obtain ⟨rule, hrule, h⟩ := Option.bind_eq_some_iff.mp h
  exact Option.bind_eq_some_iff.mpr
    ⟨rule, hrule, flatMapM_mono (fun _ _ => advanceStack_mono hle) h⟩

theorem exists_initStacks (hstart : start < rules.alternates.length) :
    ∃ depth live, initStacks rules.encode depth start = some live := by
  have hrule := List.getElem?_eq_getElem hstart
  obtain ⟨depth, live, h⟩ := exists_common_depth
    (F := fun d pos => advanceStack rules.encode d (pushUnlessEnd pos []))
    (fun _ _ _ _ => advanceStack_mono) fun pos hpos => by
      obtain ⟨s, hs, hstarts⟩ := exists_of_starts (alternateStarts_of_getElem? hrule) hpos
      have hdenotes := Denotes.pushUnlessEnd hstarts (denotes_nil_left.mpr rfl)
      rw [List.append_nil] at hdenotes
      exact exists_advanceStack (hwf.apply s) (closed_of_getElem? hrule hs) hdenotes
  refine ⟨depth, live, ?_⟩
  rw [initStacks, encode_getElem?.mpr ⟨_, hrule, rfl⟩]
  exact h

end Returning

theorem acc_of_initStacks (h : initStacks rules.encode depth start = some live) :
    Acc (flip (Expands (rules.toGrammar start))) [.nonterminal start] := by
  obtain ⟨_, hget, h⟩ := Option.bind_eq_some_iff.mp h
  obtain ⟨rule, hrule, rfl⟩ := encode_getElem?.mp hget
  refine ⟨_, fun β hstep => ?_⟩
  obtain ⟨id, s, δ, hmem, heq, rfl⟩ := expands_iff.mp hstep
  obtain ⟨hid, rfl⟩ := List.cons.inj heq
  obtain rfl := Symbol.nonterminal.inj hid
  obtain ⟨rule', hrule', hs⟩ := mem_toGrammar_rules.mp hmem
  obtain rfl := Option.some.inj (hrule.symm.trans hrule')
  obtain ⟨pos, hpos, hstarts⟩ := exists_of_starts' (alternateStarts_of_getElem? hrule) hs
  obtain ⟨x, hx⟩ := exists_flatMapM_iff.mp ⟨live, h⟩ pos hpos
  exact acc_of_advanceStack (Denotes.pushUnlessEnd hstarts (denotes_nil_left.mpr rfl)) hx

/-- The stacks of a grammar and of all characters are computed from every start rule if
and only if no rule is left recursive. -/
theorem returns_iff_not_leftRecursive :
    (∀ start < rules.alternates.length, ∀ chrs, ∃ depth live live',
        initStacks rules.encode depth start = some live ∧
          acceptAll rules.encode depth live chrs = some live') ↔
      ∀ id, ¬ TransGen (LeftCorner (rules.toGrammar id)) id id := by
  constructor
  · intro hreturns id hcycle
    have hid : id < rules.alternates.length := by
      obtain ⟨_, ⟨β, γ, hmem, _⟩, _⟩ := TransGen.head'_iff.mp hcycle
      obtain ⟨rule, hrule, _⟩ := mem_toGrammar_rules.mp hmem
      exact (List.getElem?_eq_some_iff.mp hrule).1
    obtain ⟨depth, live, _, hinit, _⟩ := hreturns id hid []
    exact not_acc_of_leftRecursive hcycle (acc_of_initStacks hinit)
  · intro hacyclic start hstart chrs
    have hwf : WellFounded (flip (Expands (rules.toGrammar start))) :=
      wellFounded_expands_iff_acyclic.mpr fun id hcycle =>
        hacyclic id (TransGen.mono (fun _ _ => leftCorner_toGrammar_congr) _ _ hcycle)
    obtain ⟨depth, live, hinit⟩ := exists_initStacks hwf hstart
    have hmatches := initStacks_matches hinit
    have hclosed : ∀ β ∈ frontier (rules.toGrammar start) [.nonterminal start],
        rules.Closed β := by
      intro β hβ
      refine Rules.Closed.of_expands (fun id hid => ?_) hβ.1
      obtain rfl := Symbol.nonterminal.inj (List.mem_singleton.mp hid)
      exact hstart
    obtain ⟨depth', live', haccept⟩ :=
      exists_acceptAll hwf hmatches (fun _ h => h.2) hclosed chrs
    exact ⟨max depth depth', live, live', initStacks_mono (le_max_left _ _) hinit,
      acceptAll_mono (le_max_right _ _) haccept⟩

end Grammar

end WhisperAndroid.Grammar
