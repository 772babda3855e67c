import WhisperAndroid.Grammar.Stacks

/-!
# Candidates for the next token

`whisper_grammar_reject_candidates` tries candidates on all stacks at once, one code
point after another, and passes on to each stack what those before have rejected.

## Main results

* `sortCandidates_eq` — what becomes of the candidates at one position
* `rejectCandidates_perm` — the rejected candidates, each once, are those after whose
  code points no stack fits
-/

namespace WhisperAndroid.Grammar

open Leftmost

/-- `whisper_grammar_candidate`: `code_points` points to an offset in the decoded array. -/
structure Candidate where
  id : ℕ
  decoded : List ℕ
  offset : ℕ
  partialUtf8 : PartialUtf8
  deriving DecidableEq, Repr

namespace Candidate

/-- `*tok.code_points` -/
def current (tok : Candidate) : ℕ := tok.decoded.getD tok.offset 0

/-- `tok.code_points + 1` -/
def next (tok : Candidate) : Candidate := { tok with offset := tok.offset + 1 }

/-- `tok.code_points - 1` -/
def back (tok : Candidate) : Candidate := { tok with offset := tok.offset - 1 }

/-- The code points up to the terminator. -/
def codePoints (tok : Candidate) : List ℕ := (tok.decoded.drop tok.offset).takeWhile (· ≠ 0)

variable {tok : Candidate}

@[simp] theorem back_next : tok.next.back = tok := rfl

@[simp] theorem partialUtf8_next : tok.next.partialUtf8 = tok.partialUtf8 := rfl

theorem codePoints_of_current_eq_zero (h : tok.current = 0) : tok.codePoints = [] := by
  rw [current, List.getD_eq_getElem?_getD] at h
  rw [codePoints]
  cases hdrop : tok.decoded.drop tok.offset with
  | nil => rfl
  | cons chr chrs =>
    have hget : tok.decoded[tok.offset]? = some chr := by
      rw [← List.head?_drop, hdrop, List.head?_cons]
    rw [hget, Option.getD_some] at h
    simp [h]

theorem codePoints_of_current_ne_zero (h : tok.current ≠ 0) :
    tok.codePoints = tok.current :: tok.next.codePoints := by
  rw [current, List.getD_eq_getElem?_getD] at h
  rw [codePoints, codePoints, next, current, List.getD_eq_getElem?_getD]
  cases hget : tok.decoded[tok.offset]? with
  | none => simp [hget] at h
  | some chr =>
    obtain ⟨hlt, hchr⟩ := List.getElem?_eq_some_iff.mp hget
    rw [hget, Option.getD_some] at h
    rw [List.drop_eq_getElem_cons hlt, hchr, List.takeWhile_cons_of_pos (by simpa using h)]
    rfl

end Candidate

/-- The loop of `whisper_grammar_reject_candidates_for_stack` over the candidates: those
rejected, and those that go on with their next code point. -/
def sortCandidates (stackPos : Pos) :
    List Candidate → Option (List Candidate × List Candidate)
  | [] => some ([], [])
  | tok :: candidates => do
    if tok.current = 0 then
      let fits ← if tok.partialUtf8.nRemain ≠ 0 then matchPartialChar stackPos tok.partialUtf8
        else some true
      let (rejects, nextCandidates) ← sortCandidates stackPos candidates
      some (if fits then rejects else tok :: rejects, nextCandidates)
    else
      let (matched, _) ← matchChar stackPos tok.current
      let (rejects, nextCandidates) ← sortCandidates stackPos candidates
      if matched then some (rejects, tok.next :: nextCandidates)
      else some (tok :: rejects, nextCandidates)

/-- `whisper_grammar_reject_candidates`, from the function for one stack. -/
def rejectCandidatesWith (forStack : Stack → List Candidate → Option (List Candidate))
    (live : List Stack) (candidates : List Candidate) : Option (List Candidate) :=
  match live with
  | [] => some []
  | stack :: others =>
    if candidates.isEmpty then some []
    else do
      let rejects ← forStack stack candidates
      others.foldlM (fun rejects stack => forStack stack rejects) rejects

/-- `whisper_grammar_reject_candidates_for_stack`, up to a depth of recursion. -/
def rejectCandidatesForStack (rules : List Pos) :
    ℕ → Stack → List Candidate → Option (List Candidate)
  | 0, _, _ => none
  | _ + 1, [], candidates =>
    some (candidates.filter fun tok => tok.current ≠ 0 ∨ tok.partialUtf8.nRemain ≠ 0)
  | depth + 1, stackPos :: stack, candidates => do
    let (rejects, nextCandidates) ← sortCandidates stackPos candidates
    let (_, stackPosAfter) ← matchChar stackPos 0
    let nextStacks ← advanceStack rules (depth + 1) (pushUnlessEnd stackPosAfter stack)
    let nextRejects ← rejectCandidatesWith (rejectCandidatesForStack rules depth) nextStacks
      nextCandidates
    some (rejects ++ nextRejects.map Candidate.back)

/-- `whisper_grammar_reject_candidates` -/
def rejectCandidates (rules : List Pos) (depth : ℕ) (live : List Stack)
    (candidates : List Candidate) : Option (List Candidate) :=
  rejectCandidatesWith (rejectCandidatesForStack rules depth) live candidates

/-! ### Candidates and sentential forms -/

/-- An incomplete character fits the symbol in front of a sentential form. -/
def Fits (β : List (Symbol CharClass ℕ)) (unfinished : PartialUtf8) : Prop :=
  unfinished.nRemain = 0 ∨
    ∃ cls γ, β = .terminal cls :: γ ∧ cls.acceptsPartial unfinished = true

/-- After the code points of a candidate some stack is left that its rest fits. -/
def Survives (rules : Rules) (start : ℕ) (S : Set (List (Symbol CharClass ℕ)))
    (tok : Candidate) : Prop :=
  ∃ β ∈ tok.codePoints.foldl (advance (rules.toGrammar start) CharClass.Accepts) S,
    Fits β tok.partialUtf8

section Sorting

variable {rules : Rules} {start depth : ℕ} {cls : CharClass} {s : Sequence} {after : Pos}
  {tok : Candidate} {candidates rejects nextCandidates : List Candidate}
  {S : Set (List (Symbol CharClass ℕ))} {β γ : List (Symbol CharClass ℕ)}

theorem survives_iff_exists :
    Survives rules start S tok ↔ ∃ β ∈ S, Survives rules start {β} tok := by
  constructor
  · intro ⟨γ, hγ, hfits⟩
    obtain ⟨β, hβ, hγ⟩ := mem_foldl_advance_iff.mp hγ
    exact ⟨β, hβ, γ, hγ, hfits⟩
  · intro ⟨β, hβ, γ, hγ, hfits⟩
    exact ⟨γ, mem_foldl_advance_iff.mpr ⟨β, hβ, hγ⟩, hfits⟩

/-- At the end of its code points a candidate survives where its rest fits. -/
theorem survives_of_current_eq_zero (hcurrent : tok.current = 0) :
    Survives rules start {β} tok ↔ Fits β tok.partialUtf8 := by
  rw [Survives, Candidate.codePoints_of_current_eq_zero hcurrent]
  simp

/-- A candidate goes on behind a class that accepts its code point. -/
theorem survives_terminal_iff (hcurrent : tok.current ≠ 0) :
    Survives rules start {.terminal cls :: γ} tok ↔
      cls.Accepts tok.current ∧
        Survives rules start (frontier (rules.toGrammar start) γ) tok.next := by
  have hstep : advance (rules.toGrammar start) CharClass.Accepts {.terminal cls :: γ} tok.current =
      {β | cls.Accepts tok.current ∧ β ∈ frontier (rules.toGrammar start) γ} := by
    ext β
    rw [mem_advance_singleton]
    constructor
    · intro ⟨cls', δ, heq, haccepts, hβ⟩
      obtain ⟨hcls, rfl⟩ := List.cons.inj heq
      obtain rfl := Symbol.terminal.inj hcls
      exact ⟨haccepts, hβ⟩
    · intro ⟨haccepts, hβ⟩
      exact ⟨cls, γ, rfl, haccepts, hβ⟩
  rw [Survives, Candidate.codePoints_of_current_ne_zero hcurrent, List.foldl_cons, hstep]
  by_cases haccepts : cls.Accepts tok.current
  · simp [Survives, haccepts]
  · have hempty : {β | cls.Accepts tok.current ∧ β ∈ frontier (rules.toGrammar start) γ} = ∅ := by
      simp [haccepts]
    rw [hempty, foldl_advance_empty]
    simp [haccepts]

/-- An empty stack is left only at the end of a candidate that is complete. -/
theorem survives_nil_iff :
    Survives rules start {[]} tok ↔ tok.current = 0 ∧ tok.partialUtf8.nRemain = 0 := by
  by_cases hcurrent : tok.current = 0
  · rw [survives_of_current_eq_zero hcurrent]
    simp [Fits, hcurrent]
  · have hstep : advance (rules.toGrammar start) CharClass.Accepts {[]} tok.current = ∅ := by
      ext β
      rw [mem_advance_singleton]
      simp
    rw [Survives, Candidate.codePoints_of_current_ne_zero hcurrent, List.foldl_cons, hstep,
      foldl_advance_empty]
    simp [hcurrent]

/-- The loop rejects a candidate that the class does not fit. -/
def RejectedAt (cls : CharClass) (tok : Candidate) : Prop :=
  if tok.current = 0 then tok.partialUtf8.nRemain ≠ 0 ∧ cls.acceptsPartial tok.partialUtf8 = false
  else ¬ cls.Accepts tok.current

instance (cls : CharClass) (tok : Candidate) : Decidable (RejectedAt cls tok) := by
  unfold RejectedAt
  infer_instance

/-- The loop moves a candidate on. -/
def GoesOn (cls : CharClass) (tok : Candidate) : Prop :=
  tok.current ≠ 0 ∧ cls.Accepts tok.current

instance (cls : CharClass) (tok : Candidate) : Decidable (GoesOn cls tok) :=
  inferInstanceAs (Decidable (_ ∧ _))

theorem sortCandidates_eq (hafter : isEndOfSequence after = true) (candidates : List Candidate) :
    sortCandidates (encodeSymbol (.terminal cls) ++ (encodeSequence s ++ after)) candidates =
      some (candidates.filter (RejectedAt cls ·),
        (candidates.filter (GoesOn cls ·)).map Candidate.next) := by
  induction candidates with
  | nil => rfl
  | cons tok candidates ih =>
    rw [sortCandidates, ih]
    by_cases hcurrent : tok.current = 0
    · have hcut : matchPartialChar
          (encodeSymbol (.terminal cls) ++ (encodeSequence s ++ after)) tok.partialUtf8 =
            some (cls.acceptsPartial tok.partialUtf8) :=
        matchPartialChar_encode (endsClass_encodeSequence hafter) _
      by_cases hremain : tok.partialUtf8.nRemain = 0
      · simp [hcurrent, hremain, RejectedAt, GoesOn]
      · cases hfits : cls.acceptsPartial tok.partialUtf8 <;>
          simp [hcurrent, hremain, hcut, hfits, RejectedAt, GoesOn]
    · rw [matchChar_top hafter]
      by_cases haccepts : cls.Accepts tok.current <;>
        simp [hcurrent, haccepts, RejectedAt, GoesOn]

open Classical in
/-- Entries that satisfy one of two predicates that exclude each other. -/
theorem filter_or_perm {α : Type} {p q : α → Prop} (hdisjoint : ∀ x, p x → ¬ q x) (l : List α) :
    (l.filter fun x => p x ∨ q x).Perm (l.filter (p ·) ++ l.filter (q ·)) := by
  induction l with
  | nil => exact .nil
  | cons x l ih =>
    by_cases hp : p x
    · simpa [hp, hdisjoint x hp] using ih
    · by_cases hq : q x
      · simp only [hp, hq, or_true, decide_true, decide_false, List.filter_cons_of_pos,
          List.filter_cons_of_neg, Bool.false_eq_true, not_false_eq_true]
        exact (ih.cons x).trans List.perm_middle.symm
      · simpa [hp, hq] using ih

/-- A candidate does not survive on a stack that starts with a class if it is rejected
there, or goes on and does not survive behind the class. -/
theorem not_survives_terminal_iff :
    ¬ Survives rules start {.terminal cls :: γ} tok ↔
      RejectedAt cls tok ∨
        GoesOn cls tok ∧ ¬ Survives rules start (frontier (rules.toGrammar start) γ) tok.next := by
  by_cases hcurrent : tok.current = 0
  · rw [survives_of_current_eq_zero hcurrent]
    simp [Fits, RejectedAt, GoesOn, hcurrent]
  · rw [survives_terminal_iff hcurrent]
    simp only [RejectedAt, GoesOn, hcurrent, if_false, ne_eq, not_false_eq_true, true_and, not_and]
    tauto

end Sorting

section Rejecting

variable {rules : Rules} {start depth : ℕ} {stack : Stack} {live : List Stack}
  {tok : Candidate} {candidates rejects : List Candidate}
  {S : Set (List (Symbol CharClass ℕ))} {β : List (Symbol CharClass ℕ)}

open Classical in
/-- Stacks are tried one after another on what those before have rejected. -/
theorem foldlM_forStack_perm {forStack : Stack → List Candidate → Option (List Candidate)}
    {P : Stack → Candidate → Prop}
    (hforStack : ∀ stack ∈ live, ∀ candidates rejects, forStack stack candidates = some rejects →
      rejects.Perm (candidates.filter (P stack ·)))
    (h : live.foldlM (fun rejects stack => forStack stack rejects) candidates = some rejects) :
    rejects.Perm (candidates.filter fun tok => ∀ stack ∈ live, P stack tok) := by
  induction live generalizing candidates with
  | nil =>
    obtain rfl : candidates = rejects := Option.some.inj h
    simp
  | cons stack live ih =>
    rw [List.foldlM_cons] at h
    obtain ⟨rejected, hrejected, h⟩ := Option.bind_eq_some_iff.mp h
    obtain ⟨hstack, hlive⟩ := List.forall_mem_cons.mp hforStack
    have hperm := (ih hlive h).trans ((hstack _ _ hrejected).filter _)
    rw [List.filter_filter] at hperm
    convert hperm using 2
    ext tok
    simp [Bool.and_comm]

theorem rejectCandidatesWith_eq {forStack : Stack → List Candidate → Option (List Candidate)}
    (hne : live ≠ []) (hcandidates : candidates ≠ []) :
    rejectCandidatesWith forStack live candidates =
      live.foldlM (fun rejects stack => forStack stack rejects) candidates := by
  cases live with
  | nil => exact absurd rfl hne
  | cons stack live =>
    rw [rejectCandidatesWith, if_neg (by simpa using hcandidates), List.foldlM_cons]

open Classical in
theorem rejectCandidatesWith_perm {forStack : Stack → List Candidate → Option (List Candidate)}
    (hforStack : ∀ stack β candidates rejects, Denotes stack β → Settled β →
      forStack stack candidates = some rejects →
        rejects.Perm (candidates.filter fun tok => ¬ Survives rules start {β} tok))
    (hlive : Matches live S) (hsettled : ∀ β ∈ S, Settled β) (hne : live ≠ [])
    (h : rejectCandidatesWith forStack live candidates = some rejects) :
    rejects.Perm (candidates.filter fun tok => ¬ Survives rules start S tok) := by
  by_cases hcandidates : candidates = []
  · subst hcandidates
    cases live with
    | nil => exact absurd rfl hne
    | cons stack live =>
      obtain rfl : [] = rejects := Option.some.inj h
      exact .nil
  rw [rejectCandidatesWith_eq hne hcandidates] at h
  have hperm := foldlM_forStack_perm
    (P := fun stack tok => ∀ β, Denotes stack β → ¬ Survives rules start {β} tok)
    (fun stack hstack candidates rejects h => by
      obtain ⟨β, hβ, hdenotes⟩ := hlive.1 stack hstack
      convert hforStack stack β candidates rejects hdenotes (hsettled β hβ) h using 2
      ext tok
      simp only [decide_eq_decide]
      constructor
      · intro hall
        exact hall β hdenotes
      · intro hnot γ hγ
        exact hγ.unique hdenotes ▸ hnot) h
  convert hperm using 2
  ext tok
  rw [decide_eq_decide, survives_iff_exists]
  constructor
  · intro hnot stack hstack β hdenotes hsurvives
    obtain ⟨γ, hγ, hdenotes'⟩ := hlive.1 stack hstack
    exact hnot ⟨γ, hγ, hdenotes.unique hdenotes' ▸ hsurvives⟩
  · intro hall ⟨β, hβ, hsurvives⟩
    obtain ⟨stack, hstack, hdenotes⟩ := hlive.2 β hβ
    exact hall stack hstack β hdenotes hsurvives

open Classical in
theorem rejectCandidatesForStack_perm (hdenotes : Denotes stack β) (hsettled : Settled β)
    (h : rejectCandidatesForStack rules.encode depth stack candidates = some rejects) :
    rejects.Perm (candidates.filter fun tok => ¬ Survives rules start {β} tok) := by
  induction depth generalizing stack β candidates rejects with
  | zero => exact nomatch h
  | succ depth ih =>
    cases stack with
    | nil =>
      obtain rfl := denotes_nil_left.mp hdenotes
      obtain rfl := Option.some.inj h
      apply List.Perm.of_eq
      congr 1
      ext tok
      rw [decide_eq_decide, survives_nil_iff]
      tauto
    | cons pos stack =>
      obtain ⟨symbol, s, after, γ, rfl, hafter, hstack, rfl⟩ := hdenotes.exists_top
      cases symbol with
      | nonterminal id => exact absurd rfl (hsettled id _)
      | terminal cls =>
        rw [rejectCandidatesForStack, sortCandidates_eq hafter, matchChar_top hafter] at h
        simp only [Option.bind_eq_bind, Option.bind_some] at h
        obtain ⟨nextStacks, hnext, h⟩ := Option.bind_eq_some_iff.mp h
        obtain ⟨nextRejects, hrejects, h⟩ := Option.bind_eq_some_iff.mp h
        obtain rfl := Option.some.inj h
        have hmatches : Matches nextStacks (frontier (rules.toGrammar start) (s ++ γ)) :=
          advanceStack_matches start (hstack.pushUnlessEnd ⟨after, rfl, hafter⟩) hnext
        have hperm := rejectCandidatesWith_perm (fun _ _ _ _ hd hs => ih hd hs) hmatches
          (fun _ h => h.2) (advanceStack_ne_nil hnext) hrejects
        rw [List.filter_map] at hperm
        have hback := hperm.map Candidate.back
        rw [List.map_map, show Candidate.back ∘ Candidate.next = id from rfl, List.map_id,
          List.filter_filter] at hback
        have hsplit := filter_or_perm (p := RejectedAt cls)
          (q := fun tok => GoesOn cls tok ∧
            ¬ Survives rules start (frontier (rules.toGrammar start) (s ++ γ)) tok.next)
          (fun tok hrejected hgoes => by
            simp only [RejectedAt, hgoes.1.1, if_false] at hrejected
            exact hrejected hgoes.1.2) candidates
        simp_rw [← not_survives_terminal_iff] at hsplit
        refine ((hback.append_left _).trans ?_).trans hsplit.symm
        refine .of_eq ?_
        congr 2
        · ext tok
          simp
        · ext tok
          simp [Bool.and_comm]

open Classical in
/-- The rejected candidates, each once, are those that do not survive. -/
theorem rejectCandidates_perm (start : ℕ) (hlive : Matches live S) (hsettled : ∀ β ∈ S, Settled β)
    (hne : live ≠ []) (h : rejectCandidates rules.encode depth live candidates = some rejects) :
    rejects.Perm (candidates.filter fun tok => ¬ Survives rules start S tok) :=
  rejectCandidatesWith_perm (fun _ _ _ _ hd hs => rejectCandidatesForStack_perm hd hs)
    hlive hsettled hne h

end Rejecting

end WhisperAndroid.Grammar
