import MethodLowering.Proofs.Reduction.Rounds
import MethodLowering.Proofs.Reduction.Wholeness

/-!
# Rounds advance

A round that goes on folds an operator into an expression that covers it and lies inside the range.
What is left around this expression was there before, so fewer operators are left than before.
-/

namespace MethodLowering
namespace Reduction

/-! ## What a fold leaves -/

/-- What a fold leaves on both sides of its expression was there before. -/
structure Leaves (before after : List Segment) (folded : OnSegments.Folded) : Prop where
  front : folded.front.Sublist before
  back : folded.back.Sublist after

section

variable {onSegments : OnSegments.Operands} {before after segments : List Segment} {expr : Expr}
  {α : Type}

theorem leaves_nothing : Leaves before after ⟨[], expr, []⟩ :=
  ⟨List.nil_sublist _, List.nil_sublist _⟩

theorem dropOperands_sublist (segments : List Segment) :
    (OnSegments.dropOperands segments).Sublist segments :=
  (List.rdropWhile_prefix _ _).sublist

theorem skipOperands_sublist (segments : List Segment) :
    (OnSegments.skipOperands segments).Sublist segments :=
  List.dropWhile_sublist _

theorem castFrom_sublist (count : Nat) (segments : List Segment) :
    (OnSegments.castFrom count [] segments).2.Sublist segments := by
  have whole := castFrom_append count [] segments
  rw [List.nil_append] at whole
  conv_rhs => rw [← whole]
  exact List.sublist_append_right ..

theorem absorb_sublist (count : Nat) (indices : List Expr) (stop : Nat) (segments : List Segment) :
    (OnSegments.absorb count indices stop segments).2.Sublist segments := by
  obtain ⟨taken, whole, -⟩ := absorb_split count indices stop segments
  conv_rhs => rw [whole]
  exact List.sublist_append_right ..

theorem access_leaves (position : Nat) (before after : List Segment) :
    AlwaysGives (OnSegments.access onSegments position before after) (Leaves before after) := by
  have rest (expr : Expr) : Leaves before after
      ⟨OnSegments.dropOperands before, expr, OnSegments.skipOperands after⟩ :=
    ⟨dropOperands_sublist before, skipOperands_sublist after⟩
  refine .then fun _ => .then fun _ => .then fun _ => .then fun _ => .then fun construction => ?_
  cases construction with
  | some construction => exact .pure (rest _)
  | none =>
      refine .then fun declaration => ?_
      cases declaration with
      | some declaration => exact .pure (rest _)
      | none => exact .then fun _ => .pure (rest _)

theorem conditional_leaves (position : Nat) (before after : List Segment) :
    AlwaysGives (OnSegments.conditional onSegments position before after)
    (Leaves before after) := by
  unfold OnSegments.conditional
  cases pairedColon? 0 (headsOf after) with
  | none => exact reject_gives
  | some colon =>
      exact .then fun _ => .then fun _ => .then fun _ => .then fun _ => .then fun _ =>
        .pure leaves_nothing

theorem typeTest_leaves (before after : List Segment) :
    AlwaysGives (OnSegments.typeTest onSegments before after) (Leaves before after) := by
  refine .then fun _ => .then fun _ => ?_
  split
  · exact reject_gives
  · exact .then fun _ => .then fun _ =>
      .pure ⟨dropOperands_sublist before, skipOperands_sublist after⟩

theorem unary_leaves (op : Op) (position : Nat) (before after : List Segment) :
    AlwaysGives (OnSegments.unary onSegments op position before after) (Leaves before after) := by
  unfold OnSegments.unary
  dsimp only
  split
  · exact .then fun _ => .then fun _ => .then fun _ =>
      .pure ⟨dropOperands_sublist before, List.Sublist.refl _⟩
  · exact .then fun _ => .then fun _ => .then fun _ =>
      .pure ⟨List.Sublist.refl _, skipOperands_sublist after⟩

theorem paren_leaves (position close count : Nat) (inner : Option Expr)
    (before after : List Segment) :
    AlwaysGives (OnSegments.paren onSegments position close count inner before after)
      (Leaves before after) := by
  unfold OnSegments.paren
  dsimp only
  split
  · refine .then fun callee => ?_
    cases callee with
    | none => exact rejectBracket_gives
    | some callee =>
        exact .then fun _ => .pure ⟨dropOperands_sublist before, List.Sublist.refl _⟩
  · split
    · refine .then fun operand => ?_
      cases operand with
      | none => exact rejectBracket_gives
      | some operand =>
          exact .then fun _ => .pure ⟨List.Sublist.refl _, castFrom_sublist count after⟩
    · exact .then fun _ => .pure ⟨List.Sublist.refl _, List.Sublist.refl _⟩

theorem bracket_leaves (op : Op) (position count : Nat) (before after : List Segment) :
    AlwaysGives (OnSegments.bracket onSegments op position count before after)
      (Leaves before after) := by
  unfold OnSegments.bracket
  cases op.closing? with
  | none => exact rejectBracket_gives
  | some closing =>
      dsimp only
      split
      · exact rejectBracket_gives
      · rename_i close _ _
        have behind : (OnSegments.splitAt close after).2.Sublist after :=
          (List.tail_sublist _).trans (List.dropWhile_sublist _)
        refine .then fun _ => .then fun inner => ?_
        split
        · intro state folded last result
          have rest := paren_leaves _ _ _ _ _ _ state folded last result
          exact ⟨rest.front, rest.back.trans behind⟩
        · exact .then fun _ => .then fun _ =>
            .pure ⟨dropOperands_sublist before, (absorb_sublist ..).trans behind⟩
        · exact .then fun _ => .pure ⟨List.Sublist.refl _, behind⟩

theorem fold_leaves (candidate : Candidate) (count : Nat) (before after : List Segment) :
    AlwaysGives (OnSegments.fold onSegments candidate count before after)
    (Leaves before after) := by
  unfold OnSegments.fold
  dsimp only
  split
  · exact bracket_leaves _ _ _ _ _
  · exact bracket_leaves _ _ _ _ _
  · exact bracket_leaves _ _ _ _ _
  · exact conditional_leaves _ _ _
  · exact access_leaves _ _ _
  · exact typeTest_leaves _ _
  · exact unary_leaves _ _ _ _
  · exact unary_leaves _ _ _ _
  · exact unary_leaves _ _ _ _
  · split
    · exact unary_leaves _ _ _ _
    · split
      · exact .then fun _ => .then fun _ => .then fun _ => .then fun _ => .pure leaves_nothing
      · split
        · exact rejectBracket_gives
        · exact .then fun _ => .then fun _ => .then fun _ => .pure leaves_nothing

end

/-! ## What a fold covers -/

/-- The range shows the segments from its first character to its last one. -/
structure Fills (state : Reduction) (range : Span) (segments : List Segment) : Prop where
  shown : Shows state range.start range.stop segments
  spans : hull segments = range
  present : segments ≠ []

section

variable {bound : Nat} {operands : Operands} {onSegments : OnSegments.Operands}
  {state final : Reduction} {range : Span} {before after segments : List Segment}
  {segment : Segment} {candidate : Candidate} {expr : Expr}

/-- A solid character of a shown range belongs to a segment. -/
theorem Shows.exists_of_solid {start stop p : Nat} (shown : Shows state start stop segments)
    (low : start ≤ p) (high : p < stop) (solid : state.ledger.isSpace p = false) :
    ∃ segment ∈ segments, segment.span.start ≤ p ∧ p < segment.span.stop := by
  induction segments generalizing start with
  | nil =>
      rw [shown.1.isSpace low high] at solid
      contradiction
  | cons segment rest induction =>
      obtain ⟨gap, stands, later⟩ := shown
      by_cases before : p < segment.span.start
      · rw [gap.isSpace low before] at solid
        contradiction
      · by_cases inside : p < segment.span.stop
        · exact ⟨segment, List.mem_cons_self, by omega, inside⟩
        · obtain ⟨found, member, bounds⟩ := induction later (by omega)
          exact ⟨found, List.mem_cons_of_mem _ member, bounds⟩

/-- Segments end where the range they are shown in ends, or before. -/
theorem Shows.stop_le {start stop : Nat} (shown : Shows state start stop segments)
    (member : segment ∈ segments) : segment.span.stop ≤ stop := by
  obtain ⟨front, back, rfl⟩ := List.append_of_mem member
  exact (shows_append_cons.1 shown).2.2.le

/-- The expression of a fold covers the operator that is folded. -/
theorem Takes.covers_op {count : Nat} {folded : OnSegments.Folded}
    (takes : Takes range count state expr folded final) (leaves : Leaves before after folded)
    (shown : Shows state range.start range.stop (before ++ segment :: after)) {span : Span}
    (left : Shows final range.start span.start folded.front)
    (right : Shows final span.stop range.stop folded.back) :
    span.start ≤ segment.span.start ∧ segment.span.stop ≤ span.stop := by
  obtain ⟨shownBefore, stands, shownAfter⟩ := shows_append_cons.1 shown
  have low := shownBefore.le
  have high := shownAfter.le
  have nonempty := stands.nonempty
  constructor
  · refine Nat.le_of_not_lt fun later => ?_
    obtain ⟨other, member, bounds⟩ :=
      left.exists_of_solid low later ((takes.changes.spaces _).trans stands.isSpace_start)
    have ends := shownBefore.stop_le (leaves.front.subset member)
    omega
  · refine Nat.le_of_not_lt fun earlier => ?_
    have inside : span.stop ≤ segment.span.stop - 1 ∧ segment.span.stop - 1 < range.stop := by omega
    obtain ⟨other, member, bounds⟩ :=
      right.exists_of_solid inside.1 inside.2 ((takes.changes.spaces _).trans stands.isSpace_last)
    have starts := (shownAfter.start_lt (leaves.back.subset member)).1
    omega

/-- The fold of the chosen operator, next to what it does on the segments. -/
theorem fold_takes (simulates : Simulates bound operands onSegments)
    (shown : Shows state range.start range.stop segments) (short : segments.length ≤ bound)
    (chosen : bestCandidate? state.ledger range = some candidate)
    (folds : fold operands candidate range state = .ok expr final) :
    ∃ before segment after folded, segments = before ++ segment :: after ∧
      segment.op? = some candidate.op ∧ candidate.position = segment.span.start ∧
      Takes range segments.length state expr folded final ∧ Leaves before after folded := by
  rw [bestCandidate?_eq shown] at chosen
  obtain ⟨before, segment, after, rfl, isOp, position⟩ := exists_of_best? chosen
  have tracks := fold_tracks simulates ⟨rfl, rfl, rfl, rfl, rfl⟩ shown isOp position short
  rw [folds] at tracks
  cases result : OnSegments.fold onSegments candidate range.length before after state with
  | error failure other =>
      rw [result] at tracks
      exact tracks.elim
  | ok folded other =>
      rw [result] at tracks
      exact ⟨before, segment, after, folded, rfl, isOp, position, tracks.2,
        fold_leaves _ _ _ _ state folded other result⟩

end

/-! ## Tags that fade -/

/-- The failure says what is wrong with the text, or that a span strays from it. -/
def IsTextual (failure : Failure) (_ : Reduction) : Prop :=
  (∃ error, failure = .malformed error ∧ ¬ error.IsInternal) ∨ failure = .undefined .badRange

/-- An operator that is there later was there before. -/
def Fades (before after : Reduction) : Prop :=
  ∀ p tag, tag.isOperator = true → after.ledger.tag? p = some tag → before.ledger.tag? p = some tag

instance : IsPreorder Reduction Fades where
  refl _ _ _ _ known := known
  trans _ _ _ first second p tag isOperator known :=
    first p tag isOperator (second p tag isOperator known)

theorem fades_mark (state : Reduction) (span : Span) {tag : Tag} (plain : tag.isOperator = false) :
    Fades state { state with ledger := state.ledger.mark span tag } := by
  intro p other isOperator known
  dsimp only at known
  rw [Ledger.tag?_mark] at known
  split at known
  · obtain ⟨old, known, same⟩ := Option.map_eq_some_iff.1 known
    rw [Ledger.markedTag] at same
    split at same
    · rwa [← same]
    · rw [same, isOperator] at plain
      contradiction
  · exact known

theorem steady_fades : Steady Fades IsTextual where
  quiet _ _ same _ p tag _ known := by rwa [same] at known
  mark state span _ plain := fades_mark state span plain
  count _ _ _ _ _ known := known
  number _ _ _ _ known := known
  declare _ _ _ _ _ known := known
  retype _ _ _ _ _ _ known := known
  reject error _ textual := .inl ⟨error, rfl, textual⟩
  stray _ := .inr rfl

/-! ## Rounds -/

/-- A round folds the chosen operator into an expression that covers it and a part of the range, and
keeps this expression as pending. -/
structure Folds (operands : Operands) (range : Span) (before after : Reduction)
    (candidate : Candidate) (span : Span) : Prop where
  chosen : bestCandidate? before.ledger range = some candidate
  kept : ∃ expr middle, fold operands candidate range (counted before) = .ok expr middle ∧
    HasSpan expr span ∧ keepPending span expr middle = .ok () after
  around : span.covers (opSpan candidate.op candidate.position) = true
  inside : range.covers span = true
  proper : span ≠ range

section

variable {bound : Nat} {operands : Operands} {onSegments : OnSegments.Operands}
  {state after called : Reduction} {range span : Span} {segments : List Segment}
  {candidate : Candidate} {expr : Expr} {failure : Failure} {start stop : Nat}

theorem nextCandidate_eq_ok {next : Option Candidate}
    (gives : nextCandidate range state = .ok next after) :
    next = bestCandidate? state.ledger range ∧ after = state := by
  rw [nextCandidate] at gives
  obtain ⟨ledger, between, got, behind⟩ := bind_eq_ok.1 gives
  obtain ⟨rfl, rfl⟩ := EStateM.Result.ok.inj got
  cases best : bestCandidate? state.ledger range with
  | some candidate =>
      rw [best] at behind
      obtain ⟨rfl, rfl⟩ := EStateM.Result.ok.inj behind
      exact ⟨rfl, rfl⟩
  | none =>
      rw [best] at behind
      cases heads : (state.ledger.heads range.start range.stop).head? with
      | some head =>
          rw [heads] at behind
          contradiction
      | none =>
          rw [heads] at behind
          obtain ⟨rfl, rfl⟩ := EStateM.Result.ok.inj behind
          exact ⟨rfl, rfl⟩

theorem nextCandidate_of_best (chosen : bestCandidate? state.ledger range = some candidate) :
    nextCandidate range state = .ok (some candidate) state := by
  refine bind_eq_ok.2 ⟨state.ledger, state, rfl, ?_⟩
  rw [chosen]
  rfl

theorem settle_eq (has : HasSpan expr span) (inside : range.covers span = true) :
    settle range candidate expr =
      if span == range then (do markSpan range .resolved; return some expr)
      else (do keepPending span expr; return none) := by
  rw [settle, has, Option.getD_some, inside, Bool.not_true, if_neg Bool.false_ne_true]

theorem Fills.counted (fills : Fills state range segments) :
    Fills (counted state) range segments :=
  have same : (Reduction.counted state).ledger = state.ledger := rfl
  ⟨fills.shown.of_eq same rfl, fills.spans, fills.present⟩

/-- A round folds the chosen operator, or it ends the reduction of the range without a call. -/
theorem round_cases (range : Span) (state : Reduction) :
    (∃ candidate, bestCandidate? state.ledger range = some candidate ∧ ∀ operands,
      round operands range state =
        (fold operands candidate range >>= settle range candidate) (counted state)) ∨
    ∃ ends : ReduceM Expr, Preserves Fades IsTextual ends ∧ ∀ operands,
      round operands range state = (do return some (← ends)) (counted state) := by
  have resolved (expr : Expr) : Preserves Fades IsTextual
      (do markSpan range .resolved; return expr) :=
    (markSpan_preserves steady_fades range rfl).bind fun _ => .pure
  simp only [round_eq]
  cases pendingAt? (counted state) range with
  | some expr =>
      refine .inr ⟨_, resolved expr, fun operands => ?_⟩
      rw [finishRound, bind_assoc]
      rfl
  | none =>
      cases best : bestCandidate? state.ledger range with
      | some candidate =>
          refine .inl ⟨candidate, rfl, fun operands => ?_⟩
          have chosen : nextCandidate range (counted state) =
              .ok (some candidate) (counted state) :=
            nextCandidate_of_best best
          rw [finishRound]
          simp only [Bind.bind, EStateM.bind, chosen]
      | none =>
          refine .inr ⟨_, (nextCandidate_preserves steady_fades range).bind fun _ =>
            (leaf_preserves steady_fades range).bind resolved, fun operands => ?_⟩
          rw [finishRound, bind_assoc]
          cases result : nextCandidate range (counted state) with
          | error failure last => simp only [Bind.bind, EStateM.bind, result]
          | ok next last =>
              obtain ⟨rfl, rfl⟩ := nextCandidate_eq_ok result
              rw [show bestCandidate? (counted state).ledger range = none from best] at result
              simp only [Bind.bind, EStateM.bind, result]
              cases leaf range (counted state) <;> rfl

/-- Where a round calls for a range, the fold of the chosen operator does. -/
theorem asks_of_round
    (asks : Asks (fun operands => round operands range) operands state start stop called) :
    ∃ candidate, bestCandidate? state.ledger range = some candidate ∧
      Asks (fun operands => fold operands candidate range) operands (counted state) start stop
        called := by
  rcases round_cases range state with ⟨candidate, chosen, same⟩ | ⟨ends, -, same⟩
  · have later : Asks (fun operands => fold operands candidate range >>= settle range candidate)
        operands (counted state) start stop called :=
      fun failure others interrupts => (same others).symm.trans (asks failure others interrupts)
    refine ⟨candidate, chosen, ?_⟩
    rcases (fold_procedure steady_fades candidate range).asks_bind later
      with inFold | ⟨_, _, _, own⟩
    · exact inFold
    · exact absurd own (not_asks_own _)
  · have later :
        Asks (fun _ => do return some (← ends)) operands (counted state) start stop called :=
      fun failure others interrupts => (same others).symm.trans (asks failure others interrupts)
    exact absurd later (not_asks_own _)

section

variable (simulates : Simulates bound operands onSegments) (fills : Fills state range segments)
  (short : segments.length ≤ bound)
include simulates fills short

/-- Of itself, a round fails only because of the text. -/
theorem round_fails (failed : round operands range state = .error failure after) :
    IsTextual failure after ∨ ∃ start stop called,
      Asks (fun operands => round operands range) operands state start stop called ∧
        operands start stop called = .error failure after := by
  rcases round_cases range state with ⟨candidate, chosen, same⟩ | ⟨ends, preserves, same⟩
  · rw [same] at failed
    rcases bind_eq_error.1 failed with inFold | ⟨expr, between, folds, failed⟩
    · rcases (fold_procedure steady_fades candidate range).fails_or inFold with
        textual | ⟨start, stop, called, asks, fails⟩
      · exact .inl textual
      · refine .inr ⟨start, stop, called, fun failure others interrupts => ?_, fails⟩
        exact (same others).trans (bind_eq_error.2 (.inl (asks failure others interrupts)))
    · obtain ⟨_, _, _, _, _, _, _, takes, -⟩ :=
        fold_takes simulates fills.counted.shown short chosen folds
      obtain ⟨span, has, -, -, -, left, right⟩ := takes.placed
      rw [settle_eq has ((Span.covers_iff _ _).2 ⟨left.le, right.le⟩)] at failed
      split at failed <;> contradiction
  · rw [same] at failed
    exact .inl ((preserves.bind fun _ => .pure).of_error failed).2

/-- A round that goes on folds an operator, and fewer operators are left. -/
theorem round_goesOn (goesOn : round operands range state = .ok none after) :
    (∃ candidate span, Folds operands range state after candidate span) ∧
      ∃ left, Fills after range left ∧ left.length ≤ bound ∧
        (headsOf left).length < (headsOf segments).length := by
  rcases round_cases range state with ⟨candidate, chosen, same⟩ | ⟨ends, -, same⟩
  · rw [same] at goesOn
    obtain ⟨expr, middle, folds, goesOn⟩ := bind_eq_ok.1 goesOn
    have shown := fills.counted.shown
    obtain ⟨before, segment, behind, folded, rfl, isOp, position, takes, leaves⟩ :=
      fold_takes simulates shown short chosen folds
    obtain ⟨span, has, nonempty, solid, solid', left, right⟩ := takes.placed
    have inside : range.covers span = true := (Span.covers_iff _ _).2 ⟨left.le, right.le⟩
    have around := takes.covers_op leaves shown left right
    have stands := (shows_append_cons.1 shown).2.1
    rw [settle_eq has inside] at goesOn
    split at goesOn
    · obtain ⟨_, _, -, goesOn⟩ := bind_eq_ok.1 goesOn
      exact nomatch (EStateM.Result.ok.inj goesOn).1
    · rename_i proper
      obtain ⟨_, last, kept, goesOn⟩ := bind_eq_ok.1 goesOn
      obtain ⟨-, rfl⟩ := EStateM.Result.ok.inj goesOn
      obtain ⟨_, again, -, changes, shows⟩ := keepPending_shows has nonempty solid solid' left right
      obtain rfl := (EStateM.Result.ok.inj (kept.symm.trans again)).2
      have spaces (p : Nat) : last.ledger.isSpace p = (counted state).ledger.isSpace p :=
        (changes.spaces p).trans (takes.changes.spaces p)
      refine ⟨⟨candidate, span, chosen, ⟨expr, middle, folds, has, kept⟩, ?_, inside,
        fun same => proper (beq_iff_eq.2 same)⟩, _, ⟨shows, ?_, by simp⟩, ?_, ?_⟩
      · rw [position, ← stands.span_eq isOp]
        exact (Span.covers_iff _ _).2 around
      · refine shows.hull_eq (by simp) ((spaces _).trans ?_) ((spaces _).trans ?_)
        · rw [← fills.spans]
          exact fills.counted.shown.isSpace_hull_start fills.present
        · rw [← fills.spans]
          exact fills.counted.shown.isSpace_hull_stop fills.present
      · have shorter := takes.shorter
        simp only [List.length_append, List.length_cons] at shorter short ⊢
        omega
      · have fewer := (leaves.front.filterMap fun segment =>
          segment.op?.map fun op => (segment.span.start, op)).length_le
        have fewer' := (leaves.back.filterMap fun segment =>
          segment.op?.map fun op => (segment.span.start, op)).length_le
        rw [headsOf_append, headsOf_append, headsOf_op isOp, headsOf_operand rfl]
        simp only [List.length_append, List.length_cons]
        simp only [headsOf]
        omega
  · rw [same] at goesOn
    obtain ⟨expr, between, -, goesOn⟩ := bind_eq_ok.1 goesOn
    exact nomatch (EStateM.Result.ok.inj goesOn).1

end

/-- With every round that goes on, fewer operators are left. -/
theorem Passes.fills {first before : Reduction} {count : Nat}
    (simulates : Simulates bound operands onSegments) (fills : Fills first range segments)
    (short : segments.length ≤ bound) (passes : Passes operands range first count before) :
    ∃ left, Fills before range left ∧ left.length ≤ bound ∧
      (headsOf left).length + count ≤ (headsOf segments).length := by
  induction passes with
  | start => exact ⟨segments, fills, short, Nat.le_refl _⟩
  | next passes goesOn induction =>
      obtain ⟨left, fillsLeft, shortLeft, fewer⟩ := induction
      obtain ⟨-, rest, fillsRest, shortRest, falls⟩ :=
        round_goesOn simulates fillsLeft shortLeft goesOn
      exact ⟨rest, fillsRest, shortRest, by omega⟩

end

end Reduction
end MethodLowering
