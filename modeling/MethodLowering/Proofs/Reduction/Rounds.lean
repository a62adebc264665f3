import MethodLowering.Proofs.Reduction.Steadiness

/-!
# The rounds of a range

A range is reduced in rounds.  A round that does not give the expression of the whole range keeps
the expression of a fold as pending, and goes on.
-/

namespace MethodLowering
namespace Reduction

/-- What becomes of the expression of a fold: it is the whole of the range, or it is kept as
pending. -/
def settle (range : Span) (candidate : Candidate) (expr : Expr) : ReduceM (Option Expr) := do
  let span := (expr.node?.map (·.span)).getD range
  if !range.covers span then
    reject (.spanEscape candidate.op.text range span)
  else if span == range then
    markSpan range .resolved
    return some expr
  else
    keepPending span expr
    return none

/-- What a round does when the range is found to be one pending expression, or not. -/
def finishRound (operands : Operands) (range : Span) : Option Expr → ReduceM (Option Expr)
  | some expr => do
      markSpan range .resolved
      return some expr
  | none => do
      match ← nextCandidate range with
      | none =>
          let expr ← leaf range
          markSpan range .resolved
          return some expr
      | some candidate => settle range candidate (← fold operands candidate range)

/-- One round of a range: the expression of the whole range, or nothing where an expression is kept
as pending. -/
def round (operands : Operands) (range : Span) : ReduceM (Option Expr) := do
  modifyBody fun body =>
    { body with effort := { body.effort with rounds := body.effort.rounds + 1 } }
  finishRound operands range (pendingAt? (← get) range)

/-- The state with one more round counted. -/
def counted (state : Reduction) : Reduction :=
  { state with
    body :=
      { state.body with
        effort := { state.body.effort with rounds := state.body.effort.rounds + 1 } } }

/-- The states before the rounds of a range, by the number of rounds that went on. -/
inductive Passes (operands : Operands) (range : Span) (first : Reduction) : Nat → Reduction → Prop
    where
  | start : Passes operands range first 0 first
  | next {count : Nat} {before after : Reduction}
      (passes : Passes operands range first count before)
      (goesOn : round operands range before = .ok none after) :
      Passes operands range first (count + 1) after

/-- The rounds of a range, with the number of those that were begun. -/
def countedRounds (operands : Operands) (range : Span) :
    Nat → Reduction → EStateM.Result Failure Reduction Expr × Nat
  | 0, state => (rounds operands range 0 state, 0)
  | count + 1, state =>
      match round operands range state with
      | .error failure after => (.error failure after, 1)
      | .ok (some expr) after => (.ok expr after, 1)
      | .ok none after =>
          let (result, begun) := countedRounds operands range count after
          (result, begun + 1)

theorem round_eq (operands : Operands) (range : Span) (state : Reduction) :
    round operands range state =
      finishRound operands range (pendingAt? (counted state) range) (counted state) := rfl

theorem rounds_succ (operands : Operands) (range : Span) (count : Nat) :
    rounds operands range (count + 1) = (do
      match ← round operands range with
      | some expr => return expr
      | none => rounds operands range count) := by
  rw [rounds, round]
  simp only [bind_assoc]
  refine congrArg _ (funext fun _ => congrArg _ (funext fun state => ?_))
  cases pendingAt? state range with
  | some expr => simp [finishRound]
  | none =>
      simp only [finishRound, bind_assoc]
      refine congrArg _ (funext fun candidate => ?_)
      cases candidate with
      | none => simp
      | some candidate =>
          simp only [bind_assoc]
          refine congrArg _ (funext fun expr => ?_)
          unfold settle
          dsimp only
          split
          · rfl
          · split <;> simp

section

variable {operands : Operands} {range : Span} {first before after : Reduction} {count : Nat}
  {failure : Failure}

theorem countedRounds_eq (operands : Operands) (range : Span) (count : Nat) (state : Reduction) :
    (countedRounds operands range count state).1 = rounds operands range count state := by
  induction count generalizing state with
  | zero => rfl
  | succ count induction =>
      rw [countedRounds, rounds_succ]
      simp only [Bind.bind, EStateM.bind]
      cases round operands range state with
      | error failure after => rfl
      | ok result after =>
          cases result with
          | some expr => rfl
          | none => exact induction after

/-- As many rounds are begun as are passed, and one more. -/
theorem countedRounds_le {most : Nat}
    (bounded : ∀ number before, Passes operands range first number before → number ≤ most)
    (count : Nat) : (countedRounds operands range count first).2 ≤ most + 1 := by
  have further (count number : Nat) (state : Reduction)
      (passes : Passes operands range first number state) :
      number + (countedRounds operands range count state).2 ≤ most + 1 := by
    induction count generalizing number state with
    | zero => exact Nat.le_succ_of_le (bounded number state passes)
    | succ count induction =>
        have here := bounded number state passes
        rw [countedRounds]
        cases result : round operands range state with
        | error failure after => exact Nat.succ_le_succ here
        | ok expr after =>
            cases expr with
            | some expr => exact Nat.succ_le_succ here
            | none =>
                have later := induction (number + 1) after (passes.next result)
                dsimp only
                omega
  simpa using further count 0 first .start

/-- Reduction stalls, or even the span of what is left strays from the text. -/
def Stalls (failure : Failure) : Prop :=
  (∃ stalled, failure = .malformed (.resolveStalled stalled)) ∨ failure = .undefined .badRange

theorem stalls_of_error {span : Span} {state : Reduction}
    (failed : (do reject (.resolveStalled (← textAt span)) : ReduceM Expr) state =
      .error failure after) : Stalls failure := by
  rcases bind_eq_error.1 failed with strays | ⟨stalled, between, -, rejects⟩
  · rcases textAt_cases span state with ⟨-, read⟩ | ⟨-, fails⟩
    · rw [read] at strays
      contradiction
    · rw [fails] at strays
      exact .inr (EStateM.Result.error.inj strays).1.symm
  · exact .inl ⟨stalled, (EStateM.Result.error.inj rejects).1.symm⟩

/-- The rounds fail because one of them does, or because all of them went on. -/
theorem rounds_error (failed : rounds operands range count first = .error failure after) :
    (∃ before, Passes operands range first count before ∧ Stalls failure) ∨
    ∃ number before, number < count ∧ Passes operands range first number before ∧
      round operands range before = .error failure after := by
  have later (left number : Nat) (state : Reduction) (total : number + left = count)
      (passes : Passes operands range first number state)
      (stopped : rounds operands range left state = .error failure after) :
      (∃ before, Passes operands range first count before ∧ Stalls failure) ∨
      ∃ number before, number < count ∧ Passes operands range first number before ∧
        round operands range before = .error failure after := by
    induction left generalizing number state with
    | zero =>
        obtain rfl : number = count := total
        exact .inl ⟨state, passes, stalls_of_error stopped⟩
    | succ left induction =>
        rw [rounds_succ] at stopped
        rcases bind_eq_error.1 stopped with here | ⟨result, between, goesOn, behind⟩
        · exact .inr ⟨number, state, by omega, passes, here⟩
        · cases result with
          | some expr => contradiction
          | none => exact induction (number + 1) between (by omega) (passes.next goesOn) behind
  exact later count 0 first (Nat.zero_add _) .start failed

end

/-! ## What every part keeps -/

section

variable {kept : Reduction → Reduction → Prop} {fails : Failure → Reduction → Prop}
  [IsPreorder Reduction kept] (steady : Steady kept fails)
include steady

section

variable (rejects : ∀ error state, fails (.malformed error) state)
include rejects

theorem round_procedure (range : Span) :
    Procedure (fun _ _ => True) kept fails fun operands => round operands range := by
  have resolved (expr : Expr) : Preserves kept fails
      (do markSpan range .resolved; return some expr) :=
    (markSpan_preserves steady range rfl).bind fun _ => .pure
  refine .behind (effort_preserves steady fun effort => { effort with rounds := effort.rounds + 1 })
    fun _ => .behind .get fun state => ?_
  cases pendingAt? state range with
  | some expr => exact .own (resolved expr)
  | none =>
      refine .behind (nextCandidate_preserves steady range) fun candidate => ?_
      cases candidate with
      | none => exact .own ((leaf_preserves steady range).bind resolved)
      | some candidate =>
          refine .bind ((fold_procedure steady candidate range).mono (fun _ _ _ => trivial)
            fun _ _ known => known) fun expr => .own ?_
          unfold settle
          dsimp only
          split
          · exact .throw (rejects _)
          · split
            · exact resolved expr
            · exact (keepPending_preserves steady _ _).bind fun _ => .pure

theorem rounds_procedure (range : Span) (count : Nat) :
    Procedure (fun _ _ => True) kept fails fun operands => rounds operands range count := by
  induction count with
  | zero => exact .own ((textAt_preserves steady _).bind fun _ => .throw (rejects _))
  | succ count induction =>
      simp only [rounds_succ]
      refine .bind (round_procedure steady rejects range) fun result => ?_
      cases result with
      | some expr => exact .own .pure
      | none => exact induction

theorem reduceBy_procedure (depth start stop : Nat) :
    Procedure (fun _ _ => True) kept fails fun operands => reduceBy operands depth start stop := by
  refine .behind (deepen_preserves steady depth) fun _ =>
    .behind getLedger_preserves fun ledger => ?_
  dsimp only
  cases (ledger.trim start stop).isEmpty with
  | true => exact .own .pure
  | false => exact .bind (rounds_procedure steady rejects _ _) fun _ => .own .pure

theorem reduce_preserves
    (nesting depth start stop : Nat) : Preserves kept fails (reduce nesting depth start stop) := by
  induction nesting generalizing depth start stop with
  | zero => exact (textAt_preserves steady _).bind fun _ => .throw (rejects _)
  | succ nesting induction =>
      rw [reduce_succ]
      exact (reduceBy_procedure steady rejects depth start stop).preserves (fun _ _ known => known)
        fun first last _ => induction (depth + 1) first last

theorem statement_preserves : Preserves kept fails statement := by
  refine (effort_preserves steady fun effort =>
    { effort with statements := effort.statements + 1 }).bind
    fun _ => getLedger_preserves.bind fun ledger => ?_
  refine (reduce_preserves steady rejects _ _ _ _).bind fun expr => ?_
  refine Preserves.bind (fun before => steady.count before fun effort =>
    { effort with
      totalDepth := effort.totalDepth + before.deepest
      maxDepth := max effort.maxDepth before.deepest }) fun _ => .pure

end

end

end Reduction
end MethodLowering
