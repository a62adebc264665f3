import MethodLowering.Proofs.Reduction.Segment
import MethodLowering.Reduction.Statement

/-!
# Reducing lists of segments

The reduction of a range again, over the list of segments that the range shows instead of its
ledger.  A fold takes neighbouring segments out of the list and gives the expression that stands for
them; tags and pending expressions are not needed.
-/

namespace MethodLowering
namespace Reduction
namespace OnSegments

/-- How a list of segments is reduced, to nothing where it is empty. -/
abbrev Operands := List Segment → ReduceM (Option Expr)

/-- The expression of a fold with the segments in front of it and behind it. -/
structure Folded where
  front : List Segment
  expr : Expr
  back : List Segment

/-! ## The next operator -/

/-- No operand stands in front of a sign; `last` is the segment in front of it. -/
def isSignBehind (last : Option Segment) : Bool :=
  match last with
  | none => true
  | some segment => segment.op?.any fun op => !op.endsOperand

/-- The operator of a segment as a candidate. -/
def candidateOf (last : Option Segment) (segment : Segment) (op : Op) : Candidate :=
  { position := segment.span.start, op
    isSign := (op == .plus || op == .minus) && isSignBehind last }

/-- All operators but closing brackets, as candidates. -/
def candidatesFrom : Option Segment → List Segment → List Candidate
  | _, [] => []
  | last, segment :: rest =>
      match segment.op? with
      | none => candidatesFrom (some segment) rest
      | some op =>
          if op.isClosing then candidatesFrom (some segment) rest
          else candidateOf last segment op :: candidatesFrom (some segment) rest

/-- The operator to fold next. -/
def best? (segments : List Segment) : Option Candidate :=
  (candidatesFrom none segments).foldl (fun best next => some (Candidate.better best next)) none

/-- The operator to fold next; only closing brackets are an error. -/
def next (segments : List Segment) : ReduceM (Option Candidate) :=
  match best? segments with
  | some candidate => return some candidate
  | none =>
      match (headsOf segments).head? with
      | some (position, op) => rejectBracket op position
      | none => return none

/-- The segments in front of the one at a position and those behind it. -/
def splitAt (position : Nat) (segments : List Segment) : List Segment × List Segment :=
  (segments.takeWhile (·.span.start != position),
    (segments.dropWhile (·.span.start != position)).tail)

/-- The operands at the end of a list. -/
def lastOperands (segments : List Segment) : List Segment := segments.rtakeWhile (·.isOperand)

/-- A list without the operands at its end. -/
def dropOperands (segments : List Segment) : List Segment := segments.rdropWhile (·.isOperand)

/-- The operands at the start of a list. -/
def firstOperands (segments : List Segment) : List Segment := segments.takeWhile (·.isOperand)

/-- A list without the operands at its start. -/
def skipOperands (segments : List Segment) : List Segment := segments.dropWhile (·.isOperand)

/-! ## Operators -/

def binary (operands : Operands) (op : Op) (position : Nat) (before after : List Segment) :
    ReduceM Folded := do
  let span := opSpan op position
  let left := (← operands before).getD .absent
  let right := (← operands after).getD .absent
  return ⟨[], .operation (← newNodeAround span [left, right]) op left right, []⟩

def assignment (operands : Operands) (op : Op) (position : Nat) (before after : List Segment) :
    ReduceM Folded := do
  let span := opSpan op position
  let target ← required (← operands before) op "without an assignment target"
  let value := (← operands after).getD .absent
  return ⟨[], .assignment (← newNodeAround span [target, value]) op target value, []⟩

def conditional (operands : Operands) (position : Nat) (before after : List Segment) :
    ReduceM Folded := do
  match pairedColon? 0 (headsOf after) with
  | none => reject (.missingClause "?" "`:` branch")
  | some colon =>
      let condition := (← operands before).getD .absent
      let first := (← operands (splitAt colon after).1).getD .absent
      let second := (← operands (splitAt colon after).2).getD .absent
      let branches :=
        Expr.operation (← newNodeAround ⟨colon, colon + 1⟩ [first, second]) .colon first second
      return ⟨[], .operation (← newNodeAround ⟨position, position + 1⟩ [condition, branches])
        .question condition branches, []⟩

def access (operands : Operands) (position : Nat) (before after : List Segment) :
    ReduceM Folded := do
  let subject ← required (← operands (lastOperands before)) .dot "without a subject"
  let member ← required (← operands (firstOperands after)) .dot "without a member name"
  match ← qualifyConstruction? subject member with
  | some construction => return ⟨dropOperands before, construction, skipOperands after⟩
  | none =>
      match ← qualifyDeclaration? subject member with
      | some declaration => return ⟨dropOperands before, declaration, skipOperands after⟩
      | none =>
          return ⟨dropOperands before,
            .access (← newNodeAround ⟨position, position + 1⟩ [subject, member]) subject member,
            skipOperands after⟩

def typeTest (operands : Operands) (before after : List Segment) : ReduceM Folded := do
  let operand ← required (← operands (lastOperands before)) .instanceOf "without an operand"
  if (firstOperands after).isEmpty then reject (.missingClause "instanceof" "type name")
  else
    let typeSpan := hull (firstOperands after)
    let typeName ← textAt typeSpan
    return ⟨dropOperands before, .typeTest (← newNodeAround typeSpan [operand]) operand typeName,
      skipOperands after⟩

def unary (operands : Operands) (op : Op) (position : Nat) (before after : List Segment) :
    ReduceM Folded := do
  let span := opSpan op position
  if (op == .increment || op == .decrement) && !(lastOperands before).isEmpty then
    let left ← required (← operands (lastOperands before)) op "without an operand"
    return ⟨dropOperands before, .operation (← newNodeAround span [left]) op left .absent, after⟩
  else
    let right ← required (← operands (firstOperands after)) op "without an operand"
    return ⟨before, .operation (← newNodeAround span [right]) op .absent right,
      skipOperands after⟩

/-! ## Brackets -/

/-- The segments behind the bracket that closes the one in front of `segments`, and those up to and
including it. -/
def bracketed? (op : Op) (opening : Segment) (segments : List Segment) :
    Option (List Segment × List Segment) :=
  if op == .openParen || op == .openBracket then
    op.closing?.bind fun closing =>
      (closingHead? op closing 0 (headsOf (opening :: segments))).map fun close =>
        (segments.takeWhile (·.span.start ≤ close), segments.dropWhile (·.span.start ≤ close))
  else none

/-- Split off the operand of a cast; `taken` is what of it is already found. -/
def castFrom : Nat → List Segment → List Segment → List Segment × List Segment
  | 0, taken, segments => (taken ++ firstOperands segments, skipOperands segments)
  | count + 1, taken, segments =>
      let operand := taken ++ firstOperands segments
      match skipOperands segments with
      | [] => (operand, [])
      | segment :: behind =>
          if operand.isEmpty then (operand, segment :: behind)
          else if segment.op? == some .dot then castFrom count (operand ++ [segment]) behind
          else
            match segment.op?.bind (bracketed? · segment behind) with
            | some (inner, rest) => castFrom count (operand ++ segment :: inner) rest
            | none => (operand, segment :: behind)

def paren (operands : Operands) (position close count : Nat) (inner : Option Expr)
    (before after : List Segment) : ReduceM Folded := do
  let span : Span := ⟨position, close + 1⟩
  if !(lastOperands before).isEmpty then
    match ← operands (lastOperands before) with
    | some callee =>
        return ⟨dropOperands before, .call (← newNodeAround span [callee]) callee (items inner),
          after⟩
    | none => rejectBracket .openParen position
  else
    let (operand, back) := castFrom count [] after
    match if operand.isEmpty then none else inner.bind castType? with
    | some typeName =>
        match ← operands operand with
        | some operand =>
            return ⟨before, .cast (← newNodeAround span [operand]) typeName operand, back⟩
        | none => rejectBracket .openParen position
    | none => return ⟨before, .group (← newNode span) false (items inner), after⟩

/-- Indices, initializer and end of an index with what it takes in from the segments behind it, and
the segments that are left. -/
def absorb : Nat → List Expr → Nat → List Segment → (List Expr × Expr × Nat) × List Segment
  | 0, indices, stop, segments => ((indices, .absent, stop), segments)
  | _ + 1, indices, stop, [] => ((indices, .absent, stop), [])
  | count + 1, indices, stop, segment :: rest =>
      match segment.tree?.bind absorbed? with
      | none => ((indices, .absent, stop), segment :: rest)
      | some (further, initializer) =>
          if initializer.isPresent then ((indices ++ further, initializer, segment.span.stop), rest)
          else absorb count (indices ++ further) segment.span.stop rest

def index (operands : Operands) (position close count : Nat) (inner : Option Expr)
    (before after : List Segment) : ReduceM Folded := do
  let target := (← operands (lastOperands before)).getD .absent
  let ((indices, initializer, stop), back) := absorb count [inner.getD .absent] (close + 1) after
  let start :=
    match target.node? with
    | some node => node.span.start
    | none => position
  return ⟨dropOperands before, .index (← newNode ⟨start, stop⟩) target indices initializer, back⟩

def bracket (operands : Operands) (op : Op) (position count : Nat) (before after : List Segment) :
    ReduceM Folded := do
  match op.closing? with
  | none => rejectBracket op position
  | some closing =>
      match (headsOf after).find? (·.2 == closing) with
      | none => rejectBracket op position
      | some (close, _) =>
          recordPair position close
          let inner ← operands (splitAt close after).1
          let rest := (splitAt close after).2
          match op with
          | .openParen => paren operands position close count inner before rest
          | .openBracket => index operands position close count inner before rest
          | _ => return ⟨before, .group (← newNode ⟨position, close + 1⟩) true (items inner), rest⟩

/-! ## Rounds -/

/-- Fold the operator between two lists of segments. -/
def fold (operands : Operands) (candidate : Candidate) (count : Nat)
    (before after : List Segment) : ReduceM Folded :=
  let position := candidate.position
  let op := candidate.op
  match op with
  | .openParen | .openBracket | .openBrace => bracket operands op position count before after
  | .question => conditional operands position before after
  | .dot => access operands position before after
  | .instanceOf => typeTest operands before after
  | .increment | .decrement | .not => unary operands op position before after
  | _ =>
      if candidate.isSign then unary operands op position before after
      else if op.isAssignment then assignment operands op position before after
      else if op.isClosing then rejectBracket op position
      else binary operands op position before after

/-- The operators that are folded in a way of their own. -/
def ownFolds : List Op :=
  [.openParen, .openBracket, .openBrace, .question, .dot, .instanceOf, .increment, .decrement, .not]

theorem fold_other {operands : Operands} {candidate : Candidate} {count : Nat}
    {before after : List Segment} (other : candidate.op ∉ ownFolds) :
    fold operands candidate count before after =
      if candidate.isSign then unary operands candidate.op candidate.position before after
      else if candidate.op.isAssignment then
        assignment operands candidate.op candidate.position before after
      else if candidate.op.isClosing then rejectBracket candidate.op candidate.position
      else binary operands candidate.op candidate.position before after := by
  obtain ⟨position, op, isSign⟩ := candidate
  change op ∉ ownFolds at other
  unfold fold
  dsimp only
  split <;> first | exact absurd (by decide) other | rfl

/-- What holds of each way to fold an operator holds of the way that is taken. -/
theorem fold_cases {operands : Operands} {place count : Nat} {op : Op} {isSign : Bool}
    {before after : List Segment} {motive : ReduceM Folded → Prop}
    (ofBracket : op.isOpening = true → motive (bracket operands op place count before after))
    (ofConditional : op = .question → motive (conditional operands place before after))
    (ofAccess : op = .dot → motive (access operands place before after))
    (ofTypeTest : op = .instanceOf → motive (typeTest operands before after))
    (ofUnary : op.isOpening = false → motive (unary operands op place before after))
    (ofAssignment : op.isOpening = false → motive (assignment operands op place before after))
    (ofClosing : op.isClosing = true → motive (rejectBracket op place))
    (ofBinary : op.isOpening = false → motive (binary operands op place before after)) :
    motive (fold operands ⟨place, op, isSign⟩ count before after) := by
  have others (own : op.isOpening = false) : motive
      (if isSign then unary operands op place before after
        else if op.isAssignment then assignment operands op place before after
        else if op.isClosing then rejectBracket op place
        else binary operands op place before after) := by
    split
    · exact ofUnary own
    · split
      · exact ofAssignment own
      · split
        · exact ofClosing ‹_›
        · exact ofBinary own
  cases op with
  | openParen | openBracket | openBrace => exact ofBracket rfl
  | question => exact ofConditional rfl
  | dot => exact ofAccess rfl
  | instanceOf => exact ofTypeTest rfl
  | increment | decrement | not => exact ofUnary rfl
  | _ => exact others rfl

/-- The expression of segments without operators. -/
def leaf (segments : List Segment) : ReduceM Expr := do
  let range := hull segments
  if segments.any (·.tree?.isSome) then return .leaf (← newNode range) .verbatim
  else classify range ((← getLedger).slice range)

/-- The expression that a list consists of. -/
def whole? : List Segment → Option Expr
  | [segment] => segment.tree?
  | _ => none

/-- Reduce a list that is not empty, in at most `count` rounds. -/
def rounds (operands : Operands) : Nat → List Segment → ReduceM Expr
  | 0, segments => do reject (.resolveStalled (← textAt (hull segments)))
  | count + 1, segments => do
      modifyBody fun body =>
        { body with effort := { body.effort with rounds := body.effort.rounds + 1 } }
      match whole? segments with
      | some expr => return expr
      | none =>
          match ← next segments with
          | none => leaf segments
          | some candidate =>
              let (before, after) := splitAt candidate.position segments
              let folded ← fold operands candidate (hull segments).length before after
              if folded.front.isEmpty && folded.back.isEmpty then return folded.expr
              else
                let span := (folded.expr.node?.map (·.span)).getD (hull segments)
                rounds operands count (folded.front ++ ⟨span, .tree folded.expr⟩ :: folded.back)

/-- Reduce a list of segments at a nesting depth. -/
def reduce : (nesting depth : Nat) → Operands
  | 0, _, segments => do reject (.resolveStalled (← textAt (hull segments)))
  | nesting + 1, depth, segments => do
      modify fun state => { state with deepest := max state.deepest depth }
      if segments.isEmpty then return none
      else return some (← rounds (reduce nesting (depth + 1)) Limits.reductionRounds segments)

/-- Reduce the segments of a whole statement. -/
def statement (nesting : Nat) (segments : List Segment) : ReduceM Expr := do
  modifyBody fun body =>
    { body with effort := { body.effort with statements := body.effort.statements + 1 } }
  let expr := (← reduce nesting 1 segments).getD .absent
  modify fun state =>
    let effort := state.body.effort
    { state with
      body :=
        { state.body with
          effort :=
            { effort with
              totalDepth := effort.totalDepth + state.deepest
              maxDepth := max effort.maxDepth state.deepest } } }
  return expr

end OnSegments
end Reduction
end MethodLowering
