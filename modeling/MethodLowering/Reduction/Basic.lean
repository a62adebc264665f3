import MethodLowering.Body.Category
import MethodLowering.Ledger.Scan
import MethodLowering.Limits

/-!
# Reducing a statement to a tree

A statement is reduced over its ledger.  In each round the most loosely binding operator of the
requested range is folded together with its operands.  An expression that covers only part of the
range is kept as pending and serves as one operand of later rounds, until one expression covers the
whole range.
-/

namespace MethodLowering

/-- An expression that covers part of a range and waits for its surroundings. -/
structure Subtree where
  span : Span
  expr : Expr

/-- State of the reduction of one statement. -/
structure Reduction where
  /-- Text and tags of the statement. -/
  ledger : Ledger
  /-- Paragraph the statement stands in. -/
  scope : ParagraphId
  /-- Pending expressions by number; a used one is gone. -/
  pending : Array (Option Subtree) := #[]
  /-- Largest nesting depth so far. -/
  deepest : Nat := 0
  /-- Positions of the brackets combined so far, the latest pair first. -/
  pairs : List (Nat × Nat) := []
  /-- The body the statement belongs to. -/
  body : Body

/-- Reduction steps: they may fail, and what they did to the body stays done. -/
abbrev ReduceM := EStateM Failure Reduction

section

variable {σ α β : Type} {before between after : σ} {value : α} {failure : Failure}

theorem get_apply (state : σ) : (get : EStateM Failure σ σ) state = .ok state state := rfl

theorem modify_apply (change : σ → σ) (state : σ) :
    (modify change : EStateM Failure σ PUnit) state = .ok ⟨⟩ (change state) := rfl

theorem bind_of_ok {computation : EStateM Failure σ α}
    (gives : computation before = .ok value between)
    (next : α → EStateM Failure σ β) : (computation >>= next) before = next value between := by
  simp only [Bind.bind, EStateM.bind, gives]

/-- A computation in two parts succeeds exactly when both parts do. -/
theorem bind_eq_ok {first : EStateM Failure σ α} {next : α → EStateM Failure σ β} {value : β} :
    (first >>= next) before = .ok value after ↔
      ∃ result between, first before = .ok result between ∧
        next result between = .ok value after := by
  simp only [Bind.bind, EStateM.bind]
  cases first before with
  | ok result between => simp [and_assoc]
  | error failure between => simp

theorem bind_eq_error {first : EStateM Failure σ α} {next : α → EStateM Failure σ β} :
    (first >>= next) before = .error failure after ↔
      first before = .error failure after ∨ ∃ result between, first before = .ok result between ∧
        next result between = .error failure after := by
  simp only [Bind.bind, EStateM.bind]
  cases first before with
  | ok result between => simp [and_assoc]
  | error failure between => simp

theorem map_of_ok {computation : EStateM Failure σ α} (gives : computation before = .ok value after)
    (change : α → β) : (change <$> computation) before = .ok (change value) after := by
  simp only [Functor.map, EStateM.map, gives]

theorem map_of_error {computation : EStateM Failure σ α}
    (fails : computation before = .error failure after)
    (change : α → β) : (change <$> computation) before = .error failure after := by
  simp only [Functor.map, EStateM.map, fails]

theorem map_eq_ok {computation : EStateM Failure σ α} {change : α → β} {value : β} :
    (change <$> computation) before = .ok value after ↔
      ∃ result, computation before = .ok result after ∧ change result = value := by
  cases run : computation before with
  | ok result between => simp [map_of_ok run change, and_assoc, and_comm]
  | error failure between => simp [map_of_error run change]

end

/-- How operands are reduced: from one position up to another, to nothing where the range is
blank. -/
abbrev Operands := Nat → Nat → ReduceM (Option Expr)

namespace Reduction

/-- Reject the statement. -/
def reject {α : Type} (error : SourceError) : ReduceM α := throw (.malformed error)

/-- The current tags and text. -/
def getLedger : ReduceM Ledger := return (← get).ledger

/-- The text at a span, as a string; a span that is not one of the ledger has none. -/
def textAt (span : Span) : ReduceM String := do
  let ledger ← getLedger
  if ledger.holds span then return ledger.textAt span else throw (.undefined .badRange)

/-- Tag the characters of a span. -/
def markSpan (span : Span) (tag : Tag) : ReduceM Unit :=
  modify fun state => { state with ledger := state.ledger.mark span tag }

/-- Change the body. -/
def modifyBody (change : Body → Body) : ReduceM Unit :=
  modify fun state => { state with body := change state.body }

/-- A new node at a span. -/
def newNode (span : Span) : ReduceM Node := do
  let text ← textAt span
  let id := (← get).body.nextNode
  modifyBody fun body => { body with nextNode := body.nextNode + 1 }
  return { id, span, text }

/-- A new node that spans `anchor` and the given operands. -/
def newNodeAround (anchor : Span) (operands : List Expr) : ReduceM Node :=
  newNode (operands.foldl
    (fun span operand =>
      match operand.node? with
      | some node => span.join node.span
      | none => span)
    anchor)

theorem textAt_cases (span : Span) (state : Reduction) :
    (state.ledger.holds span = true ∧ textAt span state = .ok (state.ledger.textAt span) state) ∨
      (state.ledger.holds span = false ∧
        textAt span state = .error (.undefined .badRange) state) := by
  change _ ∧ (if state.ledger.holds span then _ else _ : ReduceM String) state = _ ∨
    _ ∧ (if state.ledger.holds span then _ else _ : ReduceM String) state = _
  cases state.ledger.holds span with
  | true => exact .inl ⟨rfl, rfl⟩
  | false => exact .inr ⟨rfl, rfl⟩

theorem newNode_cases (span : Span) (state : Reduction) :
    (state.ledger.holds span = true ∧ newNode span state =
          .ok ⟨state.body.nextNode, span, state.ledger.textAt span⟩
            { state with body := { state.body with nextNode := state.body.nextNode + 1 } }) ∨
      (state.ledger.holds span = false ∧
        newNode span state = .error (.undefined .badRange) state) := by
  rcases textAt_cases span state with ⟨inside, read⟩ | ⟨outside, fails⟩
  · refine .inl ⟨inside, bind_eq_ok.2 ⟨_, _, read, ?_⟩⟩
    rfl
  · exact .inr ⟨outside, bind_eq_error.2 (.inl fails)⟩

/-- The error of a bracket without partner. -/
def rejectBracket {α : Type} (op : Op) (position : Nat) : ReduceM α := do
  let text := String.ofList (← getLedger).chars
  reject (.unbalancedBracket (op.spelling.head?.getD '?') position text)

/-- The error of an operator without a required operand. -/
def rejectOperand {α : Type} (op : Op) (context : String) : ReduceM α :=
  reject (.unexpectedToken op.text context)

/-- A required operand. -/
def required (operand : Option Expr) (op : Op) (context : String) : ReduceM Expr :=
  match operand with
  | some expr => return expr
  | none => rejectOperand op context

/-! ## Ranges around an operator -/

/-- Start of the operator-free text that ends at `position`. -/
def greedyStart (ledger : Ledger) (position : Nat) (range : Span) : Nat :=
  Text.seekDown ledger.isOperatorAt position (position - range.start)

/-- End of the operator-free text that starts at `position`. -/
def greedyStop (ledger : Ledger) (position : Nat) (range : Span) : Nat :=
  Text.seek ledger.isOperatorAt position (range.stop - position)

/-- The span of an operator. -/
def opSpan (op : Op) (position : Nat) : Span := ⟨position, position + op.width⟩

/-! ## Pending expressions -/

/-- The pending expression that covers exactly the range. -/
def pendingAt? (state : Reduction) (range : Span) : Option Expr :=
  match state.ledger.tag? range.start with
  | some (.pending id) =>
      match state.pending[id]?.join with
      | some subtree => if subtree.span == range then some subtree.expr else none
      | none => none
  | _ => none

/-- Keep an expression as pending. -/
def keepPending (span : Span) (expr : Expr) : ReduceM Unit :=
  modify fun state =>
    { state with
      pending := state.pending.push (some ⟨span, expr⟩)
      ledger := state.ledger.mark span (.pending state.pending.size) }

/-- Note that the brackets at two positions are combined. -/
def recordPair (opening closing : Nat) : ReduceM Unit :=
  modify fun state => { state with pairs := (opening, closing) :: state.pairs }

/-! ## The next operator -/

/-- An operator to fold. -/
structure Candidate where
  position : Nat
  op : Op
  /-- A sign in front of its operand. -/
  isSign : Bool
deriving DecidableEq, Repr

namespace Candidate

/-- Level at which the operator is folded. -/
def level (candidate : Candidate) : Nat :=
  if candidate.isSign then Op.signLevel else candidate.op.row.level

/-- Choice among operators of one level. -/
def tieBreak (candidate : Candidate) : TieBreak :=
  if candidate.isSign then .rightmost else candidate.op.row.tieBreak

/-- The better of the best operator so far and the next one to its right. -/
def better (best : Option Candidate) (next : Candidate) : Candidate :=
  match best with
  | none => next
  | some best =>
      if next.level < best.level || (next.level == best.level && next.tieBreak == .rightmost) then
        next
      else best

end Candidate

/-- A sign at the position stands in front of its operand. -/
def isSignPlace (ledger : Ledger) (position : Nat) (range : Span) : Bool :=
  let behind :=
    Text.seekDown (fun below => !ledger.isSpace below) position (position - range.start)
  behind == range.start ||
    match (ledger.tag? (behind - 1)).bind Tag.op? with
    | some op => !op.endsOperand
    | none => false

/-- The operator at a position as a candidate. -/
def candidateAt (ledger : Ledger) (range : Span) (position : Nat) (op : Op) : Candidate :=
  { position, op
    isSign := (op == .plus || op == .minus) && isSignPlace ledger position range }

/-- The operator to fold next: lowest level, then the tie rule of the level. -/
def bestCandidate? (ledger : Ledger) (range : Span) : Option Candidate :=
  ledger.foldHeads
    (fun best position op =>
      if op.isClosing then best
      else some (Candidate.better best (candidateAt ledger range position op)))
    none range.start range.stop

/-- The operator to fold next; only closing brackets are an error. -/
def nextCandidate (range : Span) : ReduceM (Option Candidate) := do
  let ledger ← getLedger
  match bestCandidate? ledger range with
  | some candidate => return some candidate
  | none =>
      match (ledger.heads range.start range.stop).head? with
      | some (position, op) => rejectBracket op position
      | none => return none

end Reduction
end MethodLowering
