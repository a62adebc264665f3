import MethodLowering.Reduction.Brackets
import MethodLowering.Reduction.Leaf
import MethodLowering.Reduction.Operators

/-!
# Reducing ranges and statements

The rounds of one range, their nesting, and the entry points for whole statements and clauses.
-/

namespace MethodLowering
namespace Reduction

/-- Fold one operator of a range. -/
def fold (operands : Operands) (candidate : Candidate) (range : Span) : ReduceM Expr :=
  let position := candidate.position
  let op := candidate.op
  match op with
  | .openParen | .openBracket | .openBrace => bracket operands op position range
  | .question => conditional operands position range
  | .dot => access operands position range
  | .instanceOf => typeTest operands position range
  | .increment | .decrement | .not => unary operands op position range
  | _ =>
      if candidate.isSign then unary operands op position range
      else if op.isAssignment then assignment operands op position range
      else if op.isClosing then rejectBracket op position
      else binary operands op position range

/-- Reduce a range that is not blank, in at most `count` rounds. -/
def rounds (operands : Operands) (range : Span) : Nat → ReduceM Expr
  | 0 => do reject (.resolveStalled (← textAt range))
  | count + 1 => do
      modifyBody fun body =>
        { body with effort := { body.effort with rounds := body.effort.rounds + 1 } }
      match pendingAt? (← get) range with
      | some expr =>
          markSpan range .resolved
          return expr
      | none =>
          match ← nextCandidate range with
          | none =>
              let expr ← leaf range
              markSpan range .resolved
              return expr
          | some candidate =>
              let expr ← fold operands candidate range
              let span := (expr.node?.map (·.span)).getD range
              if !range.covers span then
                reject (.spanEscape candidate.op.text range span)
              else if span == range then
                markSpan range .resolved
                return expr
              else
                keepPending span expr
                rounds operands range count

/-- Reduce a range at a nesting depth; at most `nesting` further levels are entered.  A blank range
gives nothing. -/
def reduce : (nesting depth : Nat) → Operands
  | 0, _, start, stop => do reject (.resolveStalled (← textAt ⟨start, stop⟩))
  | nesting + 1, depth, start, stop => do
      modify fun state => { state with deepest := max state.deepest depth }
      let range := (← getLedger).trim start stop
      if range.isEmpty then return none
      else return some (← rounds (reduce nesting (depth + 1)) range Limits.reductionRounds)

/-- Reduce a whole statement.  Each nested range is shorter than the one around it, so its length
bounds the nesting. -/
def statement : ReduceM Expr := do
  modifyBody fun body =>
    { body with effort := { body.effort with statements := body.effort.statements + 1 } }
  let size := (← getLedger).size
  let expr := (← reduce (size + 2) 1 0 size).getD .absent
  modify fun state =>
    let effort := state.body.effort
    { state with
      body :=
        { state.body with
          effort :=
            { effort with
              totalDepth := effort.totalDepth + state.deepest
              maxDepth := max effort.maxDepth state.deepest } } }
  return expr

end Reduction

/-- Steps that read a body: they may fail, and what they did to the body stays done. -/
abbrev ReadM := EStateM Failure Body

namespace Body

/-- Reduce the text of a clause in the scope of a paragraph.  Blank text gives an absent tree. -/
def readExpression (scope : ParagraphId) (text : List Char) : ReadM Placed := fun body =>
  match Reduction.statement { ledger := Ledger.scan text, scope, body } with
  | .ok expr state => .ok ⟨expr, state.body.sightFrom scope⟩ state.body
  | .error failure state => .error failure state.body

/-! ## Declarations of several variables -/

/-- What the later items of a declaration share with its first variable. -/
structure SharedDeclaration where
  typeName : String
  isFinal : Bool
  isStatic : Bool
  scope : Option ParagraphId

/-- Turn a name into the declaration of a further variable. -/
def continueName (shared : SharedDeclaration) : Expr → ReadM Expr
  | .leaf node .identifier => do
      let body ← get
      let id := body.vars.size
      let entry := Variable.ofType body.extraContainers (Text.trimmed node.text) shared.typeName
        shared.isFinal shared.isStatic .body shared.scope
      modify fun body => body.declare entry
      return .declaration node id true
  | other => return other

/-- Turn the item of a comma list, or the target of its assignment, into a declaration. -/
def continueItem (shared : SharedDeclaration) : Expr → ReadM Expr
  | .assignment node op target value => do
      return .assignment node op (← continueName shared target) value
  | other => continueName shared other

/-- Turn the items of a comma list into declarations; the first item is left alone while
`isFirst`. Gives the list and whether the first item is still to come. -/
def continueItems (shared : SharedDeclaration) : Bool → Expr → ReadM (Expr × Bool)
  | isFirst, .absent => return (.absent, isFirst)
  | isFirst, .operation node .comma left right => do
      let (left, isFirst) ← continueItems shared isFirst left
      let (right, isFirst) ← continueItems shared isFirst right
      return (.operation node .comma left right, isFirst)
  | true, item => return (item, false)
  | false, item => return (← continueItem shared item, false)

/-- In `int a = 1, b, c = 2` the names behind the first are declarations of the same type, without
its dimensions. -/
def continueDeclaration (root : Expr) : ReadM Expr := do
  match root.commaItems.head?.bind Expr.declaredVariable? with
  | none => return root
  | some lead =>
      match (← get).vars[lead]? with
      | none => return root
      | some entry =>
          let shared : SharedDeclaration :=
            { typeName := String.ofList (TypeName.element entry.typeName.toList)
              isFinal := entry.isFinal
              isStatic := entry.isStatic
              scope := entry.scope }
          return (← continueItems shared true root).1

/-- Reduce the text of a statement in the scope of a paragraph. -/
def readStatement (scope : ParagraphId) (text : List Char) : ReadM Placed := do
  let placed ← readExpression scope text
  let expr ← continueDeclaration placed.expr
  return ⟨expr, (← get).sightFrom scope⟩

end Body
end MethodLowering
