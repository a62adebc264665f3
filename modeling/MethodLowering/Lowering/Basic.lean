import MethodLowering.Body.Category
import MethodLowering.Lowering.Directive
import MethodLowering.Lowering.TypeReport

/-!
# Lowering

Lowering walks a finished body in source order and gives each expression the directives for its
target form.  It reports the types it meets on the way and never changes the body.
-/

namespace MethodLowering

/-- What lowering has decided so far. -/
structure Lowering where
  directives : Directives := {}
  /-- Types met. -/
  types : TypeReport := {}
  /-- Number of temporaries named. -/
  temporaries : Nat := 0
  /-- Numbers of the expressions entered, the latest first. -/
  entered : List Nat := []

/-- Lowering steps: a question without answer ends them. -/
abbrev LowerM := StateT Lowering (Except Fault)

/-- How an expression stands in the one around it. -/
inductive Standing where
  /-- On its own. -/
  | free
  /-- As the member of an access; `ofContainer` when it is called on a container. -/
  | member (ofContainer : Bool)
  /-- As the name inside such a member. -/
  | memberName
  /-- As a fresh array that the assignment around it writes. -/
  | assignedArray
deriving DecidableEq, Repr

namespace Lowering

/-- Give an expression a directive. -/
def direct (expr : Expr) (directive : Directive) : LowerM Unit :=
  match expr.node? with
  | some node =>
      modify fun state => { state with directives := state.directives.insert node.id directive }
  | none => return ()

/-- Note that an expression is entered. -/
def enter (expr : Expr) : LowerM Unit :=
  match expr.node? with
  | some node => modify fun state => { state with entered := node.id :: state.entered }
  | none => return ()

/-- Report the types a type name mentions. -/
def reportType (body : Body) (typeName : String) : LowerM Unit :=
  let names := body.mentionedTypes typeName.toList
  modify fun state => { state with types := names.foldl TypeReport.add state.types }

/-- The category of an expression. -/
def categoryOf (body : Body) (sight : Sight) (expr : Expr) : LowerM Category :=
  liftM (body.category sight expr)

/-! ## Single expressions -/

/-- Turn the primitive one of two values into text when the other is text. -/
def joinText (body : Body) (sight : Sight) (left right : Expr) : LowerM Unit := do
  let leftCategory ← categoryOf body sight left
  let rightCategory ← categoryOf body sight right
  if leftCategory == .text && rightCategory == .primitive then direct right .toText
  else if leftCategory == .primitive && rightCategory == .text then direct left .toText

/-- The side of a comparison that is compared with null.  A comparison without the operands needed
to tell has no answer. -/
def comparedWithNull (op : Op) (left right : Expr) : Except Fault (Option Expr) :=
  if right.isAbsent then .error (.missingOperand op)
  else if right.isNull then .ok (some left)
  else if left.isAbsent then .error (.missingOperand op)
  else if left.isNull then .ok (some right)
  else .ok none

/-- An operator with its operands. -/
def lowerOperation (body : Body) (sight : Sight) (expr : Expr) (op : Op) (left right : Expr) :
    LowerM Unit := do
  match op with
  | .plus => if left.isPresent then joinText body sight left right
  | .equal | .notEqual =>
      match ← (liftM (comparedWithNull op left right) : LowerM (Option Expr)) with
      | none => return ()
      | some subject =>
          let category ← categoryOf body sight subject
          if category == .container || category == .array then
            direct expr (.emptinessTest subject (op == .notEqual))
  | .shiftRightZero => direct expr .unsupported
  | .question =>
      match right with
      | .operation _ .colon first second => joinText body sight first second
      | _ => return ()
  | _ => return ()

/-- A name: mark it when it is a field of an outer class. -/
def lowerName (body : Body) (sight : Sight) (standing : Standing) (expr : Expr) : LowerM Unit :=
  if body.options.markOuterFields && (standing == .free || standing == .assignedArray) &&
      (body.lookupAt sight expr.trimmedText).any Variable.isOuterField then
    direct expr .outerField
  else return ()

/-- Form of an access by the category of its subject.  A capitalised name that stands for no value
is a type, and is reported. -/
def accessMark (body : Body) (subject : Expr) : Category → LowerM AccessMark
  | .thisReference | .rawPointer | .ownedValue => return .arrow
  | .none => do
      if subject.isIdentifier && subject.trimmedChars.head?.any Text.isUpper then
        reportType body subject.trimmedText
        return .scope
      else return .arrow
  | _ => return .dot

/-- An access to a member; gives how the member stands.  The receiver of an outer class has no
target form. -/
def lowerAccess (body : Body) (sight : Sight) (expr subject member : Expr) : LowerM Standing := do
  if member.isReceiver then
    direct expr .unsupported
    return .member false
  else
    let category ← categoryOf body sight subject
    direct expr (.memberAccess (← accessMark body subject category))
    let isCall :=
      match member with
      | .call .. => true
      | _ => false
    return .member (category == .container && isCall)

/-- Arguments of a call: smart handles are passed as plain pointers, except to containers. -/
def lowerArguments (body : Body) (sight : Sight) : List Expr → LowerM Unit
  | [] => return ()
  | argument :: rest => do
      if argument.isIdentifier then
        if (← categoryOf body sight argument) == .ownedValue then direct argument .smartHandleGet
      lowerArguments body sight rest

/-- A piece of text without operators. -/
def lowerLeaf (body : Body) (sight : Sight) (standing : Standing) (expr : Expr) :
    LeafForm → LowerM Unit
  | .null => direct expr .nullLiteral
  | .verbatim => direct expr .unsupported
  | .construction typeName => reportType body typeName
  | .identifier => lowerName body sight standing expr
  | .literal | .receiver => return ()

/-- A declaration: its type is reported. -/
def lowerDeclaration (body : Body) (declared : VariableId) : LowerM Unit :=
  match body.vars[declared]? with
  | some entry => reportType body entry.typeName
  | none => return ()

/-- A compound assignment: a primitive added to text is turned into text, and a shift that fills
with zeros has no target form. -/
def lowerCompound (body : Body) (sight : Sight) (expr : Expr) (op : Op) (target value : Expr) :
    LowerM Unit := do
  if op == .shiftRightZeroAssign then direct expr .unsupported
  else if op == .addAssign then
    if (← categoryOf body sight target) == .text then
      if (← categoryOf body sight value) == .primitive then direct value .toText

/-- A test of a type: through the helper for pointers or for objects. -/
def lowerTypeTest (body : Body) (sight : Sight) (expr operand : Expr) (typeName : String) :
    LowerM Unit := do
  reportType body typeName
  direct expr (.typeTest (← categoryOf body sight operand).isRawPointer)

/-- A fresh array that no assignment writes is constructed in place. -/
def lowerIndex (body : Body) (sight : Sight) (standing : Standing) (expr target : Expr) :
    LowerM Unit := do
  if target.isConstruction && standing != .assignedArray then
    match ← (liftM (body.declaredType sight expr) : LowerM (Option String)) with
    | some arrayType => direct expr (.arrayValue arrayType)
    | none => direct expr .unsupported

/-- The directive says that an assignment writes the fresh array on its right. -/
def writesArray : Directive → Bool
  | .arrayConstructor .. | .arrayTemporary .. => true
  | _ => false

/-- How the name at the head of a call or index stands. -/
def headStanding : Standing → Standing
  | .member _ => .memberName
  | _ => .free

/-- Give an expression its directives; gives the parts to go on with and how they stand. -/
def lowerExpr (body : Body) (sight : Sight) (standing : Standing) (expr : Expr) :
    LowerM (List (Standing × Expr)) := do
  match expr with
  | .absent => return []
  | .leaf _ form =>
      lowerLeaf body sight standing expr form
      return []
  | .declaration _ declared _ =>
      lowerDeclaration body declared
      return []
  | .operation _ op left right =>
      lowerOperation body sight expr op left right
      return [(.free, left), (.free, right)]
  | .assignment node op target value =>
      lowerCompound body sight expr op target value
      let written := ((← get).directives.get node.id).any writesArray
      return [(.free, target), (if written then .assignedArray else .free, value)]
  | .typeTest _ operand typeName =>
      lowerTypeTest body sight expr operand typeName
      return [(.free, operand)]
  | .access _ subject member =>
      let memberStanding ← lowerAccess body sight expr subject member
      return [(.free, subject), (memberStanding, member)]
  | .group _ _ items => return items.map fun item => (.free, item)
  | .cast _ typeName operand =>
      reportType body typeName
      return [(.free, operand)]
  | .call _ callee arguments =>
      if body.options.smartHandleGet && standing != .member true then
        lowerArguments body sight arguments
      return (headStanding standing, callee) :: arguments.map fun argument => (.free, argument)
  | .index _ target indices initializer =>
      lowerIndex body sight standing expr target
      return (headStanding standing, target) ::
        (indices ++ [initializer]).map fun part => (.free, part)

/-- Lower an expression and its parts; at most `depth` levels are entered. -/
def visit (body : Body) (sight : Sight) : Nat → Standing × Expr → LowerM Unit
  | 0, _ => return ()
  | depth + 1, (standing, expr) =>
      if expr.isAbsent then return ()
      else do
        enter expr
        let parts ← lowerExpr body sight standing expr
        parts.forM (visit body sight depth)

/-- Lower a clause. -/
def visitPlaced (body : Body) (placed : Placed) : LowerM Unit :=
  visit body placed.sight Limits.renderDepth (.free, placed.expr)

end Lowering
end MethodLowering
