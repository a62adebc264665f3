import MethodLowering.Reduction.Basic
import MethodLowering.Text.Words

/-!
# Folding operators

Each function folds the operator at a position with its operands inside the range.  Operands are
reduced by the function `operands`.
-/

namespace MethodLowering
namespace Reduction

/-- A binary operator takes everything on both sides; either side may be blank. -/
def binary (operands : Operands) (op : Op) (position : Nat) (range : Span) : ReduceM Expr := do
  let span := opSpan op position
  let left := (← operands range.start position).getD .absent
  let right := (← operands span.stop range.stop).getD .absent
  return .operation (← newNodeAround span [left, right]) op left right

/-- An assignment takes everything on both sides; only the value may be blank. -/
def assignment (operands : Operands) (op : Op) (position : Nat) (range : Span) : ReduceM Expr := do
  let span := opSpan op position
  let target ← required (← operands range.start position) op "without an assignment target"
  let value := (← operands span.stop range.stop).getD .absent
  return .assignment (← newNodeAround span [target, value]) op target value

/-- The first colon that is not taken by a nested conditional. -/
def pairedColon? : Nat → List (Nat × Op) → Option Nat
  | _, [] => none
  | depth, (position, op) :: rest =>
      match op with
      | .question => pairedColon? (depth + 1) rest
      | .colon => if depth == 0 then some position else pairedColon? (depth - 1) rest
      | _ => pairedColon? depth rest

/-- A conditional: `c ? a : b` becomes the operator `?` over the condition and over the operator `:`
of both branches. -/
def conditional (operands : Operands) (position : Nat) (range : Span) : ReduceM Expr := do
  let ledger ← getLedger
  match pairedColon? 0 (ledger.heads (position + 1) range.stop) with
  | none => reject (.missingClause "?" "`:` branch")
  | some colon =>
      let condition := (← operands range.start position).getD .absent
      let first := (← operands (position + 1) colon).getD .absent
      let second := (← operands (colon + 1) range.stop).getD .absent
      let branches :=
        Expr.operation (← newNodeAround ⟨colon, colon + 1⟩ [first, second]) .colon first second
      return .operation (← newNodeAround ⟨position, position + 1⟩ [condition, branches]) .question
        condition branches

/-- The name at the head of a member that a qualifier can join, with the way back to the member. -/
def memberName? : Expr → Option (Node × (Expr → Expr))
  | .leaf node .identifier => some (node, id)
  | .call node (.leaf name .identifier) arguments =>
      some (name, fun callee => .call node callee arguments)
  | .index node (.leaf name .identifier) indices initializer =>
      some (name, fun target => .index node target indices initializer)
  | _ => none

/-- A qualified construction, as in `new a.b.C(...)`: the member with the qualifier of its subject
drawn into the type name. -/
def qualifyConstruction? (subject member : Expr) : ReduceM (Option Expr) := do
  match subject.constructedType?, subject.node?, memberName? member, member.node? with
  | some qualifier, some subjectNode, some (name, rebuild), some memberNode =>
      let start := subjectNode.span.start
      let nameSpan : Span := ⟨start, name.span.stop⟩
      let nameText ← textAt nameSpan
      let typeName := qualifier ++ "." ++ Text.trimmed name.text
      let construction :=
        Expr.leaf { name with span := nameSpan, text := nameText } (.construction typeName)
      let span : Span := ⟨start, memberNode.span.stop⟩
      return some ((rebuild construction).relocate span (← textAt span))
  | _, _, _, _ => return none

/-- A declaration of a qualified type, as in `Map.Entry<K, V> e`: the declaration with the qualifier
drawn into the type of its variable. -/
def qualifyDeclaration? (subject member : Expr) : ReduceM (Option Expr) := do
  match subject.node?, member with
  | some subjectNode, .declaration node declared continued =>
      if Text.isQualifiedName subjectNode.text.toList then
        match (← get).body.vars[declared]? with
        | some entry =>
            modifyBody fun body => body.retype declared (subjectNode.text ++ "." ++ entry.typeName)
            let span := subjectNode.span.join node.span
            return some (.declaration { node with span, text := ← textAt span } declared continued)
        | none => return none
      else return none
  | _, _ => return none

/-- An access to a member takes the operator-free text on both sides. -/
def access (operands : Operands) (position : Nat) (range : Span) : ReduceM Expr := do
  let ledger ← getLedger
  let start := greedyStart ledger position range
  let stop := greedyStop ledger (position + 1) range
  let subject ← required (← operands start position) .dot "without a subject"
  let member ← required (← operands (position + 1) stop) .dot "without a member name"
  match ← qualifyConstruction? subject member with
  | some construction => return construction
  | none =>
      match ← qualifyDeclaration? subject member with
      | some declaration => return declaration
      | none =>
          return .access (← newNodeAround ⟨position, position + 1⟩ [subject, member]) subject member

/-- A type test takes the operator-free text on both sides; the right one is a type. -/
def typeTest (operands : Operands) (position : Nat) (range : Span) : ReduceM Expr := do
  let ledger ← getLedger
  let behind := (opSpan .instanceOf position).stop
  let start := greedyStart ledger position range
  let stop := greedyStop ledger behind range
  let operand ← required (← operands start position) .instanceOf "without an operand"
  let typeSpan := (← getLedger).trim behind stop
  if typeSpan.isEmpty then reject (.missingClause "instanceof" "type name")
  else
    let typeName ← textAt typeSpan
    markSpan typeSpan .resolved
    return .typeTest (← newNodeAround typeSpan [operand]) operand typeName

/-- Increment and decrement stand behind their operand when there is one on the left; every other
unary operator stands in front. -/
def unary (operands : Operands) (op : Op) (position : Nat) (range : Span) : ReduceM Expr := do
  let ledger ← getLedger
  let span := opSpan op position
  let start := greedyStart ledger position range
  if (op == .increment || op == .decrement) && !ledger.isBlank start position then
    let left ← required (← operands start position) op "without an operand"
    return .operation (← newNodeAround span [left]) op left .absent
  else
    let stop := greedyStop ledger span.stop range
    let right ← required (← operands span.stop stop) op "without an operand"
    return .operation (← newNodeAround span [right]) op .absent right

end Reduction
end MethodLowering
