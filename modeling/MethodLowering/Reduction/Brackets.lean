import MethodLowering.Reduction.Basic

/-!
# Folding brackets

Round brackets are a call, a cast or a group; square brackets index or construct an array; curly
brackets are an initializer.
-/

namespace MethodLowering
namespace Reduction

/-- The items of a bracket's content. -/
def items (inner : Option Expr) : List Expr :=
  match inner with
  | some expr => expr.commaItems
  | none => []

/-- Position at which the count of open `opening` brackets falls back to zero. -/
def closingHead? (opening closing : Op) : Nat → List (Nat × Op) → Option Nat
  | _, [] => none
  | depth, (position, op) :: rest =>
      if op == opening then closingHead? opening closing (depth + 1) rest
      else if op == closing then
        if depth ≤ 1 then some position else closingHead? opening closing (depth - 1) rest
      else closingHead? opening closing depth rest

/-- The position behind the bracket that closes the one at `position`. -/
def behindBracket? (ledger : Ledger) (position : Nat) (range : Span) : Option Nat :=
  match ledger.headAt? position with
  | some op =>
      if op == .openParen || op == .openBracket then
        op.closing?.bind fun closing =>
          (closingHead? op closing 0 (ledger.heads position range.stop)).map (· + 1)
      else none
  | none => none

/-- End of the operand of a cast, read on from `position`: a name followed by any chain of accesses,
calls and indices.  At most `count` links are followed. -/
def castStopFrom (ledger : Ledger) (start : Nat) (range : Span) : Nat → Nat → Nat
  | 0, position => greedyStop ledger position range
  | count + 1, position =>
      let stop := greedyStop ledger position range
      if range.stop ≤ stop || ledger.isBlank start stop then stop
      else if ledger.headAt? stop == some .dot then castStopFrom ledger start range count (stop + 1)
      else
        match behindBracket? ledger stop range with
        | some behind => castStopFrom ledger start range count behind
        | none => stop

/-- End of the operand of a cast that starts at `start`. -/
def castStop (ledger : Ledger) (start : Nat) (range : Span) : Nat :=
  castStopFrom ledger start range range.length start

/-- The character may stand in the type of a cast. -/
def isCastChar (c : Char) : Bool :=
  Text.isWordChar c || c == '.' || c == '<' || c == '>' || c == '[' || c == ']' || c == '?' ||
    c == ',' || c == ' '

/-- The name behind the last dot of a type, type arguments and dimensions aside. -/
def lastName (type : List Char) : List Char :=
  let base := (TypeName.element type).takeWhile (· != '<')
  Text.trim (base.reverse.takeWhile (· != '.')).reverse

/-- The type an expression in brackets names, where it reads as one. -/
def castType? (expr : Expr) : Option String :=
  let isName :=
    match expr with
    | .leaf _ .identifier | .access .. => true
    | _ => false
  let text := expr.trimmedChars
  let last := lastName text
  if isName && text.all isCastChar &&
      (TypeName.isPrimitive last || last.head?.any Text.isUpper) then
    some (String.ofList text)
  else none

/-- Fold round brackets: a call behind a callee, a cast in front of an operand when the content
reads as a type, and a group otherwise. -/
def paren (operands : Operands) (position close : Nat) (inner : Option Expr) (range : Span) :
    ReduceM Expr := do
  let ledger ← getLedger
  let span : Span := ⟨position, close + 1⟩
  let calleeStart := greedyStart ledger position range
  if !ledger.isBlank calleeStart position then
    match ← operands calleeStart position with
    | some callee => return .call (← newNodeAround span [callee]) callee (items inner)
    | none => rejectBracket .openParen position
  else
    let operandStop := castStop ledger (close + 1) range
    match if ledger.isBlank (close + 1) operandStop then none else inner.bind castType? with
    | some typeName =>
        match ← operands (close + 1) operandStop with
        | some operand => return .cast (← newNodeAround span [operand]) typeName operand
        | none => rejectBracket .openParen position
    | none => return .group (← newNode span) false (items inner)

/-- What an index takes from the pending expression behind it: further indices and an
initializer. -/
def absorbed? : Expr → Option (List Expr × Expr)
  | .index _ .absent indices initializer => some (indices, initializer)
  | .group node true items => some ([], .group node true items)
  | _ => none

/-- The pending expression that starts at the first solid character from `start` on. -/
def pendingFrom? (state : Reduction) (start : Nat) (range : Span) : Option (Nat × Subtree) :=
  match Text.seek? (fun position => !state.ledger.isSpace position) start (range.stop - start) with
  | none => none
  | some next =>
      match state.ledger.tag? next with
      | some (.pending id) =>
          match state.pending[id]?.join with
          | some subtree => if subtree.span.start == next then some (id, subtree) else none
          | none => none
      | _ => none

/-- Take in pending dimension lists and an initializer that directly follow, at most `count` of
them; gives the indices, the initializer and the end of the whole. -/
def absorb (range : Span) : Nat → List Expr → Nat → ReduceM (List Expr × Expr × Nat)
  | 0, indices, stop => return (indices, .absent, stop)
  | count + 1, indices, stop => do
      match pendingFrom? (← get) stop range with
      | none => return (indices, .absent, stop)
      | some (id, subtree) =>
          match absorbed? subtree.expr with
          | none => return (indices, .absent, stop)
          | some (further, initializer) =>
              modify fun state => { state with pending := state.pending.modify id fun _ => none }
              if initializer.isPresent then
                return (indices ++ further, initializer, subtree.span.stop)
              else absorb range count (indices ++ further) subtree.span.stop

/-- Fold square brackets: indexing, or construction of an array. -/
def index (operands : Operands) (position close : Nat) (inner : Option Expr) (range : Span) :
    ReduceM Expr := do
  let ledger ← getLedger
  let target := (← operands (greedyStart ledger position range) position).getD .absent
  let (indices, initializer, stop) ← absorb range range.length [inner.getD .absent] (close + 1)
  let start :=
    match target.node? with
    | some node => node.span.start
    | none => position
  return .index (← newNode ⟨start, stop⟩) target indices initializer

/-- Fold a pair of brackets.  The partner is the first bracket of its kind behind the opening one,
since inner pairs are folded before. -/
def bracket (operands : Operands) (op : Op) (position : Nat) (range : Span) : ReduceM Expr := do
  let ledger ← getLedger
  match op.closing? with
  | none => rejectBracket op position
  | some closing =>
      match Text.seek? (fun behind => ledger.headAt? behind == some closing) (position + 1)
          (range.stop - (position + 1)) with
      | none => rejectBracket op position
      | some close =>
          recordPair position close
          let inner ← operands (position + 1) close
          match op with
          | .openParen => paren operands position close inner range
          | .openBracket => index operands position close inner range
          | _ => return .group (← newNode ⟨position, close + 1⟩) true (items inner)

end Reduction
end MethodLowering
