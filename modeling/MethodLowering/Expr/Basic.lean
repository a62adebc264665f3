import MethodLowering.Operator
import MethodLowering.Span
import MethodLowering.Variable

/-!
# Expression trees

The tree of one statement.  Each node knows its number, the span it covers in the text of its
statement, and that text.  Where an operand may stand and none is written, the tree has `absent`.
The commas of an argument list are no part of the tree; the numbers they took stay unused.
-/

namespace MethodLowering

/-- Place of an expression in its statement. -/
structure Node where
  /-- Number of the node in its body, in order of creation. -/
  id : Nat
  /-- Positions covered in the text of the statement. -/
  span : Span
  /-- Source text at the span. -/
  text : String
deriving DecidableEq, Repr

/-- How a piece of text without operators reads. -/
inductive LeafForm where
  | identifier
  /-- Number, character, string or truth value. -/
  | literal
  /-- The null literal. -/
  | null
  /-- The receiver: `this` or `super`. -/
  | receiver
  /-- The callee of a construction, `new T`. -/
  | construction (typeName : String)
  /-- Text without structure, kept as it is. -/
  | verbatim
deriving DecidableEq, Repr

/-- An expression. -/
inductive Expr where
  /-- An operand that is not written. -/
  | absent
  /-- Text without operators. -/
  | leaf (node : Node) (form : LeafForm)
  /-- A declared variable; `continued` when it shares the type of the one before. -/
  | declaration (node : Node) (declared : VariableId) (continued : Bool)
  /-- An operator with its operands, either of which may be absent. -/
  | operation (node : Node) (op : Op) (left right : Expr)
  /-- Plain or compound assignment. -/
  | assignment (node : Node) (op : Op) (target value : Expr)
  /-- The test `operand instanceof T`. -/
  | typeTest (node : Node) (operand : Expr) (typeName : String)
  /-- Access to a member of a subject. -/
  | access (node : Node) (subject member : Expr)
  /-- Round brackets, or curly ones when `brace`. -/
  | group (node : Node) (brace : Bool) (items : List Expr)
  /-- A cast. -/
  | cast (node : Node) (typeName : String) (operand : Expr)
  /-- A call of a method or constructor. -/
  | call (node : Node) (callee : Expr) (arguments : List Expr)
  /-- Indexing, or construction of an array with an optional initializer.  An empty pair of
  brackets has an absent index. -/
  | index (node : Node) (target : Expr) (indices : List Expr) (initializer : Expr)
deriving Inhabited, Repr, BEq

namespace Expr

/-- Nothing is written. -/
def isAbsent : Expr → Bool
  | absent => true
  | _ => false

/-- Something is written. -/
def isPresent (expr : Expr) : Bool := !expr.isAbsent

/-- The node of a written expression. -/
def node? : Expr → Option Node
  | absent => none
  | leaf node _ | declaration node _ _ | operation node _ _ _ | assignment node _ _ _
  | typeTest node _ _ | access node _ _ | group node _ _ | cast node _ _ | call node _ _
  | index node _ _ _ => some node

/-- Source text; empty where nothing is written. -/
def text (expr : Expr) : String :=
  match expr.node? with
  | some node => node.text
  | none => ""

/-- Source text without blanks around it, as characters. -/
def trimmedChars (expr : Expr) : List Char := Text.trim expr.text.toList

/-- Source text without blanks around it. -/
def trimmedText (expr : Expr) : String := String.ofList expr.trimmedChars

/-- The expression is the word alone.  Only leaves and declarations can be: the text of every other
expression has its operator or bracket in it. -/
def isSpelled (word : String) : Expr → Bool
  | leaf node _ | declaration node _ _ => Text.trimmed node.text == word
  | _ => false

/-- The same expression with another span and text. -/
def relocate (expr : Expr) (span : Span) (text : String) : Expr :=
  let move (node : Node) : Node := { node with span, text }
  match expr with
  | absent => absent
  | leaf node form => leaf (move node) form
  | declaration node declared continued => declaration (move node) declared continued
  | operation node op left right => operation (move node) op left right
  | assignment node op target value => assignment (move node) op target value
  | typeTest node operand typeName => typeTest (move node) operand typeName
  | access node subject member => access (move node) subject member
  | group node brace items => group (move node) brace items
  | cast node typeName operand => cast (move node) typeName operand
  | call node callee arguments => call (move node) callee arguments
  | index node target indices initializer => index (move node) target indices initializer

/-- A name. -/
def isIdentifier : Expr → Bool
  | leaf _ .identifier => true
  | _ => false

/-- The null literal. -/
def isNull : Expr → Bool
  | leaf _ .null => true
  | _ => false

/-- The receiver. -/
def isReceiver : Expr → Bool
  | leaf _ .receiver => true
  | _ => false

/-- The type named by `new T`. -/
def constructedType? : Expr → Option String
  | leaf _ (.construction typeName) => some typeName
  | _ => none

/-- The callee of a construction. -/
def isConstruction (expr : Expr) : Bool := expr.constructedType?.isSome

/-- A call of a constructor. -/
def isConstructorCall : Expr → Bool
  | call _ callee _ => callee.isConstruction
  | _ => false

/-- The written parts of an expression, in source order. -/
def children : Expr → List Expr
  | absent | leaf .. | declaration .. => []
  | operation _ _ left right => [left, right].filter isPresent
  | assignment _ _ target value => [target, value].filter isPresent
  | typeTest _ operand _ => [operand].filter isPresent
  | access _ subject member => [subject, member].filter isPresent
  | group _ _ items => items.filter isPresent
  | cast _ _ operand => [operand].filter isPresent
  | call _ callee arguments => (callee :: arguments).filter isPresent
  | index _ target indices initializer => (target :: indices ++ [initializer]).filter isPresent

mutual

/-- The expression and all expressions inside it, each in front of its parts. -/
def preorder : Expr → List Expr
  | absent => []
  | leaf node form => [leaf node form]
  | declaration node declared continued => [declaration node declared continued]
  | operation node op left right =>
      operation node op left right :: (preorder left ++ preorder right)
  | assignment node op target value =>
      assignment node op target value :: (preorder target ++ preorder value)
  | typeTest node operand typeName => typeTest node operand typeName :: preorder operand
  | access node subject member =>
      access node subject member :: (preorder subject ++ preorder member)
  | group node brace items => group node brace items :: preorderAll items
  | cast node typeName operand => cast node typeName operand :: preorder operand
  | call node callee arguments =>
      call node callee arguments :: (preorder callee ++ preorderAll arguments)
  | index node target indices initializer =>
      index node target indices initializer ::
        (preorder target ++ preorderAll indices ++ preorder initializer)

/-- The expressions of a list, each with all expressions inside it. -/
def preorderAll : List Expr → List Expr
  | [] => []
  | expr :: rest => preorder expr ++ preorderAll rest

end

/-- The items of a comma list, absent ones left out. -/
def commaItems : Expr → List Expr
  | absent => []
  | operation _ .comma left right => commaItems left ++ commaItems right
  | other => [other]

/-- The variable an expression declares, directly or as the target of an assignment. -/
def declaredVariable? : Expr → Option VariableId
  | declaration _ declared _ => some declared
  | assignment _ _ (declaration _ declared _) _ => some declared
  | _ => none

end Expr
end MethodLowering
