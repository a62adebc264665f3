import Std.Data.TreeMap
import MethodLowering.Expr.Basic

/-!
# Directives

A directive says in which way an expression is written differently from its source.  Directives are
kept by the number of the expression's node, in the order in which they were given.
-/

namespace MethodLowering

/-- Target form of an access to a member. -/
inductive AccessMark where
  /-- Through a pointer. -/
  | arrow
  /-- Of a type or static scope. -/
  | scope
  /-- Of a value. -/
  | dot
deriving DecidableEq, Repr

namespace AccessMark

/-- Spelling in the target. -/
def text : AccessMark → String
  | arrow => "->"
  | scope => "::"
  | dot => "."

end AccessMark

/-- A deviation from the source form of an expression. -/
inductive Directive where
  /-- A primitive joined with text is turned into text. -/
  | toText
  /-- A comparison of a container or array with null becomes a test of its size. -/
  | emptinessTest (subject : Expr) (negated : Bool)
  /-- A declaration with an empty value: the declaration alone has the same effect. -/
  | initEmpty
  /-- An assignment of an empty value to a container or array, or to text. -/
  | clearValue (text : Bool)
  /-- A container filled from another one; not `checked` when the other may be none. -/
  | bulkCopy (source : Expr) (method : String) (declare checked : Bool)
  /-- Text constructed from arguments. -/
  | constructFrom (call : Expr) (declare : Bool)
  /-- A declared array with its dimensions or its initializer. -/
  | arrayConstructor (dimensions : List Expr) (initializer : Expr)
  /-- A fresh array assigned to an existing variable through a temporary. -/
  | arrayTemporary (name arrayType : String) (dimensions : List Expr)
  /-- A fresh array used in place. -/
  | arrayValue (arrayType : String)
  /-- A type test through a helper, the one for pointers when `pointer`. -/
  | typeTest (pointer : Bool)
  /-- Form of an access to a member. -/
  | memberAccess (mark : AccessMark)
  /-- A field of a class around the innermost one. -/
  | outerField
  /-- A smart handle passed as a plain pointer. -/
  | smartHandleGet
  /-- The null literal. -/
  | nullLiteral
  /-- A thrown object is thrown as a value. -/
  | throwByValue
  /-- No target form exists: the source stays and is marked. -/
  | unsupported
deriving Repr, BEq

/-- The directives of all nodes. -/
structure Directives where
  byNode : Std.TreeMap Nat (List Directive) := ∅

namespace Directives

/-- The directives of a node, in the order given. -/
def get (directives : Directives) (node : Nat) : List Directive :=
  (directives.byNode.get? node).getD []

/-- Give a node a directive; one that it already has is not repeated. -/
def insert (directives : Directives) (node : Nat) (directive : Directive) : Directives :=
  let given := directives.get node
  ⟨directives.byNode.insert node
    (if given.contains directive then given else given ++ [directive])⟩

/-- The node has some directive. -/
def has (directives : Directives) (node : Nat) : Bool := directives.byNode.contains node

/-- The node has this directive. -/
def contains (directives : Directives) (node : Nat) (directive : Directive) : Bool :=
  (directives.get node).contains directive

/-- Number of nodes with a directive. -/
def size (directives : Directives) : Nat := directives.byNode.size

/-- No node has a directive. -/
def isEmpty (directives : Directives) : Bool := directives.byNode.isEmpty

/-- All nodes with their directives, by number. -/
def toList (directives : Directives) : List (Nat × List Directive) := directives.byNode.toList

end Directives
end MethodLowering
