import MethodLowering.Expr.Basic
import MethodLowering.Keyword

/-!
# Paragraphs and constructs

The control flow of a method body.  A paragraph is a list of statements that share a scope; a
construct is a keyword with its header and bodies.  Both are numbered in order of creation and refer
to each other by number.
-/

namespace MethodLowering

/-- What an expression sees: the names of a paragraph and those around it, as far as they were
declared by the end of its statement. -/
structure Sight where
  /-- Paragraph in whose scope names are looked up. -/
  scope : ParagraphId
  /-- Number of variables declared so far; later ones are out of sight. -/
  visible : Nat
deriving DecidableEq, Repr

/-- The tree of a statement or clause with what it sees.  The tree is absent where nothing is
written. -/
structure Placed where
  expr : Expr
  sight : Sight
deriving Repr

/-- What a paragraph is. -/
inductive ParagraphKind where
  /-- The method body. -/
  | root
  /-- A block of its own. -/
  | block
  /-- Body of a construct. -/
  | body
  /-- Body of a switch. -/
  | switchBody
deriving DecidableEq, Repr

/-- A statement of a paragraph. -/
inductive Item where
  /-- Nothing but a terminator. -/
  | empty
  /-- An expression statement. -/
  | expression (root : Placed)
  /-- A block of its own. -/
  | block (id : ParagraphId)
  /-- A construct. -/
  | construct (id : ConstructId)
deriving Repr

/-- A list of statements with a scope. -/
structure Paragraph where
  kind : ParagraphKind
  /-- Paragraph around this one. -/
  parent : Option ParagraphId
  items : Array Item := #[]
  /-- Variables declared directly in the paragraph, in order. -/
  vars : Array VariableId := #[]
  /-- Label of a block. -/
  label : Option String := none
  /-- Written with curly brackets. -/
  braced : Bool := false
deriving Repr

/-- A branch of a conditional; the condition of a final `else` is absent. -/
structure Branch where
  condition : Placed
  body : ParagraphId
deriving Repr

/-- A handler of a `try`; alternatives of one handler share the body. -/
structure Handler where
  declaration : Placed
  body : ParagraphId
deriving Repr

/-- Header and bodies of a construct. -/
inductive Detail where
  /-- `if` with its branches. -/
  | conditional (branches : List Branch)
  /-- `for` with three clauses. -/
  | counted (init condition update : Placed) (body : ParagraphId)
  /-- `for` over a collection; `byElement` when it declares a variable for the elements of a
  container. -/
  | iterator (header : Placed) (byElement : Bool) (body : ParagraphId)
  | whileLoop (condition : Placed) (body : ParagraphId)
  | doLoop (body : ParagraphId) (condition : Placed)
  | switch (subject : Placed) (body : ParagraphId)
  | tryBlock (body : ParagraphId) (handlers : List Handler) (cleanup : Option ParagraphId)
  | synchronized (lock : Placed) (body : ParagraphId)
  /-- `return`, `throw`, `break` or `continue`. -/
  | jump (value : Placed) (label : Option String)
  | caseLabel (value : Placed)
  | defaultLabel
  /-- The header is not read yet. -/
  | unread
deriving Repr

/-- A keyword with its header and bodies. -/
structure Construct where
  keyword : Keyword
  /-- Label in front of the construct. -/
  label : Option String
  /-- Paragraph the construct stands in. -/
  scope : ParagraphId
  detail : Detail := .unread
deriving Repr

namespace Placed

/-- Nothing is written. -/
def isAbsent (placed : Placed) : Bool := placed.expr.isAbsent

end Placed

namespace Detail

/-- The clauses of a construct in order, the absent ones included. -/
def clauses : Detail → List Placed
  | conditional branches => branches.map (·.condition)
  | counted init condition update _ => [init, condition, update]
  | iterator header _ _ => [header]
  | whileLoop condition _ => [condition]
  | doLoop _ condition => [condition]
  | switch subject _ => [subject]
  | tryBlock _ handlers _ => handlers.map (·.declaration)
  | synchronized lock _ => [lock]
  | jump value _ => [value]
  | caseLabel value => [value]
  | defaultLabel | unread => []

end Detail
end MethodLowering
