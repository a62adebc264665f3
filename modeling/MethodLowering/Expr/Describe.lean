import MethodLowering.Expr.Basic

/-!
# Descriptions of trees

A one-line form of a tree with operators in front of their operands, as in `+(a, *(b, c))`.
-/

namespace MethodLowering
namespace Expr

/-- An operator name with its parts in brackets. -/
def applied (name : String) (parts : List String) : String :=
  name ++ "(" ++ String.intercalate ", " parts ++ ")"

/-- Description of a leaf. -/
def describeLeaf (text : String) : LeafForm → String
  | .construction typeName => "new " ++ typeName
  | .verbatim => applied "verbatim" [Text.trimmed text]
  | _ => Text.trimmed text

mutual

/-- Description of a tree; `vars` are those its declarations refer to. -/
def describe (vars : Array Variable) : Expr → String
  | absent => "_"
  | leaf node form => describeLeaf node.text form
  | declaration _ declared _ =>
      match vars[declared]? with
      | some entry => applied "decl" [entry.typeName ++ " " ++ entry.name]
      | none => applied "decl" []
  | operation _ op left right =>
      if left.isAbsent then applied op.text [describe vars right]
      else if right.isAbsent && op.isUnary then applied ("post" ++ op.text) [describe vars left]
      else applied op.text [describe vars left, describe vars right]
  | assignment _ op target value =>
      applied op.text [describe vars target, describe vars value]
  | typeTest _ operand typeName => applied "instanceof" [describe vars operand, typeName]
  | access _ subject member => applied "." [describe vars subject, describe vars member]
  | group _ brace items => applied (if brace then "brace" else "paren") (describeAll vars items)
  | cast _ typeName operand => applied ("cast<" ++ typeName ++ ">") [describe vars operand]
  | call _ callee arguments =>
      applied "call" (describe vars callee :: describeAll vars arguments)
  | index _ target indices initializer =>
      applied "index" (describe vars target :: describeAll vars indices ++
        if initializer.isAbsent then [] else [describe vars initializer])

/-- Descriptions of the trees of a list. -/
def describeAll (vars : Array Variable) : List Expr → List String
  | [] => []
  | expr :: rest => describe vars expr :: describeAll vars rest

end

end Expr
end MethodLowering
