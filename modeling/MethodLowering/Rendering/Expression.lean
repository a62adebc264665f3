import MethodLowering.Body.Category
import MethodLowering.Limits
import MethodLowering.Lowering.Directive

/-!
# Rendering expressions

The target text of an expression: its directives come first, and its plain form otherwise.
-/

namespace MethodLowering

/-- A body with the directives for its expressions. -/
structure Rendering where
  body : Body
  directives : Directives

namespace Rendering

/-- The mark of text that has to be looked at by hand. -/
def reviewMark : String := "/* manual review */"

/-- Text behind the review mark. -/
def marked (text : String) : String := reviewMark ++ " " ++ text

/-- Parts separated by commas. -/
def commaSeparated (parts : List String) : String := String.intercalate ", " parts

/-- A callee with its arguments. -/
def applied (callee : String) (arguments : List String) : String :=
  callee ++ "(" ++ commaSeparated arguments ++ ")"

/-- The target form of a declared type. -/
def spellType (rendering : Rendering) (typeName : String) : String :=
  TypeName.spell rendering.body.extraContainers typeName.toList

/-- The target form of a type without smart handle. -/
def spellPlain (typeName : String) : String := TypeName.spellPlain typeName.toList

/-- Directives of an expression. -/
def directivesOf (rendering : Rendering) (expr : Expr) : List Directive :=
  match expr.node? with
  | some node => rendering.directives.get node.id
  | none => []

/-! ## Assignments -/

/-- An assignment in the form its directive asks for, given the text of its target and the rendering
of other expressions. -/
def assignmentText? (rendering : Rendering) (render : Expr → String) (target : Expr) :
    Directive → Option String
  | .initEmpty => some (render target)
  | .clearValue true => some (render target ++ " = \"\"")
  | .clearValue false => some (render target ++ ".clear()")
  | .bulkCopy source method declare checked =>
      let front :=
        if declare then
          (target.declaredVariable?.bind (rendering.body.vars[·]?)).map fun entry =>
            (render target, entry.name)
        else some (render target ++ ".clear()", render target)
      front.map fun (head, name) =>
        head ++ "; " ++ applied (name ++ "." ++ method) [render source] ++
          if checked then "" else " " ++ reviewMark
  | .constructFrom (.call _ callee arguments) declare =>
      if declare then some (applied (render target) (arguments.map render))
      else
        callee.constructedType?.map fun typeName =>
          render target ++ " = " ++ applied (spellPlain typeName) (arguments.map render)
  | .arrayConstructor dimensions initializer =>
      some
        (if initializer.isPresent then render target ++ " = " ++ render initializer
        else applied (render target) (dimensions.map render))
  | .arrayTemporary name _ _ => some (render target ++ " = " ++ name)
  | _ => none

/-! ## Replacing directives -/

/-- The text by which a directive replaces an expression, if it does. -/
def replacement? (rendering : Rendering) (render : Expr → String) (expr : Expr)
    (directive : Directive) : Option String :=
  let options := rendering.body.options
  match directive, expr with
  | .unsupported, _ => some (marked expr.trimmedText)
  | .nullLiteral, _ => some options.nullLiteral
  | .emptinessTest subject negated, _ =>
      some (render subject ++ ".size() " ++ if negated then "> 0" else "== 0")
  | .typeTest pointer, .typeTest _ operand typeName =>
      let helper := if pointer then options.pointerTypeTest else options.objectTypeTest
      some (applied (helper ++ "<" ++ spellPlain typeName ++ ">") [render operand])
  | .throwByValue, .call _ callee arguments =>
      callee.constructedType?.map fun typeName =>
        applied (spellPlain typeName) (arguments.map render)
  | .arrayValue arrayType, .index _ _ indices initializer =>
      let parts := if initializer.isPresent then [initializer] else indices.filter Expr.isPresent
      some (applied (rendering.spellType arrayType) (parts.map render))
  | directive, .assignment _ _ target _ => rendering.assignmentText? render target directive
  | _, _ => none

/-- What a directive puts around the text of an expression. -/
def wrap (rendering : Rendering) (text : String) : Directive → String
  | .outerField => "/* outer */ " ++ text
  | .smartHandleGet => text ++ ".get()"
  | .toText => applied rendering.body.options.toTextHelper [text]
  | _ => text

/-! ## Plain forms -/

/-- The form of an access given by its directives; a plain dot without one. -/
def accessMark (directives : List Directive) : AccessMark :=
  (directives.findSome? fun directive =>
    match directive with
    | .memberAccess mark => some mark
    | _ => none).getD .dot

/-- An operator between, in front of or behind its operands. -/
def operationText (render : Expr → String) (op : Op) (left right : Expr) : String :=
  if left.isAbsent then op.text ++ render right
  else if right.isAbsent then render left ++ op.text
  else if op == .comma then render left ++ ", " ++ render right
  else render left ++ " " ++ op.text ++ " " ++ render right

/-- A leaf. -/
def leafText (rendering : Rendering) (text : String) : LeafForm → String
  | .null => rendering.body.options.nullLiteral
  | .construction typeName => "new " ++ spellPlain typeName
  | .identifier | .literal | .receiver | .verbatim => Text.trimmed text

/-- A declaration; a continued one is the name alone. -/
def declarationText (rendering : Rendering) (declared : VariableId) (continued : Bool) : String :=
  match rendering.body.vars[declared]? with
  | some entry =>
      if continued then entry.name else rendering.spellType entry.typeName ++ " " ++ entry.name
  | none => ""

/-- A call; the construction of a type made from a class body also passes its captures. -/
def callText (rendering : Rendering) (render : Expr → String) (node : Node) (callee : Expr)
    (arguments : List Expr) : String :=
  match (rendering.body.liftedAt? node).bind (rendering.body.lifted[·]?) with
  | some lifted =>
      applied ("new " ++ lifted.name)
        (arguments.map render ++ lifted.captures.map fun capture => capture.name)
  | none => applied (render callee) (arguments.map render)

/-- An expression in its plain form, given the rendering of its parts. -/
def plain (rendering : Rendering) (render : Expr → String) (expr : Expr) : String :=
  match expr with
  | .absent => ""
  | .leaf node form => rendering.leafText node.text form
  | .declaration _ declared continued => rendering.declarationText declared continued
  | .operation _ op left right => operationText render op left right
  | .assignment _ op target value => render target ++ " " ++ op.text ++ " " ++ render value
  | .typeTest _ operand typeName => render operand ++ " instanceof " ++ typeName
  | .access _ subject member =>
      render subject ++ (accessMark (rendering.directivesOf expr)).text ++ render member
  | .group _ true items => "\x7b" ++ commaSeparated (items.map render) ++ "\x7d"
  | .group _ false items => "(" ++ commaSeparated (items.map render) ++ ")"
  | .cast _ typeName operand =>
      let target :=
        if TypeName.dimensions typeName.toList == 0 then spellPlain typeName
        else rendering.spellType typeName
      applied ("static_cast<" ++ target ++ ">") [render operand]
  | .call node callee arguments => rendering.callText render node callee arguments
  | .index _ target indices initializer =>
      render target ++ String.join (indices.map fun index => "[" ++ render index ++ "]") ++
        if initializer.isPresent then " " ++ render initializer else ""

/-- The target text of an expression; beyond `depth` levels the source text is kept. -/
def expressionFrom (rendering : Rendering) : Nat → Expr → String
  | 0, expr => expr.trimmedText
  | depth + 1, expr =>
      let directives := rendering.directivesOf expr
      let render := rendering.expressionFrom depth
      let text :=
        (directives.findSome? (rendering.replacement? render expr)).getD
          (rendering.plain render expr)
      directives.foldl rendering.wrap text

/-- The target text of an expression. -/
def expression (rendering : Rendering) (expr : Expr) : String :=
  rendering.expressionFrom Limits.renderDepth expr

end Rendering
end MethodLowering
