import MethodLowering.Reduction.Basic
import MethodLowering.Text.Words

/-!
# Text without operators

A range in which no operator is left is a name, a literal, a construction, a declaration, or text
without structure.
-/

namespace MethodLowering
namespace Reduction

/-- Words that may stand in front of a declared type. -/
def modifiers : List String := ["final", "static", "volatile", "transient"]

/-- The word is a modifier. -/
def isModifier (word : List Char) : Bool := modifiers.contains (String.ofList word)

/-- The name of a declared variable: word characters, the first of them no digit. -/
def isVariableName (name : List Char) : Bool :=
  !name.isEmpty && !name.head?.any Text.isDigit && name.all Text.isWordChar

/-- What several words declare. -/
inductive Declared where
  /-- A variable. -/
  | variable (name typeName : String) (isFinal isStatic : Bool)
  /-- Nothing: the words in front of the last one are no type. -/
  | nothing
deriving DecidableEq, Repr

/-- Read words as modifiers, a type and a name with optional dimensions; `none` when a part is
missing or the name is none. -/
def declared? (words : List (List Char)) : Option Declared :=
  let front := words.takeWhile isModifier
  let rest := words.dropWhile isModifier
  match rest.reverse with
  | name :: type :: types =>
      let typeWords := (type :: types).reverse
      if Text.areTypeWords typeWords then
        let (bare, dimensions) := TypeName.strip name
        if isVariableName bare then
          some (.variable (String.ofList bare)
            (TypeName.addDimensions (String.intercalate " " (typeWords.map String.ofList))
              dimensions)
            (front.any fun word => String.ofList word == "final")
            (front.any fun word => String.ofList word == "static"))
        else none
      else some .nothing
  | _ => none

/-- How a text of one word, or a construction, reads; `none` for several other words. -/
def leafForm? (text : List Char) : Option LeafForm :=
  match String.ofList text with
  | "null" => some .null
  | "this" | "super" => some .receiver
  | _ =>
      if (TypeName.literalCategory? text).any (· != .thisReference) then some .literal
      else if (Text.words text).length ≤ 1 then some .identifier
      else if "new ".toList.isPrefixOf text then
        some (.construction (String.ofList (Text.trim (text.drop 4))))
      else none

/-- The expression of a text without operators. -/
def classify (span : Span) (text : List Char) : ReduceM Expr := do
  match leafForm? text with
  | some form => return .leaf (← newNode span) form
  | none =>
      match declared? (Text.words text) with
      | none => reject (.malformedDeclaration (String.ofList text))
      | some .nothing => return .leaf (← newNode span) .verbatim
      | some (.variable name typeName isFinal isStatic) =>
          let state ← get
          let id := state.body.vars.size
          let entry := Variable.ofType state.body.extraContainers name typeName isFinal isStatic
            .body (some state.scope)
          modifyBody fun body => body.declare entry
          return .declaration (← newNode span) id false

/-- The expression of a range without operators.  Next to a pending expression it has no
structure. -/
def leaf (range : Span) : ReduceM Expr := do
  let ledger ← getLedger
  let hasPending :=
    (Text.seek? (fun position => (ledger.tag? position).any Tag.isPending) range.start
      range.length).isSome
  if hasPending then return .leaf (← newNode range) .verbatim
  else classify range (ledger.slice range)

end Reduction
end MethodLowering
