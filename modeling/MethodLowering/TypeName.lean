import MethodLowering.Category
import MethodLowering.Text.Blank
import MethodLowering.Text.Letter

/-!
# Declared type names

A declared type is text: a possibly qualified name with type arguments and array dimensions.  This
module takes such a text apart and classifies it; no other description of types exists.
-/

namespace MethodLowering
namespace TypeName

open Text

/-! ## Tables -/

/-- Names of the primitive types. -/
def primitives : List String :=
  ["byte", "char", "double", "float", "int", "short", "long", "boolean"]

/-- Names of the built-in container types. -/
def containers : List String :=
  ["ArrayList", "LinkedList", "List", "HashMap", "ArrayMap", "HashTable", "Hashtable", "Map",
    "HashSet", "Set", "Collection", "SparseArray", "Parcel", "StringBuffer", "StringBuilder"]

/-- Name of the text type. -/
def textType : String := "String"

/-- Names that never need a declaration of their own. -/
def ignored : List String := ["this", "super", "null", "void", "Void"]

/-! ## Taking a type apart -/

/-- The name in front of the type arguments. -/
def base (name : List Char) : List Char :=
  trimEnd ((trim name).takeWhile (· != '<'))

/-- The text between the first `<` and the last `>`, when they stand in this order. -/
def argumentText? (name : List Char) : Option (List Char) :=
  match (trim name).dropWhile (· != '<') with
  | [] => none
  | _ :: rest =>
      match rest.reverse.dropWhile (· != '>') with
      | [] => none
      | _ :: inner => some inner.reverse

/-- The parts between commas that stand outside angle brackets. -/
def splitArguments : Nat → List Char → List (List Char)
  | _, [] => [[]]
  | depth, c :: rest =>
      if c == ',' && depth == 0 then [] :: splitArguments depth rest
      else
        let inner := if c == '<' then depth + 1 else if c == '>' then depth - 1 else depth
        match splitArguments inner rest with
        | [] => [[c]]
        | part :: parts => (c :: part) :: parts

/-- The type arguments at depth one.  An empty last argument is dropped. -/
def arguments (name : List Char) : List (List Char) :=
  match argumentText? name with
  | none => []
  | some inner =>
      let parts := (splitArguments 0 inner).map trim
      match parts.getLast? with
      | some [] => parts.dropLast
      | _ => parts

/-- Strip `]` and `[`, in this order, from the front of a reversed type, with blanks between and
behind them, as often as possible; gives the rest and the number of pairs. -/
def stripPairs (reversed : List Char) : List Char × Nat :=
  match reversed with
  | [] => ([], 0)
  | c :: rest =>
      if c == ']' then
        match _tail : trimStart rest with
        | [] => (reversed, 0)
        | d :: inner =>
            if d == '[' then
              let (element, count) := stripPairs (trimStart inner)
              (element, count + 1)
            else (reversed, 0)
      else (reversed, 0)
termination_by reversed.length
decreasing_by
  have first := length_trimStart_le rest
  have second := length_trimStart_le inner
  rw [_tail] at first
  simp only [List.length_cons] at *
  omega

/-- The element type and the number of array dimensions; a trailing `...` counts as one. -/
def strip (name : List Char) : List Char × Nat :=
  let reversed := (trim name).reverse
  match reversed with
  | '.' :: '.' :: '.' :: rest =>
      let (element, count) := stripPairs (trimStart rest)
      (element.reverse, count + 1)
  | _ =>
      let (element, count) := stripPairs reversed
      (element.reverse, count)

/-- The element type. -/
def element (name : List Char) : List Char := (strip name).1

/-- The number of array dimensions. -/
def dimensions (name : List Char) : Nat := (strip name).2

/-- The type with `count` more array dimensions. -/
def addDimensions (name : String) : Nat → String
  | 0 => name
  | count + 1 => addDimensions (name ++ "[]") count

/-! ## Classification -/

/-- The name of a primitive type, blanks around it aside. -/
def isPrimitive (name : List Char) : Bool :=
  primitives.contains (String.ofList (trim name))

/-- A built-in container or one of the extra ones, whatever its type arguments. -/
def isContainer (extra : List String) (name : List Char) : Bool :=
  let base := String.ofList (base name)
  containers.contains base || extra.contains base

/-- The category of a variable of this type. -/
def classify (extra : List String) (name : List Char) : Category :=
  let (element, count) := strip name
  if count != 0 then .array
  else if isPrimitive element then .primitive
  else if String.ofList (base element) == textType then .text
  else if isContainer extra element then .container
  else .ownedValue

/-- The category of a result of this type, where nothing is known of `void` and of no type. -/
def classifyResult (extra : List String) (name : List Char) : Category :=
  let name := trim name
  if name.isEmpty || String.ofList name == "void" then .commonExpression
  else classify extra name

/-- Target name of a primitive type. -/
def targetPrimitive? (name : List Char) : Option String :=
  match String.ofList (trim name) with
  | "byte" => some "char"
  | "short" => some "short"
  | "char" => some "char"
  | "double" => some "double"
  | "float" => some "float"
  | "int" => some "int"
  | "long" => some "int64_t"
  | "boolean" => some "bool"
  | _ => none

/-- The text starts like a number behind its signs. -/
def startsNumber (token : List Char) : Bool :=
  (token.dropWhile fun c => c == '-' || c == '+').head?.any fun c => isDigit c || c == '.'

/-- The category of a token that needs no look-up. -/
def literalCategory? (token : List Char) : Option Category :=
  match trim token with
  | [] => none
  | first :: rest =>
      if first == '"' then some .text
      else if first == '\'' then some .primitive
      else if
          (isDigit first || ((first == '-' || first == '+' || first == '.') && !rest.isEmpty)) &&
            startsNumber (first :: rest) then
        some .primitive
      else
        match String.ofList (first :: rest) with
        | "true" | "false" => some .primitive
        | "this" | "super" => some .thisReference
        | _ => none

/-- A name that needs a declaration: not empty, no primitive, not text, not an ignored name, and
starting like a name. -/
def isReportable (name : List Char) : Bool :=
  let base := base (element name)
  let word := String.ofList base
  !base.isEmpty && !ignored.contains word && !isPrimitive base && word != textType &&
    base.head?.any fun c => isLetter c || c == '_'

/-! ## Target spelling -/

/-- The characters with each dot as a scope mark. -/
def scopeMarked : List Char → List Char
  | [] => []
  | c :: rest => if c == '.' then ':' :: ':' :: scopeMarked rest else c :: scopeMarked rest

/-- A qualified name in target form; type arguments stay as they are. -/
def qualified (name : List Char) : String :=
  let name := trim name
  String.ofList (scopeMarked (name.takeWhile (· != '<')) ++ name.dropWhile (· != '<'))

/-- An element type in target form: primitives by their target name, text and containers by name,
other objects as a smart handle. -/
def spellElement (extra : List String) (element : List Char) : String :=
  match targetPrimitive? element with
  | some primitive => primitive
  | none =>
      if String.ofList (base element) == textType || isContainer extra element then
        qualified element
      else "sp<" ++ qualified element ++ ">"

/-- Wrap a spelled type once for each array dimension. -/
def spellDimensions (spelled : String) : Nat → String
  | 0 => spelled
  | count + 1 => spellDimensions ("Array<" ++ spelled ++ ">") count

/-- A declared type in target form. -/
def spell (extra : List String) (name : List Char) : String :=
  let (element, count) := strip name
  spellDimensions (spellElement extra element) count

/-- A type in target form without smart handle, as in a cast or a construction. -/
def spellPlain (name : List Char) : String :=
  match targetPrimitive? name with
  | some primitive => primitive
  | none => qualified name

end TypeName
end MethodLowering
