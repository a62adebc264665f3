import MethodLowering.Json.Reader
import MethodLowering.Text.Blank

/-!
# Output options

Conventions of the code that is written: indentation, names of the helpers it calls, and switches.
Every option has a default.  The format in which the work on a body is logged is chosen by name.
-/

namespace MethodLowering

/-- Conventions of the written code. -/
structure Options where
  /-- Blanks for each level of indentation. -/
  indentWidth : Nat := 4
  /-- Spelling of the null literal. -/
  nullLiteral : String := "nullptr"
  /-- Helper that turns a primitive into text. -/
  toTextHelper : String := "String::valueOf"
  /-- Helper that tests the type behind a pointer. -/
  pointerTypeTest : String := "ptrIsType"
  /-- Helper that tests the type of an object. -/
  objectTypeTest : String := "objIsType"
  /-- Keyword of the block run when a scope is left. -/
  deferKeyword : String := "defer"
  /-- Mark fields of enclosing classes. -/
  markOuterFields : Bool := true
  /-- Pass smart handles to methods as plain pointers. -/
  smartHandleGet : Bool := true
  /-- Further container types. -/
  extraContainerTypes : List String := []
deriving DecidableEq, Repr

namespace Options

/-- One level of indentation. -/
def indentUnit (options : Options) : String :=
  String.ofList (List.replicate options.indentWidth ' ')

/-- Most blanks that one text can hold. -/
def largestWidth : Nat := 9223372036854775807

/-- A level of indentation fits into a text. -/
def isWritable (options : Options) : Bool := options.indentWidth ≤ largestWidth

/-- A switch written as a Boolean or as a word. -/
def switch? : Json → Option Bool
  | .bool value => some value
  | .string (some word) =>
      match (Text.trim word.toList).map Char.toLower |> String.ofList with
      | "true" | "1" | "yes" | "on" => some true
      | "false" | "0" | "no" | "off" => some false
      | _ => none
  | _ => none

/-- The options a document describes. -/
def ofJson? (document : Json) : Option Options := do
  let fields ← document.fields?
    ["indentWidth", "nullLiteral", "toTextHelper", "pointerTypeTest", "objectTypeTest",
      "deferKeyword", "markOuterFields", "smartHandleGet", "extraContainerTypes"]
  match fields with
  | [indentWidth, nullLiteral, toTextHelper, pointerTypeTest, objectTypeTest, deferKeyword,
      markOuterFields, smartHandleGet, extraContainerTypes] =>
      let defaults : Options := {}
      return {
        indentWidth := ← Json.optional Json.asCount? defaults.indentWidth indentWidth
        nullLiteral := ← Json.optional Json.asText? defaults.nullLiteral nullLiteral
        toTextHelper := ← Json.optional Json.asText? defaults.toTextHelper toTextHelper
        pointerTypeTest := ← Json.optional Json.asText? defaults.pointerTypeTest pointerTypeTest
        objectTypeTest := ← Json.optional Json.asText? defaults.objectTypeTest objectTypeTest
        deferKeyword := ← Json.optional Json.asText? defaults.deferKeyword deferKeyword
        markOuterFields := ← Json.optional switch? defaults.markOuterFields markOuterFields
        smartHandleGet := ← Json.optional switch? defaults.smartHandleGet smartHandleGet
        extraContainerTypes :=
          ← Json.optional (Json.list? Json.asText?) defaults.extraContainerTypes
            extraContainerTypes }
  | _ => none

/-- The options a JSON text describes. -/
def ofText? (text : String) : Option Options := (Json.ofText? text).bind ofJson?

/-- The document of options, with every field written. -/
def toJson (options : Options) : Json :=
  .record [("indentWidth", .nat options.indentWidth), ("nullLiteral", .text options.nullLiteral),
    ("toTextHelper", .text options.toTextHelper),
    ("pointerTypeTest", .text options.pointerTypeTest),
    ("objectTypeTest", .text options.objectTypeTest),
    ("deferKeyword", .text options.deferKeyword),
    ("markOuterFields", .bool options.markOuterFields),
    ("smartHandleGet", .bool options.smartHandleGet),
    ("extraContainerTypes", .array (options.extraContainerTypes.map .text))]

end Options

/-! ## Log formats -/

/-- A format of log lines. -/
inductive LogFormat where
  | text
  | tree
  | json
deriving DecidableEq, Repr

namespace LogFormat

/-- The format of a name, blanks around it and case aside; unknown names mean plain text. -/
def ofName (name : String) : LogFormat :=
  match String.ofList ((Text.trim name.toList).map Char.toLower) with
  | "tree" => .tree
  | "json" => .json
  | _ => .text

/-- Name of the format. -/
def name : LogFormat → String
  | text => "Text"
  | tree => "Tree"
  | json => "Json"

end LogFormat

end MethodLowering
