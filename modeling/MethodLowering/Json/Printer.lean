import MethodLowering.Json.Basic

/-!
# Writing JSON

A compact form on one line, and an indented form with two blanks for each level.  Characters outside
ASCII are written as themselves.
-/

namespace MethodLowering
namespace Json

/-- Lower-case hexadecimal digit. -/
def hexDigit (value : Nat) : Char := Nat.digitChar value

/-- Written form of one character of a string. -/
def escaped (c : Char) : List Char :=
  if c == '"' then ['\\', '"']
  else if c == '\\' then ['\\', '\\']
  else if c == '\x08' then ['\\', 'b']
  else if c == '\x0c' then ['\\', 'f']
  else if c == '\n' then ['\\', 'n']
  else if c == '\r' then ['\\', 'r']
  else if c == '\t' then ['\\', 't']
  else if c.toNat < 0x20 then
    ['\\', 'u', '0', '0', hexDigit (c.toNat / 16), hexDigit (c.toNat % 16)]
  else [c]

/-- A string literal.  Half a surrogate pair has no written form and gives the empty string. -/
def quoted (value : Option String) : String :=
  "\"" ++ String.ofList ((value.getD "").toList.flatMap escaped) ++ "\""

mutual

/-- The document on one line. -/
def compact : Json → String
  | .null => "null"
  | .bool true => "true"
  | .bool false => "false"
  | .number lexeme => lexeme
  | .string value => quoted value
  | .array items => "[" ++ String.intercalate "," (compactItems items) ++ "]"
  | .object members => "\x7b" ++ String.intercalate "," (compactMembers members) ++ "\x7d"

/-- The items of an array, each on one line. -/
def compactItems : List Json → List String
  | [] => []
  | item :: rest => compact item :: compactItems rest

/-- The members of an object, each on one line. -/
def compactMembers : List (Option String × Json) → List String
  | [] => []
  | (key, value) :: rest => (quoted key ++ ":" ++ compact value) :: compactMembers rest

end

/-- Start of a line at a nesting level. -/
def lineStart (level : Nat) : String :=
  "\n" ++ String.ofList (List.replicate (2 * level) ' ')

/-- A bracketed list with one part for each line. -/
def bracketed (opening closing : String) (level : Nat) (parts : List String) : String :=
  if parts.isEmpty then opening ++ closing
  else
    opening ++ lineStart (level + 1) ++ String.intercalate ("," ++ lineStart (level + 1)) parts ++
      lineStart level ++ closing

mutual

/-- The document in indented form, at a nesting level. -/
def indented (level : Nat) : Json → String
  | .null => "null"
  | .bool true => "true"
  | .bool false => "false"
  | .number lexeme => lexeme
  | .string value => quoted value
  | .array items => bracketed "[" "]" level (indentedItems level items)
  | .object members => bracketed "\x7b" "\x7d" level (indentedMembers level members)

/-- The items of an array in indented form. -/
def indentedItems (level : Nat) : List Json → List String
  | [] => []
  | item :: rest => indented (level + 1) item :: indentedItems level rest

/-- The members of an object in indented form. -/
def indentedMembers (level : Nat) : List (Option String × Json) → List String
  | [] => []
  | (key, value) :: rest =>
      (quoted key ++ ": " ++ indented (level + 1) value) :: indentedMembers level rest

end

/-- The document in indented form. -/
def pretty (document : Json) : String := indented 0 document

end Json
end MethodLowering
