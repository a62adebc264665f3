import MethodLowering.Span
import MethodLowering.Text.Blank
import MethodLowering.Text.Letter
import MethodLowering.Text.Quote

/-!
# Words of a declaration

A piece of text without operators is split into words at blanks; blanks inside literals and type
arguments do not split, and type arguments or dimensions written apart belong to the word in front
of them.
-/

namespace MethodLowering
namespace Text

/-- Depth of angle brackets behind a character outside literals. -/
def angleDepth (depth : Nat) (c : Char) : Nat :=
  if c == '<' then depth + 1 else if c == '>' then depth - 1 else depth

/-- The spans between blanks that stand outside literals and angle brackets; `start` is where the
word being read began. -/
def wordSpansFrom : Quote → Nat → Option Nat → Nat → List Char → List Span
  | _, _, none, _, [] => []
  | _, _, some start, position, [] => [⟨start, position⟩]
  | quote, depth, start, position, c :: rest =>
      let quoted := quote.covers c
      let inner := if quoted then depth else angleDepth depth c
      if !quoted && inner == 0 && isBlank c then
        match start with
        | some start =>
            ⟨start, position⟩ :: wordSpansFrom (quote.next c) inner none (position + 1) rest
        | none => wordSpansFrom (quote.next c) inner none (position + 1) rest
      else
        wordSpansFrom (quote.next c) inner (some (start.getD position)) (position + 1) rest

/-- The word at a span continues the word in front of it. -/
def continuesWord (text : List Char) (span : Span) : Bool :=
  text[span.start]?.any fun c => c == '<' || c == '['

/-- Join each word that continues another with the one in front of it; `current` is the word to
which the next one may be joined. -/
def glueFrom (text : List Char) (current : Span) : List Span → List Span
  | [] => [current]
  | span :: rest =>
      if continuesWord text span then glueFrom text ⟨current.start, span.stop⟩ rest
      else current :: glueFrom text span rest

/-- The words of a text. -/
def words (text : List Char) : List (List Char) :=
  let spans :=
    match wordSpansFrom .outside 0 none 0 text with
    | [] => []
    | span :: rest => glueFrom text span rest
  spans.map fun span => span.slice text

/-- The character may stand in a declared type. -/
def isTypeChar (c : Char) : Bool :=
  isWordChar c || isBlank c || c == '.' || c == '<' || c == '>' || c == '[' || c == ']' ||
    c == '?' || c == ','

/-- The words read as a declared type: the first starts like a name, and all consist of type
characters. -/
def areTypeWords (words : List (List Char)) : Bool :=
  (words.head?.bind List.head?).any (fun c => isAlphabetic c || c == '_' || c == '$') &&
    words.all fun word => word.all isTypeChar

/-- The parts between dots. -/
def dotParts : List Char → List (List Char)
  | [] => [[]]
  | c :: rest =>
      if c == '.' then [] :: dotParts rest
      else
        match dotParts rest with
        | [] => [[c]]
        | part :: parts => (c :: part) :: parts

/-- Identifiers joined by dots, blanks around them allowed. -/
def isQualifiedName (text : List Char) : Bool :=
  !text.isEmpty &&
    (dotParts text).all fun part => !(trim part).isEmpty && (trim part).all isWordChar

end Text
end MethodLowering
