import MethodLowering.Text.Quote

/-!
# Brackets outside literals

Matching one bracket, splitting at a separator that stands outside every bracket, and the check
that all brackets and literals of a text are closed.
-/

namespace MethodLowering
namespace Text

/-- An opening round, square or curly bracket. -/
def isOpening (c : Char) : Bool := c == '(' || c == '[' || c == '{'

/-- A closing round, square or curly bracket. -/
def isClosing (c : Char) : Bool := c == ')' || c == ']' || c == '}'

/-- The bracket that closes `c`; angle brackets are included. -/
def closing? (c : Char) : Option Char :=
  if c == '(' then some ')'
  else if c == '[' then some ']'
  else if c == '{' then some '}'
  else if c == '<' then some '>'
  else none

/-- Position at which the count of open `opening` brackets falls to zero, counting only this kind
of bracket and skipping literals. -/
def closeFrom (opening closing : Char) : Quote → Nat → Nat → List Char → Option Nat
  | _, _, _, [] => none
  | quote, depth, position, c :: rest =>
      if quote.covers c then
        closeFrom opening closing (quote.next c) depth (position + 1) rest
      else if c == opening then
        closeFrom opening closing (quote.next c) (depth + 1) (position + 1) rest
      else if c == closing then
        if depth ≤ 1 then some position
        else closeFrom opening closing (quote.next c) (depth - 1) (position + 1) rest
      else
        closeFrom opening closing (quote.next c) depth (position + 1) rest

/-- Position of the bracket that closes the one the text starts with, reading from outside every
literal; `none` when the text starts with no opening bracket or the bracket stays open. -/
def matchingClose? (text : List Char) : Option Nat :=
  match text with
  | [] => none
  | c :: _ => (closing? c).bind fun closing => closeFrom c closing .outside 0 0 text

/-- Put `c` in front of the first part. -/
def consFirst (c : Char) : List (List Char) → List (List Char)
  | [] => [[c]]
  | part :: parts => (c :: part) :: parts

/-- The parts between separators at bracket depth zero, from a given place of the reading. -/
def splitFrom (separator : Char) : Quote → Nat → List Char → List (List Char)
  | _, _, [] => [[]]
  | quote, depth, c :: rest =>
      if quote.covers c then
        consFirst c (splitFrom separator (quote.next c) depth rest)
      else if isOpening c then
        consFirst c (splitFrom separator (quote.next c) (depth + 1) rest)
      else if isClosing c then
        consFirst c (splitFrom separator (quote.next c) (depth - 1) rest)
      else if c == separator && depth == 0 then
        [] :: splitFrom separator (quote.next c) depth rest
      else
        consFirst c (splitFrom separator (quote.next c) depth rest)

/-- Split at the separators that stand outside brackets and literals.  A closing bracket without
partner leaves the depth at zero. -/
def splitTop (separator : Char) (text : List Char) : List (List Char) :=
  splitFrom separator .outside 0 text

/-- All brackets and literals are closed when the reading ends, and none closes too early. -/
def closesAll : Quote → Nat → List Char → Bool
  | quote, depth, [] => depth == 0 && !quote.isInside
  | quote, depth, c :: rest =>
      if quote.covers c then closesAll (quote.next c) depth rest
      else if isOpening c then closesAll (quote.next c) (depth + 1) rest
      else if isClosing c then depth != 0 && closesAll (quote.next c) (depth - 1) rest
      else closesAll (quote.next c) depth rest

/-- Brackets, whatever their kind, and literals of the text are all closed. -/
def isBalanced (text : List Char) : Bool := closesAll .outside 0 text

end Text
end MethodLowering
