import MethodLowering.Ledger.Basic
import MethodLowering.Text.Letter
import MethodLowering.Text.Quote

/-!
# Scanning statement text

The scanner finds the operators of a statement and tags their characters.  What a character means
depends on what surrounds it:

* inside a quoted literal nothing is an operator;
* `<` and `>` around type arguments are part of the type name, and so are the commas, wildcards and
  dots between them; a shift operator that closes two argument lists is split;
* `instanceof` is an operator between blanks only;
* a sign or point in front of a digit belongs to a number where no operand precedes;
* `[]` is part of a type name unless an array initializer follows.
-/

namespace MethodLowering

/-- State of a left-to-right scan. -/
structure Scanner where
  /-- Text and tags found so far. -/
  ledger : Ledger
  /-- Positions of `<` that may open type arguments, the latest first. -/
  angles : List Nat := []
  /-- Place with respect to literals. -/
  quote : Text.Quote := .outside
  /-- Next position to look at. -/
  position : Nat := 0

namespace Scanner

open Text

/-! ## Looking around -/

/-- The character at the position is `expected`. -/
def charIs (ledger : Ledger) (position : Nat) (expected : Char) : Bool :=
  ledger.char? position == some expected

/-- The character at the position is a blank of any kind, also inside a literal. -/
def blankAt (ledger : Ledger) (position : Nat) : Bool :=
  (ledger.char? position).any isBlank

/-- First position from `start` on whose character is no blank. -/
def nextSolid? (ledger : Ledger) (start : Nat) : Option Nat :=
  seek? (fun position => !blankAt ledger position) start (ledger.size - start)

/-- The text from `position` on starts with `word`. -/
def spells (ledger : Ledger) : Nat → List Char → Bool
  | _, [] => true
  | position, c :: rest => charIs ledger position c && spells ledger (position + 1) rest

/-- Blanks stand directly around the `width` characters from `position` on. -/
def isSpaced (ledger : Ledger) (position width : Nat) : Bool :=
  position != 0 && blankAt ledger (position - 1) && blankAt ledger (position + width)

/-- The first operator of the table that is spelled at the position. -/
def spelledOp? (ledger : Ledger) (position : Nat) : Option Op :=
  Op.all.find? fun op =>
    spells ledger position op.spelling &&
      (op != .instanceOf || isSpaced ledger position op.width)

/-- A number that ends in an exponent mark stands directly in front of the position. -/
def followsExponent (ledger : Ledger) (position : Nat) : Bool :=
  let start := seekDown
    (fun below => !(ledger.char? below).any fun c => isLetter c || isDigit c) position position
  start < position && (ledger.char? start).any isDigit &&
    (charIs ledger (position - 1) 'e' || charIs ledger (position - 1) 'E')

/-- No operand stands in front of a sign at the position. -/
def isSignPlace (ledger : Ledger) (position : Nat) : Bool :=
  let behind := seekDown (fun below => !ledger.isSpace below) position position
  behind == 0 ||
    match (ledger.tag? (behind - 1)).bind Tag.op? with
    | some op => !op.endsOperand
    | none => behind == position && followsExponent ledger position

/-- The operator character is the sign or point of a number. -/
def startsNumber (ledger : Ledger) (position : Nat) (op : Op) : Bool :=
  (ledger.char? (position + 1)).any isDigit &&
    match op with
    | .dot => true
    | .minus | .plus => isSignPlace ledger position
    | _ => false

/-- The word in front of the position reads as a type name. -/
def followsTypeName (ledger : Ledger) (position : Nat) : Bool :=
  let stop := seekDown (fun below => !blankAt ledger below) position position
  let start := seekDown (fun below => !(ledger.char? below).any isWordChar) stop stop
  start < stop && (ledger.char? start).any isUpper

/-- The tag may stand between angle brackets of type arguments. -/
def isTypeTag : Tag → Bool
  | .space | .unresolved => true
  | .operator op | .operatorTail op => op == .comma || op == .question || op == .dot
  | _ => false

/-- Only type text stands between the two positions. -/
def onlyTypeText (ledger : Ledger) (opening closing : Nat) : Bool :=
  (seek? (fun position => !(ledger.tag? position).any isTypeTag) (opening + 1)
    (closing - (opening + 1))).isNone

/-- An empty pair of square brackets at the position that belongs to a type name; gives the position
of its closing bracket. -/
def emptyPair? (ledger : Ledger) (position : Nat) : Option Nat :=
  if charIs ledger position '[' then
    match nextSolid? ledger (position + 1) with
    | some close =>
        if charIs ledger close ']' &&
            !(nextSolid? ledger (close + 1)).any fun behind => charIs ledger behind '{' then
          some close
        else none
    | none => none
  else none

/-! ## Tagging -/

/-- Tag the characters of an operator that starts at the position. -/
def tagOp (ledger : Ledger) (position : Nat) (op : Op) : Ledger :=
  Ledger.setTags (.operatorTail op) (position + 1) (op.width - 1)
    (ledger.setTag position (.operator op))

/-- Turn the operator characters at `count` positions from `start` on into plain text. -/
def plainFrom (start : Nat) : Nat → Ledger → Ledger
  | 0, ledger => ledger
  | count + 1, ledger =>
      plainFrom (start + 1) count
        (if ledger.isOperatorAt start then ledger.setTag start .unresolved else ledger)

/-- The operator meant by the one found in the table: `==` for `=`, and `>` for a shift that closes
type arguments. -/
def meantOp (scanner : Scanner) (op : Op) : Op :=
  if op == .assign && charIs scanner.ledger (scanner.position + 1) '=' then .equal
  else if op.isRightShift &&
      scanner.angles.head?.any (onlyTypeText scanner.ledger · scanner.position) then .greater
  else op

/-- Close the latest open angle bracket at the current position, making the characters from one to
the other plain when they are type arguments. -/
def closeAngle (scanner : Scanner) : Scanner :=
  match scanner.angles with
  | [] => scanner
  | opening :: rest =>
      let ledger := scanner.ledger
      if onlyTypeText ledger opening scanner.position then
        { scanner with
          angles := rest
          ledger := plainFrom opening (scanner.position + 1 - opening) ledger }
      else { scanner with angles := rest }

/-- Tag an operator at the current position and step behind it. -/
def takeOp (scanner : Scanner) (op : Op) : Scanner :=
  let opens := op == .less && followsTypeName scanner.ledger scanner.position
  let tagged := { scanner with ledger := tagOp scanner.ledger scanner.position op }
  let settled :=
    if opens then { tagged with angles := tagged.position :: tagged.angles }
    else if op == .greater then tagged.closeAngle
    else tagged
  { settled with position := settled.position + op.width }

/-- Look at a character outside literals that is no blank. -/
def takeSolid (scanner : Scanner) : Scanner :=
  match emptyPair? scanner.ledger scanner.position with
  | some close =>
      { scanner with
        ledger := (scanner.ledger.setTag scanner.position .unresolved).setTag close .unresolved
        position := close + 1 }
  | none =>
      match spelledOp? scanner.ledger scanner.position with
      | none => { scanner with position := scanner.position + 1 }
      | some found =>
          let op := scanner.meantOp found
          if startsNumber scanner.ledger scanner.position op then
            { scanner with position := scanner.position + 1 }
          else scanner.takeOp op

/-- Look at the next character, or operator, of the text. -/
def advance (scanner : Scanner) (c : Char) : Scanner :=
  let outside := { scanner with quote := scanner.quote.next c }
  if scanner.quote.covers c then
    { outside with
      ledger := outside.ledger.setTag outside.position .unresolved
      position := outside.position + 1 }
  else if isBlank c then { outside with position := outside.position + 1 }
  else outside.takeSolid

/-- Scan to the end of the text, in at most `count` steps. -/
def run : Nat → Scanner → Scanner
  | 0, scanner => scanner
  | count + 1, scanner =>
      match scanner.ledger.char? scanner.position with
      | some c => run count (scanner.advance c)
      | none => scanner

end Scanner

/-- The scanned ledger of a statement text. -/
def Ledger.scan (text : List Char) : Ledger :=
  (Scanner.run text.length { ledger := Ledger.ofText text }).ledger

end MethodLowering
