import MethodLowering.Json.Basic

/-!
# Reading JSON

A recursive-descent reader over the characters of a document.  Each reader gives the value and the
text behind it.  The nesting that may still be entered is the recursion argument; it starts from the
length of the document, which no nesting exceeds.
-/

namespace MethodLowering
namespace Json

/-- The four blanks that may stand between tokens. -/
def isGap (c : Char) : Bool := c == ' ' || c == '\t' || c == '\n' || c == '\r'

/-- The text without leading gaps. -/
def skipGaps (text : List Char) : List Char := text.dropWhile isGap

/-! ## Strings -/

/-- Part of a string literal. -/
inductive Piece where
  /-- A character written as itself or by a short escape. -/
  | char (value : Char)
  /-- A 16-bit unit written in hexadecimal. -/
  | unit (value : Nat)

/-- Value of a hexadecimal digit. -/
def hexDigit? (c : Char) : Option Nat :=
  if '0' ≤ c && c ≤ '9' then some (c.toNat - '0'.toNat)
  else if 'a' ≤ c && c ≤ 'f' then some (c.toNat - 'a'.toNat + 10)
  else if 'A' ≤ c && c ≤ 'F' then some (c.toNat - 'A'.toNat + 10)
  else none

/-- Value of four hexadecimal digits. -/
def hexUnit? (a b c d : Char) : Option Nat := do
  return (((← hexDigit? a) * 16 + (← hexDigit? b)) * 16 + (← hexDigit? c)) * 16 + (← hexDigit? d)

/-- Character named by a short escape. -/
def shortEscape? (c : Char) : Option Char :=
  match c with
  | '"' => some '"'
  | '\\' => some '\\'
  | '/' => some '/'
  | 'b' => some '\x08'
  | 'f' => some '\x0c'
  | 'n' => some '\n'
  | 'r' => some '\r'
  | 't' => some '\t'
  | _ => none

/-- The pieces of a string literal up to its closing quote, and the text behind it. -/
def readPieces? : List Char → Option (List Piece × List Char)
  | [] => none
  | '"' :: rest => some ([], rest)
  | '\\' :: 'u' :: a :: b :: c :: d :: rest => do
      let unit ← hexUnit? a b c d
      let (pieces, behind) ← readPieces? rest
      return (.unit unit :: pieces, behind)
  | '\\' :: escape :: rest => do
      let value ← shortEscape? escape
      let (pieces, behind) ← readPieces? rest
      return (.char value :: pieces, behind)
  | c :: rest => do
      if c.toNat < 0x20 then none
      else
        let (pieces, behind) ← readPieces? rest
        return (.char c :: pieces, behind)

/-- First half of a surrogate pair. -/
def isLeadingHalf (unit : Nat) : Bool := 0xD800 ≤ unit && unit < 0xDC00

/-- Second half of a surrogate pair. -/
def isTrailingHalf (unit : Nat) : Bool := 0xDC00 ≤ unit && unit < 0xE000

/-- The characters of the pieces; `none` when half of a surrogate pair stands alone. -/
def joinPieces? : List Piece → Option (List Char)
  | [] => some []
  | .char value :: rest => (joinPieces? rest).map (value :: ·)
  | .unit leading :: .unit trailing :: rest =>
      if isLeadingHalf leading then
        if isTrailingHalf trailing then
          let code := 0x10000 + (leading - 0xD800) * 0x400 + (trailing - 0xDC00)
          (joinPieces? rest).map (Char.ofNat code :: ·)
        else none
      else if isTrailingHalf leading then none
      else (joinPieces? (.unit trailing :: rest)).map (Char.ofNat leading :: ·)
  | .unit single :: rest =>
      if isLeadingHalf single || isTrailingHalf single then none
      else (joinPieces? rest).map (Char.ofNat single :: ·)

/-- A string literal behind its opening quote. -/
def readString? (text : List Char) : Option (Option String × List Char) :=
  (readPieces? text).map fun (pieces, behind) => ((joinPieces? pieces).map String.ofList, behind)

/-! ## Numbers -/

/-- One or more digits. -/
def readDigits? (text : List Char) : Option (List Char × List Char) :=
  let digits := text.takeWhile Char.isDigit
  if digits.isEmpty then none else some (digits, text.dropWhile Char.isDigit)

/-- The whole part: a single zero, or digits that do not start with zero. -/
def readWhole? : List Char → Option (List Char × List Char)
  | '0' :: rest => if rest.head?.any Char.isDigit then none else some (['0'], rest)
  | text => readDigits? text

/-- The fraction, if there is one. -/
def readFraction? : List Char → Option (List Char × List Char)
  | '.' :: rest => (readDigits? rest).map fun (digits, behind) => ('.' :: digits, behind)
  | text => some ([], text)

/-- The exponent, if there is one. -/
def readExponent? : List Char → Option (List Char × List Char)
  | [] => some ([], [])
  | mark :: rest =>
      if mark == 'e' || mark == 'E' then
        match rest with
        | '+' :: tail =>
            (readDigits? tail).map fun (digits, behind) => (mark :: '+' :: digits, behind)
        | '-' :: tail =>
            (readDigits? tail).map fun (digits, behind) => (mark :: '-' :: digits, behind)
        | tail => (readDigits? tail).map fun (digits, behind) => (mark :: digits, behind)
      else some ([], mark :: rest)

/-- A number without its sign. -/
def readUnsigned? (text : List Char) : Option (List Char × List Char) := do
  let (whole, text) ← readWhole? text
  let (fraction, text) ← readFraction? text
  let (exponent, text) ← readExponent? text
  return (whole ++ fraction ++ exponent, text)

/-- A number. -/
def readNumber? : List Char → Option (Json × List Char)
  | '-' :: rest =>
      (readUnsigned? rest).map fun (lexeme, behind) =>
        (.number (String.ofList ('-' :: lexeme)), behind)
  | text =>
      (readUnsigned? text).map fun (lexeme, behind) => (.number (String.ofList lexeme), behind)

/-! ## Values -/

/-- The text behind a fixed word. -/
def expect? (word : String) (text : List Char) : Option (List Char) :=
  if word.toList.isPrefixOf text then some (text.drop word.length) else none

mutual

/-- A value at the start of the text, gaps aside. -/
def readValue? : Nat → List Char → Option (Json × List Char)
  | 0, _ => none
  | fuel + 1, text =>
      match skipGaps text with
      | [] => none
      | '"' :: rest => (readString? rest).map fun (value, behind) => (.string value, behind)
      | '[' :: rest =>
          match skipGaps rest with
          | ']' :: behind => some (.array [], behind)
          | inner => (readItems? fuel inner).map fun (items, behind) => (.array items, behind)
      | '{' :: rest =>
          match skipGaps rest with
          | '}' :: behind => some (.object [], behind)
          | inner =>
              (readMembers? fuel inner).map fun (members, behind) => (.object members, behind)
      | 'n' :: rest => (expect? "ull" rest).map fun behind => (.null, behind)
      | 't' :: rest => (expect? "rue" rest).map fun behind => (.bool true, behind)
      | 'f' :: rest => (expect? "alse" rest).map fun behind => (.bool false, behind)
      | other => readNumber? other

/-- The items of an array up to its closing bracket; at least one. -/
def readItems? : Nat → List Char → Option (List Json × List Char)
  | 0, _ => none
  | fuel + 1, text => do
      let (item, behind) ← readValue? fuel text
      match skipGaps behind with
      | ',' :: rest =>
          let (items, behind) ← readItems? fuel rest
          return (item :: items, behind)
      | ']' :: rest => return ([item], rest)
      | _ => none

/-- The members of an object up to its closing bracket; at least one. -/
def readMembers? : Nat → List Char → Option (List (Option String × Json) × List Char)
  | 0, _ => none
  | fuel + 1, text => do
      match skipGaps text with
      | '"' :: rest =>
          let (key, behind) ← readString? rest
          match skipGaps behind with
          | ':' :: rest =>
              let (value, behind) ← readValue? fuel rest
              match skipGaps behind with
              | ',' :: rest =>
                  let (members, behind) ← readMembers? fuel rest
                  return ((key, value) :: members, behind)
              | '}' :: rest => return ([(key, value)], rest)
              | _ => none
          | _ => none
      | _ => none

end

/-- The document a text holds; nothing but gaps may stand around it. -/
def read? (text : List Char) : Option Json :=
  match readValue? (2 * text.length + 2) text with
  | some (document, behind) => if (skipGaps behind).isEmpty then some document else none
  | none => none

/-- The document a string holds. -/
def ofText? (text : String) : Option Json := read? text.toList

end Json
end MethodLowering
