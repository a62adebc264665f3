/-!
# JSON documents

The value type of documents read and written by the library.  A number keeps its spelling, because
a whole number and a fraction of the same value are different documents here; an object keeps its
members in order, repetitions included.

A record is written as an object with its field names as keys, or as an array of its fields in
order.  Unknown keys are skipped; a known key may stand once.
-/

namespace MethodLowering

/-- A JSON value. -/
inductive Json where
  | null
  | bool (value : Bool)
  /-- A number in its written form. -/
  | number (lexeme : String)
  /-- A string; `none` when an escape names half of a surrogate pair. -/
  | string (value : Option String)
  | array (items : List Json)
  /-- Members in written order, their keys under the same rule as strings. -/
  | object (members : List (Option String × Json))

namespace Json

/-- The string value of a text. -/
def text (value : String) : Json := .string (some value)

/-- The number value of a natural number. -/
def nat (value : Nat) : Json := .number (toString value)

/-- The object with the given members. -/
def record (members : List (String × Json)) : Json :=
  .object (members.map fun (key, value) => (some key, value))

/-- The value of the last member called `key`. -/
def get? (document : Json) (key : String) : Option Json :=
  match document with
  | .object members => (members.reverse.find? fun member => member.1 == some key).map (·.2)
  | _ => none

/-- The text of a string value. -/
def asText? : Json → Option String
  | .string value => value
  | _ => none

/-- The truth value of a Boolean. -/
def asBool? : Json → Option Bool
  | .bool value => some value
  | _ => none

/-- The items of an array. -/
def asArray? : Json → Option (List Json)
  | .array items => some items
  | _ => none

/-- Largest whole number a document may hold where a count is expected. -/
def largestCount : Nat := 18446744073709551615

/-- The value of a number written with digits only and not too large. -/
def asCount? : Json → Option Nat
  | .number lexeme =>
      let digits := lexeme.toList
      if digits.all Char.isDigit && !digits.isEmpty then
        let value := digits.foldl (fun value digit => 10 * value + (digit.toNat - '0'.toNat)) 0
        if value ≤ largestCount then some value else none
      else none
  | _ => none

/-! ## Records -/

/-- The given fields of a record, `none` where a field is left out.  There is no answer for a
document that is neither object nor array, for an array that is too long, and for an object with an
unreadable key or a known key given twice. -/
def fields? (keys : List String) (document : Json) : Option (List (Option Json)) :=
  match document with
  | .array items =>
      if items.length ≤ keys.length then
        some (items.map some ++ List.replicate (keys.length - items.length) none)
      else none
  | .object members =>
      if members.any (fun member => member.1.isNone) ||
          keys.any (fun key => 1 < (members.filter fun member => member.1 == some key).length) then
        none
      else some (keys.map document.get?)
  | _ => none

/-- A field that must be given. -/
def required {α : Type} (decode : Json → Option α) (field : Option Json) : Option α :=
  field.bind decode

/-- A field that has a default. -/
def optional {α : Type} (decode : Json → Option α) (default : α) (field : Option Json) : Option α :=
  match field with
  | some document => decode document
  | none => some default

/-- An array whose items are all of one kind. -/
def list? {α : Type} (decode : Json → Option α) (document : Json) : Option (List α) :=
  document.asArray?.bind fun items => items.mapM decode

end Json
end MethodLowering
