import MethodLowering.Operator
import MethodLowering.Span
import MethodLowering.Text.Blank
import MethodLowering.Text.Seek

/-!
# Ledgers

A ledger holds one statement text with a tag for each character.  At first the tags say which
characters are blanks, plain text and operators; while the text is structured they record which
characters already belong to a finished expression.
-/

namespace MethodLowering

/-- What is known about one character of a statement. -/
inductive Tag where
  /-- A blank outside literals. -/
  | space
  /-- Plain text. -/
  | unresolved
  /-- First character of an operator. -/
  | operator (op : Op)
  /-- Later character of an operator. -/
  | operatorTail (op : Op)
  /-- Part of a finished expression. -/
  | resolved
  /-- Part of the numbered expression that waits for its surroundings. -/
  | pending (id : Nat)
deriving DecidableEq, Repr

namespace Tag

/-- A blank outside literals. -/
@[inline]
def isSpace : Tag → Bool
  | space => true
  | _ => false

/-- The character belongs to an operator that is not folded yet. -/
@[inline]
def isOperator : Tag → Bool
  | operator _ | operatorTail _ => true
  | _ => false

/-- A blank or part of a finished expression. -/
@[inline]
def isSettled : Tag → Bool
  | space | resolved => true
  | _ => false

/-- Part of an expression that waits for its surroundings. -/
@[inline]
def isPending : Tag → Bool
  | pending _ => true
  | _ => false

/-- The operator the character belongs to. -/
@[inline]
def op? : Tag → Option Op
  | operator op | operatorTail op => some op
  | _ => none

end Tag

/-- One character of a statement with its tag. -/
structure Cell where
  char : Char
  tag : Tag
deriving DecidableEq, Repr

/-- A statement text with a tag for each character. -/
structure Ledger where
  cells : Array Cell
deriving DecidableEq, Repr

namespace Ledger

/-- The ledger of a text in which only the blanks are told apart. -/
def ofText (text : List Char) : Ledger :=
  ⟨(text.map fun c => ⟨c, if Text.isBlank c then .space else .unresolved⟩).toArray⟩

/-- Number of characters. -/
def size (ledger : Ledger) : Nat := ledger.cells.size

/-- The text is empty. -/
def isEmpty (ledger : Ledger) : Bool := ledger.cells.isEmpty

/-- The character at a position. -/
@[inline]
def char? (ledger : Ledger) (position : Nat) : Option Char :=
  ledger.cells[position]?.map (·.char)

/-- The tag at a position. -/
@[inline]
def tag? (ledger : Ledger) (position : Nat) : Option Tag :=
  ledger.cells[position]?.map (·.tag)

/-- All tags in order. -/
def tags (ledger : Ledger) : List Tag := ledger.cells.toList.map (·.tag)

/-- The whole text. -/
def chars (ledger : Ledger) : List Char := ledger.cells.toList.map (·.char)

/-- The text at a span. -/
def slice (ledger : Ledger) (span : Span) : List Char :=
  ledger.cells.foldr (fun cell text => cell.char :: text) [] span.stop span.start

/-- The text at a span, as a string. -/
def textAt (ledger : Ledger) (span : Span) : String :=
  ledger.cells.foldl (fun text cell => text.push cell.char) "" span.start span.stop

/-- The span lies inside the text and does not end before it starts. -/
def holds (ledger : Ledger) (span : Span) : Bool :=
  span.start ≤ span.stop && span.stop ≤ ledger.size

theorem holds_iff {ledger : Ledger} {span : Span} :
    ledger.holds span = true ↔ span.start ≤ span.stop ∧ span.stop ≤ ledger.size := by
  simp [holds]

/-! ## Questions -/

/-- The character at the position is a blank outside literals. -/
@[inline]
def isSpace (ledger : Ledger) (position : Nat) : Bool :=
  (ledger.tag? position).any Tag.isSpace

/-- An operator that is not folded yet stands at the position. -/
@[inline]
def isOperatorAt (ledger : Ledger) (position : Nat) : Bool :=
  (ledger.tag? position).any Tag.isOperator

/-- The operator that starts at the position. -/
@[inline]
def headAt? (ledger : Ledger) (position : Nat) : Option Op :=
  match ledger.tag? position with
  | some (.operator op) => some op
  | _ => none

/-- Narrow a range past the blanks at both ends. -/
def trim (ledger : Ledger) (start stop : Nat) : Span :=
  let stop := min stop ledger.size
  let first := Text.seek (fun position => !ledger.isSpace position) start (stop - start)
  ⟨first, Text.seekDown (fun position => !ledger.isSpace position) stop (stop - first)⟩

/-- The range holds nothing but blanks. -/
def isBlank (ledger : Ledger) (start stop : Nat) : Bool :=
  (ledger.trim start stop).isEmpty

/-- The operators that start at one of `count` positions from `start` on. -/
def headsFrom (ledger : Ledger) (start : Nat) : Nat → List (Nat × Op)
  | 0 => []
  | count + 1 =>
      match ledger.headAt? start with
      | some op => (start, op) :: ledger.headsFrom (start + 1) count
      | none => ledger.headsFrom (start + 1) count

/-- The operators that start in a range, in order. -/
def heads (ledger : Ledger) (start stop : Nat) : List (Nat × Op) :=
  ledger.headsFrom start (min stop ledger.size - start)

/-- Go over the operators that start at one of `count` positions from `start` on. -/
@[specialize]
def foldHeadsFrom {α : Type} (ledger : Ledger) (step : α → Nat → Op → α) (start : Nat) :
    Nat → α → α
  | 0, result => result
  | count + 1, result =>
      match ledger.headAt? start with
      | some op => ledger.foldHeadsFrom step (start + 1) count (step result start op)
      | none => ledger.foldHeadsFrom step (start + 1) count result

/-- Go over the operators that start in a range, in order. -/
@[inline]
def foldHeads {α : Type} (ledger : Ledger) (step : α → Nat → Op → α) (init : α)
    (start stop : Nat) : α :=
  ledger.foldHeadsFrom step start (min stop ledger.size - start) init

/-- Some operator character stands in the range. -/
def hasOperator (ledger : Ledger) (start stop : Nat) : Bool :=
  (Text.seek? ledger.isOperatorAt start (min stop ledger.size - start)).isSome

/-- Every character of the range is a blank or belongs to a finished expression. -/
def isSettled (ledger : Ledger) (span : Span) : Bool :=
  (Text.seek? (fun position => !(ledger.tag? position).any Tag.isSettled) span.start
    (min span.stop ledger.size - span.start)).isNone

/-! ## Changes -/

/-- Change the tag at a position. -/
def setTag (ledger : Ledger) (position : Nat) (tag : Tag) : Ledger :=
  ⟨ledger.cells.modify position fun cell => { cell with tag }⟩

/-- Give `count` positions from `start` on the same tag. -/
def setTags (tag : Tag) (start : Nat) : Nat → Ledger → Ledger
  | 0, ledger => ledger
  | count + 1, ledger => setTags tag (start + 1) count (ledger.setTag start tag)

/-- Give `count` positions from `start` on the same tag, blanks excepted. -/
def markFrom (tag : Tag) (start : Nat) : Nat → Ledger → Ledger
  | 0, ledger => ledger
  | count + 1, ledger =>
      markFrom tag (start + 1) count
        ⟨ledger.cells.modify start fun cell =>
          if cell.tag.isSpace then cell else { cell with tag }⟩

/-- Give every character of a span the same tag, blanks excepted. -/
def mark (ledger : Ledger) (span : Span) (tag : Tag) : Ledger :=
  markFrom tag span.start (min span.stop ledger.size - span.start) ledger

/-- Turn an operator, all its characters, into plain text. -/
def untag (ledger : Ledger) (head : Nat) : Ledger :=
  match ledger.headAt? head with
  | some op => setTags .unresolved head (min (head + op.width) ledger.size - head) ledger
  | none => ledger

/-! ## Small facts -/

theorem slice_eq_extract (ledger : Ledger) (span : Span) :
    ledger.slice span = (ledger.cells.extract span.start span.stop).toList.map (·.char) := by
  rw [slice, Array.foldr_eq_foldr_extract, ← Array.foldr_toList]
  induction (ledger.cells.extract span.start span.stop).toList with
  | nil => rfl
  | cons cell rest induction => simp [induction]

theorem textAt_eq_ofList (ledger : Ledger) (span : Span) :
    ledger.textAt span = String.ofList (ledger.slice span) := by
  have pushed (cells : List Cell) (text : String) :
      (cells.foldl (fun text cell => text.push cell.char) text).toList =
        text.toList ++ cells.map (·.char) := by
    induction cells generalizing text with
    | nil => simp
    | cons cell rest induction => simp [induction]
  rw [slice_eq_extract, textAt, Array.foldl_eq_foldl_extract, ← Array.foldl_toList,
    ← String.toList_inj, pushed]
  simp

theorem foldHeadsFrom_eq_foldl {α : Type} (ledger : Ledger) (step : α → Nat → Op → α)
    (start count : Nat) (result : α) :
    ledger.foldHeadsFrom step start count result =
      (ledger.headsFrom start count).foldl (fun result head => step result head.1 head.2)
        result := by
  induction count generalizing start result with
  | zero => rfl
  | succ count induction =>
      rw [foldHeadsFrom, headsFrom]
      split <;> simp [induction]

theorem foldHeads_eq_foldl {α : Type} (ledger : Ledger) (step : α → Nat → Op → α) (init : α)
    (start stop : Nat) :
    ledger.foldHeads step init start stop =
      (ledger.heads start stop).foldl (fun result head => step result head.1 head.2) init :=
  foldHeadsFrom_eq_foldl ..

@[simp]
theorem chars_ofText (text : List Char) : (ofText text).chars = text := by
  simp [ofText, chars, List.map_map, Function.comp_def]

end Ledger
end MethodLowering
