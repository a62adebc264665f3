import MethodLowering.Span
import MethodLowering.Text.Blank
import MethodLowering.Text.Brackets

/-!
# Cutting statements out of text

A statement ends at its terminator outside brackets and literals.  On the way to it, curly brackets
that directly follow a closing round bracket are class bodies, as in `new Runnable() { ... }`; the
cut lists them so that they can be taken out of the statement.
-/

namespace MethodLowering
namespace Text

/-- A statement found at the start of a text. -/
structure Cut where
  /-- Position of the terminator. -/
  stop : Nat
  /-- Class bodies in front of the terminator, brackets included, in order. -/
  classBodies : List Span
deriving DecidableEq, Repr

/-- Outcome of looking for a terminator. -/
inductive CutSearch where
  /-- The statement ends. -/
  | found (cut : Cut)
  /-- The text ends first. -/
  | incomplete
  /-- A closing bracket without partner stands at this position. -/
  | strayClose (position : Nat)
deriving DecidableEq, Repr

/-- What the search remembers of the text already read. -/
structure CutState where
  /-- Place with respect to literals. -/
  quote : Quote := .outside
  /-- Number of open brackets of any kind. -/
  depth : Nat := 0
  /-- Last character that is not a blank outside literals. -/
  last : Option Char := none
  /-- Start of the class body being read, and the depth outside it. -/
  body : Option (Nat × Nat) := none
  /-- Class bodies already closed. -/
  bodies : List Span := []
deriving DecidableEq, Repr

namespace CutState

/-- Read an opening curly bracket: it starts a class body when a closing round bracket precedes. -/
def openBrace (state : CutState) (position : Nat) : CutState :=
  { state with
    depth := state.depth + 1
    last := some '{'
    body :=
      if state.body.isNone && state.last == some ')' then some (position, state.depth)
      else state.body }

/-- Read a closing bracket while some bracket is open. -/
def close (state : CutState) (c : Char) (position : Nat) : CutState :=
  let outer := { state with depth := state.depth - 1, last := some c }
  match state.body with
  | some (start, depth) =>
      if c == '}' && depth == outer.depth then
        { outer with body := none, bodies := state.bodies ++ [⟨start, position + 1⟩] }
      else outer
  | none => outer

end CutState

/-- Look for the terminator from a given place of the reading. -/
def cutFrom (terminator : Char) : CutState → Nat → List Char → CutSearch
  | _, _, [] => .incomplete
  | state, position, c :: rest =>
      if state.quote.covers c then
        cutFrom terminator { state with quote := state.quote.next c, last := some c }
          (position + 1) rest
      else if isBlank c then
        cutFrom terminator state (position + 1) rest
      else if c == terminator && state.depth == 0 then
        .found ⟨position, state.bodies⟩
      else if c == '{' then
        cutFrom terminator (state.openBrace position) (position + 1) rest
      else if isOpening c then
        cutFrom terminator { state with depth := state.depth + 1, last := some c }
          (position + 1) rest
      else if isClosing c then
        if state.depth == 0 then .strayClose position
        else cutFrom terminator (state.close c position) (position + 1) rest
      else
        cutFrom terminator { state with last := some c } (position + 1) rest

/-- Look for `terminator` outside brackets and literals. -/
def findCut (terminator : Char) (text : List Char) : CutSearch :=
  cutFrom terminator {} 0 text

/-- The text without the given spans, from position `start` on; `none` when the spans are not
ascending and disjoint or reach past the text. -/
def removeFrom? (text : List Char) : Nat → List Span → Option (List Char)
  | start, [] => if start ≤ text.length then some (text.drop start) else none
  | start, span :: rest =>
      if start ≤ span.start && span.start ≤ text.length then
        (removeFrom? text span.stop rest).map (Span.slice ⟨start, span.start⟩ text ++ ·)
      else none

/-- The text without the given spans. -/
def removeSpans? (text : List Char) (spans : List Span) : Option (List Char) :=
  removeFrom? text 0 spans

end Text
end MethodLowering
