import MethodLowering.Fault

/-!
# Pages

A page is text written from left to right, step by step, at a level of indentation that steps raise
and lower.  Indentation is written in front of the first text of a line, so that an empty line stays
empty.
-/

namespace MethodLowering

/-- Text being written. -/
structure Page where
  /-- Text so far. -/
  output : String := ""
  /-- Current indentation level. -/
  level : Nat := 0
  /-- One level of indentation. -/
  unit : String
  /-- Nothing is written on the current line. -/
  atLineStart : Bool := true
deriving DecidableEq, Repr

namespace Page

/-- The unit of indentation written `count` times behind a text. -/
def indentBy (unit : String) : Nat → String → String
  | 0, output => output
  | count + 1, output => indentBy unit count (output ++ unit)

/-- Write text on the current line. -/
def write (page : Page) (text : String) : Page :=
  if text.isEmpty then page
  else
    let start :=
      if page.atLineStart && !page.unit.isEmpty then indentBy page.unit page.level page.output
      else page.output
    { page with output := start ++ text, atLineStart := false }

/-- End the current line. -/
def newline (page : Page) : Page :=
  { page with output := page.output ++ "\n", atLineStart := true }

/-- Write text and end the line. -/
def line (page : Page) (text : String) : Page := (page.write text).newline

/-- The highest level: a level is a number of 32 bits. -/
def highest : Nat := 4294967295

/-- One level further in, below the highest one. -/
def indent (page : Page) : Except Fault Page :=
  if page.level < highest then .ok { page with level := page.level + 1 } else .error .unwritable

/-- One level further out, as far as there is one. -/
def outdent (page : Page) : Page := { page with level := page.level - 1 }

/-! ## Steps -/

/-- A step of writing a page. -/
inductive Step where
  /-- Write a line. -/
  | line (text : String)
  /-- Raise the level. -/
  | indent
  /-- Lower the level. -/
  | outdent
deriving DecidableEq, Repr

/-- Take a step. -/
def take (page : Page) : Step → Except Fault Page
  | .line text => .ok (page.line text)
  | .indent => page.indent
  | .outdent => .ok page.outdent

/-- Take steps one after another. -/
def run (page : Page) : List Step → Except Fault Page
  | [] => .ok page
  | step :: rest =>
      match page.take step with
      | .ok next => run next rest
      | .error fault => .error fault

/-- The level is raised in front of the steps and lowered behind them. -/
def nested (steps : List Step) : List Step := .indent :: steps ++ [.outdent]

/-- The text that is written by steps on a page that starts at a level. -/
def text (unit : String) (level : Nat) (steps : List Step) : Except Fault String :=
  (run { unit, level } steps).map (·.output)

end Page
end MethodLowering
