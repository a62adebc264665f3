import MethodLowering.Text.Blank
import MethodLowering.Text.Letter

/-!
# Keywords and labels

The words that open a construct, and labels in front of constructs.
-/

namespace MethodLowering

/-- A word that opens a construct. -/
inductive Keyword where
  | ifThen
  | forLoop
  | doLoop
  | whileLoop
  | switch
  | caseLabel
  | defaultLabel
  | tryBlock
  | synchronized
  | returns
  | continues
  | breaks
  | throws
deriving DecidableEq, Repr

namespace Keyword

/-- All keywords. -/
def all : List Keyword :=
  [.ifThen, .forLoop, .doLoop, .whileLoop, .switch, .caseLabel, .defaultLabel, .tryBlock,
    .synchronized, .returns, .continues, .breaks, .throws]

/-- Spelling of the keyword. -/
def text : Keyword → String
  | .ifThen => "if"
  | .forLoop => "for"
  | .doLoop => "do"
  | .whileLoop => "while"
  | .switch => "switch"
  | .caseLabel => "case"
  | .defaultLabel => "default"
  | .tryBlock => "try"
  | .synchronized => "synchronized"
  | .returns => "return"
  | .continues => "continue"
  | .breaks => "break"
  | .throws => "throw"

/-- Loops may carry a label. -/
def acceptsLabel : Keyword → Bool
  | .forLoop | .whileLoop | .doLoop => true
  | _ => false

/-- The keyword with a given spelling. -/
def ofWord? (word : List Char) : Option Keyword :=
  all.find? fun keyword => keyword.text.toList == word

/-- The keyword a text opens with: its whole leading word is the spelling. -/
def leading? (text : List Char) : Option Keyword :=
  ofWord? (Text.leadingWord text)

theorem ofWord?_text (keyword : Keyword) : ofWord? keyword.text.toList = some keyword := by
  cases keyword <;> decide +kernel

end Keyword

/-- A label in front of a statement, `outer:`, with the number of characters it takes up to and
including the colon.  A keyword, a number and a double colon make no label. -/
def leadingLabel? (text : List Char) : Option (List Char × Nat) :=
  let word := Text.leadingWord text
  let rest := text.drop word.length
  let tail := Text.trimStart rest
  if word.isEmpty || word.head?.any Text.isDigit || (Keyword.ofWord? word).isSome then none
  else if tail.head? == some ':' && (tail.drop 1).head? != some ':' then
    some (word, word.length + (rest.length - tail.length) + 1)
  else none

end MethodLowering
