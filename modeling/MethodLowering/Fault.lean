import MethodLowering.Operator
import MethodLowering.Span

/-!
# Errors, faults and failures

A source error says that the text is malformed.  Text that is merely unfinished is no error while
more may follow; it becomes one when the body ends.  A fault says that a question has no answer: the
text was accepted, but something it relies on does not exist.
-/

namespace MethodLowering

/-! ## Source errors -/

/-- Why a method body is malformed. -/
inductive SourceError where
  /-- A bracket without partner. -/
  | unbalancedBracket (bracket : Char) (offset : Nat) (text : String)
  /-- An operator took in text outside the range it was asked to structure. -/
  | spanEscape (operator : String) (requested found : Span)
  /-- A construct lacks a required part. -/
  | missingClause (keyword clause : String)
  /-- A token stands where it cannot. -/
  | unexpectedToken (token context : String)
  /-- The body ends inside a construct or statement. -/
  | unterminatedInput (leftover : String)
  /-- Several words that are no declaration. -/
  | malformedDeclaration (text : String)
  /-- The work limit was reached. -/
  | resolveStalled (text : String)
deriving DecidableEq, Repr

namespace SourceError

/-- Short name of the cause. -/
def kind : SourceError → String
  | unbalancedBracket .. => "unbalanced-bracket"
  | spanEscape .. => "span-escape"
  | missingClause .. => "missing-clause"
  | unexpectedToken .. => "unexpected-token"
  | unterminatedInput .. => "unterminated-input"
  | malformedDeclaration .. => "malformed-declaration"
  | resolveStalled .. => "resolve-stalled"

/-- Full wording of the error. -/
def message : SourceError → String
  | unbalancedBracket bracket offset text =>
      "unbalanced `" ++ bracket.toString ++ "` at offset " ++ toString offset ++ " in `" ++ text ++
        "`"
  | spanEscape operator requested found =>
      "operator `" ++ operator ++ "` produced span " ++ found.text ++
        " outside of requested range " ++ requested.text
  | missingClause keyword clause => "`" ++ keyword ++ "` is missing its " ++ clause
  | unexpectedToken token context => "unexpected `" ++ token ++ "` " ++ context
  | unterminatedInput leftover =>
      "input ended inside an unfinished construct: `" ++ leftover ++ "`"
  | malformedDeclaration text => "malformed declaration `" ++ text ++ "`"
  | resolveStalled text => "resolver made no progress on `" ++ text ++ "`"

/-- Whether the body is given up; every source error is fatal for its body. -/
def isFatal : SourceError → Bool
  | _ => true

end SourceError

/-! ## Faults -/

/-- A question without answer. -/
inductive Fault where
  /-- A member of the receiver is asked for, and no class stands at this depth. -/
  | noClass (depth : Nat)
  /-- A comparison lacks an operand that has to be looked at. -/
  | missingOperand (op : Op)
  /-- No paragraph has this number. -/
  | noParagraph (id : Nat)
  /-- A range of positions does not fit the text. -/
  | badRange
  /-- The unit of indentation does not fit into a text, or its level into 32 bits. -/
  | unwritable
deriving DecidableEq, Repr

/-- Why a body is not read. -/
inductive Failure where
  /-- The text is malformed. -/
  | malformed (error : SourceError)
  /-- A question that came up on the way has no answer. -/
  | undefined (fault : Fault)
deriving DecidableEq, Repr

end MethodLowering
