/-!
# The operator table

All operators of statement text, with the level at which each one splits a range and the operands it
takes.  The lowest level binds most loosely and is split first.
-/

namespace MethodLowering

/-- How an operator finds the operand on one side. -/
inductive OperandReach where
  /-- Everything up to the edge of the range. -/
  | full
  /-- Text up to the nearest operator. -/
  | greedy
  /-- No operand on this side. -/
  | none
deriving DecidableEq, Repr

/-- Which of several operators on one level is split first. -/
inductive TieBreak where
  | leftmost
  | rightmost
deriving DecidableEq, Repr

/-- The operators, brackets and separators included. -/
inductive Op where
  | openParen
  | closeParen
  | openBrace
  | closeBrace
  | openBracket
  | closeBracket
  | comma
  | assign
  | addAssign
  | subtractAssign
  | multiplyAssign
  | divideAssign
  | remainderAssign
  | andAssign
  | orAssign
  | xorAssign
  | shiftLeftAssign
  | shiftRightZeroAssign
  | shiftRightAssign
  | question
  | colon
  | dot
  | instanceOf
  | increment
  | decrement
  | orElse
  | andAlso
  | bitOr
  | bitXor
  | bitAnd
  | equal
  | notEqual
  | not
  | atLeast
  | shiftRightZero
  | shiftRight
  | shiftLeft
  | greater
  | atMost
  | less
  | plus
  | minus
  | times
  | divide
  | remainder
deriving DecidableEq, Repr

/-- One row of the operator table. -/
structure OpRow where
  /-- Spelling in statement text. -/
  text : String
  /-- Level at which the operator splits a range. -/
  level : Nat
  /-- Operand on the left. -/
  left : OperandReach
  /-- Operand on the right. -/
  right : OperandReach
  /-- Choice among operators of this level. -/
  tieBreak : TieBreak
deriving DecidableEq, Repr

namespace Op

/-- The table. -/
def row : Op → OpRow
  | openParen => ⟨"(", 0, .greedy, .full, .rightmost⟩
  | closeParen => ⟨")", 0, .full, .greedy, .rightmost⟩
  | openBrace => ⟨"\x7b", 1, .greedy, .full, .rightmost⟩
  | closeBrace => ⟨"\x7d", 1, .full, .none, .rightmost⟩
  | openBracket => ⟨"[", 2, .greedy, .full, .rightmost⟩
  | closeBracket => ⟨"]", 2, .full, .greedy, .rightmost⟩
  | comma => ⟨",", 3, .full, .full, .rightmost⟩
  | assign => ⟨"=", 4, .full, .full, .leftmost⟩
  | addAssign => ⟨"+=", 4, .full, .full, .leftmost⟩
  | subtractAssign => ⟨"-=", 4, .full, .full, .leftmost⟩
  | multiplyAssign => ⟨"*=", 4, .full, .full, .leftmost⟩
  | divideAssign => ⟨"/=", 4, .full, .full, .leftmost⟩
  | remainderAssign => ⟨"%=", 4, .full, .full, .leftmost⟩
  | andAssign => ⟨"&=", 4, .full, .full, .leftmost⟩
  | orAssign => ⟨"|=", 4, .full, .full, .leftmost⟩
  | xorAssign => ⟨"^=", 4, .full, .full, .leftmost⟩
  | shiftLeftAssign => ⟨"<<=", 4, .full, .full, .leftmost⟩
  | shiftRightZeroAssign => ⟨">>>=", 4, .full, .full, .leftmost⟩
  | shiftRightAssign => ⟨">>=", 4, .full, .full, .leftmost⟩
  | question => ⟨"?", 5, .full, .full, .leftmost⟩
  | colon => ⟨":", 6, .full, .full, .leftmost⟩
  | dot => ⟨".", 7, .greedy, .greedy, .leftmost⟩
  | instanceOf => ⟨"instanceof", 8, .greedy, .greedy, .leftmost⟩
  | increment => ⟨"++", 9, .greedy, .greedy, .rightmost⟩
  | decrement => ⟨"--", 9, .greedy, .greedy, .rightmost⟩
  | orElse => ⟨"||", 10, .full, .full, .rightmost⟩
  | andAlso => ⟨"&&", 11, .full, .full, .rightmost⟩
  | bitOr => ⟨"|", 12, .full, .full, .rightmost⟩
  | bitXor => ⟨"^", 13, .full, .full, .rightmost⟩
  | bitAnd => ⟨"&", 14, .full, .full, .rightmost⟩
  | equal => ⟨"==", 15, .full, .full, .rightmost⟩
  | notEqual => ⟨"!=", 15, .full, .full, .rightmost⟩
  | not => ⟨"!", 16, .none, .greedy, .rightmost⟩
  | atLeast => ⟨">=", 17, .full, .full, .rightmost⟩
  | shiftRightZero => ⟨">>>", 18, .full, .full, .rightmost⟩
  | shiftRight => ⟨">>", 18, .full, .full, .rightmost⟩
  | shiftLeft => ⟨"<<", 18, .full, .full, .rightmost⟩
  | greater => ⟨">", 17, .full, .full, .rightmost⟩
  | atMost => ⟨"<=", 17, .full, .full, .rightmost⟩
  | less => ⟨"<", 17, .full, .full, .rightmost⟩
  | plus => ⟨"+", 19, .full, .full, .rightmost⟩
  | minus => ⟨"-", 19, .full, .full, .rightmost⟩
  | times => ⟨"*", 20, .full, .full, .rightmost⟩
  | divide => ⟨"/", 20, .full, .full, .rightmost⟩
  | remainder => ⟨"%", 20, .full, .full, .rightmost⟩

/-- All operators in the order in which their spellings are tried.  A spelling comes before its own
beginnings, with the one exception of `=` and `==`. -/
def all : List Op :=
  [openParen, closeParen, openBrace, closeBrace, openBracket, closeBracket, comma, assign,
    addAssign, subtractAssign, multiplyAssign, divideAssign, remainderAssign, andAssign, orAssign,
    xorAssign, shiftLeftAssign, shiftRightZeroAssign, shiftRightAssign, question, colon, dot,
    instanceOf, increment, decrement, orElse, andAlso, bitOr, bitXor, bitAnd, equal, notEqual, not,
    atLeast, shiftRightZero, shiftRight, shiftLeft, greater, atMost, less, plus, minus, times,
    divide, remainder]

/-- Spelling in statement text. -/
def text (op : Op) : String := op.row.text

/-- Characters of the spelling. -/
def spelling (op : Op) : List Char := op.text.toList

/-- Number of characters of the spelling. -/
def width (op : Op) : Nat := op.spelling.length

/-- Opening bracket of any kind. -/
def isOpening : Op → Bool
  | openParen | openBrace | openBracket => true
  | _ => false

/-- Closing bracket of any kind. -/
def isClosing : Op → Bool
  | closeParen | closeBrace | closeBracket => true
  | _ => false

/-- The closing partner of an opening bracket. -/
def closing? : Op → Option Op
  | openParen => some closeParen
  | openBrace => some closeBrace
  | openBracket => some closeBracket
  | _ => none

/-- Plain or compound assignment. -/
def isAssignment : Op → Bool
  | assign | addAssign | subtractAssign | multiplyAssign | divideAssign | remainderAssign
  | andAssign | orAssign | xorAssign | shiftLeftAssign | shiftRightZeroAssign
  | shiftRightAssign => true
  | _ => false

/-- The result is a truth value whatever the operands are. -/
def isPredicate : Op → Bool
  | orElse | andAlso | equal | notEqual | not | atLeast | greater | atMost | less
  | instanceOf => true
  | _ => false

/-- The two right shifts, whose characters may also close nested type-argument lists. -/
def isRightShift : Op → Bool
  | shiftRight | shiftRightZero => true
  | _ => false

/-- Increment, decrement and negation. -/
def isUnary : Op → Bool
  | increment | decrement | not => true
  | _ => false

/-- An operand precedes a sign that directly follows this operator. -/
def endsOperand : Op → Bool
  | closeParen | closeBracket | increment | decrement => true
  | _ => false

/-- Level of a sign that stands in front of its operand. -/
def signLevel : Nat := 16

theorem mem_all (op : Op) : op ∈ all := by
  cases op <;> decide

end Op
end MethodLowering
