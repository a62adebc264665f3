import Mathlib.Data.List.Forall2
import MethodLowering.Reduction.Leaf

/-!
# Written expressions

An expression as somebody writes it: names, groups, chains of members, calls and indices, operators
with their precedence, conditionals and assignments.  A tree has no places; it says how it is
written, token by token, and what expression it is to be read as.  Its names consist of word
characters that mean nothing else, so a text that is a name is read as one.
-/

namespace MethodLowering

namespace Op

/-- The operators between two operands, from `||` to `%`. -/
def isBinary (op : Op) : Bool := 10 ≤ op.row.level && op != .not

/-- Increment and decrement. -/
def isStep (op : Op) : Bool := op == .increment || op == .decrement

/-- The operators in front of any unary operand. -/
def isMark (op : Op) : Bool := op == .plus || op == .minus || op == .not

/-- With this character behind it, the operator reads as the start of a longer one. -/
def absorbs (op : Op) (c : Char) : Bool :=
  all.any fun longer => (op.spelling ++ [c]).isPrefixOf longer.spelling

section

variable {op : Op}

theorem level_le (op : Op) : op.row.level ≤ 20 := by
  cases op <;> decide

theorem ten_le_level (binary : op.isBinary = true) : 10 ≤ op.row.level := by
  simp only [isBinary, Bool.and_eq_true, decide_eq_true_eq] at binary
  exact binary.1

theorem level_of_isStep (step : op.isStep = true) : op.row.level = 9 := by
  revert step
  cases op <;> decide

theorem sixteen_le_level (mark : op.isMark = true) : 16 ≤ op.row.level := by
  revert mark
  cases op <;> decide

theorem not_isClosing_of_isBinary (binary : op.isBinary = true) : op.isClosing = false := by
  revert binary
  cases op <;> decide

theorem not_isClosing_of_isAssignment (assigns : op.isAssignment = true) :
    op.isClosing = false := by
  revert assigns
  cases op <;> decide

theorem level_of_isAssignment (assigns : op.isAssignment = true) : op.row.level = 4 := by
  revert assigns
  cases op <;> decide

end

end Op

/-- Words that are no names. -/
def reservedWords : List String :=
  ["abstract", "assert", "boolean", "break", "byte", "case", "catch", "char", "class", "const",
    "continue", "default", "do", "double", "else", "enum", "extends", "false", "final", "finally",
    "float", "for", "goto", "if", "implements", "import", "instanceof", "int", "interface", "long",
    "native", "new", "null", "package", "private", "protected", "public", "return", "short",
    "static", "strictfp", "super", "switch", "synchronized", "this", "throw", "throws", "transient",
    "true", "try", "void", "volatile", "while"]

/-- The character may stand in a name. -/
def isNameChar (c : Char) : Bool := c.isAlphanum || c == '_'

/-- Words that name values. -/
def valueWords : List String := ["null", "this", "super", "true", "false"]

theorem valueWords_reserved : ∀ value ∈ valueWords, value ∈ reservedWords := by decide

/-- A lower-case letter followed by letters, digits and underscores, and no reserved word. -/
def isName (word : List Char) : Bool :=
  word.head?.any Char.isLower && word.all isNameChar && !reservedWords.contains (String.ofList word)

/-- One token of a written expression. -/
inductive Token where
  | word (chars : List Char)
  | op (op : Op)
  /-- A single blank between tokens. -/
  | blank
deriving DecidableEq, Repr

/-- The characters of a token. -/
def Token.chars : Token → List Char
  | word chars => chars
  | op found => found.spelling
  | blank => [' ']

/-- The text of tokens. -/
def Token.text (tokens : List Token) : List Char := tokens.flatMap Token.chars

/-- An expression without places. -/
inductive Tree where
  | name (chars : List Char)
  /-- An expression in round brackets. -/
  | group (inner : Tree)
  | call (callee : List Char) (arguments : List Tree)
  | index (target : Tree) (indices : List Tree)
  /-- A member of a subject: a name, a call, or an index of one of them. -/
  | member (subject link : Tree)
  /-- An operator in front of its operand. -/
  | leading (op : Op) (operand : Tree)
  /-- An operator behind its operand. -/
  | trailing (operand : Tree) (op : Op)
  | binary (op : Op) (left right : Tree)
  | conditional (condition first second : Tree)
  | assignment (op : Op) (target value : Tree)
deriving Inhabited

namespace Tree

/-! ## Which trees are written -/

/-- How tightly the parts of an expression hold together. -/
def rank : Tree → Nat
  | assignment .. => 4
  | conditional .. => 5
  | binary op _ _ => op.row.level
  | leading .. | trailing .. => 21
  | name _ | group _ | call .. | index .. | member .. => 22

/-- Indices directly follow names, calls and groups; those behind a member belong to the member. -/
def takesIndices : Tree → Bool
  | name _ | call .. | group _ => true
  | _ => false

/-- A member is a name or a call, with or without indices. -/
def isLink : Tree → Bool
  | name _ | call .. => true
  | index target _ =>
      match target with
      | name _ | call .. => true
      | _ => false
  | _ => false

mutual

/-- Names are names, chains have the form in which they are read, and groups stand at least where
the ranks of operands call for them. -/
def isWellFormed : Tree → Bool
  | name chars => isName chars
  | group inner => inner.isWellFormed
  | call callee arguments => isName callee && areWellFormed arguments
  | index target indices =>
      target.takesIndices && target.isWellFormed && !indices.isEmpty && areWellFormed indices
  | member subject link =>
      22 ≤ subject.rank && subject.isWellFormed && link.isLink && link.isWellFormed
  | leading op operand =>
      ((op.isMark && 21 ≤ operand.rank) || (op.isStep && 22 ≤ operand.rank)) && operand.isWellFormed
  | trailing operand op => op.isStep && 22 ≤ operand.rank && operand.isWellFormed
  | binary op left right =>
      op.isBinary && op.row.level ≤ left.rank && op.row.level < right.rank && left.isWellFormed &&
        right.isWellFormed
  | conditional condition first second =>
      10 ≤ condition.rank && 5 ≤ first.rank && 5 ≤ second.rank && condition.isWellFormed &&
        first.isWellFormed && second.isWellFormed
  | assignment op target value =>
      op.isAssignment && 22 ≤ target.rank && target.isWellFormed && value.isWellFormed

/-- All trees of a list are well formed. -/
def areWellFormed : List Tree → Bool
  | [] => true
  | tree :: rest => tree.isWellFormed && areWellFormed rest

end

/-! ## How trees are written -/

/-- An operator with a blank on both sides. -/
def spaced (op : Op) : List Token := [.blank, .op op, .blank]

/-- A blank where the operator would join the first operator of what follows. -/
def gapBehind (op : Op) (following : List Token) : List Token :=
  if (Token.text following).head?.any op.absorbs then [.blank] else []

mutual

/-- The tokens of an expression: one blank around operators between operands, one behind commas, and
one between operators that would otherwise join. -/
def tokens : Tree → List Token
  | name chars => [.word chars]
  | group inner => .op .openParen :: inner.tokens ++ [.op .closeParen]
  | call callee arguments =>
      .word callee :: .op .openParen :: listTokens arguments ++ [.op .closeParen]
  | index target indices => target.tokens ++ indexTokens indices
  | member subject link => subject.tokens ++ .op .dot :: link.tokens
  | leading op operand => .op op :: gapBehind op operand.tokens ++ operand.tokens
  | trailing operand op => operand.tokens ++ [.op op]
  | binary op left right => left.tokens ++ spaced op ++ right.tokens
  | conditional condition first second =>
      condition.tokens ++ spaced .question ++ first.tokens ++ spaced .colon ++ second.tokens
  | assignment op target value => target.tokens ++ spaced op ++ value.tokens

/-- The tokens of arguments. -/
def listTokens : List Tree → List Token
  | [] => []
  | first :: rest => first.tokens ++ furtherTokens rest

/-- The tokens of arguments behind another one. -/
def furtherTokens : List Tree → List Token
  | [] => []
  | next :: rest => .op .comma :: .blank :: next.tokens ++ furtherTokens rest

/-- The tokens of indices, each in its own square brackets. -/
def indexTokens : List Tree → List Token
  | [] => []
  | next :: rest => .op .openBracket :: next.tokens ++ .op .closeBracket :: indexTokens rest

end

/-- The text of an expression. -/
def print (tree : Tree) : List Char := Token.text tree.tokens

/-! ## What trees are read as -/

/-- The expression has the shape of the tree; numbers and spans of nodes are free. -/
inductive Pictures : Tree → Expr → Prop where
  | name {chars : List Char} {node : Node} (text : node.text = String.ofList chars) :
      Pictures (.name chars) (.leaf node .identifier)
  | group {inner : Tree} {node : Node} {item : Expr} (first : Pictures inner item) :
      Pictures (.group inner) (.group node false [item])
  | call {callee : List Char} {arguments : List Tree} {node head : Node} {items : List Expr}
      (text : head.text = String.ofList callee) (all : List.Forall₂ Pictures arguments items) :
      Pictures (.call callee arguments) (.call node (.leaf head .identifier) items)
  | index {target : Tree} {indices : List Tree} {node : Node} {expr : Expr} {items : List Expr}
      (first : Pictures target expr) (all : List.Forall₂ Pictures indices items) :
      Pictures (.index target indices) (.index node expr items .absent)
  | member {subject link : Tree} {node : Node} {left right : Expr} (first : Pictures subject left)
      (second : Pictures link right) : Pictures (.member subject link) (.access node left right)
  | leading {op : Op} {operand : Tree} {node : Node} {expr : Expr} (first : Pictures operand expr) :
      Pictures (.leading op operand) (.operation node op .absent expr)
  | trailing {op : Op} {operand : Tree} {node : Node} {expr : Expr}
      (first : Pictures operand expr) :
      Pictures (.trailing operand op) (.operation node op expr .absent)
  | binary {op : Op} {left right : Tree} {node : Node} {first second : Expr}
      (one : Pictures left first) (other : Pictures right second) :
      Pictures (.binary op left right) (.operation node op first second)
  | conditional {condition first second : Tree} {node branches : Node} {test one other : Expr}
      (tested : Pictures condition test) (left : Pictures first one)
        (right : Pictures second other) :
      Pictures (.conditional condition first second)
        (.operation node .question test (.operation branches .colon one other))
  | assignment {op : Op} {target value : Tree} {node : Node} {left right : Expr}
      (first : Pictures target left) (second : Pictures value right) :
      Pictures (.assignment op target value) (.assignment node op left right)

mutual

/-- Every tree is the shape of some expression. -/
theorem exists_pictures : ∀ tree : Tree, ∃ expr, tree.Pictures expr
  | .name chars => ⟨.leaf ⟨0, ⟨0, 0⟩, String.ofList chars⟩ .identifier, .name rfl⟩
  | .group inner =>
      have ⟨_, pictures⟩ := exists_pictures inner
      ⟨.group ⟨0, ⟨0, 0⟩, ""⟩ _ _, .group pictures⟩
  | .call callee arguments =>
      have ⟨_, all⟩ := exists_forall₂_pictures arguments
      ⟨.call ⟨0, ⟨0, 0⟩, ""⟩ (.leaf ⟨0, ⟨0, 0⟩, String.ofList callee⟩ .identifier) _, .call rfl all⟩
  | .index target indices =>
      have ⟨_, pictures⟩ := exists_pictures target
      have ⟨_, all⟩ := exists_forall₂_pictures indices
      ⟨.index ⟨0, ⟨0, 0⟩, ""⟩ _ _ _, .index pictures all⟩
  | .member subject link =>
      have ⟨_, left⟩ := exists_pictures subject
      have ⟨_, right⟩ := exists_pictures link
      ⟨.access ⟨0, ⟨0, 0⟩, ""⟩ _ _, .member left right⟩
  | .leading _ operand =>
      have ⟨_, pictures⟩ := exists_pictures operand
      ⟨.operation ⟨0, ⟨0, 0⟩, ""⟩ _ _ _, .leading pictures⟩
  | .trailing operand _ =>
      have ⟨_, pictures⟩ := exists_pictures operand
      ⟨.operation ⟨0, ⟨0, 0⟩, ""⟩ _ _ _, .trailing pictures⟩
  | .binary _ left right =>
      have ⟨_, one⟩ := exists_pictures left
      have ⟨_, other⟩ := exists_pictures right
      ⟨.operation ⟨0, ⟨0, 0⟩, ""⟩ _ _ _, .binary one other⟩
  | .conditional condition first second =>
      have ⟨_, tested⟩ := exists_pictures condition
      have ⟨_, left⟩ := exists_pictures first
      have ⟨_, right⟩ := exists_pictures second
      ⟨.operation ⟨0, ⟨0, 0⟩, ""⟩ _ _ (.operation ⟨0, ⟨0, 0⟩, ""⟩ _ _ _),
        .conditional tested left right⟩
  | .assignment _ target value =>
      have ⟨_, left⟩ := exists_pictures target
      have ⟨_, right⟩ := exists_pictures value
      ⟨.assignment ⟨0, ⟨0, 0⟩, ""⟩ _ _ _, .assignment left right⟩

theorem exists_forall₂_pictures : ∀ items : List Tree, ∃ exprs, List.Forall₂ Pictures items exprs
  | [] => ⟨[], .nil⟩
  | tree :: rest =>
      have ⟨_, first⟩ := exists_pictures tree
      have ⟨_, others⟩ := exists_forall₂_pictures rest
      ⟨_ :: _, .cons first others⟩

end

end Tree

/-! ## Names -/

section

open Text

variable {c : Char} {word : List Char}

theorem isNameChar_eq (c : Char) :
    isNameChar c = (c.isUpper || c.isLower || c.isDigit || c == '_') := rfl

theorem isLower_iff : c.isLower = true ↔ 'a'.val ≤ c.val ∧ c.val ≤ 'z'.val := by
  rw [show c.isLower = (decide ('a'.val ≤ c.val) && decide (c.val ≤ 'z'.val)) from rfl,
    Bool.and_eq_true, decide_eq_true_eq, decide_eq_true_eq]

theorem isUpper_iff : c.isUpper = true ↔ 'A'.val ≤ c.val ∧ c.val ≤ 'Z'.val := by
  rw [show c.isUpper = decide ('A'.val ≤ c.val ∧ c.val ≤ 'Z'.val) from rfl, decide_eq_true_eq]

theorem isDigit_iff : c.isDigit = true ↔ '0'.val ≤ c.val ∧ c.val ≤ '9'.val := by
  rw [show c.isDigit = (decide ('0'.val ≤ c.val) && decide (c.val ≤ '9'.val)) from rfl,
    Bool.and_eq_true, decide_eq_true_eq, decide_eq_true_eq]

theorem toNat_lt_of_le {last : Char} (low : c.val ≤ last.val) (ascii : last.toNat < 128) :
    c.toNat < 128 :=
  Nat.lt_of_le_of_lt (UInt32.le_iff_toNat_le.1 low) ascii

theorem toNat_lt_of_isNameChar (isChar : isNameChar c = true) : c.toNat < 128 := by
  simp only [isNameChar_eq, Bool.or_eq_true, beq_iff_eq, isUpper_iff, isLower_iff,
    isDigit_iff] at isChar
  rcases isChar with ((⟨-, low⟩ | ⟨-, low⟩) | ⟨-, low⟩) | rfl
  · exact toNat_lt_of_le low (by decide)
  · exact toNat_lt_of_le low (by decide)
  · exact toNat_lt_of_le low (by decide)
  · decide

/-- What holds of the first characters, one by one, holds of each of them. -/
theorem of_ascii {property : Char → Prop} (low : c.toNat < 128)
    (all : ∀ n : Fin 128, property (Char.ofNat n)) : property c := by
  have found : property (Char.ofNat c.toNat) := all ⟨c.toNat, low⟩
  rwa [Char.ofNat_toNat] at found

/-- The characters of names are word characters, no blanks and no quotation marks. -/
theorem isNameChar_plain (isChar : isNameChar c = true) :
    isWordChar c = true ∧ isBlank c = false ∧ isQuoteMark c = false := by
  have low := toNat_lt_of_isNameChar isChar
  revert isChar
  apply of_ascii low
  decide

/-- A name starts with a lower-case letter. -/
theorem exists_of_isName (name : isName word = true) :
    ∃ first rest, word = first :: rest ∧ first.isLower = true := by
  simp only [isName, Bool.and_eq_true] at name
  cases word with
  | nil => simp at name
  | cons first rest => exact ⟨first, rest, rfl, by simpa using name.1.1⟩

theorem isNameChar_of_mem (name : isName word = true) (among : c ∈ word) : isNameChar c = true := by
  simp only [isName, Bool.and_eq_true] at name
  exact List.all_eq_true.1 name.1.2 c among

theorem ne_of_isName (name : isName word = true) {reserved : String}
    (listed : reserved ∈ reservedWords) : String.ofList word ≠ reserved := by
  rintro rfl
  simp only [isName, Bool.and_eq_true, Bool.not_eq_true', List.contains_eq_mem,
    decide_eq_false_iff_not] at name
  exact name.2 listed

theorem isNameChar_of_isLower (lower : c.isLower = true) : isNameChar c = true := by
  simp [isNameChar_eq, lower]

/-- A lower-case letter starts no literal and no type name. -/
theorem isLower_plain (lower : c.isLower = true) :
    isDigit c = false ∧ isUpper c = false ∧ c ≠ '-' ∧ c ≠ '+' ∧ c ≠ '.' := by
  have low := toNat_lt_of_isNameChar (isNameChar_of_isLower lower)
  revert lower
  apply of_ascii low
  decide

theorem trim_of_solid (solid : ∀ c ∈ word, isBlank c = false) : trim word = word := by
  have front : ¬ word.head?.any isBlank = true := by
    cases word with
    | nil => simp
    | cons c rest => simp [solid c]
  have back : ¬ word.getLast?.any isBlank = true := by
    rcases List.eq_nil_or_concat' word with rfl | ⟨rest, last, rfl⟩
    · simp
    · rw [List.getLast?_concat, Option.any_some, solid last (by simp)]
      exact Bool.false_ne_true
  rw [trim, trimStart_eq_self front, trimEnd_eq_self back]

theorem wordSpansFrom_of_solid (solid : ∀ c ∈ word, isBlank c = false) (quote : Quote)
    (depth start position : Nat) :
    wordSpansFrom quote depth (some start) position word = [⟨start, position + word.length⟩] := by
  induction word generalizing quote depth position with
  | nil => rfl
  | cons c rest induction =>
      have later := fun other among => solid other (List.mem_cons_of_mem c among)
      rw [wordSpansFrom, solid c List.mem_cons_self, Bool.and_false, if_neg Bool.false_ne_true,
        Option.getD_some, induction later, List.length_cons]
      congr 2
      omega

theorem length_words_of_solid (solid : ∀ c ∈ word, isBlank c = false) :
    (words word).length ≤ 1 := by
  cases word with
  | nil => exact Nat.zero_le _
  | cons c rest =>
      have later := fun other among => solid other (List.mem_cons_of_mem c among)
      have spans : wordSpansFrom .outside 0 none 0 (c :: rest) = [⟨0, 0 + 1 + rest.length⟩] := by
        rw [wordSpansFrom, solid c List.mem_cons_self, Bool.and_false, if_neg Bool.false_ne_true,
          Option.getD_none, wordSpansFrom_of_solid later]
      rw [words, spans]
      exact Nat.le_refl _

/-- What starts as no literal and is no value is a name, a construction or several other words. -/
theorem leafForm?_of_free {first : Char} {rest : List Char}
    (trimmed : trim (first :: rest) = first :: rest)
    (unquoted : isQuoteMark first = false) (digit : isDigit first = false)
    (mark : first ≠ '-' ∧ first ≠ '+' ∧ first ≠ '.')
    (free : String.ofList (first :: rest) ∉ valueWords) :
    Reduction.leafForm? (first :: rest) =
      if (words (first :: rest)).length ≤ 1 then some .identifier
      else if "new ".toList.isPrefixOf (first :: rest) then
        some (.construction (String.ofList (trim ((first :: rest).drop 4))))
      else none := by
  have ne {value : String} (listed : value ∈ valueWords) :
      String.ofList (first :: rest) ≠ value := by
    rintro same
    exact free (same ▸ listed)
  have noLiteral : TypeName.literalCategory? (first :: rest) = none := by
    rw [isQuoteMark, Bool.or_eq_false_iff] at unquoted
    rw [TypeName.literalCategory?, trimmed]
    dsimp only
    rw [unquoted.1, unquoted.2, digit, beq_eq_false_iff_ne.2 mark.1, beq_eq_false_iff_ne.2 mark.2.1,
      beq_eq_false_iff_ne.2 mark.2.2]
    simp only [Bool.false_eq_true, if_false, Bool.or_self, Bool.false_and]
    split
    · next same => exact absurd same (ne (by decide))
    · next same => exact absurd same (ne (by decide))
    · next same => exact absurd same (ne (by decide))
    · next same => exact absurd same (ne (by decide))
    · rfl
  unfold Reduction.leafForm?
  split
  · next same => exact absurd same (ne (by decide))
  · next same => exact absurd same (ne (by decide))
  · next same => exact absurd same (ne (by decide))
  · rw [noLiteral, Option.any_none, if_neg Bool.false_ne_true]

/-- A text that is a name is read as one. -/
theorem leafForm?_of_isName (name : isName word = true) :
    Reduction.leafForm? word = some .identifier := by
  have solid (c : Char) (among : c ∈ word) : isBlank c = false :=
    (isNameChar_plain (isNameChar_of_mem name among)).2.1
  have free : String.ofList word ∉ valueWords := fun listed =>
    ne_of_isName name (valueWords_reserved _ listed) rfl
  obtain ⟨first, rest, rfl, lower⟩ := exists_of_isName name
  obtain ⟨digit, -, mark⟩ := isLower_plain lower
  rw [leafForm?_of_free (trim_of_solid solid) (isNameChar_plain (isNameChar_of_isLower lower)).2.2
    digit mark
    free, if_pos (length_words_of_solid solid)]

end

end MethodLowering
