/-!
# Quoted literals

A statement text is read from left to right with one piece of memory: whether the reader stands
inside a character or string literal.  Brackets, operators and separators inside a literal are
plain text, so every scan of statement text carries a `Quote`.
-/

namespace MethodLowering
namespace Text

/-- Where a left-to-right reading stands with respect to quoted literals. -/
inductive Quote where
  /-- Not in a literal. -/
  | outside
  /-- In a literal opened by `delimiter`; `escaped` after an unescaped backslash. -/
  | inside (delimiter : Char) (escaped : Bool)
deriving DecidableEq, Repr

/-- A single or double quote. -/
def isQuoteMark (c : Char) : Bool := c == '"' || c == '\''

namespace Quote

/-- Reading `c` next, the character belongs to a literal, its delimiters included. -/
def covers : Quote → Char → Bool
  | outside, c => isQuoteMark c
  | inside _ _, _ => true

/-- Where the reading stands after `c`. -/
def next : Quote → Char → Quote
  | outside, c => if isQuoteMark c then inside c false else outside
  | inside delimiter true, _ => inside delimiter false
  | inside delimiter false, c =>
      if c == '\\' then inside delimiter true
      else if c == delimiter then outside
      else inside delimiter false

/-- The reading stands in an unfinished literal. -/
def isInside : Quote → Bool
  | outside => false
  | inside _ _ => true

/-- Where the reading stands after a whole text. -/
def after (quote : Quote) (text : List Char) : Quote := text.foldl next quote

/-- For each character of the text, whether it belongs to a literal. -/
def marks : Quote → List Char → List Bool
  | _, [] => []
  | quote, c :: rest => quote.covers c :: marks (quote.next c) rest

@[simp]
theorem after_nil (quote : Quote) : quote.after [] = quote := rfl

@[simp]
theorem after_cons (quote : Quote) (c : Char) (rest : List Char) :
    quote.after (c :: rest) = (quote.next c).after rest := rfl

@[simp]
theorem after_append (quote : Quote) (left right : List Char) :
    quote.after (left ++ right) = (quote.after left).after right :=
  List.foldl_append

/-- A character outside every literal leaves the reading outside. -/
theorem next_of_not_covers {quote : Quote} {c : Char} (plain : quote.covers c = false) :
    quote = outside ∧ quote.next c = outside := by
  cases quote with
  | outside => exact ⟨rfl, by simpa [next, covers] using plain⟩
  | inside delimiter escaped => simp [covers] at plain

end Quote
end Text
end MethodLowering
