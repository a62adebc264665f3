/-!
# Lines and bytes of a source text

A line ends at a line feed; a carriage return directly in front of it belongs to the line end.  The
text behind the last line feed is a line of its own unless it is empty.

Positions count characters; a caller that holds the text in UTF-8 counts bytes.
-/

namespace MethodLowering
namespace Text

/-- The line without a carriage return at its end. -/
def dropReturn (line : List Char) : List Char :=
  if line.getLast? == some '\r' then line.dropLast else line

/-- The lines of a text; `current` is the line being read, reversed. -/
def linesFrom (current : List Char) : List Char → List (List Char)
  | [] => if current.isEmpty then [] else [current.reverse]
  | c :: rest =>
      if c == '\n' then dropReturn current.reverse :: linesFrom [] rest
      else linesFrom (c :: current) rest

/-- The lines of a text. -/
def lines (text : List Char) : List (List Char) := linesFrom [] text

/-! ## Byte offsets -/

/-- Number of bytes of the text in UTF-8. -/
def byteLength : List Char → Nat
  | [] => 0
  | c :: rest => c.utf8Size + byteLength rest

/-- Byte offset of a position. -/
def byteOffset (text : List Char) (position : Nat) : Nat := byteLength (text.take position)

/-- Position at a byte offset; `none` inside a character or past the end. -/
def position? : List Char → Nat → Option Nat
  | _, 0 => some 0
  | [], _ + 1 => none
  | c :: rest, offset =>
      if offset < c.utf8Size then none else (position? rest (offset - c.utf8Size)).map (· + 1)

end Text
end MethodLowering
