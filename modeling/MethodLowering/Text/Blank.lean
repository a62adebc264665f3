/-!
# Blank characters and trimming

Statement text is trimmed and split at blanks everywhere.  A blank is a character with the Unicode
property `White_Space`, so a no-break space or an ideographic space counts and a zero-width space
does not.
-/

namespace MethodLowering
namespace Text

/-- The character has the Unicode property `White_Space`. -/
def isBlank (c : Char) : Bool :=
  let code := c.toNat
  (0x9 ≤ code && code ≤ 0xD) || code == 0x20 || code == 0x85 || code == 0xA0 || code == 0x1680 ||
    (0x2000 ≤ code && code ≤ 0x200A) || code == 0x2028 || code == 0x2029 || code == 0x202F ||
    code == 0x205F || code == 0x3000

/-- The text without its leading blanks. -/
def trimStart (text : List Char) : List Char :=
  text.dropWhile isBlank

/-- The text without its trailing blanks. -/
def trimEnd (text : List Char) : List Char :=
  (text.reverse.dropWhile isBlank).reverse

/-- The text without its leading and trailing blanks. -/
def trim (text : List Char) : List Char :=
  trimEnd (trimStart text)

/-- A string without its leading and trailing blanks. -/
def trimmed (text : String) : String :=
  let chars := text.toList
  if chars.head?.any isBlank || chars.getLast?.any isBlank then String.ofList (trim chars) else text

@[simp]
theorem trimStart_nil : trimStart [] = [] := rfl

@[simp]
theorem trimEnd_nil : trimEnd [] = [] := rfl

theorem length_trimStart_le (text : List Char) : (trimStart text).length ≤ text.length :=
  (List.dropWhile_suffix isBlank).length_le

theorem trimStart_eq_self {text : List Char} (front : ¬ text.head?.any isBlank) :
    trimStart text = text := by
  cases text with
  | nil => rfl
  | cons c rest => simp_all [trimStart]

theorem trimEnd_eq_self {text : List Char} (back : ¬ text.getLast?.any isBlank) :
    trimEnd text = text := by
  rw [trimEnd, ← trimStart, trimStart_eq_self (by simpa using back), List.reverse_reverse]

theorem trimmed_eq (text : String) : trimmed text = String.ofList (trim text.toList) := by
  rw [trimmed]
  split
  · rfl
  · next solid =>
      simp only [Bool.or_eq_true, not_or] at solid
      rw [trim, trimStart_eq_self solid.1, trimEnd_eq_self solid.2, String.ofList_toList]

end Text
end MethodLowering
