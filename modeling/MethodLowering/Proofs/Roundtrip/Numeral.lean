import MethodLowering.Proofs.Roundtrip.Tree

/-!
# Numerals

The grammar of integers and floating-point numbers, and what a reading that knows no numerals has to
see of them: letters, digits and points, and signs behind exponent marks.
-/

namespace MethodLowering

open Text

/-! ## The grammar -/

namespace Numeral

def isOctalDigit (c : Char) : Bool := '0' ≤ c && c ≤ '7'

def isBinaryDigit (c : Char) : Bool := c == '0' || c == '1'

def isHexDigit (c : Char) : Bool := isDigit c || ('a' ≤ c && c ≤ 'f') || ('A' ≤ c && c ≤ 'F')

/-- Digits of a kind, with underscores between them. -/
structure AreDigits (isDigit : Char → Bool) (text : List Char) : Prop where
  first : text.head?.any isDigit = true
  last : text.getLast?.any isDigit = true
  all : ∀ c ∈ text, isDigit c = true ∨ c = '_'

/-- One of the characters, or nothing. -/
def IsOptional (chars text : List Char) : Prop := text = [] ∨ ∃ c ∈ chars, text = [c]

/-- An integer without its suffix. -/
inductive IsInteger : List Char → Prop where
  | decimal {digits : List Char} (are : AreDigits isDigit digits)
      (first : digits.head? ≠ some '0' ∨ digits = ['0']) : IsInteger digits
  | octal {digits : List Char} (are : AreDigits isOctalDigit ('0' :: digits)) (more : digits ≠ []) :
      IsInteger ('0' :: digits)
  | hexadecimal {mark : Char} {digits : List Char} (marks : mark ∈ ['x', 'X'])
      (are : AreDigits isHexDigit digits) : IsInteger ('0' :: mark :: digits)
  | binary {mark : Char} {digits : List Char} (marks : mark ∈ ['b', 'B'])
      (are : AreDigits isBinaryDigit digits) : IsInteger ('0' :: mark :: digits)

/-- A point with digits on one side of it at least. -/
inductive IsPointed (isDigit : Char → Bool) : List Char → Prop where
  | behind {fraction : List Char} (are : AreDigits isDigit fraction) :
      IsPointed isDigit ('.' :: fraction)
  | ahead {whole : List Char} (are : AreDigits isDigit whole) : IsPointed isDigit (whole ++ ['.'])
  | between {whole fraction : List Char} (wholeDigits : AreDigits isDigit whole)
      (fractionDigits : AreDigits isDigit fraction) : IsPointed isDigit (whole ++ '.' :: fraction)

/-- One of the marks with a decimal number, which may have a sign. -/
inductive IsExponent (marks : List Char) : List Char → Prop where
  | of {mark : Char} {sign digits : List Char} (marked : mark ∈ marks)
      (signed : IsOptional ['+', '-'] sign) (are : AreDigits isDigit digits) :
      IsExponent marks (mark :: (sign ++ digits))

end Numeral

open Numeral in
/-- A literal of a number. -/
inductive IsNumeral : List Char → Prop where
  | integer {whole suffix : List Char} (isInteger : IsInteger whole)
      (suffixed : IsOptional ['l', 'L'] suffix) : IsNumeral (whole ++ suffix)
  | decimal {significand exponent suffix : List Char}
      (significant : (AreDigits isDigit significand ∧ (exponent ≠ [] ∨ suffix ≠ [])) ∨
        IsPointed isDigit significand)
      (exponential : exponent = [] ∨ IsExponent ['e', 'E'] exponent)
      (suffixed : IsOptional ['f', 'F', 'd', 'D'] suffix) :
      IsNumeral (significand ++ exponent ++ suffix)
  | hexadecimal {mark : Char} {significand exponent suffix : List Char} (marks : mark ∈ ['x', 'X'])
      (significant : AreDigits isHexDigit significand ∨ IsPointed isHexDigit significand)
      (exponential : IsExponent ['p', 'P'] exponent)
      (suffixed : IsOptional ['f', 'F', 'd', 'D'] suffix) :
      IsNumeral ('0' :: mark :: significand ++ exponent ++ suffix)

namespace Numeral

/-- Each point stands in front of a decimal digit. -/
def PointsAhead (text : List Char) : Prop :=
  ∀ front rest, text = front ++ '.' :: rest → rest.head?.any isDigit = true

/-- No sign stands behind the exponent mark of a hexadecimal number. -/
def MarksUnsigned (text : List Char) : Prop :=
  ∀ front mark sign rest, text = front ++ mark :: sign :: rest → mark ∈ ['p', 'P'] →
    sign ∉ ['+', '-']

/-- The test holds of every character with what follows it. -/
def holdsAlong (test : Char → List Char → Bool) : List Char → Bool
  | [] => true
  | c :: rest => test c rest && holdsAlong test rest

theorem holdsAlong_iff {test : Char → List Char → Bool} {text : List Char} :
    holdsAlong test text = true ↔ ∀ front c rest, text = front ++ c :: rest →
    test c rest = true := by
  induction text with
  | nil => simp [holdsAlong]
  | cons first text induction =>
      rw [holdsAlong, Bool.and_eq_true, induction]
      constructor
      · rintro ⟨here, later⟩ front c rest split
        cases front with
        | nil =>
            obtain ⟨rfl, rfl⟩ := List.cons.inj split
            exact here
        | cons other front => exact later front c rest (List.cons.inj split).2
      · intro along
        refine ⟨along [] first text rfl, fun front c rest split => ?_⟩
        exact along (first :: front) c rest (by rw [split, List.cons_append])

instance (text : List Char) : Decidable (PointsAhead text) :=
  decidable_of_iff (holdsAlong (fun c rest => c != '.' || rest.head?.any isDigit) text = true) <| by
    rw [holdsAlong_iff]
    constructor
    · intro along front rest split
      simpa using along front '.' rest split
    · intro points front c rest split
      by_cases point : c = '.'
      · rw [points front rest (by rw [split, point]), Bool.or_true]
      · rw [bne_iff_ne.2 point, Bool.true_or]

instance (text : List Char) : Decidable (MarksUnsigned text) :=
  decidable_of_iff (holdsAlong
      (fun c rest => !(['p', 'P'].contains c) || !rest.head?.any ['+', '-'].contains) text = true)
        <| by
    rw [holdsAlong_iff]
    constructor
    · intro along front mark sign rest split marked
      have tested : (!(['p', 'P'].contains mark) || !(['+', '-'].contains sign)) = true :=
        along front mark (sign :: rest) split
      rw [List.contains_iff_mem.2 marked, Bool.not_true, Bool.false_or] at tested
      simpa using tested
    · intro unsigned front mark rest split
      by_cases marked : mark ∈ ['p', 'P']
      · cases rest with
        | nil => exact Bool.or_true _
        | cons sign rest =>
            have other : ['+', '-'].contains sign = false := by
              simpa using unsigned front mark sign rest split marked
            rw [List.head?_cons, Option.any_some, other, Bool.not_false, Bool.or_true]
      · rw [Bool.or_eq_true, Bool.not_eq_true', List.contains_eq_mem, decide_eq_false_iff_not]
        exact .inl marked

/-! ## What the scanner has to know -/

/-- What stands around a sign inside a number: a digit behind it, and in front of it an exponent
mark behind a decimal number. -/
inductive IsSigned : List Char → List Char → Prop where
  | of {significand rest : List Char} {mark : Char} (marked : mark ∈ ['e', 'E'])
      (decimal : ∀ c ∈ significand, isLetter c = false)
      (last : significand.getLast?.any isDigit = true) (behind : rest.head?.any isDigit = true) :
      IsSigned (significand ++ [mark]) rest

/-- A text of letters, digits, points and signs that stand as they do in numbers. -/
structure IsPlain (text : List Char) : Prop where
  first : text.head?.any (fun c => isDigit c || c == '.') = true
  chars : ∀ c ∈ text, isNameChar c = true ∨ c = '.' ∨ c ∈ ['+', '-']
  points : PointsAhead text
  signs : ∀ front sign rest, text = front ++ sign :: rest → sign ∈ ['+', '-'] → IsSigned front rest

section

variable {text whole digits significand exponent suffix rest : List Char} {c mark sign : Char}
  {isKind property : Char → Bool}

theorem isNameChar_of_isDigit (digit : isDigit c = true) : isNameChar c = true := by
  have ascii : c.isDigit = true := isDigit_iff.2 (by simpa [isDigit, Char.le_def] using digit)
  simp [isNameChar_eq, ascii]

theorem isNameChar_of_isOctalDigit (digit : isOctalDigit c = true) : isNameChar c = true := by
  simp only [isOctalDigit, Bool.and_eq_true, decide_eq_true_eq] at digit
  refine isNameChar_of_isDigit ?_
  simp only [isDigit, Bool.and_eq_true, decide_eq_true_eq]
  exact ⟨digit.1, Char.le_trans digit.2 (by decide)⟩

theorem isNameChar_of_isBinaryDigit (digit : isBinaryDigit c = true) : isNameChar c = true := by
  simp only [isBinaryDigit, Bool.or_eq_true, beq_iff_eq] at digit
  rcases digit with rfl | rfl <;> decide

theorem isNameChar_of_isHexDigit (digit : isHexDigit c = true) : isNameChar c = true := by
  simp only [isHexDigit, Bool.or_eq_true, Bool.and_eq_true, decide_eq_true_eq] at digit
  rcases digit with (digit | ⟨low, high⟩) | ⟨low, high⟩
  · exact isNameChar_of_isDigit digit
  · have lower : c.isLower = true := isLower_iff.2 ⟨low, Char.le_trans high (by decide)⟩
    exact isNameChar_of_isLower lower
  · have upper : c.isUpper = true := isUpper_iff.2 ⟨low, Char.le_trans high (by decide)⟩
    simp [isNameChar_eq, upper]

theorem isLetter_of_isDigit (digit : isDigit c = true) : isLetter c = false := by
  have low := toNat_lt_of_isNameChar (isNameChar_of_isDigit digit)
  revert digit
  apply of_ascii low
  decide

/-- Points and signs are no letters, digits or underscores. -/
theorem isNameChar_mark : ∀ c ∈ ['.', '+', '-'], isNameChar c = false := by decide

theorem AreDigits.isNameChar (are : AreDigits isKind digits)
    (kind : ∀ c, isKind c = true → MethodLowering.isNameChar c = true) (c : Char)
    (among : c ∈ digits) :
    MethodLowering.isNameChar c = true := by
  rcases are.all c among with digit | rfl
  · exact kind c digit
  · decide

theorem AreDigits.ne_nil (are : AreDigits isKind digits) : digits ≠ [] := by
  rintro rfl
  exact Bool.false_ne_true are.first

theorem IsOptional.isNameChar {chars : List Char} (optional : IsOptional chars text)
    (kind : ∀ c ∈ chars, MethodLowering.isNameChar c = true) (c : Char) (among : c ∈ text) :
    MethodLowering.isNameChar c = true := by
  rcases optional with rfl | ⟨other, isOther, rfl⟩
  · contradiction
  · rw [List.mem_singleton.1 among]
    exact kind other isOther

theorem any_head?_append (first : text.head?.any property = true) :
    (text ++ rest).head?.any property = true := by
  cases text with
  | nil => contradiction
  | cons c text => exact first

/-- The place of an element that stands in a list only once. -/
theorem split_unique {among : Char → Prop} {front front' rest rest' : List Char} {c c' : Char}
    (same : front ++ c :: rest = front' ++ c' :: rest') (isFirst : ∀ other ∈ front, ¬ among other)
    (isLast : ∀ other ∈ rest, ¬ among other) (holds : among c') :
    front' = front ∧ c' = c ∧ rest' = rest := by
  rcases List.append_eq_append_iff.1 same with ⟨more, rfl, later⟩ | ⟨more, rfl, later⟩
  · cases more with
    | nil =>
        obtain ⟨rfl, rfl⟩ := List.cons.inj later
        exact ⟨List.append_nil _, rfl, rfl⟩
    | cons first more =>
        obtain ⟨rfl, rfl⟩ := List.cons.inj later
        exact absurd holds (isLast c' (by simp))
  · cases more with
    | nil =>
        obtain ⟨rfl, rfl⟩ := List.cons.inj later
        exact ⟨(List.append_nil _).symm, rfl, rfl⟩
    | cons first more =>
        obtain ⟨rfl, rfl⟩ := List.cons.inj later
        exact absurd holds (isFirst c' (by simp))

/-! ## Numerals are plain -/

theorem not_sign (bare : isNameChar c = true ∨ c = '.') : c ∉ ['+', '-'] := by
  intro sign
  rcases bare with isName | rfl
  · rw [isNameChar_mark c (List.mem_cons_of_mem _ sign)] at isName
    contradiction
  · revert sign
    decide

/-- Without signs only the points count. -/
theorem isPlain_of_bare (first : text.head?.any (fun c => isDigit c || c == '.') = true)
    (bare : ∀ c ∈ text, isNameChar c = true ∨ c = '.') (points : PointsAhead text) :
    IsPlain text := by
  refine ⟨first, fun c among => (bare c among).imp_right .inl, points, ?_⟩
  rintro front sign rest rfl signed
  exact absurd signed (not_sign (bare sign (by simp)))

theorem isPlain_of_signed (first : significand.head?.any (fun c => isDigit c || c == '.') = true)
    (decimal : ∀ c ∈ significand, isDigit c = true ∨ c = '_' ∨ c = '.')
    (last : significand.getLast?.any isDigit = true) (marked : mark ∈ ['e', 'E'])
    (signed : sign ∈ ['+', '-']) (behind : rest.head?.any isDigit = true)
    (names : ∀ c ∈ rest, isNameChar c = true)
    (points : PointsAhead (significand ++ [mark] ++ sign :: rest)) :
    IsPlain (significand ++ [mark] ++ sign :: rest) := by
  have isBare (c : Char) (among : c ∈ significand ++ [mark]) : isNameChar c = true ∨ c = '.' := by
    rcases List.mem_append.1 among with inFront | same
    · rcases decimal c inFront with digit | rfl | rfl
      · exact .inl (isNameChar_of_isDigit digit)
      · exact .inl (by decide)
      · exact .inr rfl
    · have letters : ∀ c ∈ ['e', 'E'], isNameChar c = true := by decide
      rw [List.mem_singleton.1 same]
      exact .inl (letters mark marked)
  have noLetter (c : Char) (among : c ∈ significand) : isLetter c = false := by
    rcases decimal c among with digit | rfl | rfl
    · exact isLetter_of_isDigit digit
    · decide
    · decide
  refine ⟨?_, fun c among => ?_, points, fun front' sign' rest' split isSign => ?_⟩
  · rw [List.append_assoc]
    exact any_head?_append first
  · rcases List.mem_append.1 among with inFront | behindMark
    · exact (isBare c inFront).imp_right .inl
    · rcases List.mem_cons.1 behindMark with rfl | inRest
      · exact .inr (.inr signed)
      · exact .inl (names c inRest)
  · obtain ⟨rfl, -, rfl⟩ := split_unique split (fun c among => not_sign (isBare c among))
      (fun c among => not_sign (.inl (names c among))) isSign
    exact .of marked noLetter last behind

theorem IsInteger.isNameChar (integer : IsInteger whole) (c : Char) (among : c ∈ whole) :
    MethodLowering.isNameChar c = true := by
  have prefixed {mark : Char} {digits : List Char} (isMark : MethodLowering.isNameChar mark = true)
      (are : ∀ c ∈ digits, MethodLowering.isNameChar c = true)
      (among : c ∈ '0' :: mark :: digits) : MethodLowering.isNameChar c = true := by
    rcases List.mem_cons.1 among with rfl | later
    · decide
    · rcases List.mem_cons.1 later with rfl | inDigits
      · exact isMark
      · exact are c inDigits
  cases integer with
  | decimal are => exact are.isNameChar (fun _ => isNameChar_of_isDigit) c among
  | octal are => exact are.isNameChar (fun _ => isNameChar_of_isOctalDigit) c among
  | hexadecimal marks are =>
      have letters : ∀ c ∈ ['x', 'X'], MethodLowering.isNameChar c = true := by decide
      exact prefixed (letters _ marks) (are.isNameChar fun _ => isNameChar_of_isHexDigit) among
  | binary marks are =>
      have letters : ∀ c ∈ ['b', 'B'], MethodLowering.isNameChar c = true := by decide
      exact prefixed (letters _ marks) (are.isNameChar fun _ => isNameChar_of_isBinaryDigit) among

theorem IsInteger.first (integer : IsInteger whole) :
    whole.head?.any (fun c => isDigit c || c == '.') = true := by
  cases integer with
  | decimal are =>
      obtain ⟨c, here, digit⟩ := (Option.any_eq_true _ _).1 are.first
      rw [here, Option.any_some, digit, Bool.true_or]
  | octal | hexadecimal | binary => rfl

theorem IsPointed.chars (pointed : IsPointed isKind significand) (c : Char)
    (among : c ∈ significand) :
    isKind c = true ∨ c = '_' ∨ c = '.' := by
  cases pointed with
  | behind are =>
      rcases List.mem_cons.1 among with rfl | later
      · exact .inr (.inr rfl)
      · exact (are.all c later).imp_right .inl
  | ahead are =>
      rcases List.mem_append.1 among with inWhole | point
      · exact (are.all c inWhole).imp_right .inl
      · exact .inr (.inr (List.mem_singleton.1 point))
  | between wholeDigits fractionDigits =>
      rcases List.mem_append.1 among with inWhole | later
      · exact (wholeDigits.all c inWhole).imp_right .inl
      · rcases List.mem_cons.1 later with rfl | inFraction
        · exact .inr (.inr rfl)
        · exact (fractionDigits.all c inFraction).imp_right .inl

/-- Digits, or a point with digits. -/
def IsSignificand (isKind : Char → Bool) (text : List Char) : Prop :=
  AreDigits isKind text ∨ IsPointed isKind text

theorem IsSignificand.chars (significant : IsSignificand isKind significand) (c : Char)
    (among : c ∈ significand) : isKind c = true ∨ c = '_' ∨ c = '.' := by
  rcases significant with are | pointed
  · exact (are.all c among).imp_right .inl
  · exact pointed.chars c among

theorem IsSignificand.bare (significant : IsSignificand isKind significand)
    (kind : ∀ c, isKind c = true → isNameChar c = true) (c : Char) (among : c ∈ significand) :
    isNameChar c = true ∨ c = '.' := by
  rcases significant.chars c among with digit | rfl | rfl
  · exact .inl (kind c digit)
  · exact .inl (by decide)
  · exact .inr rfl

theorem AreDigits.first_or (are : AreDigits isKind text) :
    text.head?.any (fun c => isKind c || c == '.') = true := by
  obtain ⟨c, here, digit⟩ := (Option.any_eq_true _ _).1 are.first
  rw [here, Option.any_some, digit, Bool.true_or]

theorem IsSignificand.first (significant : IsSignificand isKind significand) :
    significand.head?.any (fun c => isKind c || c == '.') = true := by
  rcases significant with are | pointed
  · exact are.first_or
  · cases pointed with
    | behind are => simp
    | ahead are => exact any_head?_append are.first_or
    | between wholeDigits fractionDigits => exact any_head?_append wholeDigits.first_or

/-- A significand does not end with a point where something else than a digit follows. -/
theorem IsSignificand.last (significant : IsSignificand isDigit significand)
    (points : PointsAhead (significand ++ mark :: rest)) (letter : isDigit mark = false) :
    significand.getLast?.any isDigit = true := by
  rcases significant with are | pointed
  · exact are.last
  · cases pointed with
    | behind are =>
        rw [List.getLast?_cons_of_ne_nil are.ne_nil]
        exact are.last
    | ahead are =>
        have digit := points _ _ (by rw [List.append_assoc, List.singleton_append])
        rw [List.head?_cons, Option.any_some, letter] at digit
        contradiction
    | between wholeDigits fractionDigits =>
        rw [List.getLast?_append_cons, List.getLast?_cons_of_ne_nil fractionDigits.ne_nil]
        exact fractionDigits.last

/-- An exponent without sign adds letters and digits only. -/
theorem isPlain_of_unsigned (first : significand.head?.any (fun c => isDigit c || c == '.') = true)
    (bare : ∀ c ∈ significand, isNameChar c = true ∨ c = '.') (marked : isNameChar mark = true)
    (are : AreDigits isDigit digits) (names : ∀ c ∈ suffix, isNameChar c = true)
    (points : PointsAhead (significand ++ (mark :: digits ++ suffix))) :
    IsPlain (significand ++ (mark :: digits ++ suffix)) := by
  refine isPlain_of_bare (any_head?_append first) (fun c among => ?_) points
  rcases List.mem_append.1 among with inFront | behind
  · exact bare c inFront
  · refine .inl ?_
    rcases List.mem_append.1 behind with inExponent | inSuffix
    · rcases List.mem_cons.1 inExponent with rfl | inDigits
      · exact marked
      · exact are.isNameChar (fun _ => isNameChar_of_isDigit) c inDigits
    · exact names c inSuffix

/-- A numeral whose points and signs stand where they count is plain. -/
theorem isPlain_of_isNumeral (numeral : IsNumeral text) (points : PointsAhead text)
    (unsigned : MarksUnsigned text) : IsPlain text := by
  cases numeral with
  | @integer whole suffix isInteger suffixed =>
      refine isPlain_of_bare (any_head?_append isInteger.first) (fun c among => .inl ?_) points
      rcases List.mem_append.1 among with inWhole | inSuffix
      · exact isInteger.isNameChar c inWhole
      · exact suffixed.isNameChar (by decide) c inSuffix
  | @decimal significand exponent suffix significant exponential suffixed =>
      have isSignificand : IsSignificand isDigit significand := significant.imp_left And.left
      have bare := isSignificand.bare fun _ => isNameChar_of_isDigit
      have suffixName := suffixed.isNameChar (by decide)
      rw [List.append_assoc] at points ⊢
      rcases exponential with rfl | exponential
      · refine isPlain_of_bare (any_head?_append isSignificand.first) (fun c among => ?_) points
        rcases List.mem_append.1 among with inFront | inSuffix
        · exact bare c inFront
        · exact .inl (suffixName c inSuffix)
      · cases exponential with
        | @of mark sign digits marked signed are =>
            have letters : ∀ c ∈ ['e', 'E'], isNameChar c = true ∧ isDigit c = false := by decide
            rcases signed with rfl | ⟨sign, isSign, rfl⟩
            · exact isPlain_of_unsigned isSignificand.first bare (letters mark marked).1
                are suffixName
                points
            · have last := isSignificand.last points (letters mark marked).2
              have split : significand ++ (mark :: ([sign] ++ digits) ++ suffix) =
                  significand ++ [mark] ++ sign :: (digits ++ suffix) := by simp
              rw [split] at points ⊢
              refine isPlain_of_signed isSignificand.first isSignificand.chars last marked isSign
                (any_head?_append are.first) (fun c among => ?_) points
              rcases List.mem_append.1 among with inDigits | inSuffix
              · exact are.isNameChar (fun _ => isNameChar_of_isDigit) c inDigits
              · exact suffixName c inSuffix
  | @hexadecimal mark significand exponent suffix marks significant exponential suffixed =>
      have isSignificand : IsSignificand isHexDigit significand := significant
      cases exponential with
      | @of exponentMark sign digits marked signed are =>
          rcases signed with rfl | ⟨sign, isSign, rfl⟩
          · rw [List.append_assoc] at points ⊢
            have prefixName : ∀ c ∈ ['x', 'X'], isNameChar c = true := by decide
            have markName : ∀ c ∈ ['p', 'P'], isNameChar c = true := by decide
            have first :
                ('0' :: mark :: significand).head?.any (fun c => isDigit c || c == '.') = true :=
              rfl
            refine isPlain_of_unsigned first (fun c among => ?_) (markName _ marked) are
              (suffixed.isNameChar (by decide)) points
            rcases List.mem_cons.1 among with rfl | later
            · exact .inl (by decide)
            · rcases List.mem_cons.1 later with rfl | inside
              · exact .inl (prefixName _ marks)
              · exact isSignificand.bare (fun _ => isNameChar_of_isHexDigit) c inside
          · have split :
                '0' :: mark :: significand ++ exponentMark :: ([sign] ++ digits) ++ suffix =
                '0' :: mark :: significand ++ exponentMark :: sign :: (digits ++ suffix) := by simp
            exact absurd isSign (unsigned _ _ _ _ split marked)

theorem IsPlain.isBlank (plain : IsPlain text) (c : Char) (among : c ∈ text) :
    Text.isBlank c = false := by
  have marks : ∀ c ∈ ['.', '+', '-'], Text.isBlank c = false := by decide
  rcases plain.chars c among with isName | rfl | sign
  · exact (isNameChar_plain isName).2.1
  · exact marks _ (by simp)
  · exact marks c (List.mem_cons_of_mem _ sign)

end

end Numeral

end MethodLowering
