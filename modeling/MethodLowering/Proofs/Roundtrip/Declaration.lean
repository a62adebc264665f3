import MethodLowering.Proofs.Reduction.Declaring
import MethodLowering.Proofs.Roundtrip.Outline

/-!
# Written declarations

A type and a name with a blank between them declare a variable; with a colon and a chain of members,
calls and indices behind them they are the header of a loop over a collection.
-/

namespace MethodLowering

open Text Reduction

/-- A word that may be a declared type: a letter followed by letters, digits and underscores, and a
primitive type or no reserved word. -/
def isTypeWord (word : List Char) : Bool :=
  word.head?.any isLetter && word.all isNameChar &&
    (TypeName.primitives.contains (String.ofList word) ||
      !reservedWords.contains (String.ofList word))

/-! ## Words between blanks -/

namespace Text

/-- Words with blanks between them. -/
def inWords (front : List (List Char)) (last : List Char) : List Char :=
  front.flatMap (fun word => word ++ [' ']) ++ last

/-- Behind the start of a word, the text is read as part of the word. -/
def Stays (depth after : Nat) (text : List Char) : Prop :=
  ∀ start position rest, wordSpansFrom .outside depth (some start) position (text ++ rest) =
    wordSpansFrom .outside after (some start) (position + text.length) rest

/-- The text is one word wherever it stands between blanks. -/
structure IsPiece (text : List Char) : Prop where
  starts : ∃ first rest, text = first :: rest ∧ isBlank first = false ∧ first ≠ '<' ∧ first ≠ '['
  ends : ¬ text.getLast?.any isBlank = true
  stays : Stays 0 0 text

section

variable {depth after : Nat} {text more word last rest : List Char} {front : List (List Char)}
  {current : Span} {spans : List Span} {c : Char}

theorem inWords_cons (word : List Char) (front : List (List Char)) (last : List Char) :
    inWords (word :: front) last = word ++ ' ' :: inWords front last := by
  simp [inWords]

theorem stays_nil (depth : Nat) : Stays depth depth [] := fun _ _ _ => rfl

theorem Stays.append {between : Nat} (first : Stays depth between text)
    (second : Stays between after more) :
    Stays depth after (text ++ more) := by
  intro start position rest
  rw [List.append_assoc, first, second, List.length_append, Nat.add_assoc]

theorem stays_char (unquoted : isQuoteMark c = false)
    (inside : (angleDepth depth c == 0 && isBlank c) = false) :
    Stays depth (angleDepth depth c) [c] := by
  intro start position rest
  rw [List.singleton_append, wordSpansFrom]
  simp only [Quote.covers, Quote.next, unquoted, Bool.not_false, Bool.true_and,
    Bool.false_eq_true, if_false,
    inside, Option.getD_some, List.length_singleton]

/-- Characters that are neither quotes nor angle brackets, blanks only between such brackets. -/
theorem stays_of_plain (plain : ∀ c ∈ text, isQuoteMark c = false ∧ c ≠ '<' ∧ c ≠ '>')
    (solid : depth = 0 → ∀ c ∈ text, isBlank c = false) : Stays depth depth text := by
  induction text with
  | nil => exact stays_nil depth
  | cons c text induction =>
      obtain ⟨unquoted, less, greater⟩ := plain c List.mem_cons_self
      have same : angleDepth depth c = depth := by
        rw [angleDepth, if_neg (by rwa [beq_iff_eq]), if_neg (by rwa [beq_iff_eq])]
      have inside : (angleDepth depth c == 0 && isBlank c) = false := by
        rw [same, Bool.and_eq_false_iff, beq_eq_false_iff_ne, or_iff_not_imp_left, not_not]
        exact fun zero => solid zero c List.mem_cons_self
      have first : Stays depth (angleDepth depth c) [c] := stays_char unquoted inside
      rw [same] at first
      exact first.append (induction (fun other among => plain other (List.mem_cons_of_mem c among))
        fun zero other among => solid zero other (List.mem_cons_of_mem c among))

/-- A text of letters and the like is one word. -/
theorem isPiece_of_solid (present : text ≠ []) (solid : ∀ c ∈ text,
      isBlank c = false ∧ isQuoteMark c = false ∧ c ≠ '<' ∧ c ≠ '>' ∧ c ≠ '[') : IsPiece text := by
  obtain ⟨first, rest, rfl⟩ := List.exists_cons_of_ne_nil present
  obtain ⟨blank, -, less, -, bracket⟩ := solid first List.mem_cons_self
  refine ⟨⟨first, rest, rfl, blank, less, bracket⟩, ?_, stays_of_plain (fun c among => ?_)
    fun _ c among => (solid c among).1⟩
  · rw [List.getLast?_eq_some_getLast present, Option.any_some,
      (solid _ (List.getLast_mem present)).1]
    exact Bool.false_ne_true
  · obtain ⟨-, unquoted, less, greater, -⟩ := solid c among
    exact ⟨unquoted, less, greater⟩

/-- A word starts where no word is being read. -/
theorem IsPiece.wordSpansFrom_eq (piece : IsPiece word) (position : Nat) (rest : List Char) :
    wordSpansFrom .outside 0 none position (word ++ rest) =
      wordSpansFrom .outside 0 (some position) (position + word.length) rest := by
  rw [← piece.stays]
  obtain ⟨first, others, rfl, solid, -⟩ := piece.starts
  rw [List.cons_append, wordSpansFrom, wordSpansFrom]
  simp only [solid, Bool.and_false, Bool.false_eq_true, if_false, Option.getD_none,
    Option.getD_some]

theorem slice_word (front word back : List Char) :
    Span.slice ⟨front.length, front.length + word.length⟩ (front ++ word ++ back) = word := by
  simp [Span.slice, Span.length]

theorem glueFrom_of_apart (apart : ∀ span ∈ spans, continuesWord text span = false) :
    glueFrom text current spans = current :: spans := by
  induction spans generalizing current with
  | nil => rfl
  | cons span spans induction =>
      rw [glueFrom, apart span List.mem_cons_self, if_neg Bool.false_ne_true,
        induction fun other among => apart other (List.mem_cons_of_mem span among)]

/-- No word is joined to the one in front of it. -/
theorem IsPiece.continuesWord_eq (piece : IsPiece word) (lead rest : List Char) (stop : Nat) :
    continuesWord (lead ++ word ++ rest) ⟨lead.length, stop⟩ = false := by
  obtain ⟨first, others, rfl, -, less, bracket⟩ := piece.starts
  rw [continuesWord]
  simp [less, bracket]

section

variable (pieces : ∀ word ∈ front, IsPiece word) (piece : IsPiece last)
include pieces piece

/-- The spans of words between blanks, behind any text. -/
theorem exists_wordSpans (lead : List Char) :
    ∃ first spans, wordSpansFrom .outside 0 none lead.length (inWords front last) = first :: spans ∧
      (∀ span ∈ first :: spans, continuesWord (lead ++ inWords front last) span = false) ∧
      (first :: spans).map (fun span => span.slice (lead ++ inWords front last)) =
        front ++ [last] := by
  induction front generalizing lead with
  | nil =>
      have found := piece.wordSpansFrom_eq lead.length []
      have slice := slice_word lead last []
      have alone := piece.continuesWord_eq lead []
      simp only [List.append_nil] at found slice alone
      refine ⟨_, [], found, fun span among => ?_, congrArg (· :: []) slice⟩
      rw [List.mem_singleton.1 among]
      exact alone _
  | cons word front induction =>
      have here := pieces word List.mem_cons_self
      obtain ⟨first, spans, found, apart, slices⟩ := induction
        (fun other among => pieces other (List.mem_cons_of_mem word among)) (lead ++ word ++ [' '])
      have whole : lead ++ word ++ [' '] ++ inWords front last =
          lead ++ inWords (word :: front) last := by
        rw [inWords_cons]
        simp
      have begins : lead ++ inWords (word :: front) last =
          lead ++ word ++ ' ' :: inWords front last := by
        rw [inWords_cons, List.append_assoc]
      have length : (lead ++ word ++ [' ']).length = lead.length + word.length + 1 := by
        simp [Nat.add_assoc]
      rw [whole] at apart slices
      rw [length] at found
      refine ⟨⟨lead.length, lead.length + word.length⟩, first :: spans, ?_,
        fun span among => ?_, ?_⟩
      · rw [inWords_cons, here.wordSpansFrom_eq, wordSpansFrom]
        simp only [Quote.covers, Quote.next, show isQuoteMark ' ' = false by decide,
          show isBlank ' ' = true by decide, show angleDepth 0 ' ' = 0 by decide, Bool.not_false,
          Bool.and_true, Bool.false_eq_true, if_false, BEq.rfl, if_true]
        rw [found]
      · rcases List.mem_cons.1 among with rfl | later
        · rw [begins]
          exact here.continuesWord_eq lead _ _
        · exact apart span later
      · rw [List.map_cons, slices, begins, slice_word]
        rfl

/-- The words between blanks are the words of the text. -/
theorem words_inWords : words (inWords front last) = front ++ [last] := by
  obtain ⟨first, spans, found, apart, slices⟩ := exists_wordSpans pieces piece []
  rw [List.nil_append] at apart slices
  rw [words, show wordSpansFrom .outside 0 none 0 (inWords front last) = first :: spans from found]
  dsimp only
  rw [glueFrom_of_apart fun span among => apart span (List.mem_cons_of_mem first among), slices]

/-- Words between blanks do not start with a blank. -/
theorem head?_inWords : ¬ (inWords front last).head?.any isBlank = true := by
  cases front with
  | nil =>
      obtain ⟨first, rest, rfl, solid, -⟩ := piece.starts
      simp [inWords, solid]
  | cons word front =>
      obtain ⟨first, rest, rfl, solid, -⟩ := (pieces word List.mem_cons_self).starts
      simp [inWords_cons, solid]

/-- Words between blanks have no blanks around them. -/
theorem trim_inWords : trim (inWords front last) = inWords front last := by
  have ends : ¬ (inWords front last).getLast?.any isBlank = true := by
    obtain ⟨first, rest, same, -⟩ := piece.starts
    rw [inWords, List.getLast?_append_of_ne_nil _ (by rw [same]; exact List.cons_ne_nil _ _)]
    exact piece.ends
  rw [trim, trimStart_eq_self (head?_inWords pieces piece), trimEnd_eq_self ends]

end

end

end Text

/-! ## Words of a declaration -/

section

variable {type name word last : List Char} {front : List (List Char)} {c : Char}

/-- Name characters neither split words nor belong to the notation of types. -/
theorem isNameChar_inert (isChar : isNameChar c = true) :
    c ≠ '<' ∧ c ≠ '>' ∧ c ≠ '[' ∧ c ≠ ']' ∧ c ≠ '.' ∧ c ≠ '|' ∧ c ≠ ' ' := by
  have other {mark : Char} (plain : isNameChar mark = false) : c ≠ mark := by
    rintro rfl
    rw [isChar] at plain
    contradiction
  exact ⟨other (by decide), other (by decide), other (by decide), other (by decide),
    other (by decide),
    other (by decide), other (by decide)⟩

theorem isLetter_plain (letter : isLetter c = true) :
    isNameChar c = true ∧ isAlphabetic c = true ∧ isDigit c = false ∧ c ≠ '-' ∧ c ≠ '+' := by
  have low : c.toNat < 128 := by
    simp only [isLetter, isUpper, Bool.or_eq_true, Bool.and_eq_true, decide_eq_true_eq] at letter
    rcases letter with ⟨-, high⟩ | ⟨-, high⟩
    · exact toNat_lt_of_le high (by decide)
    · exact toNat_lt_of_le high (by decide)
  revert letter
  apply of_ascii low
  decide

/-- A type word starts with a letter, consists of name characters and is no modifier or operator. -/
structure TypeWord (word : List Char) : Prop where
  starts : ∃ first rest, word = first :: rest ∧ isLetter first = true
  letters : ∀ c ∈ word, isNameChar c = true
  free : ∀ reserved, reserved ∈ reservedWords → reserved ∉ TypeName.primitives →
    String.ofList word ≠ reserved

theorem typeWord_of_isTypeWord (isType : isTypeWord word = true) : TypeWord word := by
  simp only [isTypeWord, Bool.and_eq_true, Bool.or_eq_true, Bool.not_eq_true', List.contains_eq_mem,
    decide_eq_true_eq, decide_eq_false_iff_not] at isType
  obtain ⟨⟨letter, letters⟩, kind⟩ := isType
  refine ⟨?_, List.all_eq_true.1 letters, ?_⟩
  · cases word with
    | nil => contradiction
    | cons first rest => exact ⟨first, rest, rfl, letter⟩
  · rintro reserved listed other rfl
    rcases kind with primitive | free
    · exact other primitive
    · exact free listed

theorem TypeWord.ne_instanceOf (isType : TypeWord word) : word ≠ Op.instanceOf.spelling := by
  intro same
  have free := isType.free "instanceof" (by decide) (by decide)
  rw [same] at free
  exact free rfl

/-- A text of name characters is one word. -/
theorem isPiece_of_isNameChar (present : word ≠ []) (letters : ∀ c ∈ word, isNameChar c = true) :
    IsPiece word := by
  refine isPiece_of_solid present fun c among => ?_
  obtain ⟨-, blank, unquoted⟩ := isNameChar_plain (letters c among)
  obtain ⟨less, greater, bracket, -⟩ := isNameChar_inert (letters c among)
  exact ⟨blank, unquoted, less, greater, bracket⟩

theorem TypeWord.isPiece (isType : TypeWord type) : IsPiece type := by
  obtain ⟨first, rest, same, -⟩ := isType.starts
  exact isPiece_of_isNameChar (by rw [same]; exact List.cons_ne_nil _ _) isType.letters

theorem isPiece_of_isName (isVar : isName name = true) : IsPiece name := by
  obtain ⟨first, rest, same, -⟩ := exists_of_isName isVar
  exact isPiece_of_isNameChar (by rw [same]; exact List.cons_ne_nil _ _)
    fun c among => isNameChar_of_mem isVar among

theorem inWords_declaration (type name : List Char) :
    inWords [type] name = type ++ ' ' :: name := by
  simp [inWords]

/-- The words of a declaration are its type and its name. -/
theorem words_declaration (isType : TypeWord type) (isVar : isName name = true) :
    words (type ++ ' ' :: name) = [type, name] := by
  rw [← inWords_declaration, words_inWords (by simpa using isType.isPiece)
    (isPiece_of_isName isVar)]
  rfl

/-- A name has no array dimensions. -/
theorem strip_of_inert (inert : ∀ c ∈ name, isBlank c = false ∧ c ≠ ']' ∧ c ≠ '.') :
    TypeName.strip name = (name, 0) := by
  have pairs : TypeName.stripPairs name.reverse = (name.reverse, 0) := by
    cases reversed : name.reverse with
    | nil => rw [TypeName.stripPairs]
    | cons c rest =>
        have among : c ∈ name := by
          rw [← List.mem_reverse, reversed]
          exact List.mem_cons_self
        have bracket := (inert c among).2.1
        rw [TypeName.stripPairs, if_neg (by rwa [beq_iff_eq])]
  rw [TypeName.strip, trim_of_solid fun c among => (inert c among).1]
  dsimp only
  split
  · next rest same =>
      have among : '.' ∈ name := by
        rw [← List.mem_reverse, same]
        exact List.mem_cons_self
      exact absurd rfl (inert '.' among).2.2
  · rw [pairs, List.reverse_reverse]

/-- Modifiers, a type and a name declare a variable. -/
theorem declared?_typed (modify : ∀ word ∈ front, isModifier word = true)
    (plain : isModifier type = false)
    (typed : areTypeWords [type] = true) (bare : TypeName.strip name = (name, 0))
    (named : isVariableName name = true) :
    declared? (front ++ [type] ++ [name]) =
      some (.variable (String.ofList name) (String.ofList type)
      (front.any fun word => String.ofList word == "final")
      (front.any fun word => String.ofList word == "static")) := by
  rw [declared?, List.append_assoc, List.takeWhile_append_of_pos modify,
    List.dropWhile_append_of_pos modify,
    List.singleton_append, List.takeWhile_cons_of_neg (by rw [plain]; exact Bool.false_ne_true),
    List.dropWhile_cons_of_neg (by rw [plain]; exact Bool.false_ne_true), List.append_nil]
  simp only [List.reverse_cons, List.reverse_nil, List.nil_append, List.singleton_append, typed,
    if_true, bare,
    named]
  rfl

/-- A type word and a name declare a variable. -/
theorem declared?_words (isType : TypeWord type) (isVar : isName name = true) :
    declared? [type, name] =
      some (.variable (String.ofList name) (String.ofList type) false false) := by
  have plain : isModifier type = false := by
    rw [isModifier, List.contains_eq_mem, decide_eq_false_iff_not, modifiers]
    simp only [List.mem_cons, List.not_mem_nil, or_false, not_or]
    exact ⟨isType.free _ (by decide) (by decide), isType.free _ (by decide) (by decide),
      isType.free _ (by decide) (by decide), isType.free _ (by decide) (by decide)⟩
  have typed : areTypeWords [type] = true := by
    obtain ⟨first, rest, same, letter⟩ := isType.starts
    have alphabetic := (isLetter_plain letter).2.1
    have inside : type.all isTypeChar = true := by
      rw [List.all_eq_true]
      intro c among
      rw [isTypeChar, (isNameChar_plain (isType.letters c among)).1]
      rfl
    rw [areTypeWords, List.all_cons, inside, List.head?_cons, Option.bind_some, same,
      List.head?_cons,
      Option.any_some, alphabetic]
    rfl
  have bare : TypeName.strip name = (name, 0) := by
    refine strip_of_inert fun c among => ?_
    have isChar := isNameChar_of_mem isVar among
    obtain ⟨-, -, -, bracket, dot, -⟩ := isNameChar_inert isChar
    exact ⟨(isNameChar_plain isChar).2.1, bracket, dot⟩
  have named : isVariableName name = true := by
    obtain ⟨first, rest, same, lower⟩ := exists_of_isName isVar
    have inside : name.all isWordChar = true :=
      List.all_eq_true.2 fun c among => (isNameChar_plain (isNameChar_of_mem isVar among)).1
    rw [isVariableName, inside, same, List.head?_cons, Option.any_some, (isLower_plain lower).1]
    rfl
  exact @declared?_typed type name [] (by simp) plain typed bare named

/-- Neither a type nor a name has blanks around it. -/
theorem trim_declaration (isType : TypeWord type) (isVar : isName name = true) :
    trim (type ++ ' ' :: name) = type ++ ' ' :: name := by
  rw [← inWords_declaration, trim_inWords (by simpa using isType.isPiece) (isPiece_of_isName isVar)]

/-- Several words of which the first starts with a letter are no literal, no name and, where it is
not `new`, no construction. -/
theorem leafForm?_inWords (pieces : ∀ other ∈ word :: front, IsPiece other) (piece : IsPiece last)
    (letter : word.head?.any isLetter = true)
    (noNew : "new ".toList.isPrefixOf (inWords (word :: front) last) = false) :
    leafForm? (inWords (word :: front) last) = none := by
  have free : String.ofList (inWords (word :: front) last) ∉ valueWords := by
    have solid : ∀ value ∈ valueWords, ' ' ∉ value.toList := by decide
    intro listed
    have among := solid _ listed
    rw [String.toList_ofList, inWords_cons] at among
    simp at among
  have several : ¬ (words (inWords (word :: front) last)).length ≤ 1 := by
    rw [words_inWords pieces piece]
    simp
  have trimmed := trim_inWords pieces piece
  obtain ⟨first, others, rfl⟩ : ∃ first others, word = first :: others := by
    obtain ⟨first, others, same, -⟩ := (pieces word List.mem_cons_self).starts
    exact ⟨first, others, same⟩
  rw [List.head?_cons, Option.any_some] at letter
  obtain ⟨isChar, -, digit, minus, plus⟩ := isLetter_plain letter
  rw [inWords_cons, List.cons_append] at free several trimmed noNew ⊢
  rw [leafForm?_of_free trimmed (isNameChar_plain isChar).2.2 digit
    ⟨minus, plus, (isNameChar_inert isChar).2.2.2.2.1⟩ free, if_neg several, noNew,
      if_neg Bool.false_ne_true]

/-- Two words are no literal, no name and no construction. -/
theorem leafForm?_declaration (isType : TypeWord type) (isVar : isName name = true) :
    leafForm? (type ++ ' ' :: name) = none := by
  obtain ⟨first, others, same, letter⟩ := isType.starts
  have noConstruction : "new ".toList.isPrefixOf (type ++ ' ' :: name) = false := by
    rw [Bool.eq_false_iff, ne_eq, List.isPrefixOf_iff_prefix]
    intro starts
    have isNew : type = "new".toList := by
      rcases type with _ | ⟨a, _ | ⟨b, _ | ⟨c, _ | ⟨d, rest⟩⟩⟩⟩
      · simp at same
      · simp [List.cons_prefix_cons] at starts
      · simp [List.cons_prefix_cons] at starts
      · simp [List.cons_prefix_cons] at starts
        obtain ⟨rfl, rfl, rfl⟩ := starts
        rfl
      · have solid := isNameChar_inert (isType.letters d (by simp))
        simp [List.cons_prefix_cons] at starts
        exact absurd starts.2.2.2.symm solid.2.2.2.2.2.2
    exact isType.free "new" (by decide) (by decide) (by rw [isNew]; rfl)
  rw [← inWords_declaration] at noConstruction ⊢
  refine leafForm?_inWords (by simpa using isType.isPiece) (isPiece_of_isName isVar) ?_
    noConstruction
  rw [same, List.head?_cons, Option.any_some, letter]

end

/-! ## Scanning a declaration -/

namespace Token

variable {type name : List Char} {rest : List Token}

/-- A type word and a name with what stands behind them. -/
def declared (type name : List Char) (rest : List Token) : List Token :=
  .word type :: .blank :: .word name :: rest

theorem text_declared : text (declared type name rest) = type ++ ' ' :: (name ++ text rest) := rfl

/-- A scan finds the tokens of a declaration and of what stands behind it. -/
theorem tag?_scan_declared (isType : TypeWord type) (apart : AreApart (.word name :: rest))
    (p : Nat) :
    (Ledger.scan (text (declared type name rest))).tag? p =
      ((declared type name rest).flatMap tags)[p]? := by
  refine tag?_of_hasRead ?_ p
  obtain ⟨isVar, alone, later⟩ := apart
  obtain ⟨initial, further, same, lower⟩ := exists_of_isName isVar
  have solid : (text (.word name :: rest)).head?.any (fun c => !isBlank c) = true := by
    rw [text_cons, Token.chars, same, List.cons_append, List.head?_cons, Option.any_some,
      (isNameChar_plain (isNameChar_of_isLower lower)).2.1]
    rfl
  have letters (c : Char) (among : c ∈ name) := isNameChar_of_mem isVar among
  have ordinary := @Scanner.ordinary_behind type (.word name :: rest) ⟨isVar, alone, later⟩ solid
  have length : (text (declared type name rest)).length =
      type.length + ((name.length + (text rest).length) + 1) := by
    rw [text_declared, List.length_append, List.length_cons, List.length_append]
  have start := hasRead_start (declared type name rest)
  have typed := start.skip (Scanner.tags_word isType.letters)
  have spaced := typed.skip rfl
  have named := spaced.skip (Scanner.tags_word letters)
  have passed := (start.run_word isType.letters isType.ne_instanceOf rfl _).trans
    ((typed.run_blank _).trans
      (spaced.run_word letters (Scanner.ne_instanceOf isVar) alone (text rest).length))
  rw [length, passed]
  have positive : 0 < name.length := by
    rw [same]
    exact Nat.succ_pos _
  refine named.run_eq ordinary ?_ later (Nat.le_refl _)
  simp only [Token.chars, List.length_singleton]
  omega

theorem filled_declared (isType : TypeWord type) (apart : AreApart (.word name :: rest))
    (chars : List Char) (among : .word chars ∈ declared type name rest) : chars ≠ [] := by
  rcases List.mem_cons.1 among with same | later
  · obtain ⟨first, others, filled, -⟩ := isType.starts
    rw [Token.word.inj same, filled]
    exact List.cons_ne_nil _ _
  · exact filled_of_apart apart chars (by simpa using later)

end Token

end MethodLowering
