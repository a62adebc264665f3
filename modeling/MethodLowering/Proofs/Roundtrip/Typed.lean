import MethodLowering.Proofs.Ledger.TypeArguments
import MethodLowering.Proofs.Roundtrip.Qualified

/-!
# Declarations of every type

A declaration is written as modifiers, a type and a name; the type may be qualified, and it may have
type arguments and dimensions.  The dots of a qualified type are folded like those of members, from
the left, and the type is put together when the last of them is.  The text in front of the first dot
is then a piece of its own: a qualifier, but nothing at all where modifiers stand in front of it.
-/

namespace MethodLowering

open Text Reduction

/-! ## Written declarations -/

/-- A name with qualifiers in front of it, and with type arguments and array dimensions.  It starts
with an upper-case letter, or is a primitive type that has nothing but dimensions. -/
structure DeclaredType where
  qualifiers : List Identifier
  last : Identifier
  arguments : Option { chars : List Char // AreTypeArguments chars }
  dimensions : Nat
  kind : last.chars.head?.any isUpper = true ∨
    String.ofList last.chars ∈ TypeName.primitives ∧ qualifiers = [] ∧ arguments = none

/-- The type arguments of a type in their brackets. -/
def DeclaredType.argumentText (type : DeclaredType) : List Char :=
  type.arguments.elim [] fun inner => '<' :: inner.val ++ ['>']

/-- What stands behind the name of a type. -/
def DeclaredType.suffix (type : DeclaredType) : List Char :=
  type.argumentText ++ (List.replicate type.dimensions ['[', ']']).flatten

/-- A type without its qualifiers. -/
def DeclaredType.unqualified (type : DeclaredType) : List Char := type.last.chars ++ type.suffix

/-- The text of a type. -/
def DeclaredType.print (type : DeclaredType) : List Char :=
  (type.qualifiers.flatMap fun qualifier => qualifier.chars ++ ['.']) ++ type.unqualified

/-- A declaration of one variable. -/
structure LocalDeclaration where
  front : List String
  type : DeclaredType
  name : Identifier
  known : ∀ modifier ∈ front, modifier ∈ modifiers

/-- The text of a declaration: its words with blanks between them. -/
def LocalDeclaration.print (written : LocalDeclaration) : List Char :=
  inWords (written.front.map String.toList ++ [written.type.print]) written.name.chars

/-- The qualifiers of the type, if any, have no modifiers in front of them, and each dot has its
round. -/
def LocalDeclaration.IsFoldable (written : LocalDeclaration) : Prop :=
  written.type.qualifiers = [] ∨
    written.front = [] ∧ written.type.qualifiers.length ≤ Limits.reductionRounds

/-- The variable that is declared in a paragraph. -/
def LocalDeclaration.entry (written : LocalDeclaration) (body : Body) (scope : ParagraphId) :
    Variable :=
  Variable.ofType body.extraContainers (String.ofList written.name.chars)
    (String.ofList written.type.print) (written.front.contains "final")
    (written.front.contains "static") .body (some scope)

/-! ## Words of a type -/

namespace Text

section

variable {depth : Nat} {text last word : List Char} {c : Char}

theorem isTypeChar_of_isBlank (blank : isBlank c = true) :
    isTypeChar c = true ∧ c ≠ '<' ∧ c ≠ '>' := by
  have other {mark : Char} (solid : isBlank mark = false) : c ≠ mark := by
    rintro rfl
    rw [blank] at solid
    contradiction
  exact ⟨by rw [isTypeChar, blank, Bool.or_true]; rfl, other (by decide), other (by decide)⟩

/-- Between angle brackets, a text of type characters is read as part of the word. -/
theorem stays_of_typeChars (typed : ∀ c ∈ text, isTypeChar c = true ∧ c ≠ '<' ∧ c ≠ '>') :
    Stays (depth + 1) (depth + 1) text := by
  refine stays_of_plain (fun c among => ?_) nofun
  obtain ⟨isType, less, greater⟩ := typed c among
  exact ⟨(isQuoteMark_of_isTypeChar isType).1, less, greater⟩

theorem stays_blanks (blank : ∀ c ∈ text, isBlank c = true) : Stays (depth + 1) (depth + 1) text :=
  stays_of_typeChars fun c among => isTypeChar_of_isBlank (blank c among)

theorem stays_angles (inner : Stays (depth + 1) (depth + 1) text) :
    Stays depth depth ('<' :: text ++ ['>']) := by
  have opens : Stays depth (depth + 1) ['<'] := stays_char (by decide) (by simp [angleDepth])
  have closes : Stays (depth + 1) depth ['>'] := stays_char (by decide) (by simp [isBlank])
  exact (opens.append inner).append closes

/-- All that a type name consists of may stand in a declared type. -/
theorem IsTypeName.typeChars (named : IsTypeName text last) :
    ∀ c ∈ text, isTypeChar c = true ∧ c ≠ '<' ∧ c ≠ '>' := by
  induction named with
  | word isName other =>
      exact fun c among => isTypeChar_of_isWordChar (isWordChar_of_isVariableName isName c among)
  | @member qualifier outer before behind word named blank isName other induction =>
      intro c among
      simp only [List.mem_append, List.mem_cons] at among
      rcases among with inFront | gap | rfl | gap | inWord
      · exact induction c inFront
      · exact isTypeChar_of_isBlank (blank c (List.mem_append_left _ gap))
      · decide
      · exact isTypeChar_of_isBlank (blank c (List.mem_append_right _ gap))
      · exact isTypeChar_of_isWordChar (isWordChar_of_isVariableName isName c inWord)

theorem boundWords_letters : ∀ keyword ∈ boundWords, ∀ c ∈ keyword, isWordChar c = true := by
  decide

/-- All that type arguments consist of may stand in a declared type. -/
theorem AreTypeArguments.typeChars (typed : AreTypeArguments text) :
    ∀ c ∈ text, isTypeChar c = true := by
  have marks : ∀ c ∈ ['<', '>', '[', ']', '?', ','], isTypeChar c = true := by decide
  have blanks {gap : List Char} (blank : ∀ c ∈ gap, isBlank c = true) :
      ∀ c ∈ gap, isTypeChar c = true :=
    fun c among => (isTypeChar_of_isBlank (blank c among)).1
  induction typed with
  | name named => exact fun c among => (named.typeChars c among).1
  | generic named upper blank typed induction =>
      simp only [List.forall_mem_append, List.forall_mem_cons]
      exact ⟨fun c among => (named.typeChars c among).1, blanks blank,
        ⟨marks _ (by decide), induction⟩, marks _ (by decide), nofun⟩
  | array typed blank induction =>
      simp only [List.forall_mem_append, List.forall_mem_cons]
      exact ⟨induction, ⟨marks _ (by decide), blanks blank⟩, marks _ (by decide), nofun⟩
  | wildcard => simpa using marks '?' (by decide)
  | bounded blank listed apart typed induction =>
      simp only [List.forall_mem_append, List.forall_mem_cons]
      exact ⟨marks _ (by decide), blanks blank,
        fun c among => (isTypeChar_of_isWordChar (boundWords_letters _ listed c among)).1,
        (isTypeChar_of_isBlank apart).1, induction⟩
  | list typed others first second =>
      simp only [List.forall_mem_append, List.forall_mem_cons]
      exact ⟨first, marks _ (by decide), second⟩
  | padded typed blank induction =>
      rw [List.forall_mem_append] at blank
      simp only [List.forall_mem_append]
      exact ⟨blanks blank.1, induction, blanks blank.2⟩

/-- Type arguments are read as part of the word that they stand in, blanks included. -/
theorem AreTypeArguments.stays (typed : AreTypeArguments text) :
    Stays (depth + 1) (depth + 1) text := by
  have marks : ∀ c ∈ ['[', ']', '?', ','], isTypeChar c = true ∧ c ≠ '<' ∧ c ≠ '>' := by decide
  have mark {c : Char} (listed : c ∈ ['[', ']', '?', ',']) (depth : Nat) :
      Stays (depth + 1) (depth + 1) [c] :=
    stays_of_typeChars fun other among => by
      rw [List.mem_singleton.1 among]
      exact marks c listed
  induction typed generalizing depth with
  | name named => exact stays_of_typeChars named.typeChars
  | generic named upper blank typed induction =>
      exact (stays_of_typeChars named.typeChars).append
        ((stays_blanks blank).append (stays_angles induction))
  | array typed blank induction =>
      have pair := ((mark (c := '[') (by decide) depth).append (stays_blanks blank)).append
        (mark (c := ']') (by decide) depth)
      exact induction.append pair
  | wildcard => exact mark (by decide) depth
  | @bounded gap keyword bound c blank listed apart typed induction =>
      have word : Stays (depth + 1) (depth + 1) keyword :=
        stays_of_typeChars fun c among =>
          isTypeChar_of_isWordChar (boundWords_letters _ listed c among)
      have space : Stays (depth + 1) (depth + 1) [c] := stays_blanks (by simpa using apart)
      exact (mark (c := '?') (by decide) depth).append
        ((stays_blanks blank).append (word.append (space.append induction)))
  | list typed others first second =>
      exact first.append ((mark (c := ',') (by decide) depth).append second)
  | padded typed blank induction =>
      rw [List.forall_mem_append] at blank
      exact (stays_blanks blank.1).append (induction.append (stays_blanks blank.2))

end

end Text

/-! ## Pieces of a declaration -/

section

variable {text more front rest : List Char} {c : Char}

theorem ends_append (left : ¬ text.getLast?.any isBlank = true)
    (right : ¬ more.getLast?.any isBlank = true) :
    ¬ (text ++ more).getLast?.any isBlank = true := by
  rw [List.getLast?_append]
  cases last : more.getLast? with
  | none => exact left
  | some c => rwa [last] at right

theorem modifiers_letters : ∀ modifier ∈ modifiers,
    modifier.toList ≠ [] ∧ ∀ c ∈ modifier.toList, isWordChar c = true := by
  decide

theorem isPiece_of_modifier {modifier : String} (listed : modifier ∈ modifiers) :
    IsPiece modifier.toList :=
  isPiece_of_letters (modifiers_letters modifier listed).1 (modifiers_letters modifier listed).2

namespace DeclaredType

variable (type : DeclaredType)

/-- Dimensions are empty pairs of square brackets. -/
theorem mem_dimensions {count : Nat} (among : c ∈ (List.replicate count ['[', ']']).flatten) :
    c = '[' ∨ c = ']' := by
  obtain ⟨pair, inPairs, among⟩ := List.mem_flatten.1 among
  rw [List.eq_of_mem_replicate inPairs] at among
  simpa using among

theorem suffix_head : type.suffix.head?.any isWordChar = false := by
  have marks : ∀ c ∈ ['<', '['], isWordChar c = false := by decide
  rw [suffix, argumentText]
  cases type.arguments with
  | some inner => exact marks '<' (by decide)
  | none =>
      cases type.dimensions with
      | zero => rfl
      | succ count => exact marks '[' (by decide)

theorem takeWhile_unqualified : type.unqualified.takeWhile isWordChar = type.last.chars := by
  rw [unqualified, List.takeWhile_append_of_pos type.last.letters]
  have head := type.suffix_head
  cases same : type.suffix with
  | nil => rw [List.takeWhile_nil, List.append_nil]
  | cons c rest =>
      rw [same] at head
      rw [List.takeWhile_cons_of_neg (by simpa using head), List.append_nil]

/-- A type starts with a letter, and not as a construction does. -/
theorem unqualified_head : type.unqualified.head?.any (fun c => isLetter c && c != 'n') = true := by
  have names : ∀ name ∈ TypeName.primitives,
      name.toList.head?.any (fun c => isLetter c && c != 'n') = true := by decide
  have first : type.unqualified.head? = type.last.chars.head? := by
    rw [unqualified, List.head?_append_of_ne_nil _ type.last.ne_nil]
  rw [first]
  rcases type.kind with upper | ⟨primitive, -⟩
  · obtain ⟨c, known, isUpper⟩ := (Option.any_eq_true _ _).1 upper
    have other : c ≠ 'n' := by
      rintro rfl
      contradiction
    rw [known, Option.any_some, isLetter, isUpper, bne_iff_ne.2 other]
    rfl
  · have known := names _ primitive
    rwa [String.toList_ofList] at known

theorem unqualified_ne_nil : type.unqualified ≠ [] :=
  List.append_ne_nil_of_left_ne_nil type.last.ne_nil _

theorem stays_unqualified : Stays 0 0 type.unqualified := by
  have word : Stays 0 0 type.last.chars := type.last.isPiece.stays
  have arguments : Stays 0 0 type.argumentText := by
    rw [argumentText]
    cases type.arguments with
    | none => exact stays_nil 0
    | some inner => exact stays_angles inner.property.stays
  have brackets : ∀ c ∈ ['[', ']'], (isQuoteMark c = false ∧ c ≠ '<' ∧ c ≠ '>') ∧
      isBlank c = false := by
    decide
  have dimensions : Stays 0 0 (List.replicate type.dimensions ['[', ']']).flatten :=
    stays_of_plain (fun c among => (brackets c (by simpa using mem_dimensions among)).1)
      fun _ c among => (brackets c (by simpa using mem_dimensions among)).2
  exact word.append (arguments.append dimensions)

theorem isPiece_unqualified : IsPiece type.unqualified := by
  refine ⟨?_, ?_, type.stays_unqualified⟩
  · obtain ⟨c, rest, same, solid, less, bracket⟩ := type.last.isPiece.starts
    exact ⟨c, rest ++ type.suffix,
      by rw [unqualified, same, List.cons_append], solid, less, bracket⟩
  · have arguments : ¬ type.argumentText.getLast?.any isBlank = true := by
      rw [argumentText]
      cases type.arguments with
      | none => exact Bool.false_ne_true
      | some inner =>
          rw [Option.elim_some, List.getLast?_concat]
          decide
    have dimensions : ¬ ((List.replicate type.dimensions ['[', ']']).flatten).getLast?.any isBlank =
        true := by
      intro blank
      obtain ⟨c, known, isBlank⟩ := (Option.any_eq_true _ _).1 blank
      rcases mem_dimensions (List.mem_of_getLast? known) with rfl | rfl <;> contradiction
    exact ends_append type.last.isPiece.ends (ends_append arguments dimensions)

theorem areTypeWords_unqualified : areTypeWords [type.unqualified] = true := by
  have marks : ∀ c ∈ ['<', '>', '[', ']'], isTypeChar c = true := by decide
  have inside : type.unqualified.all isTypeChar = true := by
    rw [List.all_eq_true]
    intro c among
    rw [unqualified, suffix, List.mem_append, List.mem_append] at among
    rcases among with inWord | inArguments | inDimensions
    · exact (isTypeChar_of_isWordChar (type.last.letters c inWord)).1
    · rw [argumentText] at inArguments
      cases same : type.arguments with
      | none =>
          rw [same] at inArguments
          contradiction
      | some inner =>
          rw [same, Option.elim_some, List.mem_append, List.mem_cons, List.mem_singleton]
            at inArguments
          rcases inArguments with (rfl | inner') | rfl
          · exact marks _ (by decide)
          · exact inner.property.typeChars c inner'
          · exact marks _ (by decide)
    · exact marks c (by rcases mem_dimensions inDimensions with rfl | rfl <;> decide)
  obtain ⟨c, known, letter⟩ := (Option.any_eq_true _ _).1 type.unqualified_head
  have alphabetic := (isLetter_plain (Bool.and_eq_true_iff.1 letter).1).2.1
  rw [areTypeWords, List.all_cons, inside, List.head?_cons, Option.bind_some, known,
    Option.any_some, alphabetic]
  rfl

/-- A type is no modifier. -/
theorem isModifier_unqualified : isModifier type.unqualified = false := by
  have others : ∀ modifier ∈ modifiers, modifier.toList.takeWhile isWordChar = modifier.toList ∧
      modifier.toList.head?.any isUpper = false ∧ modifier ∉ TypeName.primitives := by decide
  rw [isModifier, List.contains_eq_mem, decide_eq_false_iff_not]
  intro modifies
  obtain ⟨whole, lower, other⟩ := others _ modifies
  rw [String.toList_ofList, takeWhile_unqualified] at whole
  rw [String.toList_ofList, ← whole] at lower
  rw [← whole] at other
  rcases type.kind with upper | ⟨primitive, -⟩
  · rw [upper] at lower
    contradiction
  · exact other primitive

/-! ## Crossing a type -/

/-- A scan crosses the dimensions of a type in front of a name. -/
theorem crosses_dimensions (count : Nat) (front : List Char) (name : Identifier) :
    Scanner.Crosses Tag.isPlain front (List.replicate count ['[', ']']).flatten
      (' ' :: name.chars) := by
  induction count generalizing front with
  | zero => exact Scanner.crosses_blanks nofun
  | succ count induction =>
      have pair : Scanner.Crosses Tag.isPlain front ('[' :: [] ++ [']'])
          ((List.replicate count ['[', ']']).flatten ++ ' ' :: name.chars) := by
        refine Scanner.crosses_pair nofun ?_
        cases count with
        | succ count => exact fun same => absurd (Option.some.inj same) (by decide)
        | zero =>
            obtain ⟨c, rest, same, -⟩ := exists_of_isVariableName name.isName
            have isWord := name.letters c (by rw [same]; exact List.mem_cons_self)
            have solid := isBlank_of_isWordChar isWord
            rw [same, List.replicate_zero, List.flatten_nil, List.nil_append,
              List.dropWhile_cons_of_pos (by decide), List.dropWhile_cons_of_neg (by simp [solid])]
            rintro ⟨⟩
            revert isWord
            decide
      exact pair.append (induction _)

/-- A scan crosses a type in front of a name and leaves it plain. -/
theorem crosses_unqualified (front : List Char) (apart : front.getLast?.any isWordChar = false)
    (name : Identifier) :
    Scanner.Crosses Tag.isPlain front type.unqualified (' ' :: name.chars) := by
  have head : (type.suffix ++ ' ' :: name.chars).head?.any isWordChar = false := by
    have known := type.suffix_head
    cases same : type.suffix with
    | nil => exact (by decide : isWordChar ' ' = false)
    | cons c rest =>
        rw [same] at known
        exact known
  have word :
      Scanner.Crosses Tag.isPlain front type.last.chars (type.suffix ++ ' ' :: name.chars) :=
    Scanner.crosses_word type.last.letters type.last.other head
  refine word.append (Scanner.Crosses.append ?_ (crosses_dimensions _ _ name))
  rw [argumentText]
  cases known : type.arguments with
  | none => exact Scanner.crosses_blanks nofun
  | some inner =>
      have upper : type.last.chars.head?.any isUpper = true := by
        refine type.kind.resolve_right fun kind => ?_
        rw [kind.2.2] at known
        contradiction
      have closing :
          (((List.replicate type.dimensions ['[', ']']).flatten ++ ' ' :: name.chars).dropWhile
          (· == '>')).head? ≠ some '=' := by
        cases type.dimensions with
        | zero => exact fun same => absurd (Option.some.inj same) (by decide)
        | succ count => exact fun same => absurd (Option.some.inj same) (by decide)
      have ends : EndsTypeName (front ++ type.last.chars) := by
        have named := @IsTypeName.ends _ _ [] (.word type.last.isName type.last.other) front
          apart upper nofun
        rwa [List.append_nil] at named
      refine Scanner.crosses_angles ends (Scanner.not_absorbs_arguments inner.property) ?_ closing
      exact Scanner.crosses_arguments inner.property (by rw [List.getLast?_concat]; decide)
        (EndsType.close closing)

end DeclaredType

end

/-! ## Scanning a declaration of any type -/

/-- Modifiers with a blank behind each of them. -/
def modifierTokens (front : List String) : List Token :=
  front.flatMap fun modifier => [.word modifier.toList, .blank]

/-- The tokens in front of the type name. -/
def LocalDeclaration.lead (written : LocalDeclaration) : List Token :=
  modifierTokens written.front ++ qualifierTokens written.type.qualifiers

/-- The type name and what stands behind it. -/
def LocalDeclaration.rest (written : LocalDeclaration) : List Char :=
  inWords [written.type.unqualified] written.name.chars

section

variable {front : List String} {qualifiers : List Identifier} {text rest : List Char}
  {state : Reduction} {start stop p : Nat} {segments : List Segment}

theorem text_modifierTokens (front : List String) :
    Token.text (modifierTokens front) =
      (front.map String.toList).flatMap (fun word => word ++ [' ']) := by
  rw [modifierTokens, Token.text, List.flatMap_assoc, List.flatMap_map]
  rfl

theorem LocalDeclaration.print_eq (written : LocalDeclaration) :
    written.print = Token.text written.lead ++ written.rest := by
  rw [print, lead, rest, Token.text_append, text_modifierTokens, text_qualifierTokens,
    DeclaredType.print,
    inWords, inWords]
  simp

theorem reads_modifiers (known : ∀ modifier ∈ front, modifier ∈ modifiers) :
    Scanner.Reads (modifierTokens front) rest := by
  induction front with
  | nil => exact Scanner.reads_nil rest
  | cons modifier front induction =>
      have listed := known modifier List.mem_cons_self
      have others : ∀ modifier ∈ modifiers, modifier.toList ≠ Op.instanceOf.spelling := by decide
      have letters := (modifiers_letters modifier listed).2
      refine Scanner.Reads.cons (Scanner.reads_word letters fun _ starts =>
        not_isBlank_behind letters (others modifier listed) ?_ starts)
        (Scanner.Reads.cons (Scanner.reads_blank _)
          (induction fun other among => known other (List.mem_cons_of_mem modifier among)))
      exact (by decide : isWordChar ' ' = false)

namespace LocalDeclaration

variable (written : LocalDeclaration)

theorem reads_lead : Scanner.Reads written.lead written.rest := by
  refine (reads_modifiers written.known).append (reads_qualifiers _ ?_)
  rw [rest, inWords_cons, List.head?_append_of_ne_nil _ written.type.unqualified_ne_nil]
  obtain ⟨c, known, letter⟩ := (Option.any_eq_true _ _).1 written.type.unqualified_head
  rw [known, Option.any_some, (isLetter_plain (Bool.and_eq_true_iff.1 letter).1).2.2.1]

theorem crosses_rest : Scanner.Crosses Tag.isPlain (Token.text written.lead) written.rest [] := by
  have apart : (Token.text written.lead).getLast?.any isWordChar = false := by
    have marks : ∀ c ∈ [' ', '.'], isWordChar c = false := by decide
    rw [lead, Token.text_append, text_modifierTokens, text_qualifierTokens]
    rcases List.eq_nil_or_concat' written.type.qualifiers with none | ⟨others, last, some⟩
    · rw [none, List.flatMap_nil, List.append_nil]
      rcases List.eq_nil_or_concat' written.front with none | ⟨others, last, some⟩
      · rw [none]
        rfl
      · rw [some]
        simp [marks]
    · rw [some]
      simp [marks]
  have named : Scanner.Crosses Tag.isPlain (Token.text written.lead ++ written.type.unqualified)
      ([' '] ++ written.name.chars) [] :=
    (Scanner.crosses_blanks (by decide)).append
      (Scanner.crosses_word written.name.letters written.name.other rfl)
  have typed := written.type.crosses_unqualified (Token.text written.lead) apart written.name
  rw [rest, inWords_cons]
  refine Scanner.Crosses.append ?_ named
  rwa [List.append_nil]

end LocalDeclaration

/-- Plain tags show words. -/
theorem exists_shows_words (well : Ledger.WellTagged text state.ledger) (inside : p < text.length)
    (plain : ∀ q, p ≤ q → q < text.length → (state.ledger.tag? q).any Tag.isPlain = true) :
    ∃ segments, Shows state p text.length segments ∧
    ∀ segment ∈ segments, segment.piece = .word := by
  have first (op : Op) : state.ledger.tag? p ≠ some (.operatorTail op) := by
    intro tail
    have known := plain p (Nat.le_refl p) inside
    rw [tail] at known
    contradiction
  obtain ⟨segments, shown, -⟩ := exists_shows well (Nat.le_of_lt inside) first
  refine ⟨segments, shown, fun segment among => ?_⟩
  have place := shown.start_lt among
  have known := plain segment.span.start place.1 place.2
  obtain ⟨before, after, rfl⟩ := List.append_of_mem among
  have tagged := (shows_append_cons.1 shown).2.1.tagged
  cases piece : segment.piece with
  | word => rfl
  | op found =>
      rw [piece] at tagged
      rw [tagged.2.1] at known
      contradiction
  | tree expr =>
      rw [piece] at tagged
      obtain ⟨id, -, pending, -⟩ := tagged
      rw [pending] at known
      contradiction

end

/-! ## The segments of a declaration -/

section

variable {text : List Char} {state : Reduction} {start stop p : Nat} {segments : List Segment}

/-- What is no blank in the text is tagged as none. -/
theorem isSpace_eq_false (well : Ledger.WellTagged text state.ledger)
    (solid : text[p]?.any isBlank = false) :
    state.ledger.isSpace p = false := by
  by_contra space
  have blank := well.blank p (isSpace_iff.1 (Bool.of_not_eq_false space))
  rw [solid] at blank
  contradiction

theorem piece_of_segments {tokens : List Token} (words : ∀ token ∈ tokens, token.isOp = false)
    (position : Nat) : ∀ segment ∈ Token.segments position tokens, segment.piece = .word := by
  induction tokens generalizing position with
  | nil => nofun
  | cons token tokens induction =>
      have later := fun other among => words other (List.mem_cons_of_mem token among)
      cases token with
      | op found => exact absurd (words _ List.mem_cons_self) (by simp [Token.isOp])
      | blank => exact induction later _
      | word chars =>
          intro segment among
          rcases List.mem_cons.1 among with rfl | among
          · rfl
          · exact induction later _ segment among

theorem words_modifierTokens (front : List String) :
    ∀ token ∈ modifierTokens front, token.isOp = false := by
  intro token among
  obtain ⟨modifier, -, listed⟩ := List.mem_flatMap.1 among
  simp only [List.mem_cons, List.not_mem_nil, or_false] at listed
  rcases listed with rfl | rfl <;> rfl

end

namespace LocalDeclaration

variable (written : LocalDeclaration)

theorem filled_lead : ∀ chars, .word chars ∈ written.lead → chars ≠ [] := by
  intro chars among
  rw [lead, List.mem_append, modifierTokens, qualifierTokens, List.mem_flatMap, List.mem_flatMap]
    at among
  rcases among with ⟨modifier, known, listed⟩ | ⟨qualifier, -, listed⟩
  · obtain rfl : chars = modifier.toList := by simpa using listed
    exact (modifiers_letters modifier (written.known modifier known)).1
  · obtain rfl : chars = qualifier.chars := by simpa using listed
    exact qualifier.ne_nil

theorem rest_eq : written.rest = written.type.unqualified ++ ' ' :: written.name.chars := by
  rw [rest, inWords_cons]
  rfl

theorem print_length : (Token.text written.lead).length < written.print.length := by
  rw [print_eq, rest_eq, List.length_append, List.length_append, List.length_cons]
  omega

/-- The text ends in its name. -/
theorem print_last : written.print[written.print.length - 1]?.any isBlank = false := by
  rw [← List.getLast?_eq_getElem?, print, inWords, List.getLast?_append_of_ne_nil _
    written.name.ne_nil]
  exact Bool.eq_false_iff.2 written.name.isPiece.ends

/-- The type name starts behind the qualifiers. -/
theorem print_first : written.print[(Token.text written.lead).length]?.any isBlank = false := by
  obtain ⟨c, others, same, solid, -⟩ := written.type.isPiece_unqualified.starts
  rw [print_eq, rest_eq, List.getElem?_append_right (Nat.le_refl _), Nat.sub_self, same]
  simpa using solid

/-- A scan shows the tokens in front of the type name, and plain text behind them. -/
theorem shows (scope : ParagraphId) (body : Body) :
    ∃ last, Shows (body.startOf scope written.print) 0 (Ledger.scan written.print).size
        (Token.segments 0 written.lead ++ last) ∧ last ≠ [] ∧
        (∀ segment ∈ last, segment.piece = .word) ∧
      hull last = ⟨(Token.text written.lead).length, written.print.length⟩ := by
  have well := (Ledger.scan_sound written.print).1
  have size : (Ledger.scan written.print).size = written.print.length := well.size
  obtain ⟨tagged, plain⟩ := Ledger.tag?_scan_behind written.reads_lead written.crosses_rest
  rw [← print_eq] at tagged plain
  have shown := @Token.shows_of_tags written.lead (body.startOf scope written.print) 0
    (fun p low => by rw [Nat.zero_add]; exact tagged p low) written.filled_lead
    (by
      rw [Nat.zero_add]
      exact Nat.le_trans (Nat.le_of_lt written.print_length) (Nat.le_of_eq size.symm))
  rw [Nat.zero_add] at shown
  obtain ⟨last, behind, words⟩ :=
    @exists_shows_words written.print (body.startOf scope written.print) _ well
      written.print_length plain
  have first := @isSpace_eq_false _ (body.startOf scope written.print) _ well written.print_first
  have present : last ≠ [] := by
    rintro rfl
    rw [behind.1.isSpace (Nat.le_refl _) written.print_length] at first
    contradiction
  refine ⟨last, ?_, present, words, ?_⟩
  · rw [size]
    exact shown.append behind
  · exact @Shows.hull_eq _ ⟨_, _⟩ last behind present first
      (isSpace_eq_false well written.print_last)

end LocalDeclaration

/-! ## Reading a declaration -/

namespace Text

variable {front : List String} {words : List (List Char)} {last : List Char}

theorem modifiers_head : ∀ modifier ∈ modifiers,
    modifier.toList.head?.any (fun c => isLetter c && c != 'n') = true := by
  decide

section

variable (known : ∀ modifier ∈ front, modifier ∈ modifiers)
include known

theorem isModifier_of_front : ∀ word ∈ front.map String.toList, isModifier word = true := by
  simp only [List.mem_map]
  rintro word ⟨modifier, among, rfl⟩
  rw [isModifier, String.ofList_toList, List.contains_eq_mem, decide_eq_true (known modifier among)]

/-- Modifiers, and words that start as types do, are no leaf of another kind. -/
theorem leafForm?_modified
    (typed : ∀ word ∈ words, IsPiece word ∧ word.head?.any (fun c => isLetter c && c != 'n') = true)
    (present : front.map String.toList ++ words ≠ []) (piece : IsPiece last) :
    leafForm? (inWords (front.map String.toList ++ words) last) = none := by
  have all : ∀ word ∈ front.map String.toList ++ words,
      IsPiece word ∧ word.head?.any (fun c => isLetter c && c != 'n') = true := by
    simp only [List.mem_append, List.mem_map]
    rintro word (⟨modifier, among, rfl⟩ | among)
    · exact ⟨isPiece_of_modifier (known modifier among), modifiers_head modifier
        (known modifier among)⟩
    · exact typed word among
  obtain ⟨word, others, same⟩ := List.exists_cons_of_ne_nil present
  rw [same] at all ⊢
  obtain ⟨first, isFirst, letter⟩ := (Option.any_eq_true _ _).1 (all word List.mem_cons_self).2
  rw [Bool.and_eq_true, bne_iff_ne] at letter
  refine leafForm?_inWords (fun other among => (all other among).1) piece ?_ ?_
  · rw [isFirst, Option.any_some, letter.1]
  · obtain ⟨rest, rfl⟩ : ∃ rest, word = first :: rest := by
      cases word with
      | nil => contradiction
      | cons c rest => exact ⟨rest, by rw [Option.some.inj isFirst]⟩
    rw [inWords_cons, Bool.eq_false_iff, ne_eq, List.isPrefixOf_iff_prefix]
    exact fun starts => letter.2 (List.cons_prefix_cons.1 starts).1.symm

/-- Modifiers in front of one word declare nothing. -/
theorem declared?_modified : declared? (front.map String.toList ++ [last]) = none := by
  rw [declared?, List.dropWhile_append_of_pos (isModifier_of_front known), List.dropWhile_cons,
    List.dropWhile_nil]
  cases isModifier last <;> rfl

end

end Text

namespace LocalDeclaration

open Text

variable (written : LocalDeclaration) (scope : ParagraphId) (body : Body)

theorem pieces {front : List String} (known : ∀ modifier ∈ front, modifier ∈ modifiers) :
    ∀ word ∈ front.map String.toList ++ [written.type.unqualified], IsPiece word := by
  simp only [List.mem_append, List.mem_map, List.mem_singleton]
  rintro word (⟨modifier, among, rfl⟩ | rfl)
  · exact isPiece_of_modifier (known modifier among)
  · exact written.type.isPiece_unqualified

/-- The words of a type and a name with modifiers in front of them declare a variable. -/
theorem declared?_words {front : List String} (known : ∀ modifier ∈ front, modifier ∈ modifiers) :
    declared? (words (inWords (front.map String.toList ++ [written.type.unqualified])
      written.name.chars)) =
      some (.variable (String.ofList written.name.chars) (String.ofList written.type.unqualified)
        (front.contains "final") (front.contains "static")) := by
  have bare : TypeName.strip written.name.chars = (written.name.chars, 0) := by
    refine strip_of_inert fun c among => ?_
    have isWord := written.name.letters c among
    have other {mark : Char} (symbol : isWordChar mark = false) : c ≠ mark := by
      rintro rfl
      rw [isWord] at symbol
      contradiction
    exact ⟨isBlank_of_isWordChar isWord, other (by decide), other (by decide)⟩
  have flag (text : String) :
      (front.map String.toList).any (fun word => String.ofList word == text) =
      front.contains text := by
    rw [List.any_map, List.contains_eq_any_beq]
    refine congrArg (front.any ·) (funext fun modifier => ?_)
    rw [Function.comp_apply, String.ofList_toList, Bool.beq_comm]
  rw [words_inWords (written.pieces known) written.name.isPiece,
    declared?_typed (isModifier_of_front known) written.type.isModifier_unqualified
      written.type.areTypeWords_unqualified bare written.name.isName, flag, flag]

theorem spells {last : List Segment} (filled : last ≠ [])
    (plain : ∀ segment ∈ last, segment.piece = .word)
    (whole : hull last = ⟨(Token.text written.lead).length, written.print.length⟩) :
    OnSegments.SpellsDeclaration written.print last written.type.unqualified
      written.name.chars := by
  have slice : (hull last).slice written.print = written.rest := by
    have found := slice_word (Token.text written.lead) written.rest []
    rw [List.append_nil, ← List.length_append, ← print_eq] at found
    rw [whole, found]
  refine ⟨filled, plain, ?_, ?_, ?_, ?_⟩
  · rw [whole, print_eq, List.length_append]
    exact Nat.le_add_right ..
  · rw [whole]
  · rw [slice]
    exact @leafForm?_modified [] [written.type.unqualified] _ nofun
      (by simpa using ⟨written.type.isPiece_unqualified, written.type.unqualified_head⟩)
      (List.cons_ne_nil _ _) written.name.isPiece
  · rw [slice]
    exact @declared?_words written [] nofun

theorem areTypeArguments_pair : AreTypeArguments "K, V".toList := by
  have key : AreTypeArguments "K".toList := .name (.word (by decide) (by decide))
  have value : AreTypeArguments "V".toList := .name (.word (by decide) (by decide))
  have spaced : AreTypeArguments ([' '] ++ ("V".toList ++ [])) := value.padded (by decide)
  exact key.list spaced

/-- A constant of a qualified type with type arguments: `final Map.Entry<K, V> e`. -/
def entryConstant : LocalDeclaration where
  front := ["final"]
  type :=
    { qualifiers := [⟨"Map".toList, by decide, by decide⟩]
      last := ⟨"Entry".toList, by decide, by decide⟩
      arguments := some ⟨"K, V".toList, areTypeArguments_pair⟩
      dimensions := 0
      kind := .inl (by decide) }
  name := ⟨"e".toList, by decide, by decide⟩
  known := by decide

end LocalDeclaration

namespace Body

open Text Reduction OnSegments MethodLowering.Tree

variable {written : LocalDeclaration} {scope : ParagraphId} {body : Body}

/-- Without qualifiers, the whole text is one piece. -/
theorem readExpression_unqualified (none : written.type.qualifiers = []) :
    ∃ node nextNode effort, readExpression scope written.print body =
      .ok ⟨.declaration node body.vars.size false, ⟨scope, body.vars.size + 1⟩⟩
        { body.declare (written.entry body scope) with nextNode, effort } := by
  obtain ⟨last, shown, present, plain, -⟩ := written.shows scope body
  have well := (Ledger.scan_sound written.print).1
  have size : (Ledger.scan written.print).size = written.print.length := well.size
  have lead : written.lead = modifierTokens written.front := by
    rw [LocalDeclaration.lead, none]
    exact List.append_nil _
  have type : written.type.print = written.type.unqualified := by
    rw [DeclaredType.print, none]
    rfl
  have filled : Token.segments 0 written.lead ++ last ≠ [] :=
    List.append_ne_nil_of_right_ne_nil _ present
  have words : ∀ segment ∈ Token.segments 0 written.lead ++ last, segment.piece = .word := by
    intro segment among
    rcases List.mem_append.1 among with inLead | inLast
    · rw [lead] at inLead
      exact piece_of_segments (words_modifierTokens _) 0 segment inLead
    · exact plain segment inLast
  have solid : written.print[0]?.any isBlank = false := by
    rw [← List.head?_eq_getElem?, LocalDeclaration.print, type]
    exact Bool.eq_false_iff.2 (head?_inWords (written.pieces written.known) written.name.isPiece)
  have all : hull (Token.segments 0 written.lead ++ last) = ⟨0, written.print.length⟩ := by
    have shown := shown
    rw [size] at shown
    exact @Shows.hull_eq _ ⟨0, _⟩ _ shown filled (isSpace_eq_false well solid)
      (isSpace_eq_false well written.print_last)
  have whole : (hull (Token.segments 0 written.lead ++ last)).slice written.print =
      written.print := by
    rw [all]
    exact List.take_of_length_le (Nat.le_refl _)
  have noForm : leafForm? written.print = .none := by
    rw [LocalDeclaration.print, type]
    exact leafForm?_modified written.known
      (by simpa using ⟨written.type.isPiece_unqualified, written.type.unqualified_head⟩) (by simp)
      written.name.isPiece
  have declares := written.declared?_words written.known
  rw [← type] at declares
  let start := begun (body.startOf scope written.print)
  obtain ⟨state, quiet, reduces⟩ :=
    reduce_words filled words ((Ledger.scan written.print).size + 1) 1 start
  rw [show start.ledger.chars = written.print from well.chars, whole] at reduces
  obtain ⟨node, after, classified, -, gains⟩ :=
    @classify_gains state _ (hull (Token.segments 0 written.lead ++ last)) _ _ _ _ noForm declares
      (by rw [all, quiet.ledger]; exact holds_of_le well.chars (Nat.zero_le _) (Nat.le_refl _))
  obtain ⟨final, reads, quiet'⟩ := statement_eq_ok (reduces.trans (map_of_ok classified _))
  have begins : Quiet (body.startOf scope written.print) state :=
    Quiet.trans (show Quiet _ start from ⟨rfl, rfl, _, _, rfl⟩) quiet
  have count : state.body.vars.size = body.vars.size := by
    obtain ⟨_, _, same⟩ := begins.body
    rw [same]
    rfl
  have entry : Variable.ofType state.body.extraContainers (String.ofList written.name.chars)
      (String.ofList written.type.print) (written.front.contains "final")
        (written.front.contains "static") .body
      (some state.scope) = written.entry body scope := by
    obtain ⟨_, _, same⟩ := begins.body
    rw [same, begins.scope]
    rfl
  rw [entry] at gains
  rw [count] at reads
  obtain ⟨nextNode, effort, read⟩ :=
    readExpression_of_gains shown reads (begins.gains (gains.quiet quiet'))
  exact ⟨node, nextNode, effort, read⟩

/-- Behind modifiers, a qualified type is not read. -/
theorem readExpression_modified {qualifier : Identifier} {qualifiers : List Identifier}
    (modified : written.front ≠ []) (some : written.type.qualifiers = qualifier :: qualifiers) :
    ∃ after, readExpression scope written.print body =
      .error (.malformed (.malformedDeclaration (String.ofList
      (inWords (written.front.map String.toList) qualifier.chars)))) after := by
  obtain ⟨last, shown, -, plain, -⟩ := written.shows scope body
  have chars := (Ledger.scan_sound written.print).1.chars
  obtain ⟨modifier, front, same⟩ := List.exists_cons_of_ne_nil modified
  let lead := Token.text (modifierTokens written.front)
  let position := lead.length + qualifier.chars.length
  let before :=
    Token.segments 0 (modifierTokens written.front) ++ [⟨⟨lead.length, position⟩, .word⟩]
  let after := Token.segments (position + 1) (qualifierTokens qualifiers) ++ last
  have split : Token.segments 0 written.lead ++ last = before ++ dotAt position :: after := by
    rw [LocalDeclaration.lead, some, Token.segments_append, Nat.zero_add, segments_qualifiers]
    simp [before, after, position, lead]
  have words : ∀ segment ∈ before, segment.piece = .word := by
    intro segment among
    rcases List.mem_append.1 among with inFront | isLast
    · exact piece_of_segments (words_modifierTokens _) 0 segment inFront
    · rw [List.mem_singleton.1 isLast]
  rw [split] at shown
  have apart (segment : Segment) (among : segment ∈ before) : segment.span.start ≠ position :=
    ((shows_append_cons.1 shown).1.start_lt among).2.ne
  have dots : ∀ other ∈ after, other.op? = .none ∨ other.op? = .some .dot := by
    intro other among
    rcases List.mem_append.1 among with inTokens | inLast
    · exact dots_segments qualifiers _ other inTokens
    · exact .inl (Option.isNone_iff_eq_none.1 (isOperand_of_word (plain other inLast)))
  have whole :
      hull before = ⟨0, (inWords (written.front.map String.toList) qualifier.chars).length⟩ := by
    refine congrArg₂ Span.mk ?_ ?_
    · simp only [before, same]
      rfl
    · simp [before, inWords, position, lead, text_modifierTokens]
  have slice : (hull before).slice written.print =
      inWords (written.front.map String.toList) qualifier.chars := by
    have found := slice_word [] (inWords (written.front.map String.toList) qualifier.chars)
      ('.' :: (Token.text (qualifierTokens qualifiers) ++ written.rest))
    have begins : written.print = inWords (written.front.map String.toList) qualifier.chars ++
        '.' :: (Token.text (qualifierTokens qualifiers) ++ written.rest) := by
      rw [written.print_eq, LocalDeclaration.lead, some, Token.text_append, text_modifierTokens,
        text_qualifierTokens, text_qualifierTokens, inWords]
      simp
    rw [whole, begins]
    simpa using found
  have noForm : leafForm? (inWords (written.front.map String.toList) qualifier.chars) = .none := by
    have form :=
      @leafForm?_modified written.front [] qualifier.chars written.known (List.forall_mem_nil _)
      (by simpa using modified) qualifier.isPiece
    rwa [List.append_nil] at form
  have nothing :
      declared? (Text.words (inWords (written.front.map String.toList) qualifier.chars)) =
        .none := by
    rw [words_inWords ?_ qualifier.isPiece, declared?_modified written.known]
    simp only [List.mem_map]
    rintro word ⟨modifier, among, rfl⟩
    exact isPiece_of_modifier (written.known modifier among)
  obtain ⟨count, enough⟩ := exists_reductionRounds
  let start := opened (body.startOf scope written.print)
  obtain ⟨stopped, fails⟩ :=
    @rounds_malformed before after start (Ledger.scan written.print).size 2 _
    (List.concat_ne_nil _ _) words position apart dots
    (by rw [show start.ledger.chars = written.print from chars, slice]) noForm nothing count
  rw [← enough] at fails
  exact readExpression_of_statement shown (statement_of_rounds_error (by simp) fails)

/-- Without modifiers, the dots of a type are folded from the left, one in a round. -/
theorem readExpression_qualified {qualifier : Identifier} {qualifiers : List Identifier}
    (plain : written.front = []) (some : written.type.qualifiers = qualifier :: qualifiers) :
    (qualifiers.length < Limits.reductionRounds → ∃ node nextNode effort,
      readExpression scope written.print body =
        .ok ⟨.declaration node body.vars.size false, ⟨scope, body.vars.size + 1⟩⟩
          { body.declare (written.entry body scope) with nextNode, effort }) ∧
    (Limits.reductionRounds ≤ qualifiers.length → ∃ failure after,
      readExpression scope written.print body = .error failure after) := by
  obtain ⟨last, shown, present, words, whole⟩ := written.shows scope body
  have chars := (Ledger.scan_sound written.print).1.chars
  have lead : written.lead = qualifierTokens (qualifier :: qualifiers) := by
    rw [LocalDeclaration.lead, plain, some]
    rfl
  have print : written.print =
      qualifier.chars ++ Token.text (.op .dot :: qualifierTokens qualifiers) ++ written.rest := by
    rw [written.print_eq, lead]
    simp [qualifierTokens, Token.chars]
  have type : qualifier.chars ++ Token.text (.op .dot :: qualifierTokens qualifiers) ++
      written.type.unqualified = written.type.print := by
    rw [DeclaredType.print, some, Token.text_cons, text_qualifierTokens]
    simp [Token.chars, show Op.dot.spelling = ['.'] from rfl]
  let before : List Segment := [⟨⟨0, qualifier.chars.length⟩, .word⟩]
  have split : Token.segments 0 written.lead ++ last = before ++
      (Token.segments qualifier.chars.length (.op .dot :: qualifierTokens qualifiers) ++ last) := by
    rw [lead, segments_qualifiers, Nat.zero_add]
    rfl
  have spells := written.spells present words whole
  let start := opened (body.startOf scope written.print)
  have leads : Leads (reduce ((Ledger.scan written.print).size + 1) 2) written.print
      qualifier.chars before :=
    leads_word qualifier (print.trans (List.append_assoc ..))
  rw [split] at shown
  obtain ⟨folds, stalls⟩ :=
    rounds_qualified qualifiers leads (isQualifiedName_word qualifier.isName) spells print
    (show start.ledger.chars = _ from chars) Limits.reductionRounds
  constructor
  · intro enough
    obtain ⟨node, after, declares, gains⟩ := folds enough
    obtain ⟨final, reads, quiet⟩ := statement_of_rounds (by simp) declares
    have begins : Quiet (body.startOf scope written.print) start := ⟨rfl, rfl, _, _, rfl⟩
    have entry : body.written scope written.type.print written.name.chars =
        written.entry body scope := by
      rw [LocalDeclaration.entry, plain]
      rfl
    rw [type] at gains
    have whole := begins.gains (gains.quiet quiet)
    rw [begins.written] at whole
    obtain ⟨nextNode, effort, read⟩ := readExpression_of_gains shown reads (entry ▸ whole)
    exact ⟨node, nextNode, effort, read⟩
  · intro few
    obtain ⟨failure, after, fails⟩ := stalls few
    exact ⟨failure, readExpression_of_statement shown (statement_of_rounds_error (by simp) fails)⟩

/-- Exactly the declarations that can be folded are read: each as one node, which declares one
variable of the whole type.  No other is read at all. -/
theorem readExpression_local_iff (written : LocalDeclaration) (scope : ParagraphId) (body : Body) :
    ((∃ node nextNode effort, readExpression scope written.print body =
        .ok ⟨.declaration node body.vars.size false, ⟨scope, body.vars.size + 1⟩⟩
          { body.declare (written.entry body scope) with nextNode, effort }) ↔ written.IsFoldable) ∧
    ((∃ failure after, readExpression scope written.print body = .error failure after) ↔
      ¬written.IsFoldable) := by
  have reads (foldable : written.IsFoldable) :
      ∃ node nextNode effort, readExpression scope written.print body =
      .ok ⟨.declaration node body.vars.size false, ⟨scope, body.vars.size + 1⟩⟩
        { body.declare (written.entry body scope) with nextNode, effort } := by
    cases same : written.type.qualifiers with
    | nil => exact readExpression_unqualified same
    | cons qualifier qualifiers =>
        rw [LocalDeclaration.IsFoldable, same] at foldable
        obtain ⟨plain, few⟩ := foldable.resolve_left (List.cons_ne_nil _ _)
        exact (readExpression_qualified plain same).1 few
  have fails (stuck : ¬written.IsFoldable) : ∃ failure after,
      readExpression scope written.print body = .error failure after := by
    cases same : written.type.qualifiers with
    | nil => exact absurd (.inl same) stuck
    | cons qualifier qualifiers =>
        by_cases plain : written.front = []
        · rw [LocalDeclaration.IsFoldable, same, not_or, not_and, Nat.not_le] at stuck
          exact (readExpression_qualified plain same).2 (Nat.le_of_lt_succ (stuck.2 plain))
        · obtain ⟨after, failed⟩ := readExpression_modified plain same
          exact ⟨_, after, failed⟩
  constructor
  · refine ⟨?_, reads⟩
    rintro ⟨node, nextNode, effort, read⟩
    by_contra stuck
    obtain ⟨failure, after, failed⟩ := fails stuck
    rw [read] at failed
    contradiction
  · refine ⟨?_, fails⟩
    rintro ⟨failure, after, failed⟩ foldable
    obtain ⟨node, nextNode, effort, read⟩ := reads foldable
    rw [read] at failed
    contradiction

/-- The constant of a qualified type is not read: in front of the dot there is no declaration. -/
theorem readExpression_entryConstant :
    LocalDeclaration.entryConstant.print = "final Map.Entry<K, V> e".toList ∧
      ∃ after, readExpression root LocalDeclaration.entryConstant.print (initial {} {}) =
        .error (.malformed (.malformedDeclaration "final Map")) after := by
  obtain ⟨after, fails⟩ :=
    @readExpression_modified LocalDeclaration.entryConstant root (initial {} {}) _ _
      (List.cons_ne_nil _ _) rfl
  exact ⟨by decide, after, fails⟩

end Body
end MethodLowering
