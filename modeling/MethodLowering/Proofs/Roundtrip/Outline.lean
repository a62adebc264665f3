import MethodLowering.Proofs.Roundtrip.Printing
import MethodLowering.Proofs.Text.Growth
import MethodLowering.Proofs.Text.Sealing

/-!
# Printed expressions from outside

What the reader of statements looks at in the text of an expression: where its brackets hide
separators, and the word it opens with.
-/

namespace MethodLowering

open Text

/-! ## Leading words -/

namespace Text

variable {word text : List Char}

theorem leadingWord_append_of (word : List Char) (rest : List Char)
    (inside : ∀ c ∈ word, isWordChar c = true) (ends : rest.head?.any isWordChar = false) :
    leadingWord (word ++ rest) = word := by
  rw [leadingWord, List.takeWhile_append_of_pos inside]
  cases rest with
  | nil => rw [List.takeWhile_nil, List.append_nil]
  | cons c rest =>
      rw [List.head?_cons, Option.any_some] at ends
      rw [List.takeWhile_cons, ends, if_neg Bool.false_ne_true, List.append_nil]

/-- A text starts with a word exactly if this is its leading word. -/
theorem startsWithWord_eq (inside : ∀ c ∈ word, isWordChar c = true) :
    startsWithWord word text = (leadingWord text == word) := by
  rw [startsWithWord]
  by_cases opens : word <+: text
  · obtain ⟨rest, rfl⟩ := opens
    rw [List.isPrefixOf_iff_prefix.2 (List.prefix_append word rest), List.drop_left, Bool.true_and]
    cases ends : rest.head?.any isWordChar with
    | false => rw [leadingWord_append_of word rest inside ends, beq_self_eq_true, Bool.not_false]
    | true =>
        rw [Bool.not_true, eq_comm, beq_eq_false_iff_ne, leadingWord,
          List.takeWhile_append_of_pos inside]
        cases rest with
        | nil => contradiction
        | cons c rest =>
            rw [List.head?_cons, Option.any_some] at ends
            rw [List.takeWhile_cons, ends, if_pos rfl]
            intro same
            have length := congrArg List.length same
            simp at length
  · rw [Bool.eq_false_iff.2 (mt List.isPrefixOf_iff_prefix.1 opens), Bool.false_and, eq_comm,
      beq_eq_false_iff_ne]
    rintro rfl
    exact opens (List.takeWhile_prefix isWordChar)

theorem leadingLabel?_eq_none (plain : (trimStart (text.drop (leadingWord text).length)).head? ≠
      some ':') :
    leadingLabel? text = none := by
  rw [leadingLabel?]
  simp only [beq_eq_false_iff_ne.2 plain, Bool.false_and, Bool.false_eq_true, if_false, ite_self]

end Text

namespace Tree

/-! ## Brackets -/

/-- No conditional stands outside brackets. -/
def hidesColon : Tree → Bool
  | name _ | group _ | call .. => true
  | index target _ => target.hidesColon
  | member subject link => subject.hidesColon && link.hidesColon
  | leading _ operand | trailing operand _ => operand.hidesColon
  | binary _ left right => left.hidesColon && right.hidesColon
  | conditional .. => false
  | assignment _ target value => target.hidesColon && value.hidesColon

/-- Characters of expressions outside brackets: no semicolon, and a colon only where it is
allowed. -/
def isBare (colon : Bool) (c : Char) : Bool := c != ';' && (colon || c != ':')

theorem isPlain_of_isNameChar {c : Char} (isChar : isNameChar c = true) (colon : Bool) :
    isPlain c = true ∧ isBare colon c = true := by
  have other {mark : Char} (plain : isNameChar mark = false) : c ≠ mark := by
    rintro rfl
    rw [isChar] at plain
    contradiction
  constructor
  · simp only [isPlain, isQuoteMark, isOpening, isClosing, Bool.and_eq_true, Bool.not_eq_true',
      Bool.or_eq_false_iff, beq_eq_false_iff_ne]
    refine ⟨⟨⟨other ?_, other ?_⟩, ⟨other ?_, other ?_⟩, other ?_⟩,
      ⟨other ?_, other ?_⟩, other ?_⟩ <;>
      decide
  · simp only [isBare, Bool.and_eq_true, Bool.or_eq_true, bne_iff_ne]
    exact ⟨other (by decide), .inr (other (by decide))⟩

theorem sealed_word {chars : List Char} (name : isName chars = true) (colon : Bool) :
    Sealed (isBare colon) chars :=
  .of_plain fun _ among => isPlain_of_isNameChar (isNameChar_of_mem name among) colon

/-- An operator that is neither bracket nor colon. -/
def isInner (op : Op) : Bool := !op.isOpening && !op.isClosing && op != .colon && op != .instanceOf

section

variable {op : Op}

theorem isInner_of_kind (kind : op.isMark = true ∨ op.isStep = true ∨ op.isBinary = true ∨
    op.isAssignment = true ∨ op = .question ∨ op = .comma ∨ op = .dot) : isInner op = true := by
  revert kind
  cases op <;> decide

theorem sealed_op (inner : isInner op = true) (colon : Bool) :
    Sealed (isBare colon) op.spelling := by
  apply Sealed.of_plain
  revert inner
  cases colon <;> cases op <;> decide

/-- Such an operator starts with a symbol that is no colon. -/
theorem exists_symbol (inner : isInner op = true) : ∃ c rest, op.spelling = c :: rest ∧
    isWordChar c = false ∧ isBlank c = false ∧ c ≠ ':' := by
  have solid : ∀ op : Op, isInner op = true → op.spelling.head?.any (fun c =>
      !isWordChar c && !isBlank c && c != ':') = true := by
    intro op
    cases op <;> decide
  obtain ⟨c, starts, kind⟩ := (Option.any_eq_true _ _).1 (solid op inner)
  simp only [Bool.and_eq_true, Bool.not_eq_true', bne_iff_ne] at kind
  obtain ⟨rest, spelling⟩ := List.head?_eq_some_iff.1 starts
  exact ⟨c, rest, spelling, kind.1.1, kind.1.2, kind.2⟩

theorem sealed_spaced (inner : isInner op = true) (colon : Bool) :
    Sealed (isBare colon) (Token.text (spaced op)) := by
  have blank : isPlain ' ' = true ∧ isBare colon ' ' = true := by cases colon <;> decide
  have behind : Sealed (isBare colon) [' '] := .plain blank.1 blank.2 .nil
  exact .plain blank.1 blank.2 ((sealed_op inner colon).append behind)

theorem sealed_gapBehind (op : Op) (following : List Token) (colon : Bool) :
    Sealed (isBare colon) (Token.text (gapBehind op following)) := by
  rw [gapBehind]
  split
  · cases colon <;> exact .plain rfl rfl .nil
  · exact .nil

end

mutual

/-- The brackets of a printed tree are closed, and no semicolon stands in it; no colon stands
outside brackets where no conditional does. -/
theorem sealed_tokens : ∀ {tree : Tree} {colon : Bool}, tree.isWellFormed = true →
    (colon = false → tree.hidesColon = true) → Sealed (isBare colon) (Token.text tree.tokens)
  | .name chars, colon, well, _ => by
      rw [tokens, Token.text_cons, Token.text_nil, List.append_nil]
      exact sealed_word well colon
  | .group inner, colon, well, _ => by
      have inside := @sealed_tokens inner true well nofun
      simp only [tokens, List.cons_append, Token.text_cons, Token.text_append, Token.text_nil,
        List.append_nil]
      exact .between (by decide) (inside.mono fun _ _ => rfl)
  | .call callee arguments, colon, well, _ => by
      rw [isWellFormed, Bool.and_eq_true] at well
      simp only [tokens, List.cons_append, Token.text_cons, Token.text_append, Token.text_nil,
        List.append_nil]
      exact (sealed_word well.1 colon).append
        (.between (by decide) ((sealed_listTokens well.2).mono fun _ _ => rfl))
  | .index target indices, colon, well, hides => by
      simp only [isWellFormed, Bool.and_eq_true] at well
      rw [tokens, Token.text_append]
      exact (sealed_tokens well.1.1.2 hides).append (sealed_indexTokens well.2 colon)
  | .member subject link, colon, well, hides => by
      simp only [isWellFormed, Bool.and_eq_true] at well
      simp only [hidesColon, Bool.and_eq_true] at hides
      rw [tokens, Token.text_append, Token.text_cons]
      exact (sealed_tokens well.1.1.2 fun absent => (hides absent).1).append
        ((@sealed_op .dot rfl colon).append (sealed_tokens well.2 fun absent => (hides absent).2))
  | .leading op operand, colon, well, hides => by
      simp only [isWellFormed, Bool.and_eq_true, Bool.or_eq_true] at well
      rw [tokens, List.cons_append, Token.text_cons, Token.text_append]
      exact (sealed_op (isInner_of_kind (by tauto)) colon).append
        ((sealed_gapBehind op _ colon).append (sealed_tokens well.2 hides))
  | .trailing operand op, colon, well, hides => by
      simp only [isWellFormed, Bool.and_eq_true] at well
      rw [tokens, Token.text_append, Token.text_cons, Token.text_nil, List.append_nil]
      exact (sealed_tokens well.2 hides).append (sealed_op (isInner_of_kind (by tauto)) colon)
  | .binary op left right, colon, well, hides => by
      simp only [isWellFormed, Bool.and_eq_true] at well
      simp only [hidesColon, Bool.and_eq_true] at hides
      rw [tokens, Token.text_append, Token.text_append]
      exact ((sealed_tokens well.1.2 fun absent => (hides absent).1).append
        (sealed_spaced (isInner_of_kind (by tauto)) colon)).append
          (sealed_tokens well.2 fun absent => (hides absent).2)
  | .conditional condition first second, colon, well, hides => by
      simp only [isWellFormed, Bool.and_eq_true] at well
      have colon_eq : colon = true := by
        cases colon with
        | true => rfl
        | false => exact absurd (hides rfl) Bool.false_ne_true
      subst colon_eq
      have mark : Sealed (isBare true) (Token.text (spaced .colon)) :=
        .plain rfl rfl (.plain rfl rfl (.plain rfl rfl .nil))
      simp only [tokens, Token.text_append]
      have one := @sealed_tokens condition true well.1.1.2 nofun
      have two := @sealed_tokens first true well.1.2 nofun
      have three := @sealed_tokens second true well.2 nofun
      have question : Sealed (isBare true) (Token.text (spaced .question)) := sealed_spaced rfl true
      exact (((one.append question).append two).append mark).append three
  | .assignment op target value, colon, well, hides => by
      simp only [isWellFormed, Bool.and_eq_true] at well
      simp only [hidesColon, Bool.and_eq_true] at hides
      rw [tokens, Token.text_append, Token.text_append]
      exact ((sealed_tokens well.1.2 fun absent => (hides absent).1).append
        (sealed_spaced (isInner_of_kind (by tauto)) colon)).append
          (sealed_tokens well.2 fun absent => (hides absent).2)

theorem sealed_listTokens : ∀ {items : List Tree}, areWellFormed items = true →
    Sealed (isBare true) (Token.text (listTokens items))
  | [], _ => .nil
  | first :: rest, well => by
      rw [areWellFormed, Bool.and_eq_true] at well
      rw [listTokens, Token.text_append]
      exact (@sealed_tokens first true well.1 nofun).append (sealed_furtherTokens well.2)

theorem sealed_furtherTokens : ∀ {items : List Tree}, areWellFormed items = true →
    Sealed (isBare true) (Token.text (furtherTokens items))
  | [], _ => .nil
  | next :: rest, well => by
      rw [areWellFormed, Bool.and_eq_true] at well
      simp only [furtherTokens, List.cons_append, Token.text_cons, Token.text_append]
      exact .plain rfl rfl (.plain rfl rfl
        ((@sealed_tokens next true well.1 nofun).append (sealed_furtherTokens well.2)))

theorem sealed_indexTokens : ∀ {items : List Tree}, areWellFormed items = true → ∀ (colon : Bool),
    Sealed (isBare colon) (Token.text (indexTokens items))
  | [], _, _ => .nil
  | next :: rest, well, colon => by
      rw [areWellFormed, Bool.and_eq_true] at well
      have inside := @sealed_tokens next true well.1 nofun
      simp only [indexTokens, List.cons_append, Token.text_cons, Token.text_append]
      exact @Sealed.bracketed _ '[' ']' _ _ (by decide) (inside.mono fun _ _ => rfl)
        (sealed_indexTokens well.2 colon)

end

theorem sealed_print {tree : Tree} (well : tree.isWellFormed = true) :
    Sealed (isBare (!tree.hidesColon)) tree.print :=
  sealed_tokens well fun hidden => by simpa using hidden

/-! ## First words -/

/-- What may stand behind an expression whose first word is no label: no word character, and no
colon behind blanks. -/
def Unlabels (more : List Char) : Prop :=
  more.head?.any isWordChar = false ∧ (trimStart more).head? ≠ some ':'

theorem unlabels_cons {c : Char} (symbol : isWordChar c = false) (solid : isBlank c = false)
    (other : c ≠ ':') (more : List Char) : Unlabels (c :: more) := by
  refine ⟨symbol, ?_⟩
  rw [trimStart_eq_self (by rw [List.head?_cons, Option.any_some, solid]; exact Bool.false_ne_true),
    List.head?_cons, ne_eq, Option.some.injEq]
  exact other

theorem unlabels_op {op : Op} (inner : isInner op = true) (more : List Char) :
    Unlabels (op.spelling ++ more) := by
  obtain ⟨c, rest, spelling, symbol, solid, other⟩ := exists_symbol inner
  rw [spelling, List.cons_append]
  exact unlabels_cons symbol solid other _

theorem unlabels_spaced {op : Op} (inner : isInner op = true) (more : List Char) :
    Unlabels (Token.text (spaced op) ++ more) := by
  have behind := (unlabels_op inner (' ' :: more)).2
  refine ⟨rfl, ?_⟩
  rw [show Token.text (spaced op) ++ more = ' ' :: (op.spelling ++ ' ' :: more) by
    simp [spaced, Token.text, Token.chars], trimStart_space]
  exact behind

/-- The text opens with a name or with no word, and the word is no label. -/
def OpensPlain (text : List Char) : Prop :=
  ∃ word rest, text = word ++ rest ∧ (word = [] ∨ isName word = true) ∧ Unlabels rest

theorem OpensPlain.of_symbol {text : List Char} (plain : Unlabels text) : OpensPlain text :=
  ⟨[], text, rfl, .inl rfl, plain⟩

/-- A printed tree opens with its first name, which is no label. -/
theorem opensPlain_print : ∀ {tree : Tree} {more : List Char}, tree.isWellFormed = true →
    Unlabels more → OpensPlain (tree.print ++ more)
  | .name chars, more, well, plain =>
      ⟨chars, more, by simp [print, tokens, Token.text, Token.chars],
      .inr well, plain⟩
  | .group inner, more, _, _ => by
      simp only [print, tokens, List.cons_append, Token.text_cons]
      exact .of_symbol (unlabels_cons (isWordChar_mark _ (by decide)) (by decide) (by decide) _)
  | .call callee arguments, more, well, _ => by
      rw [isWellFormed, Bool.and_eq_true] at well
      refine ⟨callee, '(' :: (Token.text (listTokens arguments ++ [.op .closeParen]) ++ more), ?_,
        .inr well.1, unlabels_cons (isWordChar_mark _ (by decide)) (by decide) (by decide) _⟩
      simp [print, tokens, Token.chars, Op.spelling, Op.text, Op.row]
  | .index target indices, more, well, plain => by
      simp only [isWellFormed, Bool.and_eq_true] at well
      rw [print, tokens, Token.text_append, List.append_assoc]
      refine opensPlain_print well.1.1.2 ?_
      cases indices with
      | nil => exact plain
      | cons first rest =>
          exact unlabels_cons (isWordChar_mark _ (by decide)) (by decide) (by decide) _
  | .member subject link, more, well, _ => by
      simp only [isWellFormed, Bool.and_eq_true] at well
      rw [print, tokens, Token.text_append, List.append_assoc]
      exact opensPlain_print well.1.1.2 (unlabels_cons (isWordChar_mark _ (by decide)) (by decide)
        (by decide) _)
  | .leading op operand, more, well, _ => by
      simp only [isWellFormed, Bool.and_eq_true, Bool.or_eq_true] at well
      rw [print, tokens, List.cons_append, Token.text_cons, List.append_assoc]
      exact .of_symbol (unlabels_op (isInner_of_kind (by tauto)) _)
  | .trailing operand op, more, well, _ => by
      simp only [isWellFormed, Bool.and_eq_true] at well
      rw [print, tokens, Token.text_append, List.append_assoc, Token.text_cons, List.append_assoc]
      exact opensPlain_print well.2 (unlabels_op (isInner_of_kind (by tauto)) _)
  | .binary op left right, more, well, _ => by
      simp only [isWellFormed, Bool.and_eq_true] at well
      rw [print, tokens, List.append_assoc, Token.text_append, Token.text_append, List.append_assoc,
        List.append_assoc]
      exact opensPlain_print well.1.2 (unlabels_spaced (isInner_of_kind (by tauto)) _)
  | .conditional condition first second, more, well, _ => by
      simp only [isWellFormed, Bool.and_eq_true] at well
      simp only [print, tokens, Token.text_append, List.append_assoc]
      exact opensPlain_print well.1.1.2 (unlabels_spaced rfl _)
  | .assignment op target value, more, well, _ => by
      simp only [isWellFormed, Bool.and_eq_true] at well
      rw [print, tokens, List.append_assoc, Token.text_append, Token.text_append, List.append_assoc,
        List.append_assoc]
      exact opensPlain_print well.1.2 (unlabels_spaced (isInner_of_kind (by tauto)) _)

end Tree
end MethodLowering
