import MethodLowering.Proofs.Roundtrip.Passing

/-!
# Numbers are read

A numeral is read as a single leaf, by itself and where it is assigned to a variable.
-/

namespace MethodLowering

open Text

/-! ## Leaves -/

section

variable {word numeral : List Char}

theorem isWordChar_of_isVariableName (name : Reduction.isVariableName word = true) (c : Char)
    (among : c ∈ word) : isWordChar c = true := by
  simp only [Reduction.isVariableName, Bool.and_eq_true, List.all_eq_true] at name
  exact name.2 c among

theorem exists_of_isVariableName (name : Reduction.isVariableName word = true) :
    ∃ first rest, word = first :: rest ∧ isDigit first = false := by
  simp only [Reduction.isVariableName, Bool.and_eq_true] at name
  cases word with
  | nil => simp at name
  | cons first rest => exact ⟨first, rest, rfl, by simpa using name.1.2⟩

/-- Word characters are no marks of literals. -/
theorem isWordChar_ne {c : Char} (isWord : isWordChar c = true) : c ≠ '-' ∧ c ≠ '+' ∧ c ≠ '.' := by
  refine ⟨?_, ?_, ?_⟩
  · rintro rfl
    revert isWord
    decide
  · rintro rfl
    revert isWord
    decide
  · rintro rfl
    revert isWord
    decide

/-- A name that is no value is read as an identifier. -/
theorem leafForm?_of_isVariableName (name : Reduction.isVariableName word = true)
    (plain : String.ofList word ∉ valueWords) : Reduction.leafForm? word = some .identifier := by
  have letters := isWordChar_of_isVariableName name
  have solid (c : Char) (among : c ∈ word) : isBlank c = false :=
    isBlank_of_isWordChar (letters c among)
  obtain ⟨first, rest, rfl, digit⟩ := exists_of_isVariableName name
  have isWord := letters first List.mem_cons_self
  rw [leafForm?_of_free (trim_of_solid solid) (Scanner.not_isQuoteMark_of_isWordChar isWord) digit
    (isWordChar_ne isWord) plain, if_pos (length_words_of_solid solid)]

namespace Numeral

theorem IsPlain.exists_first (plain : IsPlain numeral) :
    ∃ first rest, numeral = first :: rest ∧ (isDigit first = true ∨ first = '.' ∧ rest ≠ []) := by
  cases numeral with
  | nil => exact absurd plain.first Bool.false_ne_true
  | cons first rest =>
      refine ⟨first, rest, rfl, ?_⟩
      have known := plain.first
      rw [List.head?_cons, Option.any_some, Bool.or_eq_true, beq_iff_eq] at known
      refine known.imp_right fun point => ⟨point, ?_⟩
      rintro rfl
      have digit := plain.points [] [] (by rw [point]; rfl)
      contradiction

/-- A digit is no mark of a literal. -/
theorem isDigit_ne {c : Char} (digit : isDigit c = true) :
    c ≠ '"' ∧ c ≠ '\'' ∧ c ≠ '-' ∧ c ≠ '+' ∧ c ∉ ['n', 't', 's', 'f'] := by
  have low := toNat_lt_of_isNameChar (isNameChar_of_isDigit digit)
  revert digit
  apply of_ascii low
  decide

/-- A number is known as a primitive by its first character. -/
theorem literalCategory?_of_isPlain (plain : IsPlain numeral) :
    TypeName.literalCategory? numeral = some .primitive := by
  obtain ⟨first, rest, rfl, digit | ⟨rfl, more⟩⟩ := plain.exists_first
  · obtain ⟨text, quote, minus, plus, -⟩ := isDigit_ne digit
    have starts : TypeName.startsNumber (first :: rest) = true := by
      rw [TypeName.startsNumber, List.dropWhile_cons_of_neg (by simp [minus, plus]),
        List.head?_cons,
        Option.any_some, digit, Bool.true_or]
    rw [TypeName.literalCategory?, trim_of_solid plain.isBlank]
    dsimp only
    rw [beq_eq_false_iff_ne.2 text, beq_eq_false_iff_ne.2 quote, starts, digit]
    rfl
  · obtain ⟨second, rest, rfl⟩ := List.exists_cons_of_ne_nil more
    rw [TypeName.literalCategory?, trim_of_solid plain.isBlank]
    rfl

theorem leafForm?_of_isPlain (plain : IsPlain numeral) :
    Reduction.leafForm? numeral = some .literal := by
  have other : ∀ word ∈ ["null", "this", "super"], String.ofList numeral ≠ word := by
    intro word listed same
    obtain ⟨first, rest, rfl, kind⟩ := plain.exists_first
    have starts : first ∈ ['n', 't', 's', 'f'] := by
      have chars : first :: rest = word.toList := by rw [← same, String.toList_ofList]
      simp only [List.mem_cons, List.not_mem_nil, or_false] at listed
      rcases listed with rfl | rfl | rfl
      · rw [(List.cons.inj chars).1]; decide
      · rw [(List.cons.inj chars).1]; decide
      · rw [(List.cons.inj chars).1]; decide
    rcases kind with digit | ⟨rfl, -⟩
    · exact (isDigit_ne digit).2.2.2.2 starts
    · revert starts
      decide
  unfold Reduction.leafForm?
  split
  · next same => exact absurd same (other _ (by decide))
  · next same => exact absurd same (other _ (by decide))
  · next same => exact absurd same (other _ (by decide))
  · rw [literalCategory?_of_isPlain plain]
    rfl

end Numeral

/-! ### Segments -/

namespace Reduction

open MethodLowering.Tree Numeral

variable {state other : Reduction} {text : List Char} {form : LeafForm} {span : Span}
  {nesting depth : Nat}

/-- The expression is a leaf of a form with a text. -/
def IsLeaf (form : LeafForm) (text : List Char) (expr : Expr) : Prop :=
  ∃ node, expr = .leaf node form ∧ node.text = String.ofList text

theorem exists_reductionRounds : ∃ count, Limits.reductionRounds = count + 1 := ⟨_, rfl⟩

theorem classify_yields (chars : other.ledger.chars = text)
    (isForm : leafForm? (span.slice text) = some form) :
    Yields other (IsLeaf form (span.slice text)) (classify span (span.slice text) other) := by
  unfold classify
  rw [isForm]
  refine Yields.bind (newNode_yields span) fun node _ _ known => Yields.pure ⟨node, rfl, ?_⟩
  rw [known, Ledger.textAt_eq, chars]

/-- A change of the numbering or of the record of effort is nothing of note. -/
theorem modifyBody_yields {change : Body → Body}
    (quiet : ∀ body, ∃ nextNode effort, change body = { body with nextNode, effort }) :
    Yields other (fun _ => True) (modifyBody change other) :=
  ⟨⟨rfl, rfl, quiet other.body⟩, trivial⟩

theorem deepen_yields (depth : Nat) :
    Yields other (fun _ => True)
      ((modify fun state => { state with deepest := max state.deepest depth } : ReduceM PUnit)
        other) :=
  ⟨⟨rfl, rfl, _, _, rfl⟩, trivial⟩

/-- A word is read as the leaf it is. -/
theorem reduce_word_yields (chars : other.ledger.chars = text)
    (isForm : leafForm? (span.slice text) = some form) :
    Yields other (fun result => ∃ expr, result = some expr ∧ IsLeaf form (span.slice text) expr)
      (OnSegments.reduce (nesting + 1) depth [⟨span, .word⟩] other) := by
  obtain ⟨count, rounds⟩ := exists_reductionRounds
  unfold OnSegments.reduce
  refine Yields.bind (deepen_yields depth) fun _ state₁ quiet₁ _ => ?_
  rw [if_neg (by simp), rounds, OnSegments.rounds]
  refine Yields.bind (Yields.bind (modifyBody_yields fun body => ⟨_, _, rfl⟩)
    fun _ state₂ quiet₂ _ => ?_) fun expr _ _ leaf => Yields.pure ⟨expr, rfl, leaf⟩
  have chars₂ : state₂.ledger.chars = text := by rw [quiet₂.ledger, quiet₁.ledger, chars]
  have classified := classify_yields chars₂ isForm
  rw [← chars₂, ← Ledger.slice_eq] at classified ⊢
  exact classified

/-- The expression assigns a leaf to a leaf. -/
def IsAssignmentOf (form value : LeafForm) (text valueText : List Char) (expr : Expr) : Prop :=
  ∃ node left right, expr = .assignment node .assign left right ∧
    IsLeaf form text left ∧ IsLeaf value valueText right

/-- Two words around an assignment sign are read as the assignment of their leaves. -/
theorem reduce_assignment_yields {first second : Span} {position : Nat} {value : LeafForm}
    (chars : other.ledger.chars = text) (isForm : leafForm? (first.slice text) = some form)
    (isValue : leafForm? (second.slice text) = some value) (before : first.start ≠ position) :
    Yields other (fun result => ∃ expr, result = some expr ∧
        IsAssignmentOf form value (first.slice text) (second.slice text) expr)
      (OnSegments.reduce (nesting + 2) depth
        [⟨first, .word⟩, ⟨⟨position, position + 1⟩, .op .assign⟩, ⟨second, .word⟩] other) := by
  obtain ⟨count, rounds⟩ := exists_reductionRounds
  have split : OnSegments.splitAt position
      [⟨first, .word⟩, ⟨⟨position, position + 1⟩, .op .assign⟩, ⟨second, .word⟩] =
      ([⟨first, .word⟩], [⟨second, .word⟩]) := by
    simp [OnSegments.splitAt, before]
  have next : OnSegments.next
      [⟨first, .word⟩, ⟨⟨position, position + 1⟩, .op .assign⟩, ⟨second, .word⟩] =
      pure (some ⟨position, .assign, false⟩) := rfl
  unfold OnSegments.reduce
  refine Yields.bind (deepen_yields depth) fun _ state₁ quiet₁ _ => ?_
  rw [if_neg (by simp), rounds, OnSegments.rounds]
  refine Yields.bind (Yields.bind (modifyBody_yields fun body => ⟨_, _, rfl⟩)
    fun _ state₂ quiet₂ _ => ?_) fun expr _ _ assigns => Yields.pure ⟨expr, rfl, assigns⟩
  have chars₂ : state₂.ledger.chars = text := by rw [quiet₂.ledger, quiet₁.ledger, chars]
  rw [show OnSegments.whole? _ = none from rfl, next, pure_bind]
  dsimp only
  rw [split, fold_assignment rfl, OnSegments.assignment]
  dsimp only
  simp only [bind_assoc]
  refine Yields.bind (reduce_word_yields chars₂ isForm) fun _ state₃ quiet₃ isTarget => ?_
  obtain ⟨target, rfl, isTarget⟩ := isTarget
  have chars₃ : state₃.ledger.chars = text := by rw [quiet₃.ledger, chars₂]
  rw [required, pure_bind]
  refine Yields.bind (reduce_word_yields chars₃ isValue) fun _ state₄ quiet₄ isValue => ?_
  obtain ⟨value, rfl, isValue⟩ := isValue
  refine Yields.bind (newNodeAround_yields _ _) fun node _ _ _ => Yields.pure ?_
  exact ⟨node, target, value, rfl, isTarget, isValue⟩

/-- What the only range of a statement is read as is the statement. -/
theorem statement_yields_of_reduce {segments : List Segment} {property : Expr → Prop}
    (yields : ∀ other : Reduction, other.ledger.chars = text →
      Yields other (fun result => ∃ expr, result = some expr ∧ property expr)
        (OnSegments.reduce nesting 1 segments other)) (chars : other.ledger.chars = text) :
    Yields other property (OnSegments.statement nesting segments other) := by
  unfold OnSegments.statement
  refine Yields.bind (modifyBody_yields fun body => ⟨_, _, rfl⟩) fun _ state₁ quiet₁ _ => ?_
  refine Yields.bind (yields state₁ (by rw [quiet₁.ledger, chars])) fun result _ _ reads => ?_
  obtain ⟨expr, rfl, holds⟩ := reads
  exact ⟨⟨rfl, rfl, _, _, rfl⟩, holds⟩

end Reduction

namespace Body

open Reduction MethodLowering.Tree Numeral

/-- The expression is one number of a text, and its value is a primitive. -/
def IsNumber (body : Body) (sight : Sight) (text : List Char) (expr : Expr) : Prop :=
  IsLeaf .literal text expr ∧ body.category sight expr = .ok .primitive

variable {text : List Char} {tokens : List Token} {scope : ParagraphId} {body : Body}

theorem IsNumber.of_isLeaf {sight : Sight} {expr : Expr} (plain : IsPlain text)
    (leaf : IsLeaf .literal text expr) : body.IsNumber sight text expr := by
  refine ⟨leaf, ?_⟩
  obtain ⟨node, rfl, spelled⟩ := leaf
  rw [category, spelled, String.toList_ofList, literalCategory?_of_isPlain plain]
  rfl

/-- Tokens that the scanner has found are read as their segments are reduced. -/
theorem readExpression_of_hasRead {property : Expr → Prop} (read : Scanner.HasRead tokens []
      (Scanner.run (Token.text tokens).length { ledger := Ledger.ofText (Token.text tokens) }))
    (filled : ∀ chars, .word chars ∈ tokens → chars ≠ [])
    (yields : ∀ nesting, ∀ other : Reduction, other.ledger.chars = Token.text tokens →
      Yields other (fun result => ∃ expr, result = some expr ∧ property expr)
        (OnSegments.reduce (nesting + 2) 1 (Token.segments 0 tokens) other)) :
    ∃ expr nextNode effort, readExpression scope (Token.text tokens) body =
        .ok ⟨expr, body.sightFrom scope⟩ { body with nextNode, effort } ∧ property expr := by
  have chars : (Ledger.scan (Token.text tokens)).chars = Token.text tokens := by
    have known := read.chars
    rwa [List.append_nil] at known
  have size : (Ledger.scan (Token.text tokens)).size = (Token.text tokens).length := by
    rw [← Ledger.length_chars, chars]
  refine readExpression_of_yields ?_ (statement_yields_of_reduce (yields _) chars)
  have shown :=
    @Token.shows_of_tags tokens { ledger := Ledger.scan (Token.text tokens), scope, body } 0
    (fun p _ => by rw [Nat.zero_add, ← Token.tag?_of_hasRead read]) filled
      (by rw [size, Nat.zero_add])
  rwa [Nat.zero_add, ← size] at shown

variable {numeral name : List Char}

/-- A number by itself is one leaf. -/
theorem readExpression_plain (plain : IsPlain numeral) (scope : ParagraphId) (body : Body) :
    ∃ expr nextNode effort, readExpression scope numeral body =
        .ok ⟨expr, body.sightFrom scope⟩ { body with nextNode, effort } ∧
      IsLeaf .literal numeral expr := by
  have text : Token.text [.word numeral] = numeral := by simp [Token.chars]
  have slice : Span.slice ⟨0, 0 + numeral.length⟩ numeral = numeral := by
    simpa using slice_word [] numeral []
  have isLiteral : leafForm? (Span.slice ⟨0, 0 + numeral.length⟩ numeral) = some .literal := by
    rw [slice, leafForm?_of_isPlain plain]
  obtain ⟨first, rest, starts, -⟩ := plain.exists_first
  have read := (Token.hasRead_start [.word numeral]).run_numeral plain rfl
  rw [List.nil_append, ← congrArg List.length text] at read
  rw [← text]
  refine readExpression_of_hasRead read (by simp [starts]) fun nesting other chars => ?_
  rw [text] at chars ⊢
  have word := @reduce_word_yields other numeral .literal _ (nesting + 1) 1 chars isLiteral
  rwa [slice] at word

/-- A number that is assigned is the value of the assignment. -/
theorem readExpression_assigned (plain : IsPlain numeral) (isName : isVariableName name = true)
    (noValue : String.ofList name ∉ valueWords) (scope : ParagraphId) (body : Body) :
    ∃ expr nextNode effort, readExpression scope (name ++ " = ".toList ++ numeral) body =
        .ok ⟨expr, body.sightFrom scope⟩ { body with nextNode, effort } ∧
      IsAssignmentOf .identifier .literal name numeral expr := by
  let tokens : List Token := [.word name, .blank, .op .assign, .blank, .word numeral]
  have text : Token.text tokens = name ++ " = ".toList ++ numeral := by
    simp [tokens, Token.chars, Op.spelling, Op.text, Op.row]
  have read := Scanner.hasRead_assignment (isWordChar_of_isVariableName isName) plain
  obtain ⟨first, rest, starts, -⟩ := plain.exists_first
  obtain ⟨initial, others, named, -⟩ := exists_of_isVariableName isName
  rw [← text]
  refine readExpression_of_hasRead read (by simp [tokens, starts, named])
    fun nesting other chars => ?_
  rw [text] at chars
  have nameSlice : Span.slice ⟨0, 0 + name.length⟩ (name ++ " = ".toList ++ numeral) = name := by
    simpa using slice_word [] name (" = ".toList ++ numeral)
  have slice : Span.slice ⟨0 + name.length + 3, 0 + name.length + 3 + numeral.length⟩
      (name ++ " = ".toList ++ numeral) = numeral := by
    simpa using slice_word (name ++ " = ".toList) numeral []
  have assigned := @reduce_assignment_yields other _ .identifier nesting 1 ⟨0, 0 + name.length⟩
    ⟨0 + name.length + 3, 0 + name.length + 3 + numeral.length⟩ (0 + name.length + 1) .literal chars
    (by rw [nameSlice, leafForm?_of_isVariableName isName noValue])
    (by rw [slice, leafForm?_of_isPlain plain]) (by simp)
  rwa [nameSlice, slice] at assigned

/-- **Numerals.**  A numeral whose points stand in front of digits and whose hexadecimal exponent
has no sign is read as one literal, a primitive, also where it is assigned to a variable. -/
theorem readExpression_numeral (isNumeral : IsNumeral numeral)
    (points : PointsAhead numeral) (unsigned : MarksUnsigned numeral)
    (isName : isVariableName name = true) (noValue : String.ofList name ∉ valueWords)
    (scope : ParagraphId) (body : Body) :
    (∃ placed after, readExpression scope numeral body = .ok placed after ∧
      after.IsNumber placed.sight numeral placed.expr) ∧ ∃ node target value placed after,
      readExpression scope (name ++ " = ".toList ++ numeral) body = .ok placed after ∧
        placed.expr = .assignment node .assign target value ∧ IsLeaf .identifier name target ∧
        after.IsNumber placed.sight numeral value := by
  have plain := isPlain_of_isNumeral isNumeral points unsigned
  constructor
  · obtain ⟨expr, nextNode, effort, reads, leaf⟩ := readExpression_plain plain scope body
    exact ⟨_, _, reads, .of_isLeaf plain leaf⟩
  · obtain ⟨expr, nextNode, effort, reads, node, target, value, rfl, isTarget, isValue⟩ :=
      readExpression_assigned plain isName noValue scope body
    exact ⟨node, target, value, _, _, reads, rfl, isTarget, .of_isLeaf plain isValue⟩

/-- A number with all its parts. -/
theorem readExpression_numeral_float :
    ∃ node target value placed after,
      readExpression root "x = 1_0.25e-3f".toList (initial {} {}) = .ok placed after ∧
        placed.expr = .assignment node .assign target value ∧ IsLeaf .identifier "x".toList target ∧
        after.IsNumber placed.sight "1_0.25e-3f".toList value := by
  have isNumeral : IsNumeral "1_0.25e-3f".toList := by
    have whole : AreDigits isDigit "1_0".toList := by constructor <;> decide
    have fraction : AreDigits isDigit "25".toList := by constructor <;> decide
    have digits : AreDigits isDigit "3".toList := by constructor <;> decide
    exact .decimal (.inr (.between whole fraction))
      (.inr (.of (by decide) (.inr ⟨'-', by decide, rfl⟩) digits)) (.inr ⟨'f', by decide, rfl⟩)
  exact (@readExpression_numeral _ "x".toList isNumeral (by decide) (by decide)
    (by decide) (by decide)
    root (initial {} {})).2

/-- A point at the end of a numeral is taken for an access to a member. -/
theorem readExpression_trailingPoint : IsNumeral "1.".toList ∧
    ∀ placed after, readExpression root "1.".toList (initial {} {}) ≠ .ok placed after := by
  have whole : AreDigits isDigit "1".toList := by constructor <;> decide
  refine ⟨.decimal (.inr (.ahead whole)) (.inl rfl) (.inl rfl), fun placed after reads => ?_⟩
  have fails : (EStateM.run' (readExpression root "1.".toList) (initial {} {})).isSome = false := by
    decide
  have found : EStateM.run' (readExpression root "1.".toList) (initial {} {}) = some placed := by
    unfold EStateM.run' EStateM.run
    rw [reads]
  rw [found] at fails
  contradiction

end Body

end
end MethodLowering
