import MethodLowering.Proofs.Roundtrip.Steps

/-!
# What written statements open with

The text of a statement starts with its keyword or its label, or with no reserved word at all.  So a
construct in front of it never takes it for a clause of its own, with one exception: a conditional
without `else` takes an `else` that follows.
-/

namespace MethodLowering

open Text MethodLowering.Tree Reader

/-! ## What texts open with -/

/-- The text starts with a word that ends there. -/
def IsLed (word text : List Char) : Prop :=
  (∀ c ∈ word, isWordChar c = true) ∧ ∃ rest, text = word ++ rest ∧
    rest.head?.any isWordChar = false

/-- A text that starts with a word starts with no other. -/
theorem IsLed.startsWithWord_eq_false {word text : List Char} (led : IsLed word text)
    {reserved : String} (listed : reserved ∈ reservedWords) (other : word ≠ reserved.toList) :
    startsWithWord reserved.toList text = false := by
  obtain ⟨letters, rest, rfl, ends⟩ := led
  rw [startsWithWord_eq (letters_of_reserved reserved listed), leadingWord_append_of word
    rest letters ends,
    beq_eq_false_iff_ne]
  exact other

namespace Statement

/-- The keyword that a statement starts with. -/
def keyword? : Statement → Option Keyword
  | conditional .. => some .ifThen
  | counted none .. | iterator none .. => some .forLoop
  | whileLoop none .. => some .whileLoop
  | doLoop none .. => some .doLoop
  | switch .. => some .switch
  | caseLabel _ => some .caseLabel
  | defaultLabel => some .defaultLabel
  | tryBlock .. => some .tryBlock
  | synchronized .. => some .synchronized
  | exit keyword _ | jump keyword _ => some keyword
  | _ => none

/-- The label that a statement starts with. -/
def label? : Statement → Option (List Char)
  | block label _ | counted label .. | iterator label .. | whileLoop label .. | doLoop label .. =>
      label
  | _ => none

variable {statement : Statement} {keyword : Keyword} {word : List Char}

theorem printOn_of_keyword? (starts : statement.keyword? = some keyword) (more : List Char) :
    ∃ rest, statement.printOn more = keyword.text.toList ++ rest ∧
      rest.head?.any isWordChar = false := by
  cases statement with
  | conditional | switch | caseLabel | tryBlock | synchronized =>
      obtain rfl := Option.some.inj starts
      exact ⟨' ' :: _, rfl, isWordChar_space⟩
  | counted label | iterator label | whileLoop label | doLoop label =>
      cases label with
      | some word => contradiction
      | none =>
          obtain rfl := Option.some.inj starts
          exact ⟨' ' :: _, rfl, isWordChar_space⟩
  | defaultLabel =>
      obtain rfl := Option.some.inj starts
      exact ⟨':' :: _, rfl, isWordChar_mark ':' (by decide)⟩
  | exit own value =>
      obtain rfl := Option.some.inj starts
      cases value with
      | none => exact ⟨';' :: _, rfl, isWordChar_mark ';' (by decide)⟩
      | some tree => exact ⟨' ' :: _, rfl, isWordChar_space⟩
  | jump own label =>
      obtain rfl := Option.some.inj starts
      cases label with
      | none => exact ⟨';' :: _, rfl, isWordChar_mark ';' (by decide)⟩
      | some word => exact ⟨' ' :: _, rfl, isWordChar_space⟩
  | empty | expression root | block label inner => contradiction

theorem printOn_of_label? (starts : statement.label? = some word) (more : List Char) :
    ∃ rest, statement.printOn more = word ++ ':' :: rest := by
  cases statement with
  | block label | counted label | iterator label | whileLoop label | doLoop label =>
      obtain rfl : label = some word := starts
      exact ⟨_, rfl⟩
  | _ => contradiction

theorem isLabel_of_label? (well : statement.isWellFormed = true)
    (starts : statement.label? = some word) : isLabel word = true := by
  cases statement with
  | block label | counted label | iterator label | whileLoop label | doLoop label =>
      obtain rfl : label = some word := starts
      simp only [isWellFormed, Bool.and_eq_true, Option.all_some] at well
      tauto
  | _ => contradiction

/-- How the text of a statement opens: solid, and with no reserved word but its keyword. -/
structure Opens (keyword? : Option Keyword) (text : List Char) : Prop where
  solid : trimStart text = text
  other : ∀ reserved ∈ reservedWords, (∀ keyword, keyword? = some keyword →
    keyword.text ≠ reserved) →
    startsWithWord reserved.toList text = false

/-- A text that starts with a symbol starts with no word. -/
theorem opens_symbol {c : Char} (symbol : isWordChar c = false) (solid : isBlank c = false)
    (rest : List Char) : Opens none (c :: rest) := by
  refine ⟨trimStart_cons solid, fun reserved listed _ => ?_⟩
  have led : IsLed [] (c :: rest) := ⟨nofun, _, rfl, symbol⟩
  exact led.startsWithWord_eq_false listed fun same => reserved_ne_nil reserved listed same.symm

theorem opens_print {tree : Tree} (well : tree.isWellFormed = true) (more : List Char) :
    Opens none (tree.print ++ ';' :: more) := by
  obtain ⟨word, rest, text, isWord, ends, -⟩ := @opensPlain_print tree (';' :: more) well
    (unlabels_cons (isWordChar_mark _ (by decide)) (by decide) (by decide) _)
  refine ⟨trimStart_print well, fun reserved listed _ => ?_⟩
  rw [text]
  have letters : ∀ c ∈ word, isWordChar c = true := by
    rcases isWord with rfl | isName
    · nofun
    · exact fun c among => (isNameChar_plain (isNameChar_of_mem isName among)).1
  have led : IsLed word (word ++ rest) := ⟨letters, rest, rfl, ends⟩
  refine led.startsWithWord_eq_false listed ?_
  rintro rfl
  rcases isWord with empty | isName
  · exact reserved_ne_nil reserved listed empty
  · exact ne_of_isName isName listed (String.ofList_toList)

theorem opens_keyword (keyword : Keyword) {rest : List Char}
    (ends : rest.head?.any isWordChar = false) :
    Opens (some keyword) (keyword.text.toList ++ rest) := by
  refine ⟨trimStart_word keyword.letters keyword.ne_nil, fun reserved listed other => ?_⟩
  have led : IsLed keyword.text.toList (keyword.text.toList ++ rest) :=
    ⟨keyword.letters, rest, rfl, ends⟩
  exact led.startsWithWord_eq_false listed fun same => other keyword rfl (String.toList_inj.1 same)

theorem opens_label (label : isLabel word = true) (rest : List Char) :
    Opens none (word ++ ':' :: rest) := by
  simp only [isLabel, Bool.and_eq_true, Bool.not_eq_true', List.isEmpty_eq_false_iff,
    List.contains_eq_mem, decide_eq_false_iff_not] at label
  have letters := List.all_eq_true.1 label.1.2
  refine ⟨trimStart_word letters label.1.1.1, fun reserved listed _ => ?_⟩
  have led : IsLed word (word ++ ':' :: rest) :=
    ⟨letters, _, rfl, isWordChar_mark ':' (by decide)⟩
  refine led.startsWithWord_eq_false listed ?_
  rintro rfl
  rw [String.ofList_toList] at label
  exact label.2 listed

/-- The text of a statement opens with its keyword, its label or no reserved word. -/
theorem opens_printOn (well : statement.isWellFormed = true) (more : List Char) :
    Opens statement.keyword? (statement.printOn more) := by
  cases label : statement.label? with
  | some word =>
      have free : statement.keyword? = none := by
        cases statement with
        | block own | counted own | iterator own | whileLoop own | doLoop own =>
            obtain rfl : own = some word := label
            rfl
        | _ => contradiction
      obtain ⟨rest, text⟩ := printOn_of_label? label more
      rw [free, text]
      exact opens_label (isLabel_of_label? well label) rest
  | none =>
      cases starts : statement.keyword? with
      | some keyword =>
          obtain ⟨rest, text, ends⟩ := printOn_of_keyword? starts more
          rw [text]
          exact opens_keyword keyword ends
      | none =>
          cases statement with
          | empty =>
              rw [printOn]
              exact opens_symbol (isWordChar_mark _ (by decide)) (by decide) more
          | expression root =>
              rw [isWellFormed] at well
              rw [printOn]
              exact opens_print well more
          | block own inner =>
              obtain rfl : own = none := label
              simp only [printOn, labelled, printBraced_eq]
              exact opens_symbol (isWordChar_mark _ (by decide)) (by decide) _
          | counted own | iterator own | whileLoop own | doLoop own =>
              obtain rfl : own = none := label
              contradiction
          | _ => contradiction

/-- No block is opened. -/
theorem printOn_ne_brace (well : statement.isWellFormed = true)
    (short : ∀ tree ∈ statement.trees, tree.isShort = true) (plain : statement.isPlain = true)
    (more : List Char) : ∃ c rest, statement.printOn more = c :: rest ∧ c ≠ '{' := by
  cases starts : statement.keyword? with
  | some keyword =>
      obtain ⟨rest, text, -⟩ := printOn_of_keyword? starts more
      obtain ⟨c, later, same, -, other, -⟩ := isOpen_word keyword.letters keyword.ne_nil rest
      exact ⟨c, later, text.trans same, other⟩
  | none =>
      cases statement with
      | empty => exact ⟨_, _, rfl, by decide⟩
      | expression root =>
          rw [isWellFormed] at well
          obtain ⟨c, later, same, -, other, -⟩ :=
            isOpen_print well (short root (List.mem_singleton_self root)) (';' :: more)
          exact ⟨c, later, same, other⟩
      | counted own | iterator own | whileLoop own | doLoop own =>
          cases own <;> contradiction
      | _ => contradiction

end Statement

/-- What may stand behind a statement: no handler or cleanup, and no `else` where a conditional
still takes one. -/
structure Follows (isOpen : Bool) (more : List Char) : Prop where
  handler : startsWithWord "catch".toList (trimStart more) = false
  cleanup : startsWithWord "finally".toList (trimStart more) = false
  otherwise : isOpen = true → startsWithWord "else".toList (trimStart more) = false

theorem Follows.mono {isOpen isOpen' : Bool} {more : List Char} (follows : Follows isOpen more)
    (weaker : isOpen' = true → isOpen = true) : Follows isOpen' more :=
  ⟨follows.handler, follows.cleanup, fun holds => follows.otherwise (weaker holds)⟩

theorem Follows.blank {isOpen : Bool} {more : List Char} (follows : Follows isOpen more) :
    Follows isOpen (' ' :: more) := by
  obtain ⟨handler, cleanup, otherwise⟩ := follows
  rw [← trimStart_space] at handler cleanup otherwise
  exact ⟨handler, cleanup, otherwise⟩

theorem Statement.Opens.follows {keyword? : Option Keyword} {text : List Char}
    (opens : Statement.Opens keyword? text) : Follows true text := by
  have other {reserved : String} (listed : reserved ∈ reservedWords)
      (free : ∀ keyword : Keyword, keyword.text ≠ reserved) :
      startsWithWord reserved.toList (trimStart text) = false := by
    rw [opens.solid]
    exact opens.other reserved listed fun keyword _ => free keyword
  refine ⟨other (by decide) ?_, other (by decide) ?_, fun _ => other (by decide) ?_⟩ <;>
    intro keyword <;> cases keyword <;> decide

/-- An `else` stands behind a closed statement. -/
theorem follows_else (rest : List Char) :
    Follows false (' ' :: ("else".toList ++ ' ' :: rest)) := by
  have led : IsLed "else".toList ("else".toList ++ ' ' :: rest) :=
    ⟨letters_of_reserved "else" (by decide), _, rfl, isWordChar_space⟩
  have solid : trimStart (' ' :: ("else".toList ++ ' ' :: rest)) = "else".toList ++ ' ' :: rest :=
    rfl
  refine ⟨?_, ?_, nofun⟩
  · rw [solid]
    exact led.startsWithWord_eq_false (by decide) (by decide)
  · rw [solid]
    exact led.startsWithWord_eq_false (by decide) (by decide)

end MethodLowering
