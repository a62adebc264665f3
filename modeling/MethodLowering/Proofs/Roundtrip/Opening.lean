import MethodLowering.Proofs.Reader.Stacking
import MethodLowering.Proofs.Roundtrip.Statement

/-!
# How statements open

A paragraph decides by the first character and the leading word of its text what is read next.
-/

namespace MethodLowering

open Text

/-! ## Words -/

namespace Text

section

variable {c : Char} {word text : List Char}

/-- The codes of the blanks. -/
def blankCodes : List Nat :=
  [0x9, 0xA, 0xB, 0xC, 0xD, 0x20, 0x85, 0xA0, 0x1680, 0x2000, 0x2001, 0x2002, 0x2003,
    0x2004, 0x2005,
    0x2006, 0x2007, 0x2008, 0x2009, 0x200A, 0x2028, 0x2029, 0x202F, 0x205F, 0x3000]

theorem mem_blankCodes (blank : isBlank c = true) : c.toNat ∈ blankCodes := by
  simp only [isBlank, Bool.or_eq_true, Bool.and_eq_true, decide_eq_true_eq, beq_iff_eq] at blank
  simp only [blankCodes, List.mem_cons, List.not_mem_nil, or_false]
  omega

/-- Word characters are no blanks. -/
theorem isBlank_of_isWordChar (isChar : isWordChar c = true) : isBlank c = false := by
  have others : ∀ code ∈ blankCodes, isWordChar (Char.ofNat code) = false := by
    decide +kernel
  rw [Bool.eq_false_iff]
  intro blank
  have other := others _ (mem_blankCodes blank)
  rw [Char.ofNat_toNat, isChar] at other
  exact Bool.noConfusion other

theorem not_isWordChar_of_isBlank (blank : isBlank c = true) : isWordChar c = false := by
  rw [Bool.eq_false_iff]
  intro isWord
  rw [isBlank_of_isWordChar isWord] at blank
  contradiction

/-- A text that starts with a solid character has no blanks in front. -/
theorem trimStart_cons (solid : isBlank c = false) : trimStart (c :: text) = c :: text :=
  trimStart_eq_self (by rw [List.head?_cons, Option.any_some, solid]; exact Bool.false_ne_true)

/-- A text that starts with a word has no blanks in front. -/
theorem trimStart_word (letters : ∀ c ∈ word, isWordChar c = true) (present : word ≠ []) :
    trimStart (word ++ text) = word ++ text := by
  obtain ⟨first, rest, rfl⟩ := List.exists_cons_of_ne_nil present
  rw [List.cons_append, trimStart_cons (isBlank_of_isWordChar (letters first List.mem_cons_self))]

theorem trimStart_name (name : isName word = true) : trimStart (word ++ text) = word ++ text := by
  obtain ⟨first, rest, rfl, -⟩ := exists_of_isName name
  exact trimStart_word (fun c among => (isNameChar_plain (isNameChar_of_mem name among)).1)
    (List.cons_ne_nil _ _)

end

end Text

namespace Tree

/-- A printed tree starts with a solid character. -/
theorem trimStart_print : ∀ {tree : Tree} {more : List Char}, tree.isWellFormed = true →
    trimStart (tree.print ++ more) = tree.print ++ more
  | .name chars, more, well => by
      have text : print (.name chars) = chars := by simp [print, tokens, Token.text, Token.chars]
      rw [text]
      exact trimStart_name well
  | .group inner, more, _ => by
      simp only [print, tokens, List.cons_append, Token.text_cons]
      exact trimStart_cons (by decide)
  | .call callee arguments, more, well => by
      rw [isWellFormed, Bool.and_eq_true] at well
      rw [print, tokens, List.cons_append, Token.text_cons, List.append_assoc]
      exact trimStart_name well.1
  | .index target indices, more, well => by
      simp only [isWellFormed, Bool.and_eq_true] at well
      rw [print, tokens, Token.text_append, List.append_assoc]
      exact trimStart_print well.1.1.2
  | .member subject link, more, well => by
      simp only [isWellFormed, Bool.and_eq_true] at well
      rw [print, tokens, Token.text_append, List.append_assoc]
      exact trimStart_print well.1.1.2
  | .leading op operand, more, well => by
      simp only [isWellFormed, Bool.and_eq_true, Bool.or_eq_true] at well
      obtain ⟨c, rest, spelling, -, solid, -⟩ := @exists_symbol op (isInner_of_kind (by tauto))
      rw [print, tokens, List.cons_append, Token.text_cons, Token.chars, spelling]
      exact trimStart_cons solid
  | .trailing operand op, more, well => by
      simp only [isWellFormed, Bool.and_eq_true] at well
      rw [print, tokens, Token.text_append, List.append_assoc]
      exact trimStart_print well.2
  | .binary op left right, more, well => by
      simp only [isWellFormed, Bool.and_eq_true] at well
      rw [print, tokens, List.append_assoc, Token.text_append, List.append_assoc]
      exact trimStart_print well.1.2
  | .conditional condition first second, more, well => by
      simp only [isWellFormed, Bool.and_eq_true] at well
      simp only [print, tokens, Token.text_append, List.append_assoc]
      exact trimStart_print well.1.1.2
  | .assignment op target value, more, well => by
      simp only [isWellFormed, Bool.and_eq_true] at well
      rw [print, tokens, List.append_assoc, Token.text_append, List.append_assoc]
      exact trimStart_print well.1.2

end Tree

/-! ## Keywords -/

namespace Keyword

theorem letters (keyword : Keyword) : ∀ c ∈ keyword.text.toList, isWordChar c = true := by
  cases keyword <;> decide

theorem ne_nil (keyword : Keyword) : keyword.text.toList ≠ [] := by
  cases keyword <;> decide

/-- No keyword only continues a construct. -/
theorem not_continuation (keyword : Keyword) :
    ∀ word ∈ Reader.continuationWords, (keyword.text.toList == word.toList) = false := by
  cases keyword <;> decide

/-- Keywords are reserved. -/
theorem mem_reservedWords (keyword : Keyword) : keyword.text ∈ reservedWords := by
  cases keyword <;> decide

end Keyword

theorem letters_of_reserved : ∀ word ∈ reservedWords, ∀ c ∈ word.toList, isWordChar c = true := by
  decide

theorem reserved_ne_nil : ∀ word ∈ reservedWords, word.toList ≠ [] := by
  decide

theorem continuation_reserved : ∀ word ∈ Reader.continuationWords, word ∈ reservedWords := by
  decide

/-- No keyword is spelled by a word that is not reserved. -/
theorem Keyword.ofWord?_eq_none {word : List Char}
    (free : ∀ reserved ∈ reservedWords, String.ofList word ≠ reserved) : ofWord? word = none := by
  rw [ofWord?, List.find?_eq_none]
  intro keyword _ same
  refine free keyword.text keyword.mem_reservedWords ?_
  rw [← eq_of_beq same, String.ofList_toList]

/-- The first character does not decide what is read. -/
def IsOpen (text : List Char) : Prop :=
  ∃ c rest, text = c :: rest ∧ c ≠ '}' ∧ c ≠ '{' ∧ c ≠ ';'

theorem isOpen_word {word : List Char} (letters : ∀ c ∈ word, isWordChar c = true)
    (present : word ≠ []) (more : List Char) : IsOpen (word ++ more) := by
  obtain ⟨first, rest, rfl⟩ := List.exists_cons_of_ne_nil present
  have isChar := letters first List.mem_cons_self
  have other {mark : Char} (plain : isWordChar mark = false) : first ≠ mark := by
    rintro rfl
    rw [isChar] at plain
    contradiction
  exact ⟨first, rest ++ more, rfl, other (isWordChar_mark _ (by decide)),
    other (isWordChar_mark _ (by decide)), other (isWordChar_mark _ (by decide))⟩

/-! ## Steps of paragraphs -/

namespace Reader

section

variable {frame : ParagraphFrame} {text rest : List Char} {body : Body}

theorem stepParagraph_item (mode : takesItems frame.mode) :
    stepParagraph true frame text body = stepItem true frame text body := by
  unfold stepParagraph
  rcases mode with mode | mode | mode <;> rw [mode]

theorem stepItem_word (opens : IsOpen text) :
    stepItem true frame text body = stepWord true frame text body := by
  obtain ⟨c, rest, rfl, closing, opening, terminator⟩ := opens
  unfold stepItem
  simp only [beq_eq_false_iff_ne.2 closing, beq_eq_false_iff_ne.2 opening,
    beq_eq_false_iff_ne.2 terminator, Bool.false_eq_true, if_false]

/-- A terminator is a statement without anything. -/
theorem step_empty (mode : takesItems frame.mode) :
    stepParagraph true frame (';' :: rest) body =
      .ok (.advance (.paragraph (taking frame)) rest) (body.addItem frame.id .empty) := by
  rw [stepParagraph_item mode]
  change (do
    let frame ← addItem frame .empty
    return Step.advance (.paragraph frame) rest : ReadM Step) body = _
  simp only [bind, EStateM.bind, addItem_eq]
  rfl

/-- An opening bracket starts a block. -/
theorem step_block (mode : takesItems frame.mode) :
    stepParagraph true frame ('{' :: rest) body =
      .ok (.enter (.paragraph (taking { frame with label := none }))
          (.ofParagraph body.paragraphs.size .braced) rest)
        ((body.addParagraph
          { kind := .block, parent := some frame.id, label := frame.label, braced := true }).addItem
            frame.id (.block body.paragraphs.size)) := by
  rw [stepParagraph_item mode]
  change openBlock frame rest body = _
  simp only [openBlock, bind, EStateM.bind, addParagraph, get_apply, modify_apply, pure,
    EStateM.pure, addItem_eq]

/-- An opening bracket starts a body in brackets. -/
theorem step_brace {id : ParagraphId} :
    stepParagraph true ⟨id, .awaitOpen, none⟩ ('{' :: rest) body =
      .ok (.advance (.paragraph ⟨id, .braced, none⟩) rest)
        (body.modifyParagraph id fun paragraph => { paragraph with braced := true }) := rfl

/-- Anything else starts a body of one statement. -/
theorem step_unbraced {id : ParagraphId} {c : Char} (other : c ≠ '{') :
    stepParagraph true ⟨id, .awaitOpen, none⟩ (c :: rest) body =
      .ok (.advance (.paragraph ⟨id, .single false, none⟩) (c :: rest)) body := by
  change stepOpening ⟨id, .awaitOpen, none⟩ (c :: rest) body = _
  unfold stepOpening
  simp only [beq_eq_false_iff_ne.2 other, Bool.false_eq_true, if_false]
  rfl

/-- A word that continues nothing and is no keyword is not the start of a construct. -/
theorem stepWord_plain (free : ∀ reserved ∈ reservedWords,
      String.ofList (leadingWord text) ≠ reserved) :
    stepWord true frame text body = (match frame.mode with
        | .single _ => stepStatement frame text
        | _ => stepLabel true frame text) body := by
  have alone : continuationWords.find? (fun word => startsWithWord word.toList text) = none := by
    rw [List.find?_eq_none]
    intro word listed starts
    rw [startsWithWord_eq (letters_of_reserved word (continuation_reserved word listed)),
      beq_iff_eq] at starts
    exact free word (continuation_reserved word listed) (by rw [starts, String.ofList_toList])
  have unreserved : Keyword.leading? text = none := Keyword.ofWord?_eq_none free
  cases mode : frame.mode <;> simp only [stepWord, alone, unreserved, mode]

/-- A keyword starts a construct. -/
theorem step_keyword (keyword : Keyword) (mode : takesItems frame.mode)
    (ends : rest.head?.any isWordChar = false) :
    stepParagraph true frame (keyword.text.toList ++ rest) body =
      .ok (.enter (.paragraph (taking { frame with label := none }))
          (.construct { id := body.constructs.size, scope := frame.id, stage := .header }) rest)
        ((body.addConstruct { keyword, label := frame.label, scope := frame.id }).addItem frame.id
          (.construct body.constructs.size)) := by
  have leads : leadingWord (keyword.text.toList ++ rest) = keyword.text.toList :=
    leadingWord_append_of _ rest keyword.letters ends
  have alone : continuationWords.find?
      (fun word => startsWithWord word.toList (keyword.text.toList ++ rest)) = none := by
    rw [List.find?_eq_none]
    intro word listed
    rw [startsWithWord_eq (letters_of_reserved word (continuation_reserved word listed)), leads,
      keyword.not_continuation word listed]
    exact Bool.false_ne_true
  have known : Keyword.leading? (keyword.text.toList ++ rest) = some keyword := by
    rw [Keyword.leading?, leads, Keyword.ofWord?_text]
  have behind : (keyword.text.toList ++ rest).drop keyword.text.length = rest := by
    rw [← String.length_toList, List.drop_left]
  rw [stepParagraph_item mode, stepItem_word (isOpen_word keyword.letters keyword.ne_nil rest)]
  unfold stepWord
  rw [alone, known]
  dsimp only
  rw [behind]
  simp only [openConstruct, bind, EStateM.bind, addConstruct, get_apply, modify_apply, pure,
    EStateM.pure, addItem_eq, taking_id]

/-- A label in front of a block or loop waits for it. -/
theorem step_label {word : List Char} {id : ParagraphId} {mode : ParagraphMode}
    (label : isLabel word = true) (takes : mode = .root ∨ mode = .braced)
    (solid : trimStart rest = rest) (accepts : acceptsLabel rest = true) :
    stepParagraph true ⟨id, mode, none⟩ (word ++ ':' :: ' ' :: rest) body =
      .ok (.advance (.paragraph ⟨id, mode, some (String.ofList word)⟩) (' ' :: rest)) body := by
  simp only [isLabel, Bool.and_eq_true, Bool.not_eq_true', List.isEmpty_eq_false_iff,
    List.contains_eq_mem, decide_eq_false_iff_not] at label
  obtain ⟨⟨⟨nonempty, digit⟩, letters⟩, free⟩ := label
  have letters := List.all_eq_true.1 letters
  have leads : leadingWord (word ++ ':' :: ' ' :: rest) = word :=
    leadingWord_append_of _ _ letters (isWordChar_mark ':' (by decide))
  have free : ∀ reserved ∈ reservedWords,
      String.ofList (leadingWord (word ++ ':' :: ' ' :: rest)) ≠ reserved := by
    rw [leads]
    rintro reserved listed rfl
    exact free listed
  have found : leadingLabel? (word ++ ':' :: ' ' :: rest) = some (word, word.length + 1) := by
    have colon : trimStart (':' :: ' ' :: rest) = ':' :: ' ' :: rest := trimStart_cons (by decide)
    rw [leads] at free
    rw [leadingLabel?]
    simp only [leads, List.drop_left, colon, digit, Keyword.ofWord?_eq_none free, List.head?_cons,
      List.drop_succ_cons, List.drop_zero, Nat.sub_self, Nat.add_zero]
    rw [List.isEmpty_eq_false_iff.2 nonempty]
    rfl
  have behind : (word ++ ':' :: ' ' :: rest).drop (word.length + 1) = ' ' :: rest := by
    rw [List.drop_length_add_append]
    rfl
  have mode' : takesItems mode := by
    rcases takes with rfl | rfl
    · exact .inl rfl
    · exact .inr (.inl rfl)
  have toLabel : stepParagraph true ⟨id, mode, none⟩ (word ++ ':' :: ' ' :: rest) body =
      stepLabel true ⟨id, mode, none⟩ (word ++ ':' :: ' ' :: rest) body := by
    rw [stepParagraph_item mode', stepItem_word (isOpen_word letters nonempty _),
      stepWord_plain free]
    rcases takes with rfl | rfl <;> rfl
  rw [toLabel, stepLabel, found]
  dsimp only
  rw [behind, trimStart_space, solid, accepts]
  simp only [Bool.not_true, Bool.and_false, Bool.false_eq_true, if_false, if_true]
  rfl

end

end Reader
end MethodLowering
