import MethodLowering.Text.Cut

/-!
# Sealed text

Text whose round and square brackets are closed in pairs hides what stands between them: the
searches for a terminator, a separator or a closing bracket pass over it.
-/

namespace MethodLowering
namespace Text

/-- Neither a bracket nor the start of a literal. -/
def isPlain (c : Char) : Bool := !isQuoteMark c && !isOpening c && !isClosing c

/-- The brackets that hide text. -/
def bracketPairs : List (Char × Char) := [('(', ')'), ('[', ']')]

/-- Round and square brackets are closed in pairs, no literal starts, and the characters outside
brackets are among `bare`. -/
inductive Sealed : (Char → Bool) → List Char → Prop where
  | nil {bare : Char → Bool} : Sealed bare []
  | plain {bare : Char → Bool} {c : Char} {rest : List Char} (symbol : isPlain c = true)
      (free : bare c = true) (later : Sealed bare rest) : Sealed bare (c :: rest)
  | bracketed {bare : Char → Bool} {opening closing : Char} {inner rest : List Char}
      (pair : (opening, closing) ∈ bracketPairs) (inside : Sealed (fun _ => true) inner)
      (later : Sealed bare rest) : Sealed bare (opening :: (inner ++ closing :: rest))

namespace Sealed

variable {bare : Char → Bool} {text front back : List Char}

theorem append (first : Sealed bare front) (second : Sealed bare back) :
    Sealed bare (front ++ back) := by
  induction first with
  | nil => exact second
  | plain symbol free _ induction => exact .plain symbol free (induction second)
  | bracketed pair inside _ _ induction =>
      rw [List.cons_append, List.append_assoc, List.cons_append]
      exact .bracketed pair inside (induction second)

theorem mono {wider : Char → Bool} (within : Sealed bare text)
    (weaker : ∀ c, bare c = true → wider c = true) : Sealed wider text := by
  induction within with
  | nil => exact .nil
  | plain symbol free _ induction => exact .plain symbol (weaker _ free) (induction weaker)
  | bracketed pair inside _ _ induction => exact .bracketed pair inside (induction weaker)

theorem of_plain (plain : ∀ c ∈ text, isPlain c = true ∧ bare c = true) : Sealed bare text := by
  induction text with
  | nil => exact .nil
  | cons c rest induction =>
      obtain ⟨symbol, free⟩ := plain c List.mem_cons_self
      exact .plain symbol free (induction fun other among =>
        plain other (List.mem_cons_of_mem c among))

theorem between {opening closing : Char} (pair : (opening, closing) ∈ bracketPairs)
    (inside : Sealed (fun _ => true) text) : Sealed bare (opening :: (text ++ [closing])) :=
  .bracketed pair inside .nil

end Sealed

/-! ## Terminators -/

section

variable {terminator c : Char} {state : CutState}

theorem isPlain_eq (symbol : isPlain c = true) :
    isQuoteMark c = false ∧ isOpening c = false ∧ isClosing c = false := by
  simp only [isPlain, Bool.and_eq_true, Bool.not_eq_true'] at symbol
  exact ⟨symbol.1.1, symbol.1.2, symbol.2⟩

/-- Outside literals a character that is no bracket and does not end the search is passed. -/
theorem cutFrom_plain (outside : state.quote = .outside) (symbol : isPlain c = true)
    (goesOn : (c == terminator && state.depth == 0) = false) (position : Nat) (rest : List Char) :
    ∃ last, cutFrom terminator state position (c :: rest) =
      cutFrom terminator { state with last } (position + 1) rest := by
  obtain ⟨quote, depth, last, body, bodies⟩ := state
  obtain rfl : quote = .outside := outside
  obtain ⟨unquoted, opens, closes⟩ := isPlain_eq symbol
  have curly : (c == '{') = false := by
    simp only [isOpening, Bool.or_eq_false_iff] at opens
    exact opens.2
  rw [cutFrom]
  simp only [Quote.covers, unquoted, curly, opens, closes, goesOn, Bool.false_eq_true, if_false]
  split
  · exact ⟨last, rfl⟩
  · exact ⟨some c, rfl⟩

/-- An opening bracket is counted. -/
theorem cutFrom_opening {opening closing : Char} (outside : state.quote = .outside)
    (pair : (opening, closing) ∈ bracketPairs) (symbol : isPlain terminator = true) (position : Nat)
    (rest : List Char) :
    cutFrom terminator state position (opening :: rest) =
      cutFrom terminator { state with depth := state.depth + 1, last := some opening }
        (position + 1) rest := by
  have kinds : isQuoteMark opening = false ∧ isBlank opening = false ∧ isOpening opening = true ∧
      (opening == '{') = false := by
    revert pair
    rw [bracketPairs]
    simp only [List.mem_cons, List.not_mem_nil, or_false, Prod.mk.injEq]
    rintro (⟨rfl, rfl⟩ | ⟨rfl, rfl⟩) <;> decide
  obtain ⟨quote, blank, opens, curly⟩ := kinds
  have other : (opening == terminator) = false := by
    rw [beq_eq_false_iff_ne]
    rintro rfl
    rw [(isPlain_eq symbol).2.1] at opens
    contradiction
  rw [cutFrom]
  simp only [outside, Quote.covers, quote, blank, other, curly, opens, Bool.false_and,
    Bool.false_eq_true, if_false, if_true]

/-- A closing bracket takes the count back. -/
theorem cutFrom_closing {opening closing : Char} {depth : Nat} (outside : state.quote = .outside)
    (noBody : state.body = none) (deep : state.depth = depth + 1)
    (pair : (opening, closing) ∈ bracketPairs) (symbol : isPlain terminator = true) (position : Nat)
    (rest : List Char) :
    cutFrom terminator state position (closing :: rest) =
      cutFrom terminator { state with depth, last := some closing } (position + 1) rest := by
  have kinds : isQuoteMark closing = false ∧ isBlank closing = false ∧ isOpening closing = false ∧
      (closing == '{') = false ∧ isClosing closing = true := by
    revert pair
    rw [bracketPairs]
    simp only [List.mem_cons, List.not_mem_nil, or_false, Prod.mk.injEq]
    rintro (⟨rfl, rfl⟩ | ⟨rfl, rfl⟩) <;> decide
  obtain ⟨quote, blank, opens, curly, closes⟩ := kinds
  have other : (closing == terminator) = false := by
    rw [beq_eq_false_iff_ne]
    rintro rfl
    rw [(isPlain_eq symbol).2.2] at closes
    contradiction
  rw [cutFrom]
  simp only [outside, Quote.covers, quote, blank, other, curly, opens, closes, deep, CutState.close,
    noBody, Bool.false_and, Bool.false_eq_true, if_false, if_true, Nat.add_sub_cancel,
    Nat.add_eq_zero_iff, Nat.one_ne_zero, and_false, beq_iff_eq]

/-- The search for a terminator passes sealed text: inside brackets always, and outside brackets
where the terminator is not among the characters that stand there. -/
theorem Sealed.cutFrom_append {bare : Char → Bool} {text : List Char} (hidden : Sealed bare text)
    (symbol : isPlain terminator = true) (outside : state.quote = .outside)
    (noBody : state.body = none)
    (absent : state.depth = 0 → bare terminator = false) (position : Nat) (more : List Char) :
    ∃ last, cutFrom terminator state position (text ++ more) =
      cutFrom terminator { state with last } (position + text.length) more := by
  induction hidden generalizing state position more with
  | nil => exact ⟨state.last, rfl⟩
  | @plain bare c rest plain free _ induction =>
      have goesOn : (c == terminator && state.depth == 0) = false := by
        rw [Bool.and_eq_false_iff, beq_eq_false_iff_ne]
        by_cases same : c = terminator
        · right
          subst same
          rw [beq_eq_false_iff_ne]
          intro top
          rw [absent top] at free
          contradiction
        · exact .inl same
      obtain ⟨last, passed⟩ := cutFrom_plain outside plain goesOn position (rest ++ more)
      obtain ⟨last', passed'⟩ :=
        @induction { state with last } outside noBody absent (position + 1) more
      refine ⟨last', ?_⟩
      rw [List.cons_append, passed, passed', List.length_cons, Nat.add_assoc, Nat.add_comm 1]
  | @bracketed bare opening closing inner rest pair _ _ inside later =>
      obtain ⟨last, passed⟩ :=
        @inside { state with depth := state.depth + 1, last := some opening } outside noBody
          (fun top => absurd top (Nat.succ_ne_zero _)) (position + 1) (closing :: (rest ++ more))
      obtain ⟨last', passed'⟩ :=
        @later { state with last := some closing } outside noBody absent
          (position + 1 + inner.length + 1) more
      have closed :=
        @cutFrom_closing terminator { state with depth := state.depth + 1, last } opening
        closing state.depth outside noBody rfl pair symbol
      refine ⟨last', ?_⟩
      rw [List.cons_append, List.append_assoc, List.cons_append,
        cutFrom_opening outside pair symbol,
        passed, closed, passed']
      congr 1
      simp only [List.length_append, List.length_cons]
      omega

/-- The statement in front of the first terminator outside brackets. -/
theorem Sealed.findCut_append {bare : Char → Bool} {text : List Char} (hidden : Sealed bare text)
    (symbol : isPlain terminator = true) (solid : isBlank terminator = false)
    (absent : bare terminator = false) (more : List Char) :
    findCut terminator (text ++ terminator :: more) = .found ⟨text.length, []⟩ := by
  obtain ⟨last, passed⟩ :=
    @Sealed.cutFrom_append _ {} _ _ hidden symbol rfl rfl (fun _ => absent) 0 (terminator :: more)
  rw [findCut, passed, cutFrom, Nat.zero_add]
  simp [Quote.covers, (isPlain_eq symbol).1, solid]

end

/-! ## Closing brackets -/

/-- The search for a closing round bracket passes sealed text. -/
theorem Sealed.closeFrom_append {bare : Char → Bool} {text : List Char} (hidden : Sealed bare text)
    (depth position : Nat) (more : List Char) :
    closeFrom '(' ')' .outside (depth + 1) position (text ++ more) =
      closeFrom '(' ')' .outside (depth + 1) (position + text.length) more := by
  have passes {c : Char} {rest : List Char} (unquoted : isQuoteMark c = false) (other : c ≠ '(')
      (other' : c ≠ ')') (depth position : Nat) :
      closeFrom '(' ')' .outside depth position (c :: rest) =
        closeFrom '(' ')' .outside depth (position + 1) rest := by
    rw [closeFrom]
    simp [Quote.covers, Quote.next, unquoted, other, other']
  induction hidden generalizing depth position more with
  | nil => rfl
  | @plain bare c rest plain _ _ induction =>
      obtain ⟨unquoted, opens, closes⟩ := isPlain_eq plain
      have other : c ≠ '(' := by
        rintro rfl
        contradiction
      have other' : c ≠ ')' := by
        rintro rfl
        contradiction
      rw [List.cons_append, passes unquoted other other', induction, List.length_cons,
        Nat.add_assoc, Nat.add_comm 1]
  | @bracketed bare opening closing inner rest pair _ _ inside later =>
      have length : position + (opening :: (inner ++ closing :: rest)).length =
          position + 1 + inner.length + 1 + rest.length := by
        simp only [List.length_append, List.length_cons]
        omega
      rw [length, List.cons_append, List.append_assoc, List.cons_append]
      rw [bracketPairs] at pair
      simp only [List.mem_cons, List.not_mem_nil, or_false, Prod.mk.injEq] at pair
      rcases pair with ⟨rfl, rfl⟩ | ⟨rfl, rfl⟩
      · have opened (more : List Char) :
            closeFrom '(' ')' .outside (depth + 1) position ('(' :: more) =
            closeFrom '(' ')' .outside (depth + 1 + 1) (position + 1) more := by
          rw [closeFrom]
          rfl
        have closed (position : Nat) (more : List Char) :
            closeFrom '(' ')' .outside (depth + 1 + 1) position (')' :: more) =
              closeFrom '(' ')' .outside (depth + 1) (position + 1) more := by
          rw [closeFrom]
          rfl
        rw [opened, inside, closed, later]
      · rw [passes (by decide) (by decide) (by decide), inside,
          passes (by decide) (by decide) (by decide), later]

/-- Sealed text in round brackets reaches up to the bracket behind it. -/
theorem Sealed.matchingClose?_eq {bare : Char → Bool} {text : List Char} (hidden : Sealed bare text)
    (more : List Char) : matchingClose? ('(' :: (text ++ ')' :: more)) =
      some (text.length + 1) := by
  have opened : closeFrom '(' ')' .outside 0 0 ('(' :: (text ++ ')' :: more)) =
      closeFrom '(' ')' .outside (0 + 1) 1 (text ++ ')' :: more) := by
    rw [closeFrom]
    rfl
  have closed (position : Nat) :
      closeFrom '(' ')' .outside (0 + 1) position (')' :: more) = some position := by
    rw [closeFrom]
    rfl
  rw [matchingClose?, show closing? '(' = some ')' from rfl, Option.bind_some, opened,
    hidden.closeFrom_append, closed, Nat.add_comm]

/-! ## Separators -/

/-- Splitting passes sealed text, which goes in front of the first part found behind it. -/
theorem Sealed.splitFrom_append {bare : Char → Bool} {separator : Char} {text : List Char}
    (hidden : Sealed bare text) (depth : Nat) (absent : depth = 0 → bare separator = false)
    (more : List Char) :
    splitFrom separator .outside depth (text ++ more) =
      text.foldr consFirst (splitFrom separator .outside depth more) := by
  have opens {c : Char} {rest : List Char} (unquoted : isQuoteMark c = false)
      (opening : isOpening c = true) (depth : Nat) :
      splitFrom separator .outside depth (c :: rest) =
        consFirst c (splitFrom separator .outside (depth + 1) rest) := by
    rw [splitFrom]
    simp [Quote.covers, Quote.next, unquoted, opening]
  have closes {c : Char} {rest : List Char} (unquoted : isQuoteMark c = false)
      (opening : isOpening c = false) (closing : isClosing c = true) (depth : Nat) :
      splitFrom separator .outside (depth + 1) (c :: rest) =
        consFirst c (splitFrom separator .outside depth rest) := by
    rw [splitFrom]
    simp [Quote.covers, Quote.next, unquoted, opening, closing]
  induction hidden generalizing depth more with
  | nil => rfl
  | @plain bare c rest plain free _ induction =>
      obtain ⟨unquoted, opening, closing⟩ := isPlain_eq plain
      have goesOn : ¬ (c = separator ∧ depth = 0) := by
        rintro ⟨rfl, top⟩
        rw [absent top] at free
        contradiction
      rw [List.cons_append, splitFrom]
      simp only [Quote.covers, Quote.next, unquoted, opening, closing, Bool.false_eq_true, if_false,
        Bool.and_eq_true, beq_iff_eq, goesOn, List.foldr_cons]
      rw [induction depth absent]
  | @bracketed bare opening closing inner rest pair _ _ inside later =>
      have kinds : isQuoteMark opening = false ∧ isOpening opening = true ∧
          isQuoteMark closing = false ∧ isOpening closing = false ∧ isClosing closing = true := by
        revert pair
        rw [bracketPairs]
        simp only [List.mem_cons, List.not_mem_nil, or_false, Prod.mk.injEq]
        rintro (⟨rfl, rfl⟩ | ⟨rfl, rfl⟩) <;> decide
      rw [List.cons_append, List.append_assoc, List.cons_append, opens kinds.1 kinds.2.1,
        inside _ (fun top => absurd top (Nat.succ_ne_zero _)),
        closes kinds.2.2.1 kinds.2.2.2.1 kinds.2.2.2.2, later depth absent, List.foldr_cons,
        List.foldr_append, List.foldr_cons]

theorem foldr_consFirst (text part : List Char) (parts : List (List Char)) :
    text.foldr consFirst (part :: parts) = (text ++ part) :: parts := by
  induction text with
  | nil => rfl
  | cons c rest induction => rw [List.foldr_cons, induction, consFirst, List.cons_append]

/-- Sealed text without separators is one part. -/
theorem Sealed.splitTop_eq {bare : Char → Bool} {separator : Char} {text : List Char}
    (hidden : Sealed bare text) (absent : bare separator = false) :
    splitTop separator text = [text] := by
  have passed := hidden.splitFrom_append 0 (fun _ => absent) []
  rw [List.append_nil] at passed
  rw [splitTop, passed, splitFrom, foldr_consFirst, List.append_nil]

/-- Sealed text in front of a separator is the first part. -/
theorem Sealed.splitTop_append {bare : Char → Bool} {separator : Char} {text : List Char}
    (hidden : Sealed bare text) (absent : bare separator = false)
    (symbol : isPlain separator = true) (more : List Char) :
    splitTop separator (text ++ separator :: more) = text :: splitTop separator more := by
  obtain ⟨unquoted, opening, closing⟩ := isPlain_eq symbol
  rw [splitTop, hidden.splitFrom_append 0 (fun _ => absent), splitFrom]
  simp only [Quote.covers, Quote.next, unquoted, opening, closing, Bool.false_eq_true, if_false,
    beq_self_eq_true, Bool.and_self, if_true]
  rw [foldr_consFirst, List.append_nil, splitTop]

end Text
end MethodLowering
