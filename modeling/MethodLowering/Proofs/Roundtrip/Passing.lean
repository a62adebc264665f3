import MethodLowering.Proofs.Roundtrip.Numeral
import MethodLowering.Proofs.Roundtrip.Opening

/-!
# Passing characters

The scanner finds nothing at blanks and inside words.  It keeps a number in one piece, since letters
and digits spell no operator, a point in front of a digit is none, and a sign is none behind an
exponent mark.
-/

namespace MethodLowering

open Text

namespace Scanner

open Ledger Numeral

/-- The scanner finds nothing at its position. -/
def Passes (scanner : Scanner) : Prop :=
  ∃ c, scanner.ledger.char? scanner.position = some c ∧
    scanner.advance c = { scanner with position := scanner.position + 1 }

section

variable {scanner : Scanner} {front text rest : List Char} {c : Char} {op : Op}

theorem run_of_passes {count : Nat}
    (passes : ∀ offset < count, Passes { scanner with position := scanner.position + offset })
    (more : Nat) :
    run (count + more) scanner = run more
      { scanner with position := scanner.position + count } := by
  induction count generalizing scanner with
  | zero => rw [Nat.zero_add]; rfl
  | succ count induction =>
      obtain ⟨c, here, taken⟩ := passes 0 (Nat.succ_pos count)
      dsimp only [Nat.add_zero] at here taken
      rw [Nat.add_right_comm, run, here]
      dsimp only
      rw [taken, induction fun offset low => ?_]
      · dsimp only
        rw [Nat.add_assoc, Nat.add_comm 1]
      · dsimp only
        rw [Nat.add_assoc, Nat.add_comm 1]
        exact passes (offset + 1) (Nat.succ_lt_succ low)

theorem char?_of_drop (ahead : scanner.ledger.chars.drop scanner.position = text) (offset : Nat) :
    scanner.ledger.char? (scanner.position + offset) = text[offset]? := by
  rw [char?_eq_chars, ← List.getElem?_drop, ahead]

theorem char?_zero_of_drop (ahead : scanner.ledger.chars.drop scanner.position = text) :
    scanner.ledger.char? scanner.position = text.head? := by
  rw [← Nat.add_zero scanner.position, char?_of_drop ahead, List.head?_eq_getElem?]

theorem emptyPair?_of_ne (here : scanner.ledger.char? scanner.position = some c) (other : c ≠ '[') :
    emptyPair? scanner.ledger scanner.position = none := by
  rw [emptyPair?, charIs, here, if_neg]
  rw [beq_iff_eq, Option.some.injEq]
  exact other

theorem not_isQuoteMark_of_isWordChar (isWord : isWordChar c = true) : isQuoteMark c = false := by
  rw [Bool.eq_false_iff, isQuoteMark, ne_eq, Bool.or_eq_true, beq_iff_eq, beq_iff_eq]
  rintro (rfl | rfl)
  · revert isWord
    decide
  · revert isWord
    decide

theorem passes_blank (outside : scanner.quote = .outside)
    (ahead : scanner.ledger.chars.drop scanner.position = c :: rest) (blank : isBlank c = true) :
    scanner.Passes := by
  have plain := isQuoteMark_of_isBlank blank
  refine ⟨c, char?_zero_of_drop ahead, ?_⟩
  have stays : scanner.quote.next c = scanner.quote := by
    rw [outside, Quote.next, plain, if_neg Bool.false_ne_true]
  rw [advance, stays, outside, Quote.covers, plain, blank, ← outside]
  rfl

/-- A word character spells an operator only at the start of a word between blanks. -/
theorem spelledOp?_word (ahead : scanner.ledger.chars.drop scanner.position = c :: rest)
    (isWord : isWordChar c = true) (inside : Op.instanceOf.spelling <+: c :: rest →
      isSpaced scanner.ledger scanner.position Op.instanceOf.width = false) :
    spelledOp? scanner.ledger scanner.position = none := by
  rw [spelledOp?, List.find?_eq_none]
  intro op _ spelled
  rw [Bool.and_eq_true, spells_eq, ahead, List.isPrefixOf_iff_prefix] at spelled
  obtain ⟨starts, spaced⟩ := spelled
  by_cases symbolic : op = .instanceOf
  · subst symbolic
    rw [bne_self_eq_false, Bool.false_or, inside starts] at spaced
    contradiction
  · obtain ⟨first, others, spelling⟩ : ∃ first others, op.spelling = first :: others :=
      List.exists_cons_of_length_pos (Ledger.width_pos op)
    have noWord := Op.not_isWordChar_of_mem symbolic (c := first) (by simp [spelling])
    rw [spelling, List.cons_prefix_cons] at starts
    rw [starts.1, isWord] at noWord
    contradiction

/-- No word between blanks starts at the start of the text or behind a character that is no
blank. -/
theorem isSpaced_eq_false {position width : Nat} {ledger : Ledger}
    (inside : position = 0 ∨ blankAt ledger (position - 1) = false) :
    isSpaced ledger position width = false := by
  rw [isSpaced]
  rcases inside with rfl | solid
  · rfl
  · rw [solid, Bool.and_false, Bool.false_and]

theorem passes_word (outside : scanner.quote = .outside)
    (ahead : scanner.ledger.chars.drop scanner.position = c :: rest) (isWord : isWordChar c = true)
    (inside : Op.instanceOf.spelling <+: c :: rest →
      isSpaced scanner.ledger scanner.position Op.instanceOf.width = false) :
    scanner.Passes := by
  have here := char?_zero_of_drop ahead
  refine ⟨c, here, ?_⟩
  rw [advance_solid outside (not_isQuoteMark_of_isWordChar isWord) (isBlank_of_isWordChar isWord),
    takeSolid, emptyPair?_of_ne here, spelledOp?_word ahead isWord inside]
  rintro rfl
  revert isWord
  decide

/-- Digits join no point or sign. -/
theorem not_absorbs_digit (mark : op ∈ [Op.dot, .plus, .minus]) (digit : isDigit c = true) :
    op.absorbs c = false := by
  have low := toNat_lt_of_isNameChar (isNameChar_of_isDigit digit)
  revert digit
  apply of_ascii low
  revert op
  decide

/-- Points and signs are operators of one character, which the table gives as themselves. -/
theorem exists_of_mark : ∀ op ∈ [Op.dot, .plus, .minus], op.inTable = op ∧ op ≠ .instanceOf ∧
    (op == .assign) = false ∧ op.isRightShift = false ∧
    ∃ c, op.spelling = [c] ∧ isQuoteMark c = false ∧ isBlank c = false ∧ c ≠ '[' := by
  simp only [List.forall_mem_cons, List.not_mem_nil, false_implies, implies_true, and_true]
  refine ⟨?_, ?_, ?_⟩
  · exact ⟨rfl, by decide, rfl, rfl, _, rfl, by decide, by decide, by decide⟩
  · exact ⟨rfl, by decide, rfl, rfl, _, rfl, by decide, by decide, by decide⟩
  · exact ⟨rfl, by decide, rfl, rfl, _, rfl, by decide, by decide, by decide⟩

/-- A point or a sign of a number is no operator. -/
theorem passes_numberSign (op : Op) (outside : scanner.quote = .outside)
    (ahead : scanner.ledger.chars.drop scanner.position = op.spelling ++ rest)
    (mark : op ∈ [Op.dot, .plus, .minus]) (digit : rest.head?.any isDigit = true)
    (place : op ≠ .dot → isSignPlace scanner.ledger scanner.position = true) : scanner.Passes := by
  obtain ⟨same, symbolic, plainOp, noShift, c, spelling, plain, solid, other⟩ :=
    exists_of_mark op mark
  have here : scanner.ledger.char? scanner.position = some c := by
    rw [char?_zero_of_drop ahead, spelling]
    rfl
  have apart : rest.head?.any op.absorbs = false := by
    obtain ⟨first, known, isDigit⟩ := (Option.any_eq_true _ _).1 digit
    rw [known, Option.any_some]
    exact not_absorbs_digit mark isDigit
  have spelled : spelledOp? scanner.ledger scanner.position = some op := by
    rw [spelledOp?_of_drop ahead symbolic apart, same]
  have meant : scanner.meantOp op = op := by
    rw [meantOp, plainOp, noShift, Bool.false_and, Bool.false_and, if_neg Bool.false_ne_true,
      if_neg Bool.false_ne_true]
  have starts : startsNumber scanner.ledger scanner.position op = true := by
    have behind : (scanner.ledger.char? (scanner.position + 1)).any isDigit = true := by
      rw [char?_of_drop ahead, spelling, List.singleton_append, List.getElem?_cons_succ,
        ← List.head?_eq_getElem?, digit]
    unfold startsNumber
    rw [behind, Bool.true_and]
    simp only [List.mem_cons, List.not_mem_nil, or_false] at mark
    rcases mark with rfl | rfl | rfl
    · rfl
    · exact place (by decide)
    · exact place (by decide)
  refine ⟨c, here, ?_⟩
  rw [advance_solid outside plain solid, takeSolid, emptyPair?_of_ne here other, spelled]
  dsimp only
  rw [meant, starts, if_pos rfl]

/-- Operators of one character that stand for themselves and are no signs. -/
def symbols : List Op := [.assign, .openParen, .closeParen, .times, .comma, .question, .dot]

/-- The table gives a symbol as itself. -/
theorem exists_of_symbol : ∀ op ∈ symbols, op.inTable = op ∧ op ≠ .instanceOf ∧
    op.isRightShift = false ∧ (op == .less) = false ∧ (op == .greater) = false ∧
    op ≠ .plus ∧ op ≠ .minus ∧
    ∃ c, op.spelling = [c] ∧ isQuoteMark c = false ∧ isBlank c = false ∧ c ≠ '[' := by
  simp only [symbols, List.forall_mem_cons, List.not_mem_nil, false_implies, implies_true, and_true]
  refine ⟨?_, ?_, ?_, ?_, ?_, ?_, ?_⟩
  all_goals
    exact ⟨rfl,
      by decide, rfl, rfl, rfl, by decide, by decide, _, rfl, by decide, by decide, by decide⟩

/-- A symbol is tagged in one step, unless it is the point of a number. -/
theorem run_symbol (op : Op) (outside : scanner.quote = .outside)
    (ahead : scanner.ledger.chars.drop scanner.position = op.spelling ++ rest)
    (listed : op ∈ symbols) (alone : rest.head?.any op.absorbs = false)
    (number : op = .dot → rest.head?.any isDigit = false) (count : Nat) :
    run (count + 1) scanner = run count { scanner with
      ledger := tagOp scanner.ledger scanner.position op
      position := scanner.position + op.width } := by
  obtain ⟨same, symbolic, noShift, notLess, notGreater, notPlus, notMinus, c, spelling, plain,
    solid, other⟩ :=
    exists_of_symbol op listed
  have here : scanner.ledger.char? scanner.position = some c := by
    rw [char?_zero_of_drop ahead, spelling]
    rfl
  have spelled : spelledOp? scanner.ledger scanner.position = some op := by
    rw [spelledOp?_of_drop ahead symbolic alone, same]
  have meant : scanner.meantOp op = op := by
    have single : op = .assign → charIs scanner.ledger (scanner.position + 1) '=' = false := by
      rintro rfl
      rw [charIs, char?_of_drop ahead, beq_eq_false_iff_ne]
      intro joins
      have first : rest.head? = some '=' := by rw [List.head?_eq_getElem?]; exact joins
      rw [first] at alone
      exact absurd alone (by decide)
    rw [meantOp, noShift, Bool.false_and, if_neg Bool.false_ne_true, if_neg]
    rw [Bool.and_eq_true, beq_iff_eq]
    rintro ⟨assigns, joins⟩
    rw [single assigns] at joins
    contradiction
  have noNumber : startsNumber scanner.ledger scanner.position op = false := by
    have behind : scanner.ledger.char? (scanner.position + 1) = rest.head? := by
      rw [char?_of_drop ahead, spelling, List.singleton_append, List.getElem?_cons_succ,
        List.head?_eq_getElem?]
    unfold startsNumber
    rw [behind, Bool.and_eq_false_iff]
    split
    · exact .inl (number rfl)
    · contradiction
    · contradiction
    · exact .inr rfl
  rw [run, here]
  dsimp only
  rw [advance_solid outside plain solid, takeSolid, emptyPair?_of_ne here other, spelled]
  dsimp only
  rw [meant, noNumber, if_neg Bool.false_ne_true, takeOp, notLess, notGreater, Bool.false_and]
  rfl

/-- A word in front of a position ends at a character that is no letter and no digit. -/
theorem blank_separates (blank : isBlank c = true) : (isLetter c || isDigit c) = false := by
  have all : ∀ code ∈ blankCodes,
      (isLetter (Char.ofNat code) || isDigit (Char.ofNat code)) = false := by decide
  have found := all _ (mem_blankCodes blank)
  rwa [Char.ofNat_toNat] at found

/-- Behind an exponent mark of a number, the text in front of a sign ends in a number. -/
theorem followsExponent_of_isSigned {ledger : Ledger} {lead : List Char} {sign : Char}
    (signed : IsSigned front rest) (chars : ledger.chars = lead ++ (front ++ sign :: rest))
    (gap : lead.getLast?.all isBlank = true) :
    followsExponent ledger (lead.length + front.length) = true := by
  cases signed with
  | @of significand rest mark marked decimal last behind =>
      obtain ⟨digits, digit, rfl⟩ : ∃ digits digit, significand = digits ++ [digit] := by
        rcases List.eq_nil_or_concat' significand with rfl | split
        · contradiction
        · exact split
      have isDigit_digit : isDigit digit = true := by simpa using last
      have letters : ∀ c ∈ ['e', 'E'], isLetter c = true := by decide
      have inFront (offset : Nat) : ledger.char? (lead.length + offset) =
          (digits ++ [digit] ++ mark :: sign :: rest)[offset]? := by
        rw [char?_eq_chars, chars, List.getElem?_append_right (by omega), Nat.add_sub_cancel_left]
        simp
      have markAt : ledger.char? (lead.length + (digits.length + 1)) = some mark := by
        rw [inFront]
        simp
      have digitAt : ledger.char? (lead.length + digits.length) = some digit := by
        rw [inFront]
        simp
      let stops := fun below => !(ledger.char? below).any fun c => isLetter c || isDigit c
      let stop := lead.length + (digits.length + 1) + 1
      have goesOn (p : Nat) (low : lead.length + digits.length ≤ p) (high : p < stop) :
          stops p = false := by
        obtain rfl | rfl : p = lead.length + digits.length ∨
          p = lead.length + (digits.length + 1) := by
          omega
        · simp [stops, digitAt, isDigit_digit]
        · simp [stops, markAt, letters mark marked]
      have stopped : lead.length = 0 ∨ stops (lead.length - 1) = true := by
        rcases List.eq_nil_or_concat' lead with rfl | ⟨before, c, rfl⟩
        · exact .inl rfl
        · have blank : isBlank c = true := by simpa using gap
          have known : ledger.char? before.length = some c := by
            rw [char?_eq_chars, chars]
            simp
          right
          simp [stops, known, blank_separates blank]
      obtain ⟨low, high⟩ :=
        seekDown_between (Nat.le_add_right _ _) goesOn (by omega) stopped
      have first : (ledger.char? (seekDown stops stop stop)).any isDigit = true := by
        obtain ⟨offset, place⟩ := Nat.exists_eq_add_of_le low
        have within : offset < (digits ++ [digit]).length := by
          simp only [List.length_append, List.length_singleton]
          omega
        have known : ledger.char? (lead.length + offset) = some (digits ++ [digit])[offset] := by
          rw [inFront, List.getElem?_append_left within, List.getElem?_eq_getElem within]
        have word : stops (lead.length + offset) = false := by
          rw [← place]
          exact seekDown_passes (Nat.le_refl _) (by omega)
        simp only [stops, known, Option.any_some, decimal _ (List.getElem_mem within),
          Bool.false_or,
          Bool.not_eq_false'] at word
        rw [place, known, Option.any_some, word]
      have exponent : (charIs ledger (stop - 1) 'e' || charIs ledger (stop - 1) 'E') = true := by
        rw [charIs, charIs, show stop - 1 = lead.length + (digits.length + 1) from rfl, markAt]
        simpa using marked
      have place : lead.length + (digits ++ [digit] ++ [mark]).length = stop := by
        simp [stop, Nat.add_assoc]
      rw [place, followsExponent, exponent, Bool.and_true, Bool.and_eq_true, decide_eq_true_eq]
      exact ⟨show seekDown stops stop stop < stop by omega, first⟩

/-- A sign of a number stands in front of its operand. -/
theorem isSignPlace_of_isSigned {ledger : Ledger} {lead : List Char} {sign : Char}
    (signed : IsSigned front rest) (chars : ledger.chars = lead ++ (front ++ sign :: rest))
    (gap : lead.getLast?.all isBlank = true)
    (plain : ledger.tag? (lead.length + front.length - 1) = some .unresolved) :
    isSignPlace ledger (lead.length + front.length) = true := by
  have exponent := followsExponent_of_isSigned signed chars gap
  have present : front ≠ [] := by
    cases signed with
    | of => simp
  obtain ⟨before, length⟩ := Nat.exists_eq_succ_of_ne_zero (mt List.length_eq_zero_iff.1 present)
  have solid : ledger.isSpace (lead.length + front.length - 1) = false := by
    rw [Ledger.isSpace, plain]
    rfl
  have behind : seekDown (fun below => !ledger.isSpace below) (lead.length + front.length)
      (lead.length + front.length) = lead.length + front.length :=
    seekDown_eq (Nat.le_refl _) (by omega) (fun p low high => by omega)
      (.inr (by rw [solid]; rfl))
  have positive : (lead.length + front.length == 0) = false := beq_eq_false_iff_ne.2 (by omega)
  rw [Scanner.isSignPlace, behind, plain, exponent, positive, Bool.false_or, beq_self_eq_true]
  rfl

/-- The scanner finds nothing inside a number that stands at the start or behind a blank. -/
theorem passes_plain {numeral lead : List Char} (plain : IsPlain numeral)
    (split : numeral = front ++ c :: rest) (gap : lead.getLast?.all isBlank = true)
    (outside : scanner.quote = .outside) (chars : scanner.ledger.chars = lead ++ numeral)
    (position : scanner.position = lead.length + front.length)
    (tags : ∀ p, lead.length ≤ p → p < scanner.position →
      scanner.ledger.tag? p = some .unresolved) : scanner.Passes := by
  subst split
  have ahead : scanner.ledger.chars.drop scanner.position = c :: rest := by
    rw [chars, position, ← List.drop_drop, List.drop_left, List.drop_left]
  rcases plain.chars c (by simp) with isName | rfl | sign
  · refine passes_word outside ahead (isNameChar_plain isName).1 fun ⟨_, starts⟩ => ?_
    rcases List.eq_nil_or_concat' front with rfl | ⟨before, last, rfl⟩
    · obtain rfl : 'i' = c := (List.cons.inj starts).1
      have first := plain.first
      rw [List.nil_append, List.head?_cons, Option.any_some] at first
      exact absurd first (by decide)
    · refine isSpaced_eq_false (.inr ?_)
      have here : scanner.ledger.char? (scanner.position - 1) = some last := by
        rw [char?_eq_chars, chars, position, List.length_append, List.length_singleton,
          List.getElem?_append_right (by omega), show lead.length + (before.length + 1) - 1 -
          lead.length = before.length by omega]
        simp
      rw [blankAt, here, Option.any_some, plain.isBlank last (by simp)]
  · exact passes_numberSign .dot outside ahead (by decide) (plain.points _ _ rfl)
      fun other => absurd rfl other
  · have signed := plain.signs _ _ _ rfl sign
    have place : isSignPlace scanner.ledger scanner.position = true := by
      have present : front ≠ [] := by
        cases signed with
        | of => simp
      have positive := List.length_pos_iff.2 present
      rw [position]
      refine isSignPlace_of_isSigned signed chars gap (tags _ (by omega) (by omega))
    have behind : rest.head?.any isDigit = true := by
      cases signed with
      | of _ _ _ behind => exact behind
    simp only [List.mem_cons, List.not_mem_nil, or_false] at sign
    rcases sign with rfl | rfl
    · exact passes_numberSign .plus outside ahead (by decide) behind fun _ => place
    · exact passes_numberSign .minus outside ahead (by decide) behind fun _ => place

/-- A number is passed as a whole. -/
theorem run_plain {numeral lead : List Char} (plain : IsPlain numeral)
    (gap : lead.getLast?.all isBlank = true) (outside : scanner.quote = .outside)
    (chars : scanner.ledger.chars = lead ++ numeral) (position : scanner.position = lead.length)
    (tags : ∀ p, lead.length ≤ p → scanner.ledger.tag? p = (ofText (lead ++ numeral)).tag? p) :
    run numeral.length scanner = { scanner with position := scanner.position +
      numeral.length } := by
  have passes (offset : Nat) (within : offset < numeral.length) :
      Passes { scanner with position := scanner.position + offset } := by
    have split : numeral = numeral.take offset ++ numeral[offset] :: numeral.drop (offset + 1) := by
      rw [List.getElem_cons_drop, List.take_append_drop]
    have length : (numeral.take offset).length = offset := by
      rw [List.length_take]
      omega
    refine passes_plain plain split gap outside chars (by dsimp only; rw [length, position]) ?_
    intro p low high
    dsimp only at high ⊢
    have inside : p - lead.length < numeral.length := by omega
    rw [tags p low, tag?_ofText, List.getElem?_append_right low, List.getElem?_eq_getElem inside,
      Option.map_some, plain.isBlank _ (List.getElem_mem inside), if_neg Bool.false_ne_true]
  exact run_of_passes passes 0

end

/-! ### Tokens -/

section

variable {scanner : Scanner} {front rest : List Token} {word numeral : List Char} {count : Nat}

/-- Solid words are plain text from the start. -/
theorem tags_solid (solid : ∀ c ∈ word, Text.isBlank c = false) :
    Token.tags (.word word) =
      (Token.word word).chars.map fun c => if Text.isBlank c then .space else .unresolved := by
  rw [Token.tags, Token.chars, eq_comm, List.map_eq_replicate_iff]
  intro c among
  rw [solid c among, if_neg Bool.false_ne_true]

theorem HasRead.run_numeral (read : HasRead front [.word numeral] scanner) (plain : IsPlain numeral)
    (gap : (Token.text front).getLast?.all isBlank = true) :
    HasRead (front ++ [.word numeral]) [] (run numeral.length scanner) := by
  have chars : scanner.ledger.chars = Token.text front ++ numeral := by
    rw [read.chars]
    simp [Token.chars]
  rw [run_plain plain gap read.quote chars read.position fun p low => ?_]
  · exact read.skip (tags_solid plain.isBlank)
  · rw [read.ahead p (by rw [read.position]; exact low), ← read.chars, chars]

/-- A first word is passed as a whole. -/
theorem HasRead.run_first (read : HasRead [] (.word word :: rest) scanner)
    (letters : ∀ c ∈ word, isWordChar c = true) :
    run (word.length + count) scanner =
      run count { scanner with position := scanner.position + word.length } := by
  refine run_of_passes (fun offset within => ?_) count
  have start : scanner.position = 0 := read.position
  have ahead : (scanner.ledger.chars.drop (scanner.position + offset)) =
      word[offset] :: (word.drop (offset + 1) ++ Token.text rest) := by
    rw [← List.drop_drop, read.drop, Token.text_cons, Token.chars,
      List.drop_append_of_le_length (Nat.le_of_lt within), ← List.getElem_cons_drop within,
      List.cons_append]
  refine passes_word read.quote ahead (letters _ (List.getElem_mem within)) fun _ =>
    isSpaced_eq_false ?_
  cases offset with
  | zero => exact .inl start
  | succ offset =>
      right
      dsimp only
      rw [← Nat.add_assoc, Nat.add_sub_cancel, blankAt, read.char?, Token.text_cons, Token.chars,
        List.getElem?_append_left (by omega), List.getElem?_eq_getElem (by omega), Option.any_some,
        isBlank_of_isWordChar (letters _ (List.getElem_mem _))]

/-- A name, an assignment sign and a number are read as such. -/
theorem hasRead_assignment (letters : ∀ c ∈ word, isWordChar c = true) (plain : IsPlain numeral) :
    let tokens : List Token := [.word word, .blank, .op .assign, .blank, .word numeral]
    HasRead tokens [] (run (Token.text tokens).length
      { ledger := ofText (Token.text tokens) }) := by
  intro tokens
  have start := Token.hasRead_start tokens
  have length : (Token.text tokens).length = word.length + (numeral.length + 1 + 1 + 1) := by
    simp [tokens, Token.chars, Op.spelling, Op.text, Op.row]
  have named := start.skip (tags_solid fun c among => isBlank_of_isWordChar (letters c among))
  have spaced := named.skip rfl
  have assigned := spaced.op_read
  have again := assigned.skip rfl
  have alone : (Token.text [.blank, .word numeral]).head?.any Op.assign.absorbs = false := by
    have blank : (Token.text [.blank, .word numeral]).head? = some ' ' := rfl
    rw [blank, Option.any_some, Op.not_absorbs_blank]
  have sign := run_symbol .assign spaced.quote spaced.drop (by decide) alone
    (fun dot => absurd dot (by decide)) (numeral.length + 1)
  have passed := (start.run_first letters).trans
    ((named.run_blank _).trans (sign.trans (assigned.run_blank numeral.length)))
  rw [length, passed]
  refine again.run_numeral plain ?_
  rw [Token.text_append]
  exact congrArg (Option.all isBlank) List.getLast?_concat

end

end Scanner

end MethodLowering
