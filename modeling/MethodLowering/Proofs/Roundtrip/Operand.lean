import MethodLowering.Proofs.Reduction.Openings
import MethodLowering.Proofs.Roundtrip.Literal
import MethodLowering.Proofs.Roundtrip.Surrounded

/-!
# Operands of casts

The operand of a cast is a name or a group with members, arguments and indices behind it, or a cast
again.  Outside its brackets it has nothing but words, blanks and the marks that go on with a chain,
so its segments are a chain.
-/

namespace MethodLowering

open Text

namespace Text

/-- A name or a group that is followed by members, arguments and indices, or a cast of such an
operand.  Blanks may stand between the parts; what stands in brackets is any closed text. -/
inductive IsCastOperand : List Char → Prop where
  | name {word : List Char} (isName : Reduction.isVariableName word = true)
      (other : word ≠ Op.instanceOf.spelling) : IsCastOperand word
  | group {inner : List Char} (closed : IsClosed inner) : IsCastOperand ('(' :: inner ++ [')'])
  | cast {type gap operand : List Char} (closed : IsClosed type)
      (blank : ∀ c ∈ gap, isBlank c = true)
      (rest : IsCastOperand operand) : IsCastOperand ('(' :: type ++ [')'] ++ (gap ++ operand))
  | member {subject before behind word : List Char} (chain : IsCastOperand subject)
      (blank : ∀ c ∈ before ++ behind, isBlank c = true)
        (isName : Reduction.isVariableName word = true)
      (other : word ≠ Op.instanceOf.spelling) :
      IsCastOperand (subject ++ (before ++ '.' :: behind ++ word))
  | call {callee gap arguments : List Char} (chain : IsCastOperand callee)
      (blank : ∀ c ∈ gap, isBlank c = true) (closed : IsClosed arguments) :
      IsCastOperand (callee ++ (gap ++ ('(' :: arguments ++ [')'])))
  | index {subject gap place : List Char} (chain : IsCastOperand subject)
      (blank : ∀ c ∈ gap, isBlank c = true) (closed : IsClosed place) :
      IsCastOperand (subject ++ (gap ++ ('[' :: place ++ [']'])))

/-! ## Characters outside brackets -/

/-- The character may stand in a chain outside its brackets. -/
def isLinkChar (c : Char) : Bool := isWordChar c || isBlank c || c == '.' || c == '(' || c == '['

/-- Outside its brackets, the text has only characters of a chain and no test for a type between
blanks. -/
structure IsLinked (text : List Char) : Prop where
  closed : IsClosed text
  chars : ∀ front c back, text = front ++ c :: back → IsClosed front → isLinkChar c = true
  words : ∀ front back, text = front ++ (Op.instanceOf.spelling ++ back) → IsClosed front →
    front.getLast?.all isBlank = true → back.head?.all isBlank = true → False

section

variable {text front back word inner : List Char} {c : Char}

theorem isWordChar_instanceOf : ∀ c ∈ Op.instanceOf.spelling, isWordChar c = true := by
  decide

/-- A whole word that is not the test for a type does not go on as the test between blanks. -/
theorem not_isBlank_behind {rest tail : List Char} (letters : ∀ c ∈ word, isWordChar c = true)
    (other : word ≠ Op.instanceOf.spelling) (ends : rest.head?.any isWordChar = false)
    (starts : word ++ rest = Op.instanceOf.spelling ++ tail) : tail.head?.any isBlank = false := by
  by_contra blank
  have whole : (word ++ rest).takeWhile isWordChar = word := by
    rw [List.takeWhile_append_of_pos letters]
    cases rest with
    | nil => simp
    | cons c rest => rw [List.takeWhile_cons_of_neg (by simpa using ends), List.append_nil]
  have test : (Op.instanceOf.spelling ++ tail).takeWhile isWordChar = Op.instanceOf.spelling := by
    rw [List.takeWhile_append_of_pos isWordChar_instanceOf]
    cases tail with
    | nil => rfl
    | cons c tail =>
        have solid : isWordChar c = false := not_isWordChar_of_isBlank (by simpa using blank)
        rw [List.takeWhile_cons_of_neg (by simp [solid]), List.append_nil]
  rw [starts, test] at whole
  exact other whole.symm

theorem isUnpaired_of_isWordChar (isWord : isWordChar c = true) : isUnpaired c = true := by
  have plain : ∀ c, Op.ofBracket? c ≠ none → isWordChar c = false := by
    intro c bracket
    unfold Op.ofBracket? at bracket
    split at bracket <;> first | decide | contradiction
  have noBracket : Op.ofBracket? c = none := by
    by_contra bracket
    rw [plain c bracket] at isWord
    contradiction
  rw [isUnpaired, Scanner.not_isQuoteMark_of_isWordChar isWord, noBracket]
  rfl

theorem isUnpaired_of_isBlank (blank : isBlank c = true) : isUnpaired c = true := by
  rw [isUnpaired, isQuoteMark_of_isBlank blank, Op.ofBracket?_of_isBlank blank]
  rfl

theorem isLinked_word (letters : ∀ c ∈ word, isWordChar c = true)
    (other : word ≠ Op.instanceOf.spelling) :
    IsLinked word := by
  refine ⟨isClosed_plain fun c among => isUnpaired_of_isWordChar (letters c among), ?_, ?_⟩
  · rintro front c back rfl -
    rw [isLinkChar, letters c (by simp)]
    rfl
  · rintro front back rfl - before behind
    have solid {word : List Char} (letters : ∀ c ∈ word, isWordChar c = true) {c : Char}
        (among : c ∈ word)
        (blank : isBlank c = true) : False := by
      rw [isBlank_of_isWordChar (letters c among)] at blank
      contradiction
    rcases List.eq_nil_or_concat' front with rfl | ⟨lead, c, rfl⟩
    · cases back with
      | nil => exact other (List.append_nil _)
      | cons c back => exact solid letters (show c ∈ _ by simp) (by simpa using behind)
    · exact solid letters (show c ∈ _ by simp) (by simpa using before)

/-- Blanks and points. -/
theorem isLinked_separators (separates : ∀ c ∈ text, isBlank c = true ∨ c = '.') :
    IsLinked text := by
  refine ⟨isClosed_plain fun c among => ?_, ?_, ?_⟩
  · rcases separates c among with blank | rfl
    · exact isUnpaired_of_isBlank blank
    · decide
  · rintro front c back rfl -
    rcases separates c (by simp) with blank | rfl
    · simp [isLinkChar, blank]
    · decide
  · rintro front back rfl - - -
    rcases separates 'i' (by simp [Op.spelling, Op.text, Op.row]) with blank | same
    · exact absurd blank (by decide)
    · exact absurd same (by decide)

theorem isLinked_group {left right : Char} {opening closing : Op}
    (isLeft : Op.ofBracket? left = some opening)
    (isRight : Op.ofBracket? right = some closing) (pair : opening.closing? = some closing)
    (links : isLinkChar left = true) (closed : IsClosed inner) :
    IsLinked (left :: inner ++ [right]) := by
  refine ⟨closed.group isLeft isRight pair, fun front c back split early => ?_,
    fun front back split early _ _ => ?_⟩
  · cases front with
    | nil =>
        obtain rfl : left = c := (List.cons.inj split).1
        exact links
    | cons first lead =>
        exact absurd early (not_isClosed_front isLeft pair closed (List.cons_ne_nil _ _) split)
  · cases front with
    | nil =>
        have first : left = 'i' := (List.cons.inj split).1
        rw [first] at isLeft
        contradiction
    | cons first lead =>
        exact not_isClosed_front isLeft pair closed (List.cons_ne_nil _ _) split early

/-- Linked texts may be put one behind the other where no word is joined. -/
theorem IsLinked.append (left : IsLinked front) (right : IsLinked back)
    (apart : front.getLast?.any isWordChar = false ∨ back.head?.any isWordChar = false) :
    IsLinked (front ++ back) := by
  have closed := left.closed
  refine ⟨closed.append right.closed, fun lead c trail split early => ?_,
    fun lead trail split early before behind => ?_⟩
  · rcases List.append_eq_append_iff.1 split with ⟨middle, rfl, rest⟩ | ⟨middle, rfl, rest⟩
    · exact right.chars middle c trail rest (early.behind closed)
    · cases middle with
      | nil => exact right.chars [] c trail rest.symm (isClosed_plain nofun)
      | cons first middle =>
          obtain rfl : c = first := (List.cons.inj rest).1
          exact left.chars lead c middle rfl early
  · rcases List.append_eq_append_iff.1 split with ⟨middle, rfl, rest⟩ | ⟨middle, rfl, rest⟩
    · refine right.words middle trail rest (early.behind closed) ?_ behind
      rw [List.getLast?_append] at before
      cases last : middle.getLast? with
      | none => rfl
      | some c => rwa [last] at before
    · rcases List.append_eq_append_iff.1 rest with ⟨further, rfl, rfl⟩ | ⟨further, word, rfl⟩
      · refine left.words lead further rfl early before ?_
        cases further with
        | nil => rfl
        | cons c further => exact behind
      · -- the word would reach over the end of the first text
        cases last : middle.getLast? with
        | none =>
            obtain rfl := List.getLast?_eq_none_iff.1 last
            rw [List.nil_append] at word
            refine right.words [] trail (by rw [word]; rfl) (isClosed_plain nofun) rfl behind
        | some c =>
            cases further with
            | nil =>
                rw [List.append_nil] at word
                refine left.words lead [] (by rw [word, List.append_nil]) early before rfl
            | cons next further =>
                have letters := isWordChar_instanceOf
                rw [word] at letters
                rw [List.getLast?_append, last, List.cons_append, List.head?_cons, Option.some_or,
                  Option.any_some, Option.any_some, letters c (by simp [List.mem_of_getLast? last]),
                  letters next (by simp)] at apart
                rcases apart with apart | apart <;> contradiction

/-- A group in round brackets. -/
theorem isLinked_round (closed : IsClosed inner) : IsLinked ('(' :: inner ++ [')']) :=
  isLinked_group rfl rfl rfl (by decide) closed

theorem IsCastOperand.isLinked (operand : IsCastOperand text) : IsLinked text := by
  have blanks {gap : List Char} (blank : ∀ c ∈ gap, isBlank c = true) : IsLinked gap :=
    isLinked_separators fun c among => .inl (blank c among)
  have last {text : List Char} (solid : ∀ c ∈ text, isWordChar c = false) :
      text.getLast?.any isWordChar = false := by
    cases known : text.getLast? with
    | none => rfl
    | some c => exact solid c (List.mem_of_getLast? known)
  have head {gap rest : List Char} (blank : ∀ c ∈ gap, isBlank c = true)
      (solid : rest.head?.any isWordChar = false) : (gap ++ rest).head?.any isWordChar = false := by
    cases gap with
    | nil => exact solid
    | cons c gap => exact not_isWordChar_of_isBlank (blank c List.mem_cons_self)
  induction operand with
  | name isName other => exact isLinked_word (isWordChar_of_isVariableName isName) other
  | group closed => exact isLinked_round closed
  | @cast type gap operand closed blank _ induction =>
      refine (isLinked_round closed).append
        ((blanks blank).append induction (.inl (last fun c among =>
        not_isWordChar_of_isBlank (blank c among)))) (.inl ?_)
      rw [List.getLast?_concat]
      rfl
  | @member subject before behind word _ blank isName other induction =>
      have separates (c : Char) (among : c ∈ before ++ '.' :: behind) :
          isBlank c = true ∨ c = '.' := by
        rw [List.mem_append, List.mem_cons] at among
        rcases among with among | same | among
        · exact .inl (blank c (List.mem_append_left _ among))
        · exact .inr same
        · exact .inl (blank c (List.mem_append_right _ among))
      have solid (c : Char) (among : c ∈ before ++ '.' :: behind) : isWordChar c = false := by
        rcases separates c among with blank | rfl
        · exact not_isWordChar_of_isBlank blank
        · decide
      have named := isLinked_word (isWordChar_of_isVariableName isName) other
      refine induction.append ((isLinked_separators separates).append named (.inl (last solid)))
        (.inr ?_)
      rw [List.append_assoc]
      exact head (fun c among => blank c (List.mem_append_left _ among)) rfl
  | @call callee gap arguments _ blank closed induction =>
      exact induction.append ((blanks blank).append (isLinked_round closed) (.inr rfl))
        (.inr (head blank rfl))
  | @index subject gap place _ blank closed induction =>
      exact induction.append ((blanks blank).append (isLinked_group rfl rfl rfl (by decide) closed)
        (.inr rfl))
        (.inr (head blank rfl))

/-- An operand starts with a word or a round bracket. -/
theorem IsCastOperand.first (operand : IsCastOperand text) :
    text.head?.any (fun c => isWordChar c || c == '(') = true := by
  have extend {front back : List Char}
      (first : front.head?.any (fun c => isWordChar c || c == '(') = true) :
      (front ++ back).head?.any (fun c => isWordChar c || c == '(') = true := by
    cases front with
    | nil => contradiction
    | cons c front => exact first
  induction operand with
  | @name word isName _ =>
      obtain ⟨c, rest, rfl, -⟩ := exists_of_isVariableName isName
      rw [List.head?_cons, Option.any_some, isWordChar_of_isVariableName isName c
        List.mem_cons_self]
      rfl
  | group _ => rfl
  | cast _ _ _ _ => rfl
  | member _ _ _ _ induction => exact extend induction
  | call _ _ _ induction => exact extend induction
  | index _ _ _ induction => exact extend induction

theorem IsCastOperand.ne_nil (operand : IsCastOperand text) : text ≠ [] := by
  rintro rfl
  exact Bool.false_ne_true operand.first

theorem not_isBlank_of_first (first : text.head?.any (fun c => isWordChar c || c == '(') = true) :
    text[0]?.any isBlank = false := by
  obtain ⟨c, known, starts⟩ := (Option.any_eq_true _ _).1 first
  rw [← List.head?_eq_getElem?, known, Option.any_some]
  rcases Bool.or_eq_true_iff.1 starts with isWord | round
  · exact isBlank_of_isWordChar isWord
  · rw [eq_of_beq round]
    decide

/-- A linked text stands apart between blanks. -/
theorem IsLinked.standsApart (linked : IsLinked text)
    (first : text.head?.any (fun c => isWordChar c || c == '(') = true)
    (before : front.getLast?.any isBlank = true) (behind : back.head?.all isBlank = true)
    (follows : ∀ c ∈ (back.dropWhile isBlank).head?, c ≠ ']' ∧ c ≠ '{') :
    StandsApart front text back := by
  refine ⟨first, before, behind, follows, fun rest split => ?_, fun lead c split => ?_⟩
  · by_contra blank
    refine linked.words [] rest split (isClosed_plain nofun) rfl ?_
    cases rest with
    | nil => rfl
    | cons c rest => simpa using blank
  · by_contra solid
    have letters : ∀ c ∈ Op.instanceOf.spelling, isUnpaired c = true := fun c among =>
      isUnpaired_of_isWordChar (isWordChar_instanceOf c among)
    have whole : text = lead ++ [c] ++ (Op.instanceOf.spelling ++ []) := by simp [split]
    have closed : IsClosed (lead ++ [c]) := by
      have all := linked.closed
      rw [whole, List.append_nil] at all
      exact all.before letters
    refine linked.words (lead ++ [c]) [] whole closed ?_ rfl
    rw [List.getLast?_concat]
    exact Bool.of_not_eq_false solid

end

end Text

/-! ## The segments of an operand -/

namespace Op

/-- Characters outside brackets start no operators but those that link a chain, and the test for a
type. -/
theorem isLink_of_isLinkChar {op : Op} {c : Char} (first : op.spelling.head? = some c)
    (links : isLinkChar c = true) (other : op ≠ .instanceOf) : Reduction.isLink op = true := by
  have all : ∀ op : Op, op ≠ .instanceOf → Reduction.isLink op = false →
      op.spelling.head?.any isLinkChar = false := by
    intro op
    cases op <;> decide
  by_contra noLink
  have known := all op other (Bool.of_not_eq_true noLink)
  rw [first, Option.any_some, links] at known
  contradiction

/-- Of the symbols, only the round bracket starts an operand. -/
theorem eq_openParen_of_first {op : Op} {c : Char} (first : op.spelling.head? = some c)
    (starts : (isWordChar c || c == '(') = true) (other : op ≠ .instanceOf) : op = .openParen := by
  have all : ∀ op : Op, op ≠ .instanceOf → op ≠ .openParen →
      op.spelling.head?.any (fun c => isWordChar c || c == '(') = false := by
    intro op
    cases op <;> decide
  by_contra symbol
  have known := all op other symbol
  rw [first, Option.any_some, starts] at known
  contradiction

end Op

namespace Reduction

variable {text : List Char} {state : Reduction} {segments : List Segment}

/-- The operators of a linked text link a chain. -/
theorem areLinks_of_isLinked (linked : IsLinked text) :
    AreLinks ((Ledger.scan text).heads 0 text.length) := by
  rintro front ⟨p, op⟩ back split nested
  obtain ⟨brackets, outside, ⟨rest, whole⟩, spaced⟩ := Ledger.outer_of_isNested split nested
  have early : IsClosed (text.take p) := ⟨outside, brackets⟩
  obtain ⟨c, more, spelled⟩ : ∃ c more, op.spelling = c :: more :=
    List.exists_cons_of_length_pos (Ledger.width_pos op)
  refine Op.isLink_of_isLinkChar (c := c) (by rw [spelled]; rfl) ?_ ?_
  · refine linked.chars (text.take p) c (more ++ rest) ?_ early
    rw [← List.cons_append, ← spelled, ← List.append_assoc]
    exact whole
  · rintro rfl
    have isSpaced := spaced rfl
    have chars : (Ledger.scan text).chars = text := (Ledger.scan_sound text).1.chars
    rw [Scanner.isSpaced, Scanner.blankAt, Scanner.blankAt, Ledger.char?_eq_chars,
      Ledger.char?_eq_chars, chars,
      Bool.and_eq_true, Bool.and_eq_true, bne_iff_ne] at isSpaced
    obtain ⟨⟨present, before⟩, behind⟩ := isSpaced
    obtain ⟨inFront, known, blank⟩ := (Option.any_eq_true _ _).1 before
    obtain ⟨low, -⟩ := List.getElem?_eq_some_iff.1 known
    have length : (text.take p).length = p := by
      rw [List.length_take]
      omega
    refine linked.words (text.take p) rest ?_ early ?_ ?_
    · rw [← List.append_assoc]
      exact whole
    · rw [List.getLast?_eq_getElem?, length, List.getElem?_take, if_pos (by omega), known]
      exact blank
    · have next : text[p + Op.instanceOf.width]? = rest.head? := by
        rw [whole, List.append_assoc, List.getElem?_append_right (by omega), length,
          Nat.add_sub_cancel_left,
          show Op.instanceOf.width = Op.instanceOf.spelling.length from rfl,
          List.getElem?_append_right (Nat.le_refl _), Nat.sub_self, List.head?_eq_getElem?]
      rw [next] at behind
      cases first : rest.head? with
      | none => rfl
      | some c => rwa [first] at behind

/-- The segments of a linked text that starts with a word or a round bracket are a chain. -/
theorem isChain_of_isLinked (linked : IsLinked text)
    (first : text.head?.any (fun c => isWordChar c || c == '(') = true)
    (scanned : state.ledger = Ledger.scan text)
    (shown : Shows state 0 text.length segments) : IsChain segments := by
  have heads : headsOf segments = (Ledger.scan text).heads 0 text.length := by
    rw [← shown.heads, scanned]
  have well := (Ledger.scan_sound text).1
  refine ⟨?_, ?_, fun segment among => ?_⟩
  · rw [heads]
    exact IsNested.scan (Nested.isSome_bracketPairs?.2 linked.closed.brackets)
  · rw [heads]
    exact areLinks_of_isLinked linked
  · cases isOp : segment.op? with
    | none => exact .inl (by rw [Segment.isOperand, isOp]; rfl)
    | some op =>
        right
        obtain ⟨rest, rfl⟩ := List.head?_eq_some_iff.1 among
        obtain ⟨gap, stands, -⟩ := shown
        have tagged : (Ledger.scan text).tag? segment.span.start = some (.operator op) := by
          obtain ⟨span, piece⟩ := segment
          cases piece with
          | op found =>
              obtain rfl : found = op := Option.some.inj isOp
              rw [← scanned]
              exact stands.tagged.2.1
          | _ => contradiction
        obtain ⟨c, known, starts⟩ := (Option.any_eq_true _ _).1 first
        -- the first character is no blank, so the first segment starts there
        have start : segment.span.start = 0 := by
          by_contra later
          have space := gap.2 0 (Nat.le_refl _) (Nat.pos_of_ne_zero later)
          have blank := well.blank 0 (by rw [← scanned]; exact space)
          rw [not_isBlank_of_first first] at blank
          contradiction
        rw [start] at tagged
        have symbolic : op ≠ .instanceOf := by
          rintro rfl
          have spaced := (Scanner.areRooted_scan text 0 .instanceOf tagged).spaced rfl
          rw [Scanner.isSpaced_eq_false (.inl rfl)] at spaced
          contradiction
        have spelled := Scanner.getElem?_of_slice (well.head 0 op tagged).1 (Nat.le_refl 0)
          (Nat.lt_add_of_pos_right (Ledger.width_pos op))
        rw [← List.head?_eq_getElem?, known, Nat.sub_self, ← List.head?_eq_getElem?] at spelled
        rw [Op.eq_openParen_of_first spelled.symm starts symbolic]

namespace OnSegments

/-- Round brackets that are operators are characters of the text. -/
theorem length_rounds_le {ledger : Ledger} (well : Ledger.WellTagged text ledger)
    (start count : Nat) :
    ((ledger.headsFrom start count).filter (·.2 == .openParen)).length ≤
      ((text.drop start).take count).count '(' := by
  induction count generalizing start with
  | zero => exact Nat.le_refl 0
  | succ count induction =>
      have later := induction (start + 1)
      cases rest : text.drop start with
      | nil =>
          have ended : text.drop (start + 1) = [] := by
            rw [← List.drop_drop, rest, List.drop_nil]
          have none : ledger.headAt? start = none := by
            have past : text.length ≤ start := List.drop_eq_nil_iff.1 rest
            rw [Ledger.headAt?, Ledger.tag?_eq_none.2 (by rw [well.size]; exact past)]
          rw [ended, List.take_nil] at later
          rw [Ledger.headsFrom, none, List.take_nil]
          exact later
      | cons c behind =>
          have next : text.drop (start + 1) = behind := by rw [← List.drop_drop, rest]; rfl
          rw [next] at later
          rw [List.take_succ_cons, List.count_cons, Ledger.headsFrom]
          cases head : ledger.headAt? start with
          | none => exact Nat.le_add_right_of_le later
          | some op =>
              dsimp only
              rw [List.filter_cons]
              split
              · next isRound =>
                  obtain rfl : op = .openParen := eq_of_beq isRound
                  have tagged : ledger.tag? start = some (.operator .openParen) := by
                    rw [Ledger.headAt?] at head
                    split at head
                    · next known => rw [known, Option.some.inj head]
                    · contradiction
                  have here :=
                    Scanner.getElem?_of_slice (well.head start _ tagged).1 (Nat.le_refl start)
                    (Nat.lt_succ_self start)
                  have same : c = '(' := by
                    rw [← List.head?_drop, rest, Nat.sub_self] at here
                    exact Option.some.inj here
                  rw [if_pos (beq_iff_eq.2 same), List.length_cons]
                  exact Nat.succ_le_succ later
              · exact Nat.le_add_right_of_le later

theorem roundCount_le_count (scanned : state.ledger = Ledger.scan text)
    (shown : Shows state 0 text.length segments) : roundCount segments ≤ text.count '(' := by
  have well := (Ledger.scan_sound text).1
  have bound := length_rounds_le well 0 text.length
  rw [List.drop_zero, List.take_length] at bound
  have heads := shown.headsFrom
  rw [scanned, Nat.sub_zero] at heads
  rwa [roundCount, ← heads]

end OnSegments

end Reduction

end MethodLowering
