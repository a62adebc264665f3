import MethodLowering.Proofs.Ledger.Scanning
import MethodLowering.Proofs.Reduction.Taking
import MethodLowering.Proofs.Roundtrip.Tree

/-!
# Scanning written tokens

Where neighbouring tokens do not join, the scanner finds exactly the tokens of a text: the operators
at their places, and plain text for the words.
-/

namespace MethodLowering

open Text

namespace Op

variable {op : Op} {c : Char}

theorem not_absorbs_blank (op : Op) : op.absorbs ' ' = false := by
  cases op <;> decide

/-- Brackets, separators and steps are not the start of a longer operator. -/
theorem not_absorbs (kind : op.isStep = true ∨
      op ∈ [openParen, closeParen, openBracket, closeBracket,
    comma, dot]) (c : Char) : op.absorbs c = false := by
  revert kind
  cases op <;> first | exact fun _ => rfl | exact fun kind => absurd kind (by decide)

theorem not_isWordChar_of_mem (symbolic : op ≠ .instanceOf) (among : c ∈ op.spelling) :
    isWordChar c = false := by
  have none : ∀ c ∈ op.spelling, isWordChar c = false := by
    cases op with
    | instanceOf => contradiction
    | _ => decide
  exact none c among

/-- The operator that the table gives for a spelling: `=` is tried before `==`. -/
def inTable (op : Op) : Op := if op == .equal then .assign else op

/-- Operators that are tried before another one do not start it, up to the table's one exception. -/
theorem exists_earlier (op : Op) : ∃ front back, all = front ++ op.inTable :: back ∧
    ∀ earlier ∈ front, ¬ earlier.spelling <+: op.spelling := by
  refine ⟨all.takeWhile (· != op.inTable), (all.dropWhile (· != op.inTable)).tail, ?_, ?_⟩
  · cases op <;> rfl
  · cases op <;> decide

theorem inTable_starts (op : Op) : op.inTable.spelling <+: op.spelling := by
  cases op with
  | equal => exact ⟨['='], rfl⟩
  | _ => exact List.prefix_rfl

/-- An operator is found where it is spelled and the character behind it does not join it. -/
theorem find?_spelling {tail : List Char} (apart : tail.head?.any op.absorbs = false)
    (also : Op → Bool) (allowed : also op.inTable = true) :
    (all.find? fun other => other.spelling.isPrefixOf (op.spelling ++ tail) && also other) =
      some op.inTable := by
  obtain ⟨front, back, split, earlier⟩ := exists_earlier op
  rw [List.find?_eq_some_iff_append]
  refine ⟨?_, front, back, split, fun other among => ?_⟩
  · rw [allowed, Bool.and_true, List.isPrefixOf_iff_prefix]
    exact (inTable_starts op).trans (List.prefix_append _ _)
  · rw [Bool.not_eq_true', Bool.and_eq_false_iff]
    refine .inl (Bool.eq_false_iff.2 fun starts => ?_)
    rw [List.isPrefixOf_iff_prefix] at starts
    rcases List.prefix_or_prefix_of_prefix starts (List.prefix_append op.spelling tail) with
      shorter | ⟨more, longer⟩
    · exact earlier other among shorter
    · cases more with
      | nil =>
          rw [List.append_nil] at longer
          exact earlier other among (longer ▸ List.prefix_rfl)
      | cons c more =>
          rw [← longer, List.prefix_append_right_inj] at starts
          obtain ⟨rest, rfl⟩ := starts
          have joins : op.absorbs c = true := by
            rw [absorbs, List.any_eq_true]
            refine ⟨other, mem_all other, ?_⟩
            rw [List.isPrefixOf_iff_prefix, ← longer, List.prefix_append_right_inj]
            exact ⟨more, rfl⟩
          rw [List.cons_append, List.head?_cons, Option.any_some, joins] at apart
          contradiction

end Op

namespace Text

theorem seekDown_ends (stops : Nat → Bool) (stop count : Nat) :
    seekDown stops stop count = stop - count ∨ stops (seekDown stops stop count - 1) = true := by
  induction count generalizing stop with
  | zero => exact .inl rfl
  | succ count induction =>
      unfold seekDown
      split
      · next here => exact .inr here
      · rcases induction (stop - 1) with ends | ends
        · exact .inl (by omega)
        · exact .inr ends

theorem seekDown_passes {stops : Nat → Bool} {stop count p : Nat}
    (low : seekDown stops stop count ≤ p) (high : p < stop) : stops p = false := by
  induction count generalizing stop with
  | zero => exact absurd (Nat.lt_of_lt_of_le high low) (Nat.lt_irrefl _)
  | succ count induction =>
      unfold seekDown at low
      split at low
      · omega
      · next goesOn =>
          by_cases here : p = stop - 1
          · rw [here]
            exact Bool.eq_false_iff.2 goesOn
          · exact induction low (by omega)

/-- A walk down does not end before a position it cannot stop at, and goes past no stop. -/
theorem seekDown_between {stops : Nat → Bool} {low high stop : Nat} (order : low ≤ high)
    (goesOn : ∀ p, high ≤ p → p < stop → stops p = false) (within : high ≤ stop)
    (stopped : low = 0 ∨ stops (low - 1) = true) :
    low ≤ seekDown stops stop stop ∧ seekDown stops stop stop ≤ high := by
  have bound : seekDown stops stop stop ≤ stop := seekDown_le stops stop stop
  have ends := seekDown_ends stops stop stop
  rw [Nat.sub_self] at ends
  constructor
  · by_contra below
    rcases stopped with zero | stopped
    · omega
    · have passed := @seekDown_passes stops stop stop (low - 1) (by omega) (by omega)
      rw [passed] at stopped
      contradiction
  · by_contra above
    rcases ends with zero | ends
    · omega
    · rw [goesOn _ (by omega) (by omega)] at ends
      contradiction

end Text

namespace Token

open Reduction

/-! ## Tokens that do not join -/

/-- Words are names, and what follows a word or an operator does not join it. -/
def AreApart : List Token → Prop
  | [] => True
  | .word chars :: rest =>
      isName chars = true ∧ (text rest).head?.any isWordChar = false ∧ AreApart rest
  | .op found :: rest =>
      found ≠ .instanceOf ∧ (text rest).head?.any found.absorbs = false ∧
        (found = .openBracket → (text rest).head?.any (fun c => !isBlank c && c != ']') = true) ∧
        AreApart rest
  | .blank :: rest => AreApart rest

/-- The segments of tokens that start at a position. -/
def segments : Nat → List Token → List Segment
  | _, [] => []
  | position, .word chars :: rest =>
      ⟨⟨position, position + chars.length⟩, .word⟩ :: segments (position + chars.length) rest
  | position, .op found :: rest =>
      ⟨⟨position, position + found.width⟩, .op found⟩ :: segments (position + found.width) rest
  | position, .blank :: rest => segments (position + 1) rest

/-- The tags of the characters of a token. -/
def tags : Token → List Tag
  | .word chars => List.replicate chars.length .unresolved
  | .op found => .operator found :: List.replicate (found.width - 1) (.operatorTail found)
  | .blank => [.space]

section

variable {tokens rest : List Token}

@[simp]
theorem text_nil : text [] = [] := rfl

@[simp]
theorem text_cons (token : Token) (rest : List Token) :
    text (token :: rest) = token.chars ++ text rest := rfl

@[simp]
theorem text_append (front back : List Token) : text (front ++ back) = text front ++ text back :=
  List.flatMap_append

theorem length_tags (token : Token) : token.tags.length = token.chars.length := by
  cases token with
  | word chars => exact List.length_replicate
  | op found =>
      have positive := Ledger.width_pos found
      rw [tags, List.length_cons, List.length_replicate]
      exact Nat.succ_pred_eq_of_pos positive
  | blank => rfl

theorem length_flatMap_tags (tokens : List Token) :
    (tokens.flatMap tags).length = (text tokens).length := by
  induction tokens with
  | nil => rfl
  | cons token rest induction =>
      rw [List.flatMap_cons, List.length_append, induction, length_tags, text_cons,
        List.length_append]

/-- Upper-case letters and digits only stand behind word characters. -/
theorem isChain_text (apart : AreApart tokens) (last : Char) :
    List.IsChain (fun left right => isUpper right = true ∨ isDigit right = true →
      isWordChar left = true) (last :: text tokens) := by
  have plain {c : Char} (lower : isUpper c = false ∧ isDigit c = false) {left : Char}
      (kind : isUpper c = true ∨ isDigit c = true) : isWordChar left = true := by
    rw [lower.1, lower.2] at kind
    rcases kind with kind | kind <;> contradiction
  induction tokens generalizing last with
  | nil => exact List.IsChain.singleton last
  | cons token rest induction =>
      rw [text_cons]
      cases token with
      | word chars =>
          obtain ⟨name, -, later⟩ := apart
          obtain ⟨first, further, rfl, lower⟩ := exists_of_isName name
          have starts := isLower_plain lower
          have inside (word : List Char) (among : ∀ c ∈ word, isNameChar c = true) (front : Char)
              (wordChar : isWordChar front = true) :
              List.IsChain (fun left right => isUpper right = true ∨ isDigit right = true →
                isWordChar left = true) (front :: (word ++ text rest)) := by
            induction word generalizing front with
            | nil => exact induction later front
            | cons c word step =>
                refine List.IsChain.cons_cons (fun _ => wordChar) (step ?_ c ?_)
                · exact fun other member => among other (List.mem_cons_of_mem c member)
                · exact (isNameChar_plain (among c List.mem_cons_self)).1
          refine List.IsChain.cons_cons (plain ⟨starts.2.1, starts.1⟩) (inside further ?_ first ?_)
          · exact fun c among => isNameChar_of_mem name (List.mem_cons_of_mem first among)
          · exact (isNameChar_plain (isNameChar_of_isLower lower)).1
      | op found =>
          obtain ⟨-, -, -, later⟩ := apart
          have symbols : ∀ c ∈ found.spelling, isUpper c = false ∧ isDigit c = false := by
            cases found <;> decide
          have inside (word : List Char)
              (among : ∀ c ∈ word, isUpper c = false ∧ isDigit c = false) (front : Char) :
              List.IsChain (fun left right => isUpper right = true ∨ isDigit right = true →
                isWordChar left = true) (front :: (word ++ text rest)) := by
            induction word generalizing front with
            | nil => exact induction later front
            | cons c word step =>
                refine List.IsChain.cons_cons (plain (among c List.mem_cons_self)) (step ?_ c)
                exact fun other member => among other (List.mem_cons_of_mem c member)
          exact inside _ symbols last
      | blank =>
          exact List.IsChain.cons_cons (plain (by decide)) (induction apart ' ')

/-- Where an upper-case letter or a digit stands, a word character stands in front of it. -/
theorem isWordChar_before (apart : AreApart tokens) {p : Nat} {c : Char}
    (here : (text tokens)[p]? = some c) (kind : isUpper c = true ∨ isDigit c = true) :
    0 < p ∧ (text tokens)[p - 1]?.any isWordChar = true := by
  have chain := isChain_text apart ' '
  rw [List.isChain_iff_getElem] at chain
  obtain ⟨inside, rfl⟩ := List.getElem?_eq_some_iff.1 here
  have bound : p + 1 < (' ' :: text tokens).length := by simpa using inside
  have wordChar := chain p bound (by simpa using kind)
  cases p with
  | zero => exact absurd (show isWordChar ' ' = true from wordChar) (by decide)
  | succ p =>
      refine ⟨Nat.succ_pos p, ?_⟩
      rw [Nat.add_sub_cancel, List.getElem?_eq_getElem (Nat.lt_of_succ_lt inside), Option.any_some]
      simpa using wordChar

end

end Token

/-! ## Steps of the scanner -/

namespace Scanner

open Ledger

section

variable {ledger : Ledger} {position : Nat} {word tail : List Char}

theorem charIs_eq (ledger : Ledger) (position : Nat) (c : Char) :
    charIs ledger position c = (ledger.chars[position]? == some c) := by
  rw [charIs, char?_eq_chars]

theorem spells_eq (ledger : Ledger) (position : Nat) (word : List Char) :
    spells ledger position word = word.isPrefixOf (ledger.chars.drop position) := by
  induction word generalizing position with
  | nil => rfl
  | cons c rest induction =>
      rw [spells, induction, charIs_eq]
      by_cases inside : position < ledger.chars.length
      · rw [List.drop_eq_getElem_cons inside, List.isPrefixOf_cons_cons,
          List.getElem?_eq_getElem inside,
          Option.some_beq_some, BEq.comm]
      · have past : ledger.chars.length ≤ position := Nat.le_of_not_lt inside
        rw [List.getElem?_eq_none past, List.drop_eq_nil_of_le past]
        rfl

/-- An operator is found where it is spelled and does not join what follows. -/
theorem spelledOp?_of_drop {op : Op} (ahead : ledger.chars.drop position = op.spelling ++ tail)
    (symbolic : op ≠ .instanceOf) (alone : tail.head?.any op.absorbs = false) :
    spelledOp? ledger position = some op.inTable := by
  rw [spelledOp?]
  simp only [spells_eq, ahead]
  have allowed : (op.inTable != .instanceOf || isSpaced ledger position op.inTable.width) =
      true := by
    rw [Bool.or_eq_true, bne_iff_ne]
    left
    cases op <;> first | decide | contradiction
  exact Op.find?_spelling alone (fun other =>
    other != .instanceOf || isSpaced ledger position other.width) allowed

end

/-- The scanner has found the tokens in front of its position and stands outside literals and angle
brackets. -/
structure HasRead (front rest : List Token) (scanner : Scanner) : Prop where
  chars : scanner.ledger.chars = Token.text (front ++ rest)
  angles : scanner.angles = []
  quote : scanner.quote = .outside
  position : scanner.position = (Token.text front).length
  done : ∀ p, p < scanner.position → scanner.ledger.tag? p = (front.flatMap Token.tags)[p]?
  ahead : ∀ p, scanner.position ≤ p →
    scanner.ledger.tag? p = (ofText (Token.text (front ++ rest))).tag? p

section

variable {front rest : List Token} {scanner : Scanner} {op : Op} {chars : List Char}

theorem HasRead.drop (read : HasRead front rest scanner) :
    scanner.ledger.chars.drop scanner.position = Token.text rest := by
  rw [read.chars, read.position, Token.text_append, List.drop_left]

theorem HasRead.char? (read : HasRead front rest scanner) (offset : Nat) :
    scanner.ledger.char? (scanner.position + offset) = (Token.text rest)[offset]? := by
  rw [char?_eq_chars, ← List.getElem?_drop, read.drop]

theorem HasRead.emptyPair? {c : Char} {tail : List Char} (read : HasRead front rest scanner)
    (starts : Token.text rest = c :: tail)
    (filled : c = '[' → tail.head?.any (fun c => !isBlank c && c != ']') = true) :
    emptyPair? scanner.ledger scanner.position = none := by
  have here : scanner.ledger.char? scanner.position = some c := by
    rw [← Nat.add_zero scanner.position, read.char?, starts]
    rfl
  rw [Scanner.emptyPair?, charIs, here]
  split
  · next opens =>
      rw [beq_iff_eq, Option.some.injEq] at opens
      obtain ⟨behind, known, solid⟩ := (Option.any_eq_true _ _).1 (filled opens)
      rw [Bool.and_eq_true, Bool.not_eq_true', bne_iff_ne] at solid
      have next : scanner.ledger.char? (scanner.position + 1) = some behind := by
        rw [read.char?, starts, List.getElem?_cons_succ, ← List.head?_eq_getElem?, known]
      have inside : scanner.position + 1 < scanner.ledger.size := by
        rw [← length_chars]
        rw [char?_eq_chars] at next
        exact (List.getElem?_eq_some_iff.1 next).1
      have found : nextSolid? scanner.ledger (scanner.position + 1) =
          some (scanner.position + 1) := by
        refine seek?_eq_some (Nat.le_refl _) (by omega) (fun p low high => by omega) ?_
        rw [blankAt, next, Option.any_some, solid.1, Bool.not_false]
      have other : charIs scanner.ledger (scanner.position + 1) ']' = false := by
        rw [charIs, next, beq_eq_false_iff_ne, ne_eq, Option.some.injEq]
        exact solid.2
      rw [found]
      dsimp only
      rw [other, Bool.false_and, if_neg Bool.false_ne_true]
  · rfl

/-- No type name stands in front of a position, so `<` opens no type arguments. -/
theorem followsTypeName_eq_false {tokens : List Token} {ledger : Ledger}
    (apart : Token.AreApart tokens) (chars : ledger.chars = Token.text tokens) (position : Nat) :
    followsTypeName ledger position = false := by
  rw [followsTypeName]
  generalize seekDown (fun below => !blankAt ledger below) position position = stop
  generalize begins : seekDown (fun below => !(ledger.char? below).any isWordChar) stop stop = start
  rw [Bool.and_eq_false_iff]
  refine .inr (Bool.eq_false_iff.2 fun upper => ?_)
  obtain ⟨c, here, isUpper⟩ := (Option.any_eq_true _ _).1 upper
  rw [char?_eq_chars, chars] at here
  obtain ⟨positive, wordChar⟩ := Token.isWordChar_before apart here (.inl isUpper)
  rcases seekDown_ends (fun below => !(ledger.char? below).any isWordChar) stop stop with
    ends | ends
  · omega
  · rw [begins, Bool.not_eq_true', char?_eq_chars, chars, wordChar] at ends
    contradiction

/-- From a position on, no type name stands in front of an operator and no number starts at one. -/
structure Ordinary (whole : List Char) (start : Nat) : Prop where
  types : ∀ (ledger : Ledger) (position : Nat), ledger.chars = whole → start ≤ position →
    followsTypeName ledger position = false
  digits : ∀ (position : Nat) (c : Char), start ≤ position → whole[position + 1]? = some c →
    isDigit c = true → whole[position]?.any isWordChar = true

theorem ordinary_of_apart {tokens : List Token} (apart : Token.AreApart tokens) :
    Ordinary (Token.text tokens) 0 where
  types _ position chars _ := followsTypeName_eq_false apart chars position
  digits _ _ _ here digit := (Token.isWordChar_before apart here (.inr digit)).2

/-- A first word and a blank change nothing for the tokens behind them. -/
theorem ordinary_behind {front : List Char} {tokens : List Token} (apart : Token.AreApart tokens)
    (solid : (Token.text tokens).head?.any (fun c => !isBlank c) = true) :
    Ordinary (front ++ ' ' :: Token.text tokens) (front.length + 2) := by
  have wordBefore {p : Nat} {c : Char} (high : front.length < p)
      (here : (front ++ ' ' :: Token.text tokens)[p]? = some c)
      (kind : isUpper c = true ∨ isDigit c = true) :
      front.length + 1 < p ∧ (front ++ ' ' :: Token.text tokens)[p - 1]?.any isWordChar = true := by
    obtain ⟨offset, rfl⟩ : ∃ offset, p = front.length + 1 + offset :=
      ⟨p - front.length - 1, by omega⟩
    have behind (k : Nat) :
        (front ++ ' ' :: Token.text tokens)[front.length + 1 + k]? = (Token.text tokens)[k]? := by
      rw [List.getElem?_append_right (by omega),
        show front.length + 1 + k - front.length = k + 1 by omega, List.getElem?_cons_succ]
    rw [behind] at here
    obtain ⟨positive, wordChar⟩ := Token.isWordChar_before apart here kind
    refine ⟨by omega, ?_⟩
    rw [show front.length + 1 + offset - 1 = front.length + 1 + (offset - 1) by omega, behind]
    exact wordChar
  refine ⟨fun ledger position chars low => ?_, fun position c low here digit => ?_⟩
  · have first : blankAt ledger (front.length + 1) = false := by
      obtain ⟨c, known, isSolid⟩ := (Option.any_eq_true _ _).1 solid
      rw [blankAt, char?_eq_chars, chars, List.getElem?_append_right (by omega),
        Nat.add_sub_cancel_left, List.getElem?_cons_succ, ← List.head?_eq_getElem?, known,
        Option.any_some]
      simpa using isSolid
    have gap : (ledger.char? front.length).any isWordChar = false := by
      rw [char?_eq_chars, chars, List.getElem?_append_right (Nat.le_refl _), Nat.sub_self]
      rfl
    have far :
        front.length + 2 ≤ seekDown (fun below => !blankAt ledger below) position position := by
      by_contra near
      have passed := @seekDown_passes (fun below => !blankAt ledger below) position position
        (front.length + 1) (by omega) (by omega)
      rw [first] at passed
      contradiction
    rw [followsTypeName]
    generalize seekDown (fun below => !blankAt ledger below) position position = stop at far
    generalize begins : seekDown (fun below => !(ledger.char? below).any isWordChar) stop stop =
      start
    rw [Bool.and_eq_false_iff]
    refine .inr (Bool.eq_false_iff.2 fun upper => ?_)
    obtain ⟨c, here, isUpper⟩ := (Option.any_eq_true _ _).1 upper
    have behind : front.length < start := by
      by_contra before
      have passed := @seekDown_passes (fun below => !(ledger.char? below).any isWordChar) stop stop
        front.length (by omega) (by omega)
      rw [gap] at passed
      contradiction
    rw [char?_eq_chars, chars] at here
    obtain ⟨positive, wordChar⟩ := wordBefore behind here (.inl isUpper)
    rcases seekDown_ends (fun below => !(ledger.char? below).any isWordChar) stop stop
      with ends | ends
    · omega
    · rw [begins, Bool.not_eq_true', char?_eq_chars, chars, wordChar] at ends
      contradiction
  · exact (wordBefore (by omega) here (.inr digit)).2

/-- The table's entry for a spelled operator means this operator. -/
theorem HasRead.meantOp (read : HasRead front (.op op :: rest) scanner)
    (apart : (Token.text rest).head?.any op.absorbs = false) :
    scanner.meantOp op.inTable = op := by
  have behind : charIs scanner.ledger (scanner.position + 1) '=' =
      ((op.spelling ++ Token.text rest)[1]? == some '=') := by
    rw [charIs, read.char?]
    rfl
  rw [Scanner.meantOp, read.angles, behind, List.head?_nil, Option.any_none, Bool.and_false,
    if_neg Bool.false_ne_true]
  cases op with
  | equal => rfl
  | assign =>
      have absent : ((Op.assign.spelling ++ Token.text rest)[1]? == some '=') = false := by
        rw [beq_eq_false_iff_ne]
        intro same
        have first : (Token.text rest).head? = some '=' := by
          rw [List.head?_eq_getElem?]
          exact same
        rw [first] at apart
        exact absurd apart (by decide)
      rw [absent]
      rfl
  | _ => rfl

theorem HasRead.spelledOp? (read : HasRead front (.op op :: rest) scanner)
    (symbolic : op ≠ .instanceOf) (apart : (Token.text rest).head?.any op.absorbs = false) :
    spelledOp? scanner.ledger scanner.position = some op.inTable :=
  spelledOp?_of_drop read.drop symbolic apart

/-- No number starts at an operator. -/
theorem HasRead.startsNumber {start : Nat} (read : HasRead front (.op op :: rest) scanner)
    (ordinary : Ordinary (Token.text (front ++ .op op :: rest)) start)
    (low : start ≤ scanner.position)
    (symbolic : op ≠ .instanceOf) : startsNumber scanner.ledger scanner.position op = false := by
  unfold Scanner.startsNumber
  rw [Bool.and_eq_false_iff]
  by_cases short : op.width = 1
  · refine .inl (Bool.eq_false_iff.2 fun digit => ?_)
    obtain ⟨c, behind, isDigit⟩ := (Option.any_eq_true _ _).1 digit
    rw [char?_eq_chars, read.chars] at behind
    have wordChar := ordinary.digits _ c low behind isDigit
    have here : (Token.text (front ++ .op op :: rest))[scanner.position]? = op.spelling[0]? := by
      rw [← read.chars, ← char?_eq_chars, ← Nat.add_zero scanner.position, read.char?]
      exact List.getElem?_append_left (Ledger.width_pos op)
    rw [here] at wordChar
    obtain ⟨first, known, isWord⟩ := (Option.any_eq_true _ _).1 wordChar
    rw [Op.not_isWordChar_of_mem symbolic (List.mem_of_getElem? known)] at isWord
    contradiction
  · right
    cases op <;> first | rfl | exact absurd rfl short

/-- A character that is neither blank nor quotation mark leaves the reading outside literals. -/
theorem advance_solid {c : Char} (outside : scanner.quote = .outside)
    (plain : isQuoteMark c = false) (solid : isBlank c = false) :
    scanner.advance c = scanner.takeSolid := by
  have stays : scanner.quote.next c = scanner.quote := by
    rw [outside, Quote.next, plain, if_neg Bool.false_ne_true]
  rw [Scanner.advance, stays, outside, Quote.covers, plain, solid, ← outside]
  rfl

/-- An operator is tagged in one step. -/
theorem HasRead.advance_op {start : Nat} (read : HasRead front (.op op :: rest) scanner)
    (ordinary : Ordinary (Token.text (front ++ .op op :: rest)) start)
    (low : start ≤ scanner.position) (own : Token.AreApart (.op op :: rest)) :
    ∃ c, scanner.ledger.char? scanner.position = some c ∧ scanner.advance c = { scanner with
        ledger := tagOp scanner.ledger scanner.position op
        position := scanner.position + op.width } := by
  obtain ⟨symbolic, alone, filled, -⟩ := own
  obtain ⟨c, others, spelling⟩ : ∃ c others, op.spelling = c :: others :=
    List.exists_cons_of_length_pos (Ledger.width_pos op)
  have among : c ∈ op.spelling := by simp [spelling]
  have starts : Token.text (.op op :: rest) = c :: (others ++ Token.text rest) := by
    rw [Token.text_cons, Token.chars, spelling, List.cons_append]
  have noPair : Scanner.emptyPair? scanner.ledger scanner.position = none := by
    refine read.emptyPair? starts ?_
    rintro rfl
    obtain rfl : op = .openBracket := by
      revert spelling
      cases op <;> simp [Op.spelling, Op.text, Op.row]
    obtain rfl : others = [] := by
      simpa [Op.spelling, Op.text, Op.row] using spelling.symm
    exact filled rfl
  refine ⟨c, ?_, ?_⟩
  · rw [← Nat.add_zero scanner.position, read.char?, starts]
    rfl
  · rw [advance_solid read.quote (Op.isQuoteMark_of_mem among) (Op.isBlank_of_mem among),
      takeSolid, noPair]
    dsimp only
    rw [read.spelledOp? symbolic alone]
    dsimp only
    rw [read.meantOp alone, read.startsNumber ordinary low symbolic,
      if_neg Bool.false_ne_true, takeOp,
      ordinary.types _ _ read.chars low, Bool.and_false]
    simp only [Bool.false_eq_true, if_false, closeAngle, read.angles]
    split <;> rfl

theorem HasRead.op_read (read : HasRead front (.op op :: rest) scanner) :
    HasRead (front ++ [.op op]) rest { scanner with
      ledger := tagOp scanner.ledger scanner.position op
      position := scanner.position + op.width } := by
  have positive := Ledger.width_pos op
  have length := Token.length_flatMap_tags front
  have inside : scanner.position + op.width ≤ scanner.ledger.size := by
    rw [← length_chars, read.chars, read.position]
    simp only [Token.text_append, Token.text_cons, Token.chars, List.length_append, Op.width]
    omega
  refine ⟨?_, read.angles, read.quote, ?_, fun p low => ?_, fun p high => ?_⟩
  · rw [tagOp, chars_setTags, chars_setTag, read.chars, List.append_assoc]
    rfl
  · dsimp only
    rw [read.position, Token.text_append, List.length_append]
    simp [Token.text, Token.chars, Op.width]
  · dsimp only at low ⊢
    have known : ∃ tag, scanner.ledger.tag? p = some tag := by
      rw [← Option.isSome_iff_exists, ← Option.isNone_eq_false_iff, ← Bool.not_eq_true,
        Option.isNone_iff_eq_none, tag?_eq_none]
      omega
    obtain ⟨tag, known⟩ := known
    rw [tag?_tagOp, List.flatMap_append]
    by_cases before : p < scanner.position
    · rw [if_neg (by omega), if_neg (by omega), read.done p before,
        List.getElem?_append_left (by rw [length, ← read.position]; exact before)]
    · rw [List.getElem?_append_right (by rw [length, ← read.position]; omega), length,
        ← read.position, known]
      by_cases first : p = scanner.position
      · rw [if_pos first, first, Nat.sub_self]
        rfl
      · obtain ⟨offset, rfl⟩ : ∃ offset, p = scanner.position + (offset + 1) :=
          ⟨p - scanner.position - 1, by omega⟩
        rw [if_neg first, if_pos (by omega), Nat.add_sub_cancel_left]
        simp only [List.flatMap_cons, List.flatMap_nil, List.append_nil, Token.tags,
          List.getElem?_cons_succ, Option.map_some]
        rw [List.getElem?_replicate, if_pos (by omega)]
  · dsimp only at high ⊢
    rw [tag?_tagOp, if_neg (by omega), if_neg (by omega), read.ahead p (by omega),
      List.append_assoc]
    rfl

/-- A token of plain text or blanks is tagged from the start. -/
theorem HasRead.skip {token : Token} (read : HasRead front (token :: rest) scanner)
    (plain : token.tags = token.chars.map fun c => if Text.isBlank c then .space else .unresolved) :
    HasRead (front ++ [token]) rest
      { scanner with position := scanner.position + token.chars.length } := by
  have length := Token.length_flatMap_tags front
  refine ⟨?_, read.angles, read.quote, ?_, fun p low => ?_, fun p high => ?_⟩
  · rw [read.chars, List.append_assoc]
    rfl
  · dsimp only
    rw [read.position, Token.text_append, List.length_append]
    simp [Token.text]
  · dsimp only at low ⊢
    rw [List.flatMap_append]
    by_cases before : p < scanner.position
    · rw [read.done p before,
        List.getElem?_append_left (by rw [length, ← read.position]; exact before)]
    · obtain ⟨offset, rfl⟩ : ∃ offset, p = scanner.position + offset :=
        ⟨p - scanner.position, by omega⟩
      rw [List.getElem?_append_right (by rw [length, ← read.position]; omega), length,
        ← read.position, Nat.add_sub_cancel_left, read.ahead _ (by omega),
        tag?_ofText, ← read.chars,
        ← char?_eq_chars, read.char?, Token.text_cons, List.getElem?_append_left (by omega)]
      rw [List.flatMap_cons, List.flatMap_nil, List.append_nil, plain, List.getElem?_map]
  · dsimp only at high ⊢
    rw [read.ahead p (by omega), List.append_assoc]
    rfl

section

variable (read : HasRead front (.word chars :: rest) scanner)
  (letters : ∀ c ∈ chars, isNameChar c = true) (other : chars ≠ Op.instanceOf.spelling)
  (alone : (Token.text rest).head?.any isWordChar = false)
include read letters other alone

/-- Inside a word no operator is spelled. -/
theorem HasRead.spelledOp?_word {offset : Nat} (inside : offset < chars.length) :
    Scanner.spelledOp? scanner.ledger (scanner.position + offset) = none := by
  have wordChar {c : Char} (among : c ∈ chars) := isNameChar_plain (letters c among)
  have later : scanner.ledger.chars.drop (scanner.position + offset) =
      chars.drop offset ++ Token.text rest := by
    rw [← List.drop_drop, read.drop, Token.text_cons, Token.chars,
      List.drop_append_of_le_length (Nat.le_of_lt inside)]
  rw [Scanner.spelledOp?, List.find?_eq_none]
  intro op _ spelled
  rw [Bool.and_eq_true, spells_eq, later, List.isPrefixOf_iff_prefix] at spelled
  obtain ⟨starts, spaced⟩ := spelled
  by_cases symbolic : op = .instanceOf
  · subst symbolic
    rw [bne_self_eq_false, Bool.false_or, isSpaced, Bool.and_eq_true, Bool.and_eq_true] at spaced
    obtain ⟨⟨-, before⟩, behind⟩ := spaced
    cases offset with
    | succ offset =>
        rw [← Nat.add_assoc, Nat.add_sub_cancel, blankAt, read.char?, Token.text_cons, Token.chars,
          List.getElem?_append_left (by omega), List.getElem?_eq_getElem (by omega),
          Option.any_some, (wordChar (List.getElem_mem _)).2.1] at before
        contradiction
    | zero =>
        rw [List.drop_zero] at starts
        rw [Nat.add_zero, blankAt, read.char?] at behind
        rcases List.prefix_or_prefix_of_prefix starts (List.prefix_append chars (Token.text rest))
          with
          longer | shorter
        · obtain ⟨more, rfl⟩ := longer
          cases more with
          | nil => exact absurd (List.append_nil _) other
          | cons c more =>
              rw [Token.text_cons, Token.chars, List.append_assoc, Op.width,
                List.getElem?_append_right (Nat.le_refl _), Nat.sub_self] at behind
              have solid := (wordChar (c := c) (by simp)).2.1
              rw [List.cons_append, List.getElem?_cons_zero, Option.any_some, solid] at behind
              contradiction
        · obtain ⟨more, spelling⟩ := shorter
          cases more with
          | nil =>
              rw [List.append_nil] at spelling
              exact absurd spelling other
          | cons c more =>
              rw [← spelling, List.prefix_append_right_inj] at starts
              obtain ⟨further, split⟩ := starts
              have letters : ∀ c ∈ Op.instanceOf.spelling, isWordChar c = true := by decide
              rw [← split, List.cons_append, List.head?_cons, Option.any_some,
                letters c (by simp [← spelling])] at alone
              contradiction
  · obtain ⟨c, others, spelling⟩ : ∃ c others, op.spelling = c :: others :=
      List.exists_cons_of_length_pos (Ledger.width_pos op)
    have noWord := Op.not_isWordChar_of_mem symbolic (c := c) (by simp [spelling])
    rw [spelling, List.drop_eq_getElem_cons inside, List.cons_append, List.cons_prefix_cons]
      at starts
    rw [starts.1, (wordChar (List.getElem_mem _)).1] at noWord
    contradiction

/-- The characters of a word are passed one by one. -/
theorem HasRead.run_word (count : Nat) :
    run (chars.length + count) scanner =
      run count { scanner with position := scanner.position + chars.length } := by
  have passed (offset : Nat) (inside : offset ≤ chars.length) :
      run (chars.length + count) scanner = run (chars.length - offset + count)
          { scanner with position := scanner.position + offset } := by
    induction offset with
    | zero => rfl
    | succ offset induction =>
        have within : offset < chars.length := inside
        have plain := isNameChar_plain (letters _ (List.getElem_mem within))
        have here : scanner.ledger.char? (scanner.position + offset) = some chars[offset] := by
          rw [read.char?, Token.text_cons, Token.chars, List.getElem?_append_left within,
            List.getElem?_eq_getElem within]
        have noPair : Scanner.emptyPair? scanner.ledger (scanner.position + offset) = none := by
          rw [Scanner.emptyPair?, charIs, here, if_neg]
          rw [beq_iff_eq, Option.some.injEq]
          intro same
          rw [same] at plain
          exact absurd plain.1 (by decide)
        rw [induction (Nat.le_of_lt within),
          show chars.length - offset + count = (chars.length - (offset + 1) + count) + 1 by omega,
          run]
        dsimp only
        rw [here]
        dsimp only
        rw [advance_solid (by exact read.quote) plain.2.2 plain.2.1, takeSolid]
        dsimp only
        rw [noPair, read.spelledOp?_word letters other alone within]
        rfl
  rw [passed chars.length (Nat.le_refl _), Nat.sub_self, Nat.zero_add]

end

theorem tags_word (letters : ∀ c ∈ chars, isNameChar c = true) :
    Token.tags (.word chars) =
      (Token.word chars).chars.map fun c => if Text.isBlank c then .space else .unresolved := by
  rw [Token.tags, Token.chars, eq_comm, List.map_eq_replicate_iff]
  intro c among
  rw [(isNameChar_plain (letters c among)).2.1, if_neg Bool.false_ne_true]

/-- A blank is passed. -/
theorem HasRead.run_blank (read : HasRead front (.blank :: rest) scanner) (count : Nat) :
    run (count + 1) scanner = run count { scanner with position := scanner.position + 1 } := by
  have here : scanner.ledger.char? scanner.position = some ' ' := by
    rw [← Nat.add_zero scanner.position, read.char?]
    rfl
  have taken : scanner.advance ' ' = { scanner with position := scanner.position + 1 } := by
    have stays : scanner.quote.next ' ' = scanner.quote := by
      rw [read.quote]
      rfl
    have outside : scanner.quote.covers ' ' = false := by
      rw [read.quote]
      rfl
    rw [Scanner.advance, stays, outside]
    rfl
  rw [run, here]
  dsimp only
  rw [taken]

theorem ne_instanceOf (name : isName chars = true) : chars ≠ Op.instanceOf.spelling := by
  rintro rfl
  revert name
  decide

/-- The scanner reads tokens that are apart to their end. -/
theorem HasRead.run_eq {start count : Nat} (read : HasRead front rest scanner)
    (ordinary : Ordinary (Token.text (front ++ rest)) start) (low : start ≤ scanner.position)
    (apart : Token.AreApart rest) (enough : (Token.text rest).length ≤ count) :
    HasRead (front ++ rest) [] (run count scanner) := by
  induction rest generalizing front scanner count with
  | nil =>
      have ended : scanner.ledger.char? scanner.position = none := by
        rw [← Nat.add_zero scanner.position, read.char?]
        rfl
      have stays : run count scanner = scanner := by
        cases count with
        | zero => rfl
        | succ count => rw [run, ended]
      rw [stays, List.append_nil]
      exact read
  | cons token rest induction =>
      have split : front ++ token :: rest = front ++ [token] ++ rest := by simp
      rw [split] at ordinary ⊢
      rw [Token.text_cons, List.length_append] at enough
      cases token with
      | word chars =>
          obtain ⟨name, alone, later⟩ := apart
          have letters (c : Char) (among : c ∈ chars) := isNameChar_of_mem name among
          obtain ⟨more, rfl⟩ : ∃ more, count = chars.length + more :=
            ⟨count - chars.length, by rw [Token.chars] at enough; omega⟩
          rw [read.run_word letters (ne_instanceOf name) alone]
          refine induction (read.skip (tags_word letters)) ordinary
            (Nat.le_add_right_of_le low) later ?_
          rw [Token.chars] at enough
          omega
      | op found =>
          have own := apart
          obtain ⟨c, here, taken⟩ := read.advance_op (split ▸ ordinary) low own
          have positive := Ledger.width_pos found
          obtain ⟨more, rfl⟩ : ∃ more, count = more + 1 :=
            ⟨count - 1, by rw [Token.chars, ← Op.width] at enough; omega⟩
          rw [run, here]
          dsimp only
          rw [taken]
          refine induction read.op_read ordinary (Nat.le_add_right_of_le low) apart.2.2.2 ?_
          rw [Token.chars, ← Op.width] at enough
          omega
      | blank =>
          simp only [Token.chars, List.length_singleton] at enough
          obtain ⟨more, rfl⟩ : ∃ more, count = more + 1 := ⟨count - 1, by omega⟩
          rw [read.run_blank]
          exact induction (read.skip rfl) ordinary (Nat.le_add_right_of_le low) apart (by omega)

end

end Scanner

/-! ## What a scan shows -/

namespace Token

open Reduction

variable {tokens : List Token}

theorem hasRead_start (tokens : List Token) :
    Scanner.HasRead [] tokens { ledger := Ledger.ofText (text tokens) } :=
  ⟨Ledger.chars_ofText _, rfl, rfl, rfl, nofun, fun _ _ => rfl⟩

/-- The tags that a scan has left behind. -/
theorem tag?_of_hasRead (read : Scanner.HasRead tokens []
    (Scanner.run (text tokens).length { ledger := Ledger.ofText (text tokens) })) (p : Nat) :
    (Ledger.scan (text tokens)).tag? p = (tokens.flatMap tags)[p]? := by
  by_cases inside : p < (text tokens).length
  · exact read.done p (by rw [read.position]; exact inside)
  · have past : (tokens.flatMap tags)[p]? = none :=
      List.getElem?_eq_none (by rw [length_flatMap_tags]; omega)
    rw [past, Ledger.tag?_eq_none, ← Ledger.length_chars]
    have chars := read.chars
    rw [List.append_nil] at chars
    rw [Ledger.scan, chars]
    omega

/-- A scan finds exactly the tokens of a text. -/
theorem tag?_scan (apart : AreApart tokens) (p : Nat) :
    (Ledger.scan (text tokens)).tag? p = (tokens.flatMap tags)[p]? := by
  have read := (hasRead_start tokens).run_eq (Scanner.ordinary_of_apart apart) (Nat.le_refl _) apart
    (Nat.le_refl _)
  exact tag?_of_hasRead read p

/-- Words that stand apart are not empty. -/
theorem filled_of_apart (apart : AreApart tokens) (chars : List Char)
    (among : .word chars ∈ tokens) :
    chars ≠ [] := by
  induction tokens with
  | nil => contradiction
  | cons token rest induction =>
      cases token with
      | word first =>
          rcases List.mem_cons.1 among with same | later
          · obtain rfl := Token.word.inj same
            obtain ⟨first, others, rfl, -⟩ := exists_of_isName apart.1
            exact List.cons_ne_nil _ _
          · exact induction apart.2.2 later
      | op found => exact induction apart.2.2.2 (by simpa using among)
      | blank => exact induction apart (by simpa using among)

/-- The ledger shows the segments of tokens that stand at a position. -/
theorem shows_of_tags {state : Reduction} {position : Nat} (tagged : ∀ p < (text tokens).length,
      state.ledger.tag? (position + p) = (tokens.flatMap tags)[p]?)
    (filled : ∀ chars, .word chars ∈ tokens → chars ≠ [])
    (inside : position + (text tokens).length ≤ state.ledger.size) :
    Shows state position (position + (text tokens).length) (segments position tokens) := by
  induction tokens generalizing position with
  | nil => exact ⟨⟨Nat.le_refl _, fun p low high => absurd high (Nat.not_lt.2 low)⟩, inside⟩
  | cons token rest induction =>
      have length := length_tags token
      rw [text_cons, List.length_append] at tagged inside
      have here (offset : Nat) (low : offset < token.tags.length) :
          state.ledger.tag? (position + offset) = token.tags[offset]? := by
        rw [tagged offset (by omega), List.flatMap_cons, List.getElem?_append_left low]
      have later :
          Shows state (position + token.chars.length) (position + (text (token :: rest)).length)
          (segments (position + token.chars.length) rest) := by
        rw [text_cons, List.length_append, ← Nat.add_assoc]
        refine induction (fun p low => ?_)
          (fun chars among => filled chars (List.mem_cons_of_mem token among)) (by omega)
        rw [Nat.add_assoc, tagged _ (by omega), List.flatMap_cons, ← length,
          List.getElem?_append_right (Nat.le_add_right _ _), Nat.add_sub_cancel_left]
      cases token with
      | word chars =>
          have positive := List.length_pos_iff.2 (filled chars List.mem_cons_self)
          refine ⟨⟨Nat.le_refl _, fun p low high => ?_⟩, ⟨?_, fun p low high => ?_, nofun⟩, later⟩
          · dsimp only at high
            omega
          · dsimp only
            omega
          · dsimp only at low high
            obtain ⟨offset, rfl⟩ := Nat.exists_eq_add_of_le low
            have within : offset < chars.length := by omega
            rw [here offset (by simpa only [tags, List.length_replicate] using within), tags,
              List.getElem?_replicate, if_pos within]
      | op found =>
          have positive := Ledger.width_pos found
          have width : (tags (.op found)).length = found.width := length
          refine ⟨⟨Nat.le_refl _, fun p low high => ?_⟩,
            ⟨?_, ⟨rfl, ?_, fun p low high => ?_⟩, nofun⟩,
            later⟩
          · dsimp only at high
            omega
          · dsimp only
            omega
          · exact here 0 (by omega)
          · dsimp only at low high
            obtain ⟨offset, rfl⟩ : ∃ offset, p = position + (offset + 1) :=
              ⟨p - position - 1, by omega⟩
            rw [here (offset + 1) (by omega), tags, List.getElem?_cons_succ,
              List.getElem?_replicate,
              if_pos (by omega)]
      | blank =>
          have gap : IsGap state position (position + 1) := by
            refine ⟨Nat.le_succ _, fun p low high => ?_⟩
            obtain rfl : p = position := by omega
            exact here 0 (Nat.lt_succ_self 0)
          exact Shows.behindGap gap later

end Token

end MethodLowering
