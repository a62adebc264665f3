import MethodLowering.Proofs.Ledger.Crossing
import MethodLowering.Proofs.Ledger.Spelling

/-!
# Type arguments in a scan

The brackets around type arguments and the marks between them are found as operators first and
become plain text when the closing bracket is read.  A run of closing brackets is spelled like a
shift and is taken apart one by one, each bracket against the latest open one.  So a scan that
enters a generic type outside literals leaves nothing but blanks and plain text in its type
arguments, at every depth.
-/

namespace MethodLowering

open Text

namespace Text

/-! ## Types -/

/-- A name with qualifiers in front of it, which ends in the word `last`. -/
inductive IsTypeName : List Char → List Char → Prop where
  | word {word : List Char} (isName : Reduction.isVariableName word = true)
      (other : word ≠ Op.instanceOf.spelling) : IsTypeName word word
  | member {qualifier outer before behind word : List Char} (named : IsTypeName qualifier outer)
      (blank : ∀ c ∈ before ++ behind, isBlank c = true)
        (isName : Reduction.isVariableName word = true)
      (other : word ≠ Op.instanceOf.spelling) :
      IsTypeName (qualifier ++ (before ++ ('.' :: (behind ++ word)))) word

/-- The bound of a wildcard starts with this word. -/
def boundWords : List (List Char) := ["extends".toList, "super".toList]

/-- What may stand between the brackets of a generic type: names, generic types, array types and
wildcards, with commas between them and blanks around them. -/
inductive AreTypeArguments : List Char → Prop where
  | name {text last : List Char} (named : IsTypeName text last) : AreTypeArguments text
  | generic {name last gap arguments : List Char} (named : IsTypeName name last)
      (upper : last.head?.any isUpper = true) (blank : ∀ c ∈ gap, isBlank c = true)
      (typed : AreTypeArguments arguments) :
      AreTypeArguments (name ++ (gap ++ ('<' :: arguments ++ ['>'])))
  | array {element gap : List Char} (typed : AreTypeArguments element)
      (blank : ∀ c ∈ gap, isBlank c = true) :
      AreTypeArguments (element ++ ('[' :: gap ++ [']']))
  | wildcard : AreTypeArguments ['?']
  | bounded {gap keyword bound : List Char} {c : Char} (blank : ∀ c ∈ gap, isBlank c = true)
      (listed : keyword ∈ boundWords) (apart : isBlank c = true) (typed : AreTypeArguments bound) :
      AreTypeArguments ('?' :: (gap ++ (keyword ++ (c :: bound))))
  | list {first rest : List Char} (typed : AreTypeArguments first)
      (others : AreTypeArguments rest) :
      AreTypeArguments (first ++ ',' :: rest)
  | padded {before text behind : List Char} (typed : AreTypeArguments text)
      (blank : ∀ c ∈ before ++ behind, isBlank c = true) :
        AreTypeArguments (before ++ (text ++ behind))

/-- A text that ends in a word reads as the name of a generic type, blanks behind it aside. -/
def EndsTypeName (text : List Char) : Prop :=
  ∃ lead word gap, text = lead ++ word ++ gap ∧ lead.getLast?.any isWordChar = false ∧
    (∀ c ∈ word, isWordChar c = true) ∧ word.head?.any isUpper = true ∧ ∀ c ∈ gap, isBlank c = true

/-- What follows neither goes on with a word nor makes an empty pair of brackets the start of an
array, and closing brackets of type arguments are not the start of an assignment. -/
structure EndsType (rest : List Char) : Prop where
  word : rest.head?.any isWordChar = false
  brace : (rest.dropWhile isBlank).head? ≠ some '{'
  closing : (rest.dropWhile (· == '>')).head? ≠ some '='

section

variable {text last gap rest : List Char} {c : Char}

theorem head?_append_of_blank {test : Char → Bool} (solid : ∀ c, isBlank c = true → test c = false)
    (blank : ∀ c ∈ gap, isBlank c = true) (behind : rest.head?.any test = false) :
    (gap ++ rest).head?.any test = false := by
  cases gap with
  | nil => exact behind
  | cons c gap => exact solid c (blank c List.mem_cons_self)

theorem EndsType.of_mark (solid : isWordChar c = false) (brace : c ≠ '{')
    (blank : isBlank c = false)
    (closing : c ≠ '>') (assign : c ≠ '=') : EndsType (c :: rest) := by
  refine ⟨solid, ?_, ?_⟩
  · rw [List.dropWhile_cons_of_neg (by simp [blank])]
    simpa using brace
  · rw [List.dropWhile_cons_of_neg (by simp [closing])]
    simpa using assign

theorem EndsType.padded (ends : EndsType rest) (blank : ∀ c ∈ gap, isBlank c = true) :
    EndsType (gap ++ rest) := by
  refine ⟨head?_append_of_blank (fun c => not_isWordChar_of_isBlank) blank ends.word, ?_, ?_⟩
  · rw [List.dropWhile_append_of_pos blank]
    exact ends.brace
  · cases gap with
    | nil => exact ends.closing
    | cons c gap =>
        have blank := blank c List.mem_cons_self
        have other {mark : Char} (solid : isBlank mark = false) : c ≠ mark := by
          rintro rfl
          rw [blank] at solid
          contradiction
        rw [List.cons_append, List.dropWhile_cons_of_neg (by simpa using other (by decide))]
        simpa using other (by decide)

/-- A closing bracket ends type arguments where the text behind it does not make it another
operator. -/
theorem EndsType.close (closing : (rest.dropWhile (· == '>')).head? ≠ some '=') :
    EndsType ('>' :: rest) := by
  have solid : isWordChar '>' = false := by decide
  refine ⟨solid, ?_, ?_⟩
  · rw [List.dropWhile_cons_of_neg (by decide)]
    nofun
  · rw [List.dropWhile_cons_of_pos (by decide)]
    exact closing

theorem IsTypeName.first (named : IsTypeName text last) :
    ∃ c rest, text = c :: rest ∧ isWordChar c = true := by
  induction named with
  | word isName other =>
      obtain ⟨c, rest, rfl, -⟩ := exists_of_isVariableName isName
      exact ⟨c, rest, rfl, isWordChar_of_isVariableName isName c List.mem_cons_self⟩
  | member _ _ _ _ induction =>
      obtain ⟨c, rest, rfl, isWord⟩ := induction
      exact ⟨c, _, List.cons_append, isWord⟩

/-- Type arguments start with a letter, a blank or a wildcard. -/
theorem AreTypeArguments.first (typed : AreTypeArguments text) :
    ∃ c rest, text = c :: rest ∧ (isWordChar c = true ∨ isBlank c = true ∨ c = '?') := by
  have appended {front : List Char} (back : List Char)
      (first : ∃ c rest, front = c :: rest ∧ (isWordChar c = true ∨ isBlank c = true ∨ c = '?')) :
      ∃ c rest, front ++ back = c :: rest ∧ (isWordChar c = true ∨ isBlank c = true ∨ c = '?') := by
    obtain ⟨c, rest, rfl, known⟩ := first
    exact ⟨c, _, List.cons_append, known⟩
  have name {text last : List Char} (named : IsTypeName text last) :
      ∃ c rest, text = c :: rest ∧ (isWordChar c = true ∨ isBlank c = true ∨ c = '?') := by
    obtain ⟨c, rest, rfl, isWord⟩ := named.first
    exact ⟨c, rest, rfl, .inl isWord⟩
  induction typed with
  | name named => exact name named
  | generic named _ _ _ _ => exact appended _ (name named)
  | array _ _ induction => exact appended _ induction
  | wildcard => exact ⟨'?', _, rfl, .inr (.inr rfl)⟩
  | bounded _ _ _ _ _ => exact ⟨'?', _, rfl, .inr (.inr rfl)⟩
  | list _ _ induction _ => exact appended _ induction
  | @padded before text behind _ blank induction =>
      cases before with
      | nil =>
          rw [List.nil_append]
          exact appended _ induction
      | cons c before => exact ⟨c, _, List.cons_append, .inr (.inl (blank c List.mem_cons_self))⟩

theorem IsTypeName.ends (named : IsTypeName text last) {lead : List Char}
    (apart : lead.getLast?.any isWordChar = false) (upper : last.head?.any isUpper = true)
    (blank : ∀ c ∈ gap, isBlank c = true) : EndsTypeName (lead ++ text ++ gap) := by
  cases named with
  | word isName other =>
      exact ⟨lead, text, gap, rfl, apart, isWordChar_of_isVariableName isName, upper, blank⟩
  | @member qualifier outer before behind word named gaps isName other =>
      refine ⟨lead ++ qualifier ++ before ++ '.' :: behind, last, gap, by simp, ?_,
        isWordChar_of_isVariableName isName, upper, blank⟩
      rcases List.eq_nil_or_concat' behind with rfl | ⟨front, c, rfl⟩
      · simp only [List.getLast?_append, List.getLast?_singleton, Option.some_or, Option.any_some]
        decide
      · have here := not_isWordChar_of_isBlank (gaps c (by simp))
        rw [← List.cons_append, ← List.append_assoc, List.getLast?_concat, Option.any_some, here]

end

end Text

namespace Scanner

open Ledger

section

variable {text front rest arguments word : List Char} {scanner : Scanner}
  {ledger : Ledger} {op : Op} {c : Char} {p : Nat}

/-! ## Angle brackets -/

/-- A generic type is recognized by the upper-case letter at the start of its name. -/
theorem followsTypeName_eq_true (chars : ledger.chars = front ++ rest) (ends : EndsTypeName front) :
    followsTypeName ledger front.length = true := by
  obtain ⟨lead, word, gap, rfl, apart, letters, upper, blank⟩ := ends
  have char (q : Nat) : ledger.char? q = (lead ++ (word ++ (gap ++ rest)))[q]? := by
    rw [char?_eq_chars, chars]
    simp
  have inWord {offset : Nat} (within : offset < word.length) :
      ledger.char? (lead.length + offset) = some word[offset] := by
    rw [char, List.getElem?_append_right (Nat.le_add_right _ _), Nat.add_sub_cancel_left,
      List.getElem?_append_left within, List.getElem?_eq_getElem within]
  have present : 0 < word.length := by
    rw [List.length_pos_iff]
    rintro rfl
    contradiction
  have stop : seekDown (fun below => !blankAt ledger below) (lead ++ word ++ gap).length
      (lead ++ word ++ gap).length = lead.length + word.length := by
    simp only [List.length_append]
    refine seekDown_eq (by omega) (by omega) (fun q low high => ?_) (.inr ?_)
    · obtain ⟨offset, rfl⟩ := Nat.exists_eq_add_of_le low
      have within : offset < gap.length := by omega
      rw [blankAt, char, Nat.add_assoc, List.getElem?_append_right (Nat.le_add_right _ _),
        Nat.add_sub_cancel_left, List.getElem?_append_right (Nat.le_add_right _ _),
        Nat.add_sub_cancel_left,
        List.getElem?_append_left within, List.getElem?_eq_getElem within, Option.any_some,
        blank _ (List.getElem_mem within)]
      rfl
    · rw [Nat.add_sub_assoc present, blankAt, inWord (by omega), Option.any_some,
        isBlank_of_isWordChar (letters _ (List.getElem_mem _))]
      rfl
  have start :
      seekDown (fun below => !(ledger.char? below).any isWordChar) (lead.length + word.length)
      (lead.length + word.length) = lead.length := by
    refine seekDown_eq (Nat.le_add_right _ _) (by omega) (fun q low high => ?_) ?_
    · obtain ⟨offset, rfl⟩ := Nat.exists_eq_add_of_le low
      rw [inWord (by omega), Option.any_some, letters _ (List.getElem_mem _)]
      rfl
    · rcases List.eq_nil_or_concat' lead with rfl | ⟨before, c, rfl⟩
      · exact .inl (by simp)
      · right
        have solid : isWordChar c = false := by simpa using apart
        rw [char, List.length_append, List.length_singleton, Nat.add_sub_cancel]
        simp [solid]
  rw [followsTypeName, stop, start, Bool.and_eq_true, decide_eq_true_eq]
  refine ⟨Nat.lt_add_of_pos_right present, ?_⟩
  rw [← Nat.add_zero lead.length, inWord present, ← upper, List.head?_eq_getElem?,
    List.getElem?_eq_getElem present]

/-- Angle brackets and shifts are joined by `=`, and by their own character unless they are the
longest. -/
theorem eq_of_absorbs (angle : op ∈ [Op.less, .greater, .shiftRight, .shiftRightZero])
    (joins : op.absorbs c = true) :
    c = '=' ∨ op.spelling.head? = some c ∧ op ≠ .shiftRightZero := by
  simp only [List.mem_cons, List.not_mem_nil, or_false] at angle
  rcases angle with rfl | rfl | rfl | rfl
  all_goals
    simp [Op.absorbs, Op.all, Op.spelling, Op.text, Op.row, List.isPrefixOf] at joins ⊢
    tauto

/-- A closing bracket is spelled alone or as the start of a shift, unless an assignment sign follows
the brackets behind it. -/
theorem spelledOp?_close (ahead : ledger.chars.drop p = '>' :: rest)
    (closing : (rest.dropWhile (· == '>')).head? ≠ some '=') :
    ∃ found, spelledOp? ledger p = some found ∧ (found = .greater ∨ found.isRightShift = true) := by
  -- the longest of the three whose spelling is followed by neither of the characters that join it
  have spelled {op : Op} {tail : List Char}
      (angle : op ∈ [Op.greater, .shiftRight, .shiftRightZero])
      (split : '>' :: rest = op.spelling ++ tail) (assign : ∀ behind, tail ≠ '=' :: behind)
      (more : op ≠ .shiftRightZero → ∀ behind, tail ≠ '>' :: behind) :
        spelledOp? ledger p = some op := by
    have same : op.inTable = op ∧ op ≠ .instanceOf ∧ op.spelling.head? = some '>' := by
      simp only [List.mem_cons, List.not_mem_nil, or_false] at angle
      rcases angle with rfl | rfl | rfl <;> decide
    rw [spelledOp?_of_drop (ahead.trans split) same.2.1, same.1]
    by_contra joined
    obtain ⟨c, known, joins⟩ := (Option.any_eq_true _ _).1 (Bool.of_not_eq_false joined)
    obtain ⟨behind, starts⟩ := List.head?_eq_some_iff.1 known
    rcases eq_of_absorbs (List.mem_cons_of_mem _ angle) joins with rfl | ⟨first, short⟩
    · exact assign behind starts
    · rw [same.2.2, Option.some.injEq] at first
      exact more short behind (first ▸ starts)
  by_cases alone : ∃ behind, rest = '>' :: behind
  · obtain ⟨behind, rfl⟩ := alone
    by_cases double : ∃ further, behind = '>' :: further
    · obtain ⟨further, rfl⟩ := double
      refine ⟨.shiftRightZero, spelled (by decide) rfl ?_ fun shorter =>
        absurd rfl shorter, .inr rfl⟩
      rintro _ rfl
      exact closing rfl
    · refine ⟨.shiftRight, spelled (by decide) rfl ?_ fun _ => not_exists.1 double, .inr rfl⟩
      rintro _ rfl
      exact closing rfl
  · refine ⟨.greater, spelled (by decide) rfl ?_ fun _ => not_exists.1 alone, .inl rfl⟩
    rintro _ rfl
    exact closing rfl

/-- Type arguments are opened behind the name of a generic type. -/
theorem advance_open (outside : scanner.quote = .outside)
    (ahead : scanner.ledger.chars.drop scanner.position = '<' :: rest)
    (alone : rest.head?.any Op.less.absorbs = false)
    (follows : followsTypeName scanner.ledger scanner.position = true) :
    scanner.advance '<' = { scanner with
      ledger := tagOp scanner.ledger scanner.position .less
      angles := scanner.position :: scanner.angles
      position := scanner.position + 1 } := by
  have here := char?_zero_of_drop ahead
  have spelled : spelledOp? scanner.ledger scanner.position = some Op.less.inTable :=
    spelledOp?_of_drop ahead (by decide) alone
  have noNumber : startsNumber scanner.ledger scanner.position .less = false := Bool.and_false _
  rw [advance_solid outside (by decide) (by decide), takeSolid,
    emptyPair?_of_ne here (by decide), spelled]
  dsimp only
  rw [show scanner.meantOp Op.less.inTable = .less from rfl, noNumber, if_neg Bool.false_ne_true,
    takeOp_cases, follows, Bool.and_true, if_pos (beq_self_eq_true _)]
  rfl

/-- Type arguments are closed by the first character of whatever is spelled with closing
brackets. -/
theorem advance_close {opening : Nat} {angles : List Nat} (outside : scanner.quote = .outside)
    (ahead : scanner.ledger.chars.drop scanner.position = '>' :: rest)
    (closing : (rest.dropWhile (· == '>')).head? ≠ some '=')
    (open' : scanner.angles = opening :: angles)
    (typed : onlyTypeText scanner.ledger opening scanner.position = true) :
    scanner.advance '>' = { scanner with
      ledger := plainFrom opening (scanner.position + 1 - opening)
        (tagOp scanner.ledger scanner.position .greater)
      angles
      position := scanner.position + 1 } := by
  have here := char?_zero_of_drop ahead
  obtain ⟨found, spelled, kind⟩ := spelledOp?_close ahead closing
  have meant : scanner.meantOp found = .greater := by
    have noAssign : (found == .assign) = false := by
      rcases kind with rfl | shift
      · rfl
      · cases found <;> first | rfl | contradiction
    rw [meantOp, noAssign, Bool.false_and, if_neg Bool.false_ne_true, open', List.head?_cons,
      Option.any_some,
      typed, Bool.and_true]
    rcases kind with rfl | shift
    · rfl
    · rw [if_pos shift]
  have noNumber : startsNumber scanner.ledger scanner.position .greater = false := Bool.and_false _
  rw [advance_solid outside (by decide) (by decide), takeSolid,
    emptyPair?_of_ne here (by decide), spelled]
  dsimp only
  rw [meant, noNumber, if_neg Bool.false_ne_true, takeOp_cases, if_neg (by simp),
    if_pos (beq_self_eq_true _), closeAngle, open']
  dsimp only
  rw [if_pos ((onlyTypeText_tagOp ..).trans typed)]
  rfl

/-- Everything that a scan finds is plain once it is cleared. -/
theorem isPlain_clearedTag {tag : Tag}
    (raw : clearedTag tag ≠ .resolved ∧ ∀ id, clearedTag tag ≠ .pending id) :
    (clearedTag tag).isPlain = true := by
  cases tag with
  | resolved => exact absurd rfl raw.1
  | pending id => exact absurd rfl (raw.2 id)
  | _ => rfl

/-- Whatever a scan found, it is plain where it is cleared. -/
theorem isPlain_tag?_plainFrom {opening count p : Nat}
    (well : WellTagged text (plainFrom opening count ledger))
    (low : opening ≤ p) (high : p < opening + count) (inside : p < text.length) :
    ((plainFrom opening count ledger).tag? p).any Tag.isPlain = true := by
  obtain ⟨tag, known⟩ := exists_tag well inside
  have raw := well.raw p tag known
  rw [tag?_plainFrom, if_pos ⟨low, high⟩] at known ⊢
  obtain ⟨old, -, rfl⟩ := Option.map_eq_some_iff.1 known
  rw [known, Option.any_some, isPlain_clearedTag raw]

theorem onlyTypeText_of_tags {opening closing : Nat}
    (typed : ∀ p, opening < p → p < closing → (ledger.tag? p).any isTypeTag = true) :
    onlyTypeText ledger opening closing = true := by
  rw [onlyTypeText, Option.isNone_iff_eq_none]
  refine seek?_eq_none fun p low high => ?_
  rw [typed p (by omega) (by omega)]
  rfl

/-- A scan crosses the brackets of a generic type and leaves everything from the one to the other
plain. -/
theorem crosses_angles (ends : EndsTypeName front)
    (first : arguments.head?.any Op.less.absorbs = false)
    (inner : Crosses isTypeTag (front ++ ['<']) arguments ('>' :: rest))
    (closing : (rest.dropWhile (· == '>')).head? ≠ some '=') :
    Crosses Tag.isPlain front ('<' :: arguments ++ ['>']) rest := by
  intro scanner sound outside start
  have chars : scanner.ledger.chars = front ++ ('<' :: (arguments ++ '>' :: rest)) := by
    rw [sound.well.chars]
    simp
  have ahead : scanner.ledger.chars.drop scanner.position = '<' :: (arguments ++ '>' :: rest) := by
    rw [chars, start, List.drop_left]
  have alone : (arguments ++ '>' :: rest).head?.any Op.less.absorbs = false := by
    cases arguments with
    | nil => rfl
    | cons c arguments => exact first
  -- the opening bracket
  let opened : Scanner := { scanner with
    ledger := tagOp scanner.ledger scanner.position .less
    angles := scanner.position :: scanner.angles
    position := scanner.position + 1 }
  have opens : run 1 scanner = opened := by
    rw [run, char?_zero_of_drop ahead]
    exact advance_open outside ahead alone (start ▸ followsTypeName_eq_true chars ends)
  -- the arguments
  have whole : front ++ ('<' :: arguments ++ ['>']) ++ rest =
      front ++ ['<'] ++ arguments ++ '>' :: rest := by
    simp
  have openedSound : Sound (front ++ ['<'] ++ arguments ++ '>' :: rest) opened := by
    rw [← opens, ← whole]
    exact sound.run 1
  obtain ⟨count, ledger, runs, kept, typed⟩ :=
    inner opened openedSound outside (by simp [opened, start])
  rw [List.length_append, List.length_singleton] at runs kept typed
  let reached : Scanner := { opened with ledger, position := front.length + 1 + arguments.length }
  have reachedSound : Sound (front ++ ['<'] ++ arguments ++ '>' :: rest) reached := by
    rw [← show run count opened = reached from runs]
    exact openedSound.run count
  have behind : reached.ledger.chars.drop reached.position = '>' :: rest := by
    have place : reached.position = (front ++ ['<'] ++ arguments).length := by
      simp [reached, Nat.add_assoc, Nat.add_comm 1]
    rw [reachedSound.well.chars, place, List.drop_left]
  have onlyTyped : onlyTypeText reached.ledger scanner.position reached.position = true :=
    onlyTypeText_of_tags fun p low high =>
      typed p (by omega) (by dsimp only [reached] at high; omega)
  -- the closing bracket
  let closed : Scanner := { scanner with
    ledger := plainFrom scanner.position (reached.position + 1 - scanner.position)
      (tagOp ledger reached.position .greater)
    position := reached.position + 1 }
  have closes : run 1 reached = closed := by
    rw [run, char?_zero_of_drop behind]
    exact advance_close outside behind closing rfl onlyTyped
  have closedSound := reachedSound.run 1
  rw [closes] at closedSound
  refine ⟨1 + (count + 1), closed.ledger, ?_, fun p low => ?_, fun p low high => ?_⟩
  · rw [run_add, opens, run_add, show run count opened = reached from runs, closes]
    have place : reached.position + 1 = front.length + ('<' :: arguments ++ ['>']).length := by
      simp [reached]
      omega
    rw [← place]
  · dsimp only [closed]
    rw [tag?_plainFrom, if_neg (by omega), tag?_tagOp, if_neg (by dsimp only [reached]; omega),
      if_neg (by dsimp only [reached]; omega), kept p (by omega)]
    exact tag?_tagOp_behind (start ▸ low)
  · simp only [List.cons_append, List.length_cons, List.length_append, List.length_nil] at high
    refine isPlain_tag?_plainFrom closedSound.well (by omega) (by dsimp only [reached]; omega) ?_
    simp only [List.length_cons, List.length_append, List.length_nil]
    omega

/-! ## Types -/

theorem crosses_typeName (named : IsTypeName text word) (ends : rest.head?.any isWordChar = false) :
    Crosses isTypeTag front text rest := by
  induction named generalizing front rest with
  | word isName other =>
      exact (crosses_word (isWordChar_of_isVariableName isName) other ends).mono
        isTypeTag_of_isPlain
  | @member qualifier outer before behind word named blank isName other induction =>
      have blankBefore (c : Char) (among : c ∈ before) := blank c (List.mem_append_left _ among)
      have blankBehind (c : Char) (among : c ∈ behind) := blank c (List.mem_append_right _ among)
      have solid (c : Char) (blank : isBlank c = true) : isWordChar c = false :=
        not_isWordChar_of_isBlank blank
      obtain ⟨initial, others, rfl, digit⟩ := exists_of_isVariableName isName
      -- the point stands in front of a blank or a letter, so it starts no number
      have number : (behind ++ (initial :: others ++ rest)).head?.any isDigit = false :=
        head?_append_of_blank (fun c blank => (Bool.or_eq_false_iff.1 (blank_separates blank)).2)
          blankBehind digit
      have mark : Crosses isTypeTag (front ++ qualifier ++ before) ['.']
          (behind ++ (initial :: others) ++ rest) :=
        crosses_mark .dot (by decide) fun _ => by rwa [List.append_assoc]
      have last : Crosses isTypeTag (front ++ qualifier ++ before ++ ['.'] ++ behind)
          (initial :: others) rest :=
        (crosses_word (isWordChar_of_isVariableName isName) other ends).mono isTypeTag_of_isPlain
      have gap : Crosses isTypeTag (front ++ qualifier ++ before ++ ['.']) behind
          (initial :: others ++ rest) :=
        (crosses_blanks blankBehind).mono isTypeTag_of_isPlain
      have point :
          Crosses isTypeTag (front ++ qualifier ++ before) ('.' :: (behind ++ (initial :: others)))
            rest :=
        mark.append (gap.append last)
      refine (induction ?_).append (((crosses_blanks blankBefore).mono isTypeTag_of_isPlain).append
        point)
      have point : isWordChar '.' = false := by decide
      rw [List.append_assoc]
      exact head?_append_of_blank solid blankBefore point

/-- A letter, a blank and a wildcard join no opening bracket. -/
theorem not_absorbs_less (known : isWordChar c = true ∨ isBlank c = true ∨ c = '?') :
    Op.less.absorbs c = false := by
  by_contra joined
  have marks : ∀ c ∈ ['=', '<'], ¬ (isWordChar c = true ∨ isBlank c = true ∨ c = '?') := by decide
  refine marks c ?_ known
  rcases eq_of_absorbs (by decide) (Bool.of_not_eq_false joined) with rfl | ⟨first, -⟩
  · exact List.mem_cons_self
  · rw [← Option.some.inj first]
    exact List.mem_cons_of_mem _ List.mem_cons_self

theorem not_absorbs_arguments (typed : AreTypeArguments text) :
    text.head?.any Op.less.absorbs = false := by
  obtain ⟨c, rest, rfl, known⟩ := typed.first
  rw [List.head?_cons, Option.any_some, not_absorbs_less known]

/-- A scan crosses type arguments and leaves nothing but type text. -/
theorem crosses_arguments (typed : AreTypeArguments text)
    (apart : front.getLast?.any isWordChar = false)
    (ends : EndsType rest) : Crosses isTypeTag front text rest := by
  induction typed generalizing front rest with
  | name named => exact crosses_typeName named ends.word
  | @generic name last gap arguments named upper blank typed induction =>
      have behind : EndsType (gap ++ ('<' :: arguments ++ ['>'] ++ rest)) :=
        (EndsType.of_mark (by decide) (by decide) (by decide) (by decide) (by decide)).padded blank
      have first : Crosses isTypeTag front name (gap ++ ('<' :: arguments ++ ['>']) ++ rest) := by
        rw [List.append_assoc]
        exact crosses_typeName named behind.word
      have inner : Crosses isTypeTag (front ++ name ++ gap ++ ['<']) arguments ('>' :: rest) :=
        induction (by rw [List.getLast?_concat]; decide) (EndsType.close ends.closing)
      have angles :=
        crosses_angles (named.ends apart upper blank) (not_absorbs_arguments typed)
          inner ends.closing
      exact first.append (((crosses_blanks blank).append angles).mono isTypeTag_of_isPlain)
  | @array element gap typed blank induction =>
      refine (induction apart ?_).append ((crosses_pair blank ends.brace).mono isTypeTag_of_isPlain)
      exact .of_mark (by decide) (by decide) (by decide) (by decide) (by decide)
  | wildcard => exact crosses_mark .question (by decide) nofun
  | @bounded gap keyword bound c blank listed spaced typed induction =>
      have solid : isWordChar c = false := not_isWordChar_of_isBlank spaced
      have letters : (∀ c ∈ keyword, isWordChar c = true) ∧ keyword ≠ Op.instanceOf.spelling := by
        revert keyword
        decide
      have mark : Crosses isTypeTag front ['?'] (gap ++ (keyword ++ (c :: bound)) ++ rest) :=
        crosses_mark .question (by decide) nofun
      have word : Crosses Tag.isPlain (front ++ ['?'] ++ gap) keyword (c :: bound ++ rest) :=
        crosses_word letters.1 letters.2 solid
      have space : Crosses Tag.isPlain (front ++ ['?'] ++ gap ++ keyword) [c] (bound ++ rest) :=
        crosses_blanks (by simpa using spaced)
      have last : Crosses isTypeTag (front ++ ['?'] ++ gap ++ keyword ++ [c]) bound rest :=
        induction (by rw [List.getLast?_concat]; exact solid) ends
      have bounded :=
        (word.mono isTypeTag_of_isPlain).append ((space.mono isTypeTag_of_isPlain).append last)
      exact mark.append (((crosses_blanks blank).mono isTypeTag_of_isPlain).append bounded)
  | @list first others typed typed' induction induction' =>
      have behind : EndsType (',' :: others ++ rest) :=
        .of_mark (by decide) (by decide) (by decide) (by decide) (by decide)
      have mark : Crosses isTypeTag (front ++ first) [','] (others ++ rest) :=
        crosses_mark .comma (by decide) nofun
      have last : Crosses isTypeTag (front ++ first ++ [',']) others rest :=
        induction' (by rw [List.getLast?_concat]; decide) ends
      exact (induction apart behind).append (mark.append last)
  | @padded before text behind typed blank induction =>
      have blankBefore (c : Char) (among : c ∈ before) := blank c (List.mem_append_left _ among)
      have blankBehind (c : Char) (among : c ∈ behind) := blank c (List.mem_append_right _ among)
      have apart' : (front ++ before).getLast?.any isWordChar = false := by
        rcases List.eq_nil_or_concat' before with rfl | ⟨gap, c, rfl⟩
        · rwa [List.append_nil]
        · rw [← List.append_assoc, List.getLast?_concat]
          exact not_isWordChar_of_isBlank (blankBefore c (by simp))
      have last : Crosses isTypeTag (front ++ before ++ text) behind rest :=
        (crosses_blanks blankBehind).mono isTypeTag_of_isPlain
      exact ((crosses_blanks blankBefore).mono isTypeTag_of_isPlain).append
        ((induction apart' (ends.padded blankBehind)).append last)

end

end Scanner

namespace Ledger

section

variable {front name last gap arguments back : List Char}

/-- A scan of a text in which a generic type stands outside literals arrives at its end, with
nothing but plain text in its type arguments. -/
theorem exists_run_plain (outside : Quote.outside.after front = .outside)
    (apart : front.getLast?.any isWordChar = false) (named : IsTypeName name last)
    (upper : last.head?.any isUpper = true) (blank : ∀ c ∈ gap, Text.isBlank c = true)
    (typed : AreTypeArguments arguments) (behind : back.head? ≠ some '>' ∧ back.head? ≠ some '=') :
    ∃ count after, Scanner.run count
        { ledger := ofText (front ++ (name ++ gap ++ ('<' :: arguments ++ ['>'])) ++ back) } =
          after ∧ ∀ p, (front ++ (name ++ gap)).length ≤ p →
        p < (front ++ (name ++ gap ++ ('<' :: arguments ++ ['>']))).length →
        p < after.position ∧ (after.ledger.tag? p).any Tag.isPlain = true := by
  let text := front ++ (name ++ gap ++ ('<' :: arguments ++ ['>'])) ++ back
  have closing : (back.dropWhile (· == '>')).head? ≠ some '=' := by
    cases back with
    | nil => nofun
    | cons c back =>
        rw [List.dropWhile_cons_of_neg (by simpa using behind.1)]
        exact behind.2
  -- the name and the blanks behind it
  have solid : isWordChar '<' = false := by decide
  have follows : (gap ++ ('<' :: arguments ++ ['>'] ++ back)).head?.any isWordChar = false :=
    head?_append_of_blank (fun c => not_isWordChar_of_isBlank) blank solid
  have title :
      Scanner.Crosses Scanner.isTypeTag front (name ++ gap) ('<' :: arguments ++ ['>'] ++ back) :=
    (Scanner.crosses_typeName named follows).append
      ((Scanner.crosses_blanks blank).mono Scanner.isTypeTag_of_isPlain)
  -- the brackets and what stands between them
  have inner : Scanner.Crosses Scanner.isTypeTag (front ++ (name ++ gap) ++ ['<']) arguments
      ('>' :: back) :=
    Scanner.crosses_arguments typed (by rw [List.getLast?_concat]; exact solid)
      (EndsType.close closing)
  have angles :
      Scanner.Crosses Tag.isPlain (front ++ (name ++ gap)) ('<' :: arguments ++ ['>']) back := by
    refine Scanner.crosses_angles ?_ (Scanner.not_absorbs_arguments typed) inner closing
    rw [← List.append_assoc]
    exact named.ends apart upper blank
  -- the scan arrives at the name
  have start : Scanner.Sound text { ledger := ofText text } := Scanner.sound_ofText text
  obtain ⟨c, rest, rfl, isWord⟩ := named.first
  obtain ⟨first, arrives⟩ := Scanner.exists_run_position start (p := front.length) (Nat.zero_le _)
    (by simpa [text] using isWord) (by
      intro present
      rcases List.eq_nil_or_concat' front with rfl | ⟨lead, c, rfl⟩
      · exact absurd rfl present
      · simpa [text] using apart)
  let arrived := Scanner.run first { ledger := ofText text }
  have arrivedSound := start.run first
  have quote : arrived.quote = .outside := by
    rw [arrivedSound.quote, arrives]
    simp only [text, List.append_assoc, List.take_left', outside]
  have whole : text = front ++ (c :: rest ++ gap) ++ ('<' :: arguments ++ ['>'] ++ back) :=
    by simp [text]
  obtain ⟨second, between, runs, -, -⟩ := title arrived (whole ▸ arrivedSound) quote arrives
  have betweenSound := arrivedSound.run second
  rw [runs, whole, ← List.append_assoc (front ++ _)] at betweenSound
  obtain ⟨third, ledger, runs', -, plain⟩ :=
    angles _ betweenSound quote (List.length_append ..).symm
  have later :=
    (Scanner.run_add second third arrived).trans ((congrArg (Scanner.run third) runs).trans runs')
  have ends := (Scanner.run_add first (second + third) { ledger := ofText text }).trans later
  refine ⟨_, _, ends, fun p low high => ?_⟩
  rw [← List.append_assoc front, List.length_append] at high
  exact ⟨high, plain p low high⟩

end

/-- **Type arguments.**  In a scan, everything from the opening bracket of a generic type to its
last closing bracket is blank or plain text, whatever stands in front of the type outside literals
and apart from its name, and whatever follows it but `>` and `=`. -/
theorem tag?_scan_typeArguments {front name last gap arguments back : List Char} {p : Nat}
    (outside : Quote.outside.after front = .outside) (apart : front.getLast?.any isWordChar = false)
    (named : IsTypeName name last) (upper : last.head?.any isUpper = true)
    (blank : ∀ c ∈ gap, Text.isBlank c = true) (typed : AreTypeArguments arguments)
    (behind : back.head? ≠ some '>' ∧ back.head? ≠ some '=')
    (low : (front ++ (name ++ gap)).length ≤ p)
    (high : p < (front ++ (name ++ gap ++ ('<' :: arguments ++ ['>']))).length) :
    let ledger := scan (front ++ (name ++ gap ++ ('<' :: arguments ++ ['>'])) ++ back)
    ledger.tag? p = some .space ∨ ledger.tag? p = some .unresolved := by
  let text := front ++ (name ++ gap ++ ('<' :: arguments ++ ['>'])) ++ back
  obtain ⟨count, after, rfl, passes⟩ :=
    exists_run_plain outside apart named upper blank typed behind
  obtain ⟨passed, plain⟩ := passes p low high
  obtain ⟨tag, known, isPlain⟩ := (Option.any_eq_true _ _).1 plain
  have sound := (Scanner.sound_ofText text).run count
  have noOperator : tag.isOperator = false := by
    cases tag <;> first | rfl | contradiction
  have kept := Scanner.tag?_run_of_plain sound known noOperator passed text.length
  have ends : Scanner.run text.length (Scanner.run count { ledger := ofText text }) =
      Scanner.run text.length { ledger := ofText text } := by
    rw [← Scanner.run_add, Nat.add_comm, Scanner.run_add, Scanner.run_ended]
    rw [((Scanner.sound_ofText text).run text.length).well.chars, Scanner.position_scan]
  rw [ends] at kept
  intro ledger
  rw [show ledger.tag? p = some tag from kept]
  cases tag <;> first | exact .inl rfl | exact .inr rfl | contradiction

/-- In `A < (Map<K, List<? extends V[]>>) x` the two closing brackets are no shift. -/
theorem tag?_scan_typeArguments_nested :
    (scan "A < (Map<K, List<? extends V[]>>) x".toList).tag? 30 = some .space ∨
      (scan "A < (Map<K, List<? extends V[]>>) x".toList).tag? 30 = some .unresolved := by
  have split : "A < (Map<K, List<? extends V[]>>) x".toList = "A < (".toList ++
      ("Map".toList ++ [] ++ ('<' :: "K, List<? extends V[]>".toList ++ ['>'])) ++ ") x".toList :=
        by decide
  have element : IsTypeName ['V'] ['V'] := .word (by decide) (by decide)
  have bound :
      AreTypeArguments
        ('?' :: ([' '] ++ ("extends".toList ++ ' ' :: (['V'] ++ ('[' :: [] ++ [']']))))) :=
    .bounded (by decide) (by decide) (by decide) (.array (.name element) nofun)
  have list :
      AreTypeArguments ("List".toList ++ ([] ++ ('<' :: ('?' :: ([' '] ++ ("extends".toList ++
      ' ' :: (['V'] ++ ('[' :: [] ++ [']']))))) ++ ['>']))) :=
    .generic (.word (by decide) (by decide)) (by decide) nofun bound
  have arguments : AreTypeArguments "K, List<? extends V[]>".toList := by
    have key : IsTypeName ['K'] ['K'] := .word (by decide) (by decide)
    have padded : AreTypeArguments ([' '] ++ (_ ++ [])) := .padded list (by decide)
    exact .list (.name key) padded
  rw [split]
  exact tag?_scan_typeArguments (by decide) (by decide) (.word (by decide) (by decide)) (by decide)
    nofun arguments (by decide) (by decide) (by decide)

/-- A scan finds the tokens in front of a text, and leaves the text plain where it crosses it. -/
theorem tag?_scan_behind {front : List Token} {text : List Char} (reads : Scanner.Reads front text)
    (crosses : Scanner.Crosses Tag.isPlain (Token.text front) text []) :
    (∀ p < (Token.text front).length, (scan (Token.text front ++ text)).tag? p =
      (front.flatMap Token.tags)[p]?) ∧
      ∀ p, (Token.text front).length ≤ p → p < (Token.text front ++ text).length →
        ((scan (Token.text front ++ text)).tag? p).any Tag.isPlain = true := by
  let whole := Token.text front ++ text
  let start : Scanner := { ledger := ofText whole }
  have chars : start.ledger.chars = whole := chars_ofText whole
  have sound : Scanner.Sound whole start := Scanner.sound_ofText whole
  -- the tokens in front
  obtain ⟨first, inserts, passes⟩ := reads start rfl (by rw [chars]; rfl) fun p _ => by rw [chars]
  have arrives := passes 0
  have arrived := sound.run ((Token.text front).length + 0)
  rw [arrives] at arrived
  -- the text behind them
  obtain ⟨count, second, runs, kept, plain⟩ :=
    crosses _ (by rw [List.append_nil]; exact arrived) rfl
    (Nat.zero_add _)
  have ends : Scanner.run ((Token.text front).length + count) start = _ := (passes count).trans runs
  have scanned : scan whole = second := by
    have longer : Scanner.run whole.length (Scanner.run ((Token.text front).length + count) start) =
        Scanner.run whole.length start := by
      rw [← Scanner.run_add, Nat.add_comm, Scanner.run_add, Scanner.run_ended]
      rw [(sound.run whole.length).well.chars, Scanner.position_scan]
    have endsSound := sound.run ((Token.text front).length + count)
    rw [ends] at longer endsSound
    rw [Scanner.run_ended (by rw [endsSound.well.chars, List.length_append])] at longer
    exact congrArg Scanner.ledger longer.symm
  change (∀ p < _, (scan whole).tag? p = _) ∧ ∀ p, _ → _ → ((scan whole).tag? p).any _ = true
  rw [scanned]
  refine ⟨fun p low => ?_, fun p low high => plain p low (by rwa [List.length_append] at high)⟩
  have found := inserts.inside p low
  rw [show start.position = 0 from rfl, Nat.zero_add] at found
  exact (kept p low).trans found

end Ledger
end MethodLowering
