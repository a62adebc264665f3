import MethodLowering.Proofs.Brackets.Reducing
import MethodLowering.Proofs.Reduction.Scanned

/-!
# Brackets of statement text

The brackets of a text outside literals are the ones a scan tags as operators, but for empty square
brackets of type names, which stand next to each other.  So the stack matching of the text is the
one of the scanned operators with these pairs added.
-/

namespace MethodLowering

namespace Op

/-- Bracket of any kind. -/
def isBracket (op : Op) : Bool := op.isOpening || op.isClosing

/-- The bracket that a character is. -/
def ofBracket? : Char → Option Op
  | '(' => some .openParen
  | ')' => some .closeParen
  | '{' => some .openBrace
  | '}' => some .closeBrace
  | '[' => some .openBracket
  | ']' => some .closeBracket
  | _ => none

end Op

namespace Text

/-- The bracket at a position of a text, unless it belongs to a literal. -/
def bracketAt? (text : List Char) (position : Nat) : Option Op :=
  text[position]?.bind fun c =>
    if (Quote.outside.after (text.take position)).covers c then none else Op.ofBracket? c

/-- The brackets of a text outside literals with their positions. -/
def brackets (text : List Char) : List (Nat × Op) :=
  (List.range text.length).filterMap fun position =>
    (bracketAt? text position).map fun op => (position, op)

end Text

namespace Op

theorem ofBracket?_of_isBlank {c : Char} (blank : Text.isBlank c = true) : ofBracket? c = none := by
  unfold ofBracket?
  split <;> first | rfl | exact absurd blank (by decide)

/-- Only brackets are spelled with brackets. -/
theorem ofBracket?_of_mem {op : Op} (plain : op.isBracket = false) {c : Char}
    (among : c ∈ op.spelling) : ofBracket? c = none := by
  have none : ∀ c ∈ op.spelling, ofBracket? c = none := by
    revert plain
    cases op <;> decide
  exact none c among

theorem spelling_of_isBracket {op : Op} (bracket : op.isBracket = true) :
    ∃ c, op.spelling = [c] ∧ ofBracket? c = some op ∧ op.width = 1 := by
  revert bracket
  cases op <;> first | (intro contradictory; contradiction) | exact fun _ => ⟨_, rfl, rfl, rfl⟩

theorem spelling_of_ofBracket? {op : Op} {c : Char} (known : ofBracket? c = some op) :
    op.spelling = [c] ∧ op.isBracket = true := by
  unfold ofBracket? at known
  split at known <;> first | contradiction | (obtain rfl := Option.some.inj known; exact ⟨rfl, rfl⟩)

end Op

/-- The bracket that starts at a character with the tag. -/
def Tag.bracket? : Tag → Option Op
  | .operator op => if op.isBracket then some op else none
  | _ => none

namespace Ledger

/-- The bracket that starts at a position. -/
def bracketAt? (ledger : Ledger) (position : Nat) : Option Op :=
  (ledger.tag? position).bind Tag.bracket?

section

variable {ledger other : Ledger} {position p : Nat}

theorem bracketAt?_of_isFree (free : ledger.IsFree p) : ledger.bracketAt? p = none := by
  rw [bracketAt?]
  cases known : ledger.tag? p with
  | none => rfl
  | some tag => rcases free tag known with rfl | rfl <;> rfl

theorem bracketAt?_setUnresolved (ledger : Ledger) (position p : Nat) :
    (ledger.setTag position .unresolved).bracketAt? p =
      if position = p then none else ledger.bracketAt? p := by
  rw [bracketAt?, tag?_setTag]
  split
  · cases ledger.tag? p <;> rfl
  · rfl

theorem headsFrom_succ (ledger : Ledger) (count : Nat) :
    ledger.headsFrom 0 (count + 1) = ledger.headsFrom 0 count ++
      ((ledger.headAt? count).map fun op => (count, op)).toList := by
  rw [headsFrom_add, Nat.zero_add, headsFrom]
  cases ledger.headAt? count <;> rfl

end

end Ledger

namespace Matching

/-- Both readings fail, or the left one has the same brackets open and all the pairs of the right
one. -/
def Refines : Option Matching → Option Matching → Prop
  | some left, some right => left.unclosed = right.unclosed ∧
      ∀ pair ∈ right.pairs, pair ∈ left.pairs
  | none, none => True
  | _, _ => False

section

variable {left right : Option Matching}

theorem Refines.readAll (refines : Refines left right) (heads : List (Nat × Op)) :
    Refines (left.bind (·.readAll heads)) (right.bind (·.readAll heads)) := by
  cases left with
  | none =>
      cases right with
      | none => trivial
      | some right => exact refines.elim
  | some left =>
      cases right with
      | none => exact refines.elim
      | some right =>
          obtain ⟨unclosed, found⟩ := left
          obtain ⟨unclosed', found'⟩ := right
          obtain ⟨same, among⟩ := refines
          dsimp only at same among
          subst same
          rw [Option.bind_some, Option.bind_some, readAll_pairs unclosed found,
            readAll_pairs unclosed found']
          cases Matching.readAll ⟨unclosed, []⟩ heads with
          | none => trivial
          | some after =>
              refine ⟨rfl, fun pair member => ?_⟩
              rcases List.mem_append.1 member with added | earlier
              · exact List.mem_append_left _ added
              · exact List.mem_append_right _ (among pair earlier)

/-- A pair of brackets next to each other may be read on the left only. -/
theorem Refines.read_pair {opening closing : Op} (refines : Refines left right)
    (known : opening.closing? = some closing) (start stop : Nat) :
    Refines (left.bind (·.readAll [(start, opening), (stop, closing)])) right := by
  cases left with
  | none => exact refines
  | some left =>
      obtain ⟨unclosed, found⟩ := left
      have whole := Nested.nil.around known start stop unclosed found
      rw [Option.bind_some, show Matching.readAll ⟨unclosed, found⟩
        [(start, opening), (stop, closing)] = _ from whole]
      cases right with
      | none => exact refines
      | some right =>
          exact ⟨refines.1, fun pair member => List.mem_cons_of_mem _ (refines.2 pair member)⟩

theorem read_of_not_isBracket {op : Op} (plain : op.isBracket = false) (matching : Matching)
    (position : Nat) : matching.read (position, op) = some matching := by
  rw [Op.isBracket, Bool.or_eq_false_iff] at plain
  exact read_of_plain plain.1 plain.2

/-- What is read at a position where a ledger has an operator. -/
theorem readAll_headAt? (ledger : Ledger) (position : Nat) (matching : Matching) :
    matching.readAll ((ledger.headAt? position).map fun op => (position, op)).toList =
      matching.readAll ((ledger.bracketAt? position).map fun op => (position, op)).toList := by
  rw [Ledger.bracketAt?, Ledger.headAt?]
  cases ledger.tag? position with
  | none => rfl
  | some tag =>
      cases tag with
      | operator op =>
          dsimp only
          rw [Option.bind_some, Tag.bracket?]
          cases bracket : op.isBracket with
          | true => rfl
          | false =>
              rw [Option.map_some, Option.toList_some, readAll, read_of_not_isBracket bracket]
              rfl
      | _ => rfl

end

end Matching

namespace Scanner

open Ledger Matching
open Text hiding bracketAt?

/-- Reading the brackets of a text up to a position. -/
def textMatching (text : List Char) (position : Nat) : Option Matching :=
  Matching.readAll {} ((List.range position).filterMap fun p =>
    (Text.bracketAt? text p).map fun op => (p, op))

/-- What a scan knows about brackets: those in front of its position are tagged, but for empty pairs
that stand next to each other. -/
structure Gathers (text : List Char) (scanner : Scanner) : Prop where
  refines : Refines (textMatching text scanner.position)
    (Matching.readAll {} (scanner.ledger.headsFrom 0 scanner.position))
  angles : ∀ angle ∈ scanner.angles, scanner.ledger.bracketAt? angle = none

section

variable {text : List Char} {scanner after : Scanner} {ledger other : Ledger}
  {position : Nat} {op : Op}

theorem textMatching_succ (text : List Char) (position : Nat) :
    textMatching text (position + 1) = (textMatching text position).bind
      (·.readAll ((Text.bracketAt? text position).map fun op => (position, op)).toList) := by
  rw [textMatching, List.range_succ, List.filterMap_append, readAll_append]
  rfl

theorem readAll_headsFrom_succ (ledger : Ledger) (position : Nat) :
    Matching.readAll {} (ledger.headsFrom 0 (position + 1)) =
      (Matching.readAll {} (ledger.headsFrom 0 position)).bind
        (·.readAll ((ledger.bracketAt? position).map fun op => (position, op)).toList) := by
  rw [headsFrom_succ, readAll_append]
  exact congrArg _ (funext fun matching => readAll_headAt? ledger position matching)

/-- Only the brackets of a ledger matter. -/
theorem readAll_headsFrom_congr
    (same : ∀ p, p < position → ledger.bracketAt? p = other.bracketAt? p) :
    Matching.readAll {} (ledger.headsFrom 0 position) =
      Matching.readAll {} (other.headsFrom 0 position) := by
  induction position with
  | zero => rfl
  | succ position induction =>
      rw [readAll_headsFrom_succ, readAll_headsFrom_succ, same position (Nat.lt_succ_self _),
        induction fun p low => same p (Nat.lt_succ_of_lt low)]

theorem textMatching_of_none {count : Nat}
    (none : ∀ p, position ≤ p → p < position + count → Text.bracketAt? text p = none) :
    textMatching text (position + count) = textMatching text position := by
  induction count with
  | zero => rfl
  | succ count induction =>
      rw [← Nat.add_assoc, textMatching_succ, none _ (Nat.le_add_right _ _) (by omega),
        induction fun p low high => none p low (by omega)]
      exact Option.bind_fun_some _

/-- A scan that goes on over brackets that it tags as they are. -/
theorem Gathers.extend (gathers : Gathers text scanner) (later : scanner.position ≤ after.position)
    (kept : ∀ p, p < scanner.position → after.ledger.bracketAt? p = scanner.ledger.bracketAt? p)
    (same : ∀ p, scanner.position ≤ p → p < after.position →
      after.ledger.bracketAt? p = Text.bracketAt? text p)
    (angles : ∀ angle ∈ after.angles, after.ledger.bracketAt? angle = none) :
    Gathers text after := by
  refine ⟨?_, angles⟩
  obtain ⟨count, ends⟩ := Nat.exists_eq_add_of_le later
  rw [ends] at same ⊢
  clear ends later angles
  induction count with
  | zero =>
      rw [Nat.add_zero, readAll_headsFrom_congr kept]
      exact gathers.refines
  | succ count induction =>
      rw [← Nat.add_assoc, textMatching_succ, readAll_headsFrom_succ,
        same _ (Nat.le_add_right _ _) (by omega)]
      exact (induction fun p low high => same p low (by omega)).readAll _

theorem bracketAt?_of_char {c : Char} (here : text[position]? = some c)
    (plain : Op.ofBracket? c = none) : Text.bracketAt? text position = none := by
  rw [Text.bracketAt?, here, Option.bind_some, plain, ite_self]

/-- A bracket outside literals. -/
theorem bracketAt?_of_outside {c : Char} (here : text[position]? = some c)
    (bracket : Op.ofBracket? c = some op)
    (outside : Quote.outside.after (text.take position) = .outside) :
    Text.bracketAt? text position = some op := by
  have plain : isQuoteMark c = false := by
    have spelled := (Op.spelling_of_ofBracket? bracket).1
    exact @Op.isQuoteMark_of_mem op c (by rw [spelled]; exact List.mem_singleton_self c)
  rw [Text.bracketAt?, here, Option.bind_some, outside, Quote.covers, plain,
    if_neg Bool.false_ne_true,
    bracket]

/-- A character that is passed over is no bracket outside literals. -/
theorem Gathers.skip (gathers : Gathers text scanner) (sound : Sound text scanner)
    (none : Text.bracketAt? text scanner.position = none) {quote : Quote} :
    Gathers text { scanner with quote, position := scanner.position + 1 } := by
  refine gathers.extend (Nat.le_succ _) (fun p _ => rfl) (fun p low high => ?_) gathers.angles
  obtain rfl : p = scanner.position := by dsimp only at high; omega
  rw [none]
  exact bracketAt?_of_isFree (sound.ahead _ (Nat.le_refl _))

/-- The character at a position of a spelled operator. -/
theorem getElem?_of_slice {width : Nat} {word : List Char}
    (spelled : Span.slice ⟨position, position + width⟩ text = word) {p : Nat} (low : position ≤ p)
    (high : p < position + width) : text[p]? = word[p - position]? := by
  rw [← spelled]
  simp only [Span.slice, Span.length, Nat.add_sub_cancel_left, List.getElem?_take,
    if_pos (show p - position < width by omega), List.getElem?_drop,
    Nat.add_sub_cancel' low]

theorem bracketAt?_tagOp (ledger : Ledger) (position : Nat) (op : Op) (p : Nat) :
    (tagOp ledger position op).bracketAt? p =
      if p = position then (ledger.tag? p).bind fun _ => (Tag.operator op).bracket?
      else if position < p ∧ p < position + op.width then none
      else ledger.bracketAt? p := by
  rw [Ledger.bracketAt?, tag?_tagOp]
  split
  · cases ledger.tag? p <;> rfl
  · split
    · cases ledger.tag? p <;> rfl
    · rfl

/-- Clearing type arguments leaves the brackets. -/
theorem bracketAt?_plainFrom {start count : Nat} (p : Nat)
    (plain : ∀ p, start ≤ p → p < start + count → ledger.bracketAt? p = none) :
    (plainFrom start count ledger).bracketAt? p = ledger.bracketAt? p := by
  rw [Ledger.bracketAt?, tag?_plainFrom]
  split
  · next inside =>
      rw [plain p inside.1 inside.2]
      cases ledger.tag? p with
      | none => rfl
      | some tag => cases tag <;> rfl
  · rfl

/-- Tagging an operator where it is spelled. -/
theorem Gathers.tag (gathers : Gathers text scanner) (sound : Sound text scanner)
    (outside : scanner.quote = .outside)
    (spelled : Span.slice ⟨scanner.position, scanner.position + op.width⟩ text = op.spelling) :
    Gathers text { scanner with
      ledger := tagOp scanner.ledger scanner.position op
      position := scanner.position + op.width } := by
  have quoted : Quote.outside.after (text.take scanner.position) = .outside := by
    rw [← sound.quote]
    exact outside
  have before (p : Nat) (low : p < scanner.position) :
      (tagOp scanner.ledger scanner.position op).bracketAt? p = scanner.ledger.bracketAt? p := by
    rw [bracketAt?_tagOp, if_neg (by omega), if_neg (by omega)]
  refine gathers.extend (Nat.le_add_right _ _) before (fun p low high => ?_) fun angle member => ?_
  · dsimp only at high ⊢
    have here := getElem?_of_slice spelled low high
    cases bracket : op.isBracket with
    | true =>
        obtain ⟨c, word, known, width⟩ := Op.spelling_of_isBracket bracket
        obtain rfl : p = scanner.position := by omega
        rw [word, Nat.sub_self] at here
        have tagged : ∃ tag, scanner.ledger.tag? scanner.position = some tag := by
          cases found : scanner.ledger.tag? scanner.position with
          | none =>
              have beyond := tag?_eq_none.1 found
              have inside := (List.getElem?_eq_some_iff.1 here).1
              have size := sound.well.size
              omega
          | some tag => exact ⟨tag, rfl⟩
        obtain ⟨tag, found⟩ := tagged
        rw [bracketAt?_of_outside here known quoted, bracketAt?_tagOp, if_pos rfl, found,
          Option.bind_some, Tag.bracket?, if_pos bracket]
    | false =>
        have plain : Text.bracketAt? text p = none := by
          cases found : op.spelling[p - scanner.position]? with
          | none =>
              rw [found] at here
              rw [Text.bracketAt?, here]
              rfl
          | some c =>
              rw [found] at here
              exact bracketAt?_of_char here (Op.ofBracket?_of_mem bracket
                (List.mem_of_getElem? found))
        rw [plain, bracketAt?_tagOp]
        split
        · rw [Tag.bracket?, bracket]
          cases scanner.ledger.tag? p <;> rfl
        · rw [if_pos (by omega)]
  · rw [before angle (sound.angles angle member).1]
    exact gathers.angles angle member

theorem isTypeTag_bracket? {tag : Tag} (typed : isTypeTag tag = true) : tag.bracket? = none := by
  cases tag with
  | operator op =>
      rw [isTypeTag, Bool.or_eq_true, Bool.or_eq_true, beq_iff_eq, beq_iff_eq, beq_iff_eq] at typed
      rcases typed with (rfl | rfl) | rfl <;> rfl
  | _ => rfl

/-- No bracket stands in type text. -/
theorem bracketAt?_of_onlyTypeText {opening closing p : Nat}
    (typed : onlyTypeText ledger opening closing = true) (low : opening < p) (high : p < closing) :
    ledger.bracketAt? p = none := by
  rw [Ledger.bracketAt?]
  cases known : ledger.tag? p with
  | none => rfl
  | some tag =>
      refine isTypeTag_bracket? (by_contra fun untyped => ?_)
      have found : (seek? (fun position => !(ledger.tag? position).any isTypeTag) (opening + 1)
          (closing - (opening + 1))).isSome = true :=
        (seek?_isSome _ _ _).2 ⟨p, by omega, by omega, by simpa [known] using untyped⟩
      rw [onlyTypeText, Option.isNone_iff_eq_none] at typed
      rw [typed] at found
      contradiction

/-- No bracket stands from an angle bracket to the one that closes it. -/
theorem bracketAt?_typeText {opening : Nat}
    (typed : onlyTypeText (tagOp ledger position .greater) opening position = true)
    (first : (tagOp ledger position .greater).bracketAt? opening = none)
    (order : opening < position)
    (p : Nat) (low : opening ≤ p) (high : p < opening + (position + 1 - opening)) :
    (tagOp ledger position .greater).bracketAt? p = none := by
  by_cases start : p = opening
  · rw [start]
    exact first
  · by_cases stop : p = position
    · rw [stop, bracketAt?_tagOp, if_pos rfl]
      cases ledger.tag? position <;> rfl
    · exact bracketAt?_of_onlyTypeText typed (by omega) (by omega)

section

variable (gathers : Gathers text scanner) (sound : Sound text scanner)
  (outside : scanner.quote = .outside)
include gathers sound outside

theorem Gathers.takeOp
    (spelled : Span.slice ⟨scanner.position, scanner.position + op.width⟩ text = op.spelling) :
    Gathers text (scanner.takeOp op) := by
  have tagged := gathers.tag sound outside spelled
  rw [Scanner.takeOp]
  dsimp only
  split
  · next opens =>
      rw [Bool.and_eq_true, beq_iff_eq] at opens
      obtain ⟨rfl, -⟩ := opens
      refine ⟨tagged.refines, fun angle member => ?_⟩
      rcases List.mem_cons.1 member with rfl | later
      · dsimp only
        rw [bracketAt?_tagOp, if_pos rfl]
        cases scanner.ledger.tag? scanner.position <;> rfl
      · exact tagged.angles angle later
  · split
    · next closes =>
        obtain rfl : op = .greater := eq_of_beq closes
        rw [closeAngle]
        dsimp only
        cases angles : scanner.angles with
        | nil =>
            rw [angles] at tagged
            exact tagged
        | cons opening rest =>
            dsimp only
            have first := tagged.angles opening (by simp [angles])
            have others (angle : Nat) (member : angle ∈ rest) :=
              tagged.angles angle (by rw [angles]; exact List.mem_cons_of_mem _ member)
            split
            · next typed =>
                have plain :=
                  bracketAt?_typeText typed first (sound.angles opening (by simp [angles])).1
                refine ⟨?_, fun angle member => ?_⟩
                · rw [readAll_headsFrom_congr fun p _ => bracketAt?_plainFrom p plain]
                  exact tagged.refines
                · rw [bracketAt?_plainFrom angle plain]
                  exact others angle member
            · exact ⟨tagged.refines, others⟩
    · exact tagged

/-- Empty square brackets of a type name are passed over as a pair. -/
theorem Gathers.skipPair {close : Nat}
    (found : emptyPair? scanner.ledger scanner.position = some close) :
    Gathers text { scanner with
      ledger := (scanner.ledger.setTag scanner.position .unresolved).setTag close .unresolved
      position := close + 1 } := by
  obtain ⟨low, first, last, blanks⟩ := emptyPair?_spec found sound.well.chars
  have quoted : Quote.outside.after (text.take scanner.position) = .outside := by
    rw [← sound.quote]
    exact outside
  obtain ⟨count, rfl⟩ : ∃ count, close = scanner.position + 1 + count :=
    ⟨close - (scanner.position + 1), by omega⟩
  have between : Quote.outside.after (text.take (scanner.position + 1 + count)) = .outside := by
    rw [Nat.add_assoc]
    refine after_take_add quoted fun c member => ?_
    obtain ⟨i, known⟩ := List.mem_iff_getElem?.1 member
    simp only [Span.slice, Span.length, List.getElem?_take, List.getElem?_drop] at known
    split at known
    · by_cases start : i = 0
      · rw [start, Nat.add_zero, first] at known
        obtain rfl := Option.some.inj known
        decide
      · have blank := blanks (scanner.position + i) (by omega) (by omega)
        rw [known, Option.any_some] at blank
        exact isQuoteMark_of_isBlank blank
    · contradiction
  have blank (p : Nat) (above : scanner.position + 1 ≤ p)
      (below : p < scanner.position + 1 + count) :
      Text.bracketAt? text p = none := by
    have blank := blanks p (by omega) below
    cases here : text[p]? with
    | none =>
        rw [here] at blank
        contradiction
    | some c =>
        rw [here, Option.any_some] at blank
        exact bracketAt?_of_char here (Op.ofBracket?_of_isBlank blank)
  have free (p : Nat) : scanner.position ≤ p →
      ((scanner.ledger.setTag scanner.position .unresolved).setTag (scanner.position + 1 + count)
        .unresolved).bracketAt? p = none := by
    intro above
    rw [bracketAt?_setUnresolved, bracketAt?_setUnresolved]
    split
    · rfl
    · split
      · rfl
      · exact bracketAt?_of_isFree (sound.ahead p above)
  have kept (p : Nat) (below : p < scanner.position) :
      ((scanner.ledger.setTag scanner.position .unresolved).setTag (scanner.position + 1 + count)
        .unresolved).bracketAt? p = scanner.ledger.bracketAt? p := by
    rw [bracketAt?_setUnresolved, if_neg (by omega), bracketAt?_setUnresolved, if_neg (by omega)]
  refine ⟨?_, fun angle member => ?_⟩
  · have texts : textMatching text (scanner.position + 1 + count + 1) =
        (textMatching text scanner.position).bind
          (·.readAll [(scanner.position, .openBracket),
            (scanner.position + 1 + count, .closeBracket)]) := by
      rw [textMatching_succ, textMatching_of_none blank, textMatching_succ,
        bracketAt?_of_outside first (show Op.ofBracket? '[' = some .openBracket from rfl) quoted,
        bracketAt?_of_outside last (show Op.ofBracket? ']' = some .closeBracket from rfl) between,
        Option.bind_assoc]
      refine congrArg _ (funext fun matching => ?_)
      rw [← readAll_append]
      rfl
    have heads (more : Nat) : Matching.readAll {}
        (((scanner.ledger.setTag scanner.position .unresolved).setTag (scanner.position + 1 + count)
          .unresolved).headsFrom 0 (scanner.position + more)) =
        Matching.readAll {} (scanner.ledger.headsFrom 0 scanner.position) := by
      induction more with
      | zero => exact readAll_headsFrom_congr kept
      | succ more induction =>
          rw [← Nat.add_assoc, readAll_headsFrom_succ, free _ (Nat.le_add_right _ _), induction]
          exact Option.bind_fun_some _
    dsimp only
    rw [texts, show scanner.position + 1 + count + 1 = scanner.position + (count + 2) by omega,
      heads]
    exact gathers.refines.read_pair rfl _ _
  · rw [kept angle (sound.angles angle member).1]
    exact gathers.angles angle member

theorem Gathers.takeSolid {c : Char} (here : text[scanner.position]? = some c) :
    Gathers text scanner.takeSolid := by
  have passed (plain : Op.ofBracket? c = none) :
      Gathers text { scanner with position := scanner.position + 1 } :=
    gathers.skip sound (bracketAt?_of_char here plain)
  rw [Scanner.takeSolid]
  split
  · next close found => exact gathers.skipPair sound outside found
  · split
    · next unspelled =>
        refine passed ?_
        cases bracket : Op.ofBracket? c with
        | none => rfl
        | some op =>
            -- a bracket would be found in the table
            obtain ⟨word, isBracket⟩ := Op.spelling_of_ofBracket? bracket
            have missing := List.find?_eq_none.1 unspelled op (Op.mem_all op)
            refine absurd ?_ missing
            have other : op ≠ .instanceOf := by
              rintro rfl
              contradiction
            rw [word, Bool.and_eq_true]
            constructor
            · simp [spells, charIs, char?_eq_chars, sound.well.chars, here]
            · simp [other]
    · next found spelled =>
        have meant := slice_of_meantOp sound.well.chars
          (slice_of_spelledOp? sound.well.chars spelled)
        dsimp only
        split
        · next number =>
            refine passed (@Op.ofBracket?_of_mem (scanner.meantOp found) ?_ c ?_)
            · unfold startsNumber at number
              rw [Bool.and_eq_true] at number
              generalize scanner.meantOp found = op at number
              have sign := number.2
              cases op <;> first | rfl | exact absurd sign Bool.false_ne_true
            · have first := getElem?_of_slice meant (Nat.le_refl _)
                (show scanner.position < scanner.position + (scanner.meantOp found).width by
                  have positive := width_pos (scanner.meantOp found)
                  omega)
              rw [here, Nat.sub_self] at first
              exact List.mem_of_getElem? first.symm
        · exact gathers.takeOp sound outside meant

end

theorem Gathers.advance (gathers : Gathers text scanner) (sound : Sound text scanner) {c : Char}
    (here : text[scanner.position]? = some c) : Gathers text (scanner.advance c) := by
  rw [Scanner.advance]
  dsimp only
  split
  · next covered =>
      have none : Text.bracketAt? text scanner.position = none := by
        rw [Text.bracketAt?, here, Option.bind_some, ← sound.quote, if_pos covered]
      refine gathers.extend (Nat.le_succ _) (fun p low => ?_) (fun p low high => ?_)
        fun angle member => ?_
      · rw [bracketAt?_setUnresolved, if_neg (by omega)]
      · obtain rfl : p = scanner.position := by dsimp only at high; omega
        rw [none, bracketAt?_setUnresolved, if_pos rfl]
      · have low := (sound.angles angle member).1
        rw [bracketAt?_setUnresolved, if_neg (by omega)]
        exact gathers.angles angle member
  · next notCovered =>
      split
      · next blank =>
          exact gathers.skip sound (bracketAt?_of_char here (Op.ofBracket?_of_isBlank blank))
      · obtain ⟨outside, stays⟩ := Quote.next_of_not_covers (Bool.eq_false_iff.2 notCovered)
        have same : ({ scanner with quote := scanner.quote.next c } : Scanner) = scanner := by
          rw [stays, ← outside]
        rw [same]
        exact gathers.takeSolid sound outside here

theorem position_takeOp (scanner : Scanner) (op : Op) :
    (scanner.takeOp op).position = scanner.position + op.width := by
  rw [takeOp]
  dsimp only
  split
  · rfl
  · split
    · rw [closeAngle]
      split
      · rfl
      · dsimp only
        split
        · rfl
        · rfl
    · rfl

theorem lt_position_takeOp (scanner : Scanner) (op : Op) :
    scanner.position < (scanner.takeOp op).position := by
  rw [position_takeOp]
  exact Nat.lt_add_of_pos_right (width_pos op)

/-- Every step of a scan gets further. -/
theorem lt_position_advance (sound : Sound text scanner) (c : Char) :
    scanner.position < (scanner.advance c).position := by
  rw [Scanner.advance]
  dsimp only
  split
  · exact Nat.lt_succ_self _
  · split
    · exact Nat.lt_succ_self _
    · rw [Scanner.takeSolid]
      split
      · next close found =>
          have low := (emptyPair?_spec found sound.well.chars).1
          dsimp only at low ⊢
          omega
      · split
        · exact Nat.lt_succ_self _
        · dsimp only
          split
          · exact Nat.lt_succ_self _
          · exact lt_position_takeOp { scanner with quote := scanner.quote.next c } _

/-- A scan reaches the end of the text. -/
theorem Gathers.run (gathers : Gathers text scanner) (sound : Sound text scanner) (count : Nat)
    (enough : text.length ≤ scanner.position + count) :
    Gathers text (Scanner.run count scanner) ∧
      text.length ≤ (Scanner.run count scanner).position := by
  induction count generalizing scanner with
  | zero => exact ⟨gathers, enough⟩
  | succ count induction =>
      rw [Scanner.run]
      cases here : scanner.ledger.char? scanner.position with
      | none =>
          rw [char?_eq_chars, sound.well.chars] at here
          exact ⟨gathers, List.getElem?_eq_none_iff.1 here⟩
      | some c =>
          have further := lt_position_advance sound c
          rw [char?_eq_chars, sound.well.chars] at here
          exact induction (gathers.advance sound here) (sound.advance here) (by omega)

/-- No step leaves the text. -/
theorem position_advance_le (sound : Sound text scanner) {c : Char}
    (here : text[scanner.position]? = some c) :
    (scanner.advance c).position ≤ text.length := by
  have low : scanner.position < text.length := (List.getElem?_eq_some_iff.1 here).1
  rw [advance]
  dsimp only
  split
  · exact low
  · split
    · exact low
    · rw [takeSolid]
      split
      · next close found =>
          exact (List.getElem?_eq_some_iff.1 (emptyPair?_spec found sound.well.chars).2.2.1).1
      · split
        · exact low
        · next op found =>
            dsimp only
            split
            · exact low
            · rw [position_takeOp]
              have meant :=
                slice_of_meantOp sound.well.chars (slice_of_spelledOp? sound.well.chars found)
              exact le_length_of_slice (congrArg List.length meant) (width_pos _)

theorem position_run_le (sound : Sound text scanner) (within : scanner.position ≤ text.length)
    (count : Nat) :
    (run count scanner).position ≤ text.length := by
  induction count generalizing scanner with
  | zero => exact within
  | succ count induction =>
      rw [run]
      cases here : scanner.ledger.char? scanner.position with
      | none => exact within
      | some c =>
          rw [char?_eq_chars, sound.well.chars] at here
          exact induction (sound.advance here) (position_advance_le sound here)

/-- A scan ends at the end of the text. -/
theorem position_scan (text : List Char) :
    (run text.length { ledger := ofText text }).position = text.length := by
  have sound := sound_ofText text
  have gathers : Gathers text { ledger := ofText text } := ⟨⟨rfl, nofun⟩, nofun⟩
  exact Nat.le_antisymm (position_run_le sound (Nat.zero_le _) _)
    (gathers.run sound text.length (Nat.le_add_left _ _)).2

end

end Scanner

/-- Reading the brackets of a text is reading the scanned operators, with some pairs added. -/
theorem Ledger.refines_scan (text : List Char) :
    Matching.Refines (Matching.readAll {} (Text.brackets text))
      (Matching.readAll {} ((Ledger.scan text).heads 0 text.length)) := by
  have start : Scanner.Gathers text { ledger := Ledger.ofText text } := ⟨⟨rfl, nofun⟩, nofun⟩
  have sound := Scanner.sound_ofText text
  obtain ⟨gathers, reached⟩ := start.run sound text.length (Nat.le_add_left _ _)
  have size : (Ledger.scan text).size = text.length := (sound.run text.length).well.size
  have refines := gathers.refines
  obtain ⟨beyond, ends⟩ := Nat.exists_eq_add_of_le reached
  have noText : Scanner.textMatching text (text.length + beyond) =
      Scanner.textMatching text text.length := by
    refine Scanner.textMatching_of_none fun p low _ => ?_
    rw [Text.bracketAt?, List.getElem?_eq_none low]
    rfl
  have noHeads : (Ledger.scan text).headsFrom (0 + text.length) beyond = [] := by
    refine Ledger.headsFrom_eq_nil fun p low _ => ?_
    rw [Ledger.headAt?, Ledger.tag?_eq_none.2 (by omega)]
  rw [ends, noText, Ledger.headsFrom_add, show (Scanner.run text.length _).ledger.headsFrom
    (0 + text.length) beyond = [] from noHeads, List.append_nil] at refines
  rw [Ledger.heads, size, Nat.min_self, Nat.sub_zero]
  exact refines

theorem Nested.of_scan {text : List Char} {pairs : List (Nat × Nat)}
    (nested : Nested ((Ledger.scan text).heads 0 text.length) pairs) :
    ∃ all, bracketPairs? (Text.brackets text) = some all ∧ ∀ pair ∈ pairs, pair ∈ all := by
  have refines := Ledger.refines_scan text
  rw [nested [] [], List.append_nil] at refines
  cases reads : Matching.readAll {} (Text.brackets text) with
  | none =>
      rw [reads] at refines
      exact refines.elim
  | some after =>
      obtain ⟨unclosed, all⟩ := after
      rw [reads] at refines
      obtain ⟨rfl, among⟩ := refines
      exact ⟨all, by rw [bracketPairs?, reads], among⟩

theorem IsNested.scan {text : List Char}
    (nested : (bracketPairs? (Text.brackets text)).isSome = true) :
    IsNested ((Ledger.scan text).heads 0 text.length) := by
  obtain ⟨pairs, nested⟩ := Nested.isSome_bracketPairs?.1 nested
  have refines := Ledger.refines_scan text
  rw [nested [] [], List.append_nil] at refines
  cases reads : Matching.readAll {} ((Ledger.scan text).heads 0 text.length) with
  | none =>
      rw [reads] at refines
      exact refines.elim
  | some after =>
      obtain ⟨unclosed, found⟩ := after
      rw [reads] at refines
      obtain ⟨rfl, -⟩ := refines
      exact ⟨found, Nested.of_readAll reads⟩

namespace Reduction

/-- Brackets are combined as a stack pairs them.  A statement is reduced only if its brackets
outside literals are well nested by kind, and then every pair that was combined is one of their
pairs; and a statement with well-nested brackets is never rejected for a bracket without partner. -/
theorem statement_pairs (text : List Char) (scope : ParagraphId) (body : Body) :
    (∀ expr after, statement { ledger := Ledger.scan text, scope, body } = .ok expr after →
      ∃ pairs, bracketPairs? (Text.brackets text) = some pairs ∧
        ∀ pair ∈ after.pairs, pair ∈ pairs) ∧
    ((bracketPairs? (Text.brackets text)).isSome = true → ∀ failure after,
      statement { ledger := Ledger.scan text, scope, body } = .error failure after →
        ∀ bracket offset source,
          failure ≠ .malformed (.unbalancedBracket bracket offset source)) := by
  obtain ⟨well, -⟩ := Ledger.scan_sound text
  let state : Reduction := { ledger := Ledger.scan text, scope, body }
  have wellTagged : Ledger.WellTagged text state.ledger := well
  obtain ⟨segments, depicts⟩ := exists_depicts wellTagged
  have size : state.ledger.size = text.length := well.size
  have shown : Shows state 0 state.ledger.size segments := by
    rw [size]
    exact depicts.shown
  have tracks := statement_tracks ⟨rfl, rfl, rfl, rfl, rfl⟩ shown
  have balances := statement_balances (state.ledger.size + 2) depicts
    (show state.ledger.chars = text from well.chars)
  have heads : (Ledger.scan text).heads 0 text.length = headsOf segments := depicts.shown.heads
  constructor
  · intro expr after reduces
    rw [show statement state = .ok expr after from reduces] at tracks
    generalize OnSegments.statement (state.ledger.size + 2) segments state = result
      at tracks balances
    cases result with
    | error failure other => exact tracks.elim
    | ok other final =>
        obtain ⟨-, added, same, pairs, nested, among⟩ := balances
        rw [← heads] at nested
        obtain ⟨all, found, known⟩ := nested.of_scan
        refine ⟨all, found, fun pair member => known pair (among pair ?_)⟩
        rw [tracks.1.pairs, same, show state.pairs = [] from rfl, List.append_nil] at member
        exact member
  · intro nested failure after reduces bracket offset source unbalanced
    rw [show statement state = .error failure after from reduces] at tracks
    generalize OnSegments.statement (state.ledger.size + 2) segments state = result
      at tracks balances
    cases result with
    | ok other final => exact tracks.elim
    | error failure' final =>
        obtain ⟨rfl, -⟩ := tracks
        have balanced := balances (by rw [← heads]; exact IsNested.scan nested)
        rw [unbalanced] at balanced
        contradiction

theorem exists_of_combines {result : EStateM.Result Failure Reduction Expr}
    {pairs : List (Nat × Nat)} (combines : (match result with
      | .ok _ after => after.pairs == pairs
      | .error .. => false) = true) :
    ∃ expr after, result = .ok expr after ∧ after.pairs = pairs := by
  cases result with
  | ok expr after => exact ⟨expr, after, rfl, eq_of_beq combines⟩
  | error failure after => contradiction

/-- All kinds of brackets inside one another. -/
theorem statement_pairs_mixed : ∃ expr after,
    statement
        { ledger := Ledger.scan "\x7b(a[0])\x7d".toList
          scope := Body.root
          body := Body.initial {} {} } = .ok expr after ∧ after.pairs = [(0, 7), (3, 5), (1, 6)] ∧
      ∃ pairs, bracketPairs? (Text.brackets "\x7b(a[0])\x7d".toList) = some pairs ∧
        ∀ pair ∈ after.pairs, pair ∈ pairs := by
  have reduces : ∃ expr after,
      statement
          { ledger := Ledger.scan "\x7b(a[0])\x7d".toList
            scope := Body.root
            body := Body.initial {} {} } = .ok expr after ∧
        after.pairs = [(0, 7), (3, 5), (1, 6)] :=
    exists_of_combines (by decide +kernel)
  obtain ⟨expr, after, reduces, combined⟩ := reduces
  exact ⟨expr, after, reduces, combined, (statement_pairs _ _ _).1 expr after reduces⟩

end Reduction

end MethodLowering
