import MethodLowering.Ledger.Scan
import MethodLowering.Proofs.Ledger.Tags

/-!
# What a scan finds

Whatever the text, a scan leaves a well-tagged ledger: every operator is spelled out at its place by
its head and its tail, and only blanks outside literals are tagged as blanks.
-/

namespace MethodLowering

namespace Ledger

/-- Operators are whole, and blanks are blanks of the text. -/
structure WellTagged (text : List Char) (ledger : Ledger) : Prop where
  chars : ledger.chars = text
  raw : ∀ p tag, ledger.tag? p = some tag → tag ≠ .resolved ∧ ∀ id, tag ≠ .pending id
  blank : ∀ p, ledger.tag? p = some .space → text[p]?.any Text.isBlank = true
  head : ∀ p op, ledger.tag? p = some (.operator op) →
    Span.slice ⟨p, p + op.width⟩ text = op.spelling ∧
      ∀ q, p < q → q < p + op.width → ledger.tag? q = some (.operatorTail op)
  tail : ∀ q op, ledger.tag? q = some (.operatorTail op) →
    ∃ p, p < q ∧ q < p + op.width ∧ ledger.tag? p = some (.operator op)

/-- Nothing is found at the position yet. -/
def IsFree (ledger : Ledger) (p : Nat) : Prop :=
  ∀ tag, ledger.tag? p = some tag → tag = .space ∨ tag = .unresolved

section

variable {text : List Char} {ledger : Ledger} {position start count p : Nat} {op : Op}

theorem IsFree.ne_operator (free : ledger.IsFree p) : ledger.tag? p ≠ some (.operator op) := by
  intro known
  rcases free _ known with same | same <;> cases same

theorem IsFree.ne_operatorTail (free : ledger.IsFree p) :
    ledger.tag? p ≠ some (.operatorTail op) := by
  intro known
  rcases free _ known with same | same <;> cases same

theorem tag?_ofText (text : List Char) (p : Nat) : (ofText text).tag? p =
    text[p]?.map fun c => if Text.isBlank c then .space else .unresolved := by
  simp [ofText, tag?, List.getElem?_toArray, List.getElem?_map, Option.map_map, Function.comp_def]

theorem isFree_ofText (text : List Char) (p : Nat) : (ofText text).IsFree p := by
  intro tag known
  rw [tag?_ofText] at known
  obtain ⟨c, -, rfl⟩ := Option.map_eq_some_iff.1 known
  split
  · exact .inl rfl
  · exact .inr rfl

theorem wellTagged_ofText (text : List Char) : WellTagged text (ofText text) := by
  refine ⟨chars_ofText text, fun p tag known => ?_, fun p known => ?_, fun p op known => ?_,
    fun q op known => ?_⟩
  · rcases isFree_ofText text p tag known with rfl | rfl
    · exact ⟨nofun, nofun⟩
    · exact ⟨nofun, nofun⟩
  · rw [tag?_ofText] at known
    obtain ⟨c, here, same⟩ := Option.map_eq_some_iff.1 known
    rw [here, Option.any_some]
    by_cases solid : Text.isBlank c = true
    · exact solid
    · rw [if_neg solid] at same
      contradiction
  · exact absurd known (isFree_ofText text p).ne_operator
  · exact absurd known (isFree_ofText text q).ne_operatorTail

/-- A free position may become plain text. -/
theorem WellTagged.setUnresolved (well : WellTagged text ledger) (free : ledger.IsFree position) :
    WellTagged text (ledger.setTag position .unresolved) := by
  have other {q : Nat} (apart : position ≠ q) :
      (ledger.setTag position .unresolved).tag? q = ledger.tag? q := by
    rw [tag?_setTag, if_neg apart]
  have here {tag : Tag} (known : (ledger.setTag position .unresolved).tag? position = some tag) :
      tag = .unresolved := by
    rw [tag?_setTag, if_pos rfl] at known
    obtain ⟨old, -, rfl⟩ := Option.map_eq_some_iff.1 known
    rfl
  refine ⟨(chars_setTag ..).trans well.chars, fun p tag known => ?_, fun p known => ?_,
    fun p op known => ?_, fun q op known => ?_⟩
  · by_cases same : position = p
    · subst same
      rw [here known]
      exact ⟨nofun, nofun⟩
    · rw [other same] at known
      exact well.raw p tag known
  · by_cases same : position = p
    · subst same
      cases here known
    · rw [other same] at known
      exact well.blank p known
  · by_cases same : position = p
    · subst same
      cases here known
    · rw [other same] at known
      obtain ⟨spelled, tails⟩ := well.head p op known
      refine ⟨spelled, fun q low high => ?_⟩
      have tail := tails q low high
      rw [other]
      · exact tail
      · rintro rfl
        exact free.ne_operatorTail tail
  · by_cases same : position = q
    · subst same
      cases here known
    · rw [other same] at known
      obtain ⟨p, low, high, head⟩ := well.tail q op known
      refine ⟨p, low, high, ?_⟩
      rw [other]
      · exact head
      · rintro rfl
        exact free.ne_operator head

theorem width_pos (op : Op) : 0 < op.width := by
  cases op <;> decide

theorem tag?_tagOp (ledger : Ledger) (position : Nat) (op : Op) (p : Nat) :
    (Scanner.tagOp ledger position op).tag? p =
      if p = position then (ledger.tag? p).map fun _ => .operator op
      else if position < p ∧ p < position + op.width then
        (ledger.tag? p).map fun _ => .operatorTail op
      else ledger.tag? p := by
  have positive := width_pos op
  rw [Scanner.tagOp, tag?_setTags]
  by_cases first : p = position
  · rw [if_neg (by omega), if_pos first, tag?_setTag, if_pos first.symm]
  · rw [if_neg first, tag?_setTag, if_neg (Ne.symm first)]
    by_cases later : position < p ∧ p < position + op.width
    · rw [if_pos later, if_pos (by omega)]
    · rw [if_neg later, if_neg (by omega)]

theorem WellTagged.size (well : WellTagged text ledger) : ledger.size = text.length := by
  rw [← length_chars, well.chars]

theorem le_length_of_slice {width : Nat}
    (spelled : (Span.slice ⟨position, position + width⟩ text).length = width)
    (positive : 0 < width) :
    position + width ≤ text.length := by
  simp only [Span.slice, Span.length, List.length_take, List.length_drop] at spelled
  omega

/-- An operator may be tagged where it is spelled and nothing is found yet. -/
theorem WellTagged.tagOp (well : WellTagged text ledger)
    (spelled : Span.slice ⟨position, position + op.width⟩ text = op.spelling)
    (free : ∀ p, position ≤ p → p < position + op.width → ledger.IsFree p) :
    WellTagged text (Scanner.tagOp ledger position op) := by
  have positive := width_pos op
  have inside : position + op.width ≤ ledger.size := by
    rw [well.size]
    exact le_length_of_slice (congrArg List.length spelled) positive
  have known (p : Nat) (low : position ≤ p) (high : p < position + op.width) :
      ∃ tag, ledger.tag? p = some tag := by
    cases found : ledger.tag? p with
    | none =>
        have := tag?_eq_none.1 found
        omega
    | some tag => exact ⟨tag, rfl⟩
  have head : (Scanner.tagOp ledger position op).tag? position = some (.operator op) := by
    obtain ⟨tag, found⟩ := known position (Nat.le_refl _) (by omega)
    rw [tag?_tagOp, if_pos rfl, found, Option.map_some]
  have tail (p : Nat) (low : position < p) (high : p < position + op.width) :
      (Scanner.tagOp ledger position op).tag? p = some (.operatorTail op) := by
    obtain ⟨tag, found⟩ := known p (Nat.le_of_lt low) high
    rw [tag?_tagOp, if_neg (by omega), if_pos ⟨low, high⟩, found, Option.map_some]
  have other (p : Nat) (outside : p < position ∨ position + op.width ≤ p) :
      (Scanner.tagOp ledger position op).tag? p = ledger.tag? p := by
    rw [tag?_tagOp, if_neg (by omega), if_neg (by omega)]
  -- a position is the head of the new operator, in its tail, or apart from it
  have place (p : Nat) : p = position ∨ (position < p ∧ p < position + op.width) ∨
      (p < position ∨ position + op.width ≤ p) := by omega
  refine ⟨?_, fun p tag known => ?_, fun p known => ?_, fun p found known => ?_,
    fun q found known => ?_⟩
  · rw [Scanner.tagOp, chars_setTags, chars_setTag]
    exact well.chars
  · rcases place p with rfl | inside | outside
    · rw [head] at known
      obtain rfl := Option.some.inj known
      exact ⟨nofun, nofun⟩
    · rw [tail p inside.1 inside.2] at known
      obtain rfl := Option.some.inj known
      exact ⟨nofun, nofun⟩
    · rw [other p outside] at known
      exact well.raw p tag known
  · rcases place p with rfl | inside | outside
    · rw [head] at known
      cases known
    · rw [tail p inside.1 inside.2] at known
      cases known
    · rw [other p outside] at known
      exact well.blank p known
  · rcases place p with rfl | inside | outside
    · rw [head] at known
      obtain rfl : op = found := by simpa using known
      exact ⟨spelled, tail⟩
    · rw [tail p inside.1 inside.2] at known
      cases known
    · rw [other p outside] at known
      obtain ⟨spelled', tails⟩ := well.head p found known
      refine ⟨spelled', fun q low high => ?_⟩
      have old := tails q low high
      rcases place q with rfl | inside' | outside'
      · exact absurd old (free q (Nat.le_refl _) (by omega)).ne_operatorTail
      · exact absurd old (free q (Nat.le_of_lt inside'.1) inside'.2).ne_operatorTail
      · rw [other q outside']
        exact old
  · rcases place q with rfl | inside | outside
    · rw [head] at known
      cases known
    · rw [tail q inside.1 inside.2] at known
      obtain rfl : op = found := by simpa using known
      exact ⟨position, inside.1, inside.2, head⟩
    · rw [other q outside] at known
      obtain ⟨p, low, high, old⟩ := well.tail q found known
      refine ⟨p, low, high, ?_⟩
      rcases place p with rfl | inside' | outside'
      · exact absurd old (free p (Nat.le_refl _) (by omega)).ne_operator
      · exact absurd old (free p (Nat.le_of_lt inside'.1) inside'.2).ne_operator
      · rw [other p outside']
        exact old

/-- The tag that clearing leaves: operators become plain text. -/
def clearedTag (tag : Tag) : Tag := if tag.isOperator then .unresolved else tag

theorem tag?_plainFrom (start count : Nat) (ledger : Ledger) (p : Nat) :
    (Scanner.plainFrom start count ledger).tag? p =
      if start ≤ p ∧ p < start + count then (ledger.tag? p).map clearedTag else ledger.tag? p := by
  induction count generalizing start ledger with
  | zero => rw [Scanner.plainFrom, if_neg (by omega)]
  | succ count induction =>
      have here : (if ledger.isOperatorAt start then ledger.setTag start .unresolved
          else ledger).tag? p =
          if start = p then (ledger.tag? p).map clearedTag else ledger.tag? p := by
        by_cases same : start = p
        · subst same
          rw [if_pos rfl, isOperatorAt]
          cases known : ledger.tag? start with
          | none => simp [known]
          | some tag =>
              rw [Option.any_some, Option.map_some, clearedTag]
              split
              · rw [tag?_setTag, if_pos rfl, known, Option.map_some]
              · exact known
        · rw [if_neg same]
          split
          · rw [tag?_setTag, if_neg same]
          · rfl
      rw [Scanner.plainFrom, induction, here]
      by_cases same : start = p
      · rw [if_neg (by omega), if_pos same, if_pos (by omega)]
      · rw [if_neg same]
        by_cases inside : start + 1 ≤ p ∧ p < start + 1 + count
        · rw [if_pos inside, if_pos (by omega)]
        · rw [if_neg inside, if_neg (by omega)]

theorem chars_plainFrom (start count : Nat) (ledger : Ledger) :
    (Scanner.plainFrom start count ledger).chars = ledger.chars := by
  induction count generalizing start ledger with
  | zero => rfl
  | succ count induction =>
      rw [Scanner.plainFrom, induction]
      split
      · exact chars_setTag ..
      · rfl

/-- Operators may be cleared in a range that cuts none of them. -/
theorem WellTagged.plainFrom (well : WellTagged text ledger)
    (first : ∀ op, ledger.tag? start ≠ some (.operatorTail op))
    (last : ∀ op, ledger.tag? (start + count) ≠ some (.operatorTail op)) :
    WellTagged text (Scanner.plainFrom start count ledger) := by
  have cleared (p : Nat) (inside : start ≤ p ∧ p < start + count) (tag : Tag)
      (known : (Scanner.plainFrom start count ledger).tag? p = some tag) :
      tag.isOperator = false ∧ (ledger.tag? p = some tag ∨ tag = .unresolved) := by
    rw [tag?_plainFrom, if_pos inside] at known
    obtain ⟨old, was, rfl⟩ := Option.map_eq_some_iff.1 known
    rw [clearedTag]
    split
    · exact ⟨rfl, .inr rfl⟩
    · next plain => exact ⟨Bool.eq_false_iff.2 plain, .inl was⟩
  have other (p : Nat) (outside : ¬ (start ≤ p ∧ p < start + count)) :
      (Scanner.plainFrom start count ledger).tag? p = ledger.tag? p := by
    rw [tag?_plainFrom, if_neg outside]
  -- an operator that reached across an end of the range would have its tail there
  have whole (p q : Nat) (op : Op) (head : ledger.tag? p = some (.operator op)) (low : p < q)
      (high : q < p + op.width) :
      (start ≤ p ∧ p < start + count) ↔ (start ≤ q ∧ q < start + count) := by
    have tails := (well.head p op head).2
    have notFirst : ¬ (p < start ∧ start < p + op.width) := fun across =>
      first op (tails start across.1 across.2)
    have notLast : ¬ (p < start + count ∧ start + count < p + op.width) := fun across =>
      last op (tails _ across.1 across.2)
    omega
  refine ⟨(chars_plainFrom ..).trans well.chars, fun p tag known => ?_, fun p known => ?_,
    fun p op known => ?_, fun q op known => ?_⟩
  · by_cases inside : start ≤ p ∧ p < start + count
    · rcases (cleared p inside tag known).2 with old | rfl
      · exact well.raw p tag old
      · exact ⟨nofun, nofun⟩
    · rw [other p inside] at known
      exact well.raw p tag known
  · by_cases inside : start ≤ p ∧ p < start + count
    · rcases (cleared p inside _ known).2 with old | same
      · exact well.blank p old
      · contradiction
    · rw [other p inside] at known
      exact well.blank p known
  · by_cases inside : start ≤ p ∧ p < start + count
    · exact absurd (cleared p inside _ known).1 (by simp [Tag.isOperator])
    · rw [other p inside] at known
      obtain ⟨spelled, tails⟩ := well.head p op known
      refine ⟨spelled, fun q low high => ?_⟩
      rw [other q (fun reached => inside ((whole p q op known low high).2 reached))]
      exact tails q low high
  · by_cases inside : start ≤ q ∧ q < start + count
    · exact absurd (cleared q inside _ known).1 (by simp [Tag.isOperator])
    · rw [other q inside] at known
      obtain ⟨p, low, high, head⟩ := well.tail q op known
      refine ⟨p, low, high, ?_⟩
      rw [other p (fun reached => inside ((whole p q op head low high).1 reached))]
      exact head

end

end Ledger
namespace Text

/-- A text without quotation marks does not enter a literal. -/
theorem Quote.after_of_plain {text : List Char} (plain : ∀ c ∈ text, isQuoteMark c = false) :
    Quote.outside.after text = .outside := by
  induction text with
  | nil => rfl
  | cons c rest induction =>
      have first := plain c List.mem_cons_self
      rw [Quote.after_cons, Quote.next, if_neg (Bool.eq_false_iff.1 first)]
      exact induction fun other member => plain other (List.mem_cons_of_mem _ member)

theorem isQuoteMark_of_isBlank {c : Char} (blank : isBlank c = true) : isQuoteMark c = false := by
  rw [isQuoteMark, Bool.or_eq_false_iff, beq_eq_false_iff_ne, beq_eq_false_iff_ne]
  constructor
  · rintro rfl
    contradiction
  · rintro rfl
    contradiction

/-- The character at the position belongs to a literal. -/
def InLiteral (text : List Char) (p : Nat) : Prop :=
  text[p]?.any (Quote.outside.after (text.take p)).covers = true

end Text

theorem Op.isQuoteMark_of_mem {op : Op} {c : Char} (member : c ∈ op.spelling) :
    Text.isQuoteMark c = false := by
  have none : ∀ c ∈ op.spelling, Text.isQuoteMark c = false := by
    cases op <;> decide
  exact none c member

theorem Op.isBlank_of_mem {op : Op} {c : Char} (member : c ∈ op.spelling) :
    Text.isBlank c = false := by
  have none : ∀ c ∈ op.spelling, Text.isBlank c = false := by
    cases op <;> decide
  exact none c member

namespace Scanner

open Text Ledger

/-- What holds of a scan at every step: everything in front of the position is well tagged, nothing
behind it is tagged yet. -/
structure Sound (text : List Char) (scanner : Scanner) : Prop where
  well : WellTagged text scanner.ledger
  ahead : ∀ p, scanner.position ≤ p → scanner.ledger.IsFree p
  angles : ∀ angle ∈ scanner.angles, angle < scanner.position ∧
    ∀ op, scanner.ledger.tag? angle ≠ some (.operatorTail op)
  quote : scanner.quote = Quote.outside.after (text.take scanner.position)
  literal : ∀ p, text[p]?.any Text.isBlank = true →
    scanner.ledger.tag? p = some .space ∨ InLiteral text p

section

variable {text : List Char} {scanner : Scanner} {ledger : Ledger} {position : Nat} {op : Op}

theorem slice_of_spells {word : List Char} (chars : ledger.chars = text)
    (spelled : spells ledger position word = true) :
    Span.slice ⟨position, position + word.length⟩ text = word := by
  simp only [Span.slice, Span.length, Nat.add_sub_cancel_left]
  induction word generalizing position with
  | nil => rw [List.length_nil, List.take_zero]
  | cons c rest induction =>
      rw [spells, Bool.and_eq_true, charIs, beq_iff_eq, char?_eq_chars, chars] at spelled
      obtain ⟨inside, here⟩ := List.getElem?_eq_some_iff.1 spelled.1
      rw [List.drop_eq_getElem_cons inside, here, List.length_cons, List.take_succ_cons,
        induction spelled.2]

theorem slice_of_spelledOp? (chars : ledger.chars = text)
    (found : spelledOp? ledger position = some op) :
    Span.slice ⟨position, position + op.width⟩ text = op.spelling := by
  have spelled := List.find?_some found
  rw [Bool.and_eq_true] at spelled
  exact slice_of_spells chars spelled.1

/-- A spelling stays spelled when a longer one that starts with it is. -/
theorem slice_of_prefix {shorter longer : Op} (starts : shorter.spelling <+: longer.spelling)
    (spelled : Span.slice ⟨position, position + longer.width⟩ text = longer.spelling) :
    Span.slice ⟨position, position + shorter.width⟩ text = shorter.spelling := by
  simp only [Span.slice, Span.length, Nat.add_sub_cancel_left] at spelled ⊢
  have shorterLength : shorter.width ≤ longer.width := starts.length_le
  have taken := congrArg (List.take shorter.width) spelled
  rw [List.take_take, Nat.min_eq_left shorterLength] at taken
  rw [taken]
  exact (List.prefix_iff_eq_take.1 starts).symm

theorem slice_of_meantOp (chars : scanner.ledger.chars = text)
    (spelled : Span.slice ⟨scanner.position, scanner.position + op.width⟩ text = op.spelling) :
    Span.slice ⟨scanner.position, scanner.position + (scanner.meantOp op).width⟩ text =
      (scanner.meantOp op).spelling := by
  rw [meantOp]
  split
  · next doubled =>
      rw [Bool.and_eq_true, beq_iff_eq] at doubled
      obtain ⟨rfl, second⟩ := doubled
      rw [charIs, beq_iff_eq, char?_eq_chars, chars] at second
      have first : text[scanner.position]? = some '=' := by
        have head := congrArg (·[0]?) spelled
        simpa [Span.slice, Span.length, Op.width, Op.spelling, Op.text, Op.row] using head
      have both : spells scanner.ledger scanner.position Op.equal.spelling = true := by
        rw [show Op.equal.spelling = ['=', '='] from rfl]
        simp [spells, charIs, char?_eq_chars, chars, first, second]
      exact slice_of_spells chars both
  · split
    · next shift =>
        rw [Bool.and_eq_true] at shift
        refine slice_of_prefix ?_ spelled
        cases op with
        | shiftRight => exact ⟨['>'], rfl⟩
        | shiftRightZero => exact ⟨['>', '>'], rfl⟩
        | _ => exact absurd shift.1 (by decide)
    · exact spelled

/-! ## Steps -/

/-- Passing plain characters leaves a reading outside literals. -/
theorem after_take_add {count : Nat} (outside : Quote.outside.after (text.take position) = .outside)
    (plain : ∀ c ∈ Span.slice ⟨position, position + count⟩ text, isQuoteMark c = false) :
    Quote.outside.after (text.take (position + count)) = .outside := by
  rw [List.take_add, Quote.after_append, outside]
  refine Quote.after_of_plain fun c member => plain c ?_
  simpa [Span.slice, Span.length] using member

section

variable (sound : Sound text scanner)
include sound

theorem Sound.skip {c : Char} (here : text[scanner.position]? = some c) :
    Sound text
      { scanner with quote := scanner.quote.next c, position := scanner.position + 1 } := by
  refine ⟨sound.well, fun p low => sound.ahead p (by dsimp only at low; omega),
    fun angle member => ?_, ?_, sound.literal⟩
  · obtain ⟨low, head⟩ := sound.angles angle member
    exact ⟨by dsimp only; omega, head⟩
  · obtain ⟨inside, same⟩ := List.getElem?_eq_some_iff.1 here
    dsimp only
    rw [List.take_add_one, here, Quote.after_append, ← sound.quote]
    rfl

/-- Free positions may become plain text where a literal stands or no blank does. -/
theorem Sound.setUnresolved {p : Nat} (free : scanner.position ≤ p)
    (solid : text[p]?.any Text.isBlank = true → InLiteral text p) :
    Sound text { scanner with ledger := scanner.ledger.setTag p .unresolved } := by
  have other {q : Nat} (apart : p ≠ q) :
      (scanner.ledger.setTag p .unresolved).tag? q = scanner.ledger.tag? q := by
    rw [tag?_setTag, if_neg apart]
  refine ⟨sound.well.setUnresolved (sound.ahead p free), fun q low tag known => ?_,
    fun angle member => ?_, sound.quote, fun q blank => ?_⟩
  · by_cases same : p = q
    · subst same
      rw [tag?_setTag, if_pos rfl] at known
      obtain ⟨old, -, rfl⟩ := Option.map_eq_some_iff.1 known
      exact .inr rfl
    · rw [other same] at known
      exact sound.ahead q low tag known
  · obtain ⟨low, head⟩ := sound.angles angle member
    refine ⟨low, ?_⟩
    rw [other (by omega)]
    exact head
  · by_cases same : p = q
    · subst same
      exact .inr (solid blank)
    · rw [other same]
      exact sound.literal q blank

theorem Sound.advanceTo {next : Nat} (later : scanner.position ≤ next)
    (quote : Quote.outside.after (text.take next) = scanner.quote) :
    Sound text { scanner with position := next } := by
  refine ⟨sound.well, fun p low => sound.ahead p (by dsimp only at low; omega),
    fun angle member => ?_,
    quote.symm, sound.literal⟩
  obtain ⟨low, head⟩ := sound.angles angle member
  exact ⟨by dsimp only; omega, head⟩

/-- Tag an operator and step behind it. -/
theorem Sound.tag (outside : scanner.quote = .outside)
    (spelled : Span.slice ⟨scanner.position, scanner.position + op.width⟩ text = op.spelling) :
    Sound text { scanner with
      ledger := tagOp scanner.ledger scanner.position op
      position := scanner.position + op.width } := by
  have positive := width_pos op
  have other (p : Nat) (apart : p < scanner.position ∨ scanner.position + op.width ≤ p) :
      (tagOp scanner.ledger scanner.position op).tag? p = scanner.ledger.tag? p := by
    rw [tag?_tagOp, if_neg (by omega), if_neg (by omega)]
  have plain : ∀ c ∈ Span.slice ⟨scanner.position, scanner.position + op.width⟩ text,
      isQuoteMark c = false := by
    rw [spelled]
    exact fun c member => Op.isQuoteMark_of_mem member
  refine ⟨sound.well.tagOp spelled fun p low _ => sound.ahead p low, fun p low => ?_,
    fun angle member => ?_, ?_, fun p blank => ?_⟩
  · dsimp only at low
    rw [IsFree, other p (.inr low)]
    exact sound.ahead p (by omega)
  · obtain ⟨low, head⟩ := sound.angles angle member
    refine ⟨by dsimp only; omega, ?_⟩
    rw [other angle (.inl low)]
    exact head
  · have before : Quote.outside.after (text.take scanner.position) = .outside := by
      rw [← sound.quote]
      exact outside
    rw [after_take_add before plain]
    exact outside
  · by_cases apart : p < scanner.position ∨ scanner.position + op.width ≤ p
    · rw [other p apart]
      exact sound.literal p blank
    · -- the characters of an operator are no blanks
      have inside : p - scanner.position < op.width := by omega
      have here := congrArg (·[p - scanner.position]?) spelled
      simp only [Span.slice, Span.length, Nat.add_sub_cancel_left, List.getElem?_take,
        if_pos inside,
        List.getElem?_drop, Nat.add_sub_cancel' (show scanner.position ≤ p by omega)] at here
      rw [here] at blank
      cases found : op.spelling[p - scanner.position]? with
      | none =>
          rw [found] at blank
          contradiction
      | some c =>
          rw [found, Option.any_some, Op.isBlank_of_mem (List.mem_of_getElem? found)] at blank
          contradiction

theorem Sound.clear {opening : Nat} {rest : List Nat} (split : scanner.angles = opening :: rest) :
    Sound text { scanner with
      angles := rest
      ledger := plainFrom opening (scanner.position - opening) scanner.ledger } := by
  obtain ⟨low, head⟩ := sound.angles opening (by simp [split])
  have ends : opening + (scanner.position - opening) = scanner.position := by omega
  have notTail (p : Nat) (op : Op) (known : (plainFrom opening (scanner.position - opening)
      scanner.ledger).tag? p = some (.operatorTail op)) :
      scanner.ledger.tag? p = some (.operatorTail op) := by
    rw [tag?_plainFrom] at known
    split at known
    · obtain ⟨old, was, same⟩ := Option.map_eq_some_iff.1 known
      rw [clearedTag] at same
      split at same
      · cases same
      · rw [was, same]
    · exact known
  refine ⟨sound.well.plainFrom head fun op => ?_, fun p low' => ?_, fun angle member => ?_,
    sound.quote, fun p blank => ?_⟩
  · rw [ends]
    exact (sound.ahead _ (Nat.le_refl _)).ne_operatorTail
  · dsimp only at low'
    rw [IsFree, tag?_plainFrom, if_neg (by omega)]
    exact sound.ahead p low'
  · obtain ⟨low', head'⟩ := sound.angles angle (by rw [split]; exact List.mem_cons_of_mem _ member)
    exact ⟨low', fun op known => head' op (notTail angle op known)⟩
  · refine (sound.literal p blank).imp_left fun space => ?_
    rw [tag?_plainFrom, space]
    split
    · rfl
    · rfl

theorem Sound.takeOp (outside : scanner.quote = .outside)
    (spelled : Span.slice ⟨scanner.position, scanner.position + op.width⟩ text = op.spelling) :
    Sound text (scanner.takeOp op) := by
  have tagged := sound.tag outside spelled
  have positive := width_pos op
  rw [Scanner.takeOp]
  dsimp only
  split
  · refine ⟨tagged.well, tagged.ahead, fun angle member => ?_, tagged.quote, tagged.literal⟩
    rcases List.mem_cons.1 member with rfl | later
    · refine ⟨by dsimp only; omega, fun tail known => ?_⟩
      dsimp only at known
      rw [tag?_tagOp, if_pos rfl] at known
      obtain ⟨old, -, same⟩ := Option.map_eq_some_iff.1 known
      cases same
    · exact tagged.angles angle later
  · split
    · next closes =>
        obtain rfl : op = .greater := eq_of_beq closes
        rw [closeAngle]
        dsimp only
        cases angles : scanner.angles with
        | nil =>
            rw [angles] at tagged
            exact tagged
        | cons opening rest =>
            dsimp only
            split
            · have cleared := tagged.clear angles
              exact cleared
            · refine ⟨tagged.well, tagged.ahead, fun angle member => ?_, tagged.quote,
                tagged.literal⟩
              exact tagged.angles angle (by rw [angles]; exact List.mem_cons_of_mem _ member)
    · exact tagged

end

theorem emptyPair?_spec {close : Nat} (found : emptyPair? ledger position = some close)
    (chars : ledger.chars = text) :
    position < close ∧ text[position]? = some '[' ∧ text[close]? = some ']' ∧
      ∀ p, position < p → p < close → text[p]?.any Text.isBlank = true := by
  unfold emptyPair? at found
  split at found
  · next opens =>
      split at found
      · next behind seeks =>
          split at found
          · next closes =>
              obtain rfl := Option.some.inj found
              rw [Bool.and_eq_true] at closes
              obtain ⟨low, -, blanks⟩ := Text.seek?_spec seeks
              rw [charIs, beq_iff_eq, char?_eq_chars, chars] at opens
              have last := closes.1
              rw [charIs, beq_iff_eq, char?_eq_chars, chars] at last
              refine ⟨by omega, opens, last, fun p above below => ?_⟩
              have blank := blanks p (by omega) below
              rw [Bool.not_eq_false', blankAt, char?_eq_chars, chars] at blank
              exact blank
          · contradiction
      · contradiction
  · contradiction

theorem Sound.takeSolid (sound : Sound text scanner) (outside : scanner.quote = .outside) {c : Char}
    (here : text[scanner.position]? = some c) (plain : isQuoteMark c = false) :
    Sound text scanner.takeSolid := by
  have before : Quote.outside.after (text.take scanner.position) = .outside := by
    rw [← sound.quote]
    exact outside
  have skips : Quote.outside.after (text.take (scanner.position + 1)) = scanner.quote := by
    rw [List.take_add_one, here, Quote.after_append, before, outside]
    exact Quote.after_of_plain (by simpa using plain)
  rw [Scanner.takeSolid]
  split
  · next close found =>
      obtain ⟨low, first, last, blanks⟩ := emptyPair?_spec found sound.well.chars
      have notBlank {p : Nat} {c : Char} (known : text[p]? = some c)
          (solid : Text.isBlank c = false) :
          text[p]?.any Text.isBlank = true → InLiteral text p := by
        rw [known, Option.any_some, solid]
        nofun
      have opened := sound.setUnresolved (Nat.le_refl _) (notBlank first (by decide))
      have closed := opened.setUnresolved (Nat.le_of_lt low) (notBlank last (by decide))
      refine closed.advanceTo (by dsimp only; omega) ?_
      dsimp only
      obtain ⟨count, ends⟩ : ∃ count, close + 1 = scanner.position + count :=
        ⟨close + 1 - scanner.position, by omega⟩
      rw [ends, outside]
      refine after_take_add before fun c member => ?_
      obtain ⟨i, known⟩ := List.mem_iff_getElem?.1 member
      simp only [Span.slice, Span.length, List.getElem?_take, List.getElem?_drop] at known
      split at known
      · next inside =>
          by_cases start : i = 0
          · subst start
            rw [Nat.add_zero, first] at known
            obtain rfl := Option.some.inj known
            decide
          · by_cases stop : scanner.position + i = close
            · rw [stop, last] at known
              obtain rfl := Option.some.inj known
              decide
            · have blank := blanks (scanner.position + i) (by omega) (by omega)
              rw [known, Option.any_some] at blank
              exact isQuoteMark_of_isBlank blank
      · contradiction
  · split
    · exact sound.advanceTo (by omega) skips
    · next found spelled =>
        dsimp only
        split
        · exact sound.advanceTo (by omega) skips
        · exact sound.takeOp outside
            (slice_of_meantOp sound.well.chars (slice_of_spelledOp? sound.well.chars spelled))

theorem Sound.advance (sound : Sound text scanner) {c : Char}
    (here : text[scanner.position]? = some c) : Sound text (scanner.advance c) := by
  rw [Scanner.advance]
  dsimp only
  split
  · next covered =>
      have marked := sound.setUnresolved (Nat.le_refl _) (fun _ => ?_)
      · exact marked.skip here
      · rw [InLiteral, here, Option.any_some, ← sound.quote]
        exact covered
  · next notCovered =>
      split
      · exact sound.skip here
      · obtain ⟨outside, stays⟩ := Quote.next_of_not_covers (Bool.eq_false_iff.2 notCovered)
        have plain : isQuoteMark c = false := by
          rw [outside] at notCovered
          exact Bool.eq_false_iff.2 notCovered
        have same : ({ scanner with quote := scanner.quote.next c } : Scanner) = scanner := by
          rw [stays, ← outside]
        rw [same]
        exact sound.takeSolid outside here plain

theorem Sound.run (sound : Sound text scanner) (count : Nat) :
    Sound text (Scanner.run count scanner) := by
  induction count generalizing scanner with
  | zero => exact sound
  | succ count induction =>
      rw [Scanner.run]
      cases here : scanner.ledger.char? scanner.position with
      | none => exact sound
      | some c =>
          rw [char?_eq_chars, sound.well.chars] at here
          exact induction (sound.advance here)

theorem sound_ofText (text : List Char) : Sound text { ledger := Ledger.ofText text } := by
  refine ⟨wellTagged_ofText text, fun p _ => isFree_ofText text p, nofun, rfl, fun p blank => ?_⟩
  left
  dsimp only
  rw [tag?_ofText]
  cases here : text[p]? with
  | none =>
      rw [here] at blank
      contradiction
  | some c =>
      rw [here, Option.any_some] at blank
      rw [Option.map_some, if_pos blank]

end

end Scanner

/-- What a scan leaves: well tagged, with every blank outside literals tagged as one. -/
theorem Ledger.scan_sound (text : List Char) :
    Ledger.WellTagged text (Ledger.scan text) ∧ ∀ p, text[p]?.any Text.isBlank = true →
        (Ledger.scan text).tag? p = some .space ∨ Text.InLiteral text p := by
  have sound := (Scanner.sound_ofText text).run text.length
  exact ⟨sound.well, sound.literal⟩

end MethodLowering
