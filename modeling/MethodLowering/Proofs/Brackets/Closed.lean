import MethodLowering.Proofs.Brackets.Scanned

/-!
# Closed texts

A text is closed when its literals end and its brackets are paired.  Closed texts may be put one
behind the other and between brackets, and a group of brackets is closed at its end only.
-/

namespace MethodLowering

open Matching

/-! ## Positions of brackets -/

namespace Matching

/-- The reading of operators that stand further on. -/
def shift (count : Nat) (matching : Matching) : Matching :=
  ⟨matching.unclosed.map (Prod.map (count + ·) id),
    matching.pairs.map (Prod.map (count + ·) (count + ·))⟩

section

variable {matching : Matching} {heads : List (Nat × Op)}

theorem read_shift (count : Nat) (head : Nat × Op) :
    (matching.shift count).read (Prod.map (count + ·) id head) =
      (matching.read head).map (·.shift count) := by
  obtain ⟨unclosed, pairs⟩ := matching
  rw [read, read, Prod.map_snd, id]
  split
  · rfl
  · split
    · cases unclosed with
      | nil => rfl
      | cons opening outer =>
          simp only [shift, List.map_cons, Prod.map_snd, id]
          split
          · rfl
          · rfl
    · rfl

/-- Positions do not matter to a reading. -/
theorem readAll_shift (count : Nat) :
    (matching.shift count).readAll (heads.map (Prod.map (count + ·) id)) =
      (matching.readAll heads).map (·.shift count) := by
  induction heads generalizing matching with
  | nil => rfl
  | cons head rest induction =>
      rw [List.map_cons, readAll, readAll, read_shift]
      cases matching.read head with
      | none => rfl
      | some after => exact induction

end

end Matching

section

variable {heads front back inner : List (Nat × Op)} {position : Nat} {op : Op}

theorem isNested_iff : IsNested heads ↔ ∃ pairs, readAll {} heads = some ⟨[], pairs⟩ := by
  refine ⟨fun ⟨pairs, nested⟩ => ⟨pairs, ?_⟩, fun ⟨pairs, reads⟩ =>
    ⟨pairs, Nested.of_readAll reads⟩⟩
  have reads := nested [] []
  rwa [List.append_nil] at reads

theorem isNested_nil : IsNested [] := ⟨[], Nested.nil⟩

theorem isNested_shift (count : Nat) : IsNested (heads.map (Prod.map (count + ·) id)) ↔
      IsNested heads := by
  rw [isNested_iff, isNested_iff, show ({} : Matching) = ({} : Matching).shift count from rfl,
    readAll_shift,
    show ({} : Matching).shift count = {} from rfl]
  cases readAll {} heads with
  | none => simp
  | some after =>
      obtain ⟨unclosed, pairs⟩ := after
      simp [Matching.shift]

/-- What stands behind whole pairs of brackets has whole pairs itself. -/
theorem IsNested.behind (whole : IsNested (front ++ back)) (nested : IsNested front) :
    IsNested back := by
  obtain ⟨pairs, whole⟩ := isNested_iff.1 whole
  obtain ⟨found, nested⟩ := nested
  rw [readAll_append, nested, Option.bind_some, readAll_pairs] at whole
  obtain ⟨⟨unclosed, more⟩, reads, same⟩ := Option.map_eq_some_iff.1 whole
  obtain ⟨rfl, -⟩ := Matching.mk.inj same
  exact isNested_iff.2 ⟨more, reads⟩

/-- A bracket is open as long as whole pairs of brackets go on behind it. -/
theorem not_isNested_opening (opens : op.isOpening = true) (nested : IsNested (front ++ back)) :
    ¬ IsNested ((position, op) :: front) := by
  intro early
  obtain ⟨pairs, nested⟩ := isNested_iff.1 nested
  obtain ⟨found, early⟩ := isNested_iff.1 early
  obtain ⟨⟨unclosed, more⟩, reads, -⟩ := exists_of_readAll_append nested
  have below := readAll_below [(position, op)] reads
  rw [readAll, read_of_opening opens, Option.bind_some] at early
  rw [List.nil_append, show readAll ⟨[(position, op)], []⟩ front = _ from early] at below
  have empty := (Matching.mk.inj (Option.some.inj below)).1
  simp at empty

end

/-! ## Brackets of a text -/

namespace Text

section

variable {front back text : List Char} {p : Nat} {c : Char}

theorem bracketAt?_append_left (low : p < front.length) :
    bracketAt? (front ++ back) p = bracketAt? front p := by
  rw [bracketAt?, bracketAt?, List.getElem?_append_left low, List.take_append_of_le_length
    (Nat.le_of_lt low)]

theorem bracketAt?_append_right (outside : Quote.outside.after front = .outside) (p : Nat) :
    bracketAt? (front ++ back) (front.length + p) = bracketAt? back p := by
  rw [bracketAt?, bracketAt?, List.getElem?_append_right (Nat.le_add_right _ _),
    Nat.add_sub_cancel_left,
    List.take_length_add_append, Quote.after_append, outside]

theorem brackets_append (outside : Quote.outside.after front = .outside) :
    brackets (front ++ back) = brackets front ++ (brackets back).map
      (Prod.map (front.length + ·) id) := by
  rw [brackets, List.length_append, List.range_add, List.filterMap_append,
    List.filterMap_map, brackets,
    brackets, List.map_filterMap]
  congr 1
  · refine List.filterMap_congr fun p among => ?_
    rw [bracketAt?_append_left (List.mem_range.1 among)]
  · refine List.filterMap_congr fun p _ => ?_
    rw [Function.comp, bracketAt?_append_right outside, Option.map_map]
    rfl

theorem brackets_plain (plain : ∀ c ∈ text, Op.ofBracket? c = none) : brackets text = [] := by
  rw [brackets, List.filterMap_eq_nil_iff]
  intro p among
  rw [Scanner.bracketAt?_of_char (List.getElem?_eq_getElem (List.mem_range.1 among))
    (plain _ (List.getElem_mem _))]
  rfl

theorem brackets_singleton {op : Op} (bracket : Op.ofBracket? c = some op) :
    brackets [c] = [(0, op)] := by
  rw [brackets, List.length_singleton, List.range_one, List.filterMap_cons,
    Scanner.bracketAt?_of_outside rfl bracket rfl]
  rfl

/-- A text without quotation marks has no literals. -/
theorem after_eq_outside (plain : ∀ c ∈ text, isQuoteMark c = false) {quote : Quote}
    (marked : quote.IsMarked) : quote.after text = .outside ↔ quote = .outside := by
  have same := marked.isInside_after plain
  have outside : ∀ quote : Quote, quote.isInside = false ↔ quote = .outside := by
    rintro ⟨⟩ <;> simp [Quote.isInside]
  rw [← outside, ← outside, same]

end

/-! ## Closed texts -/

/-- All literals and all brackets of the text are closed. -/
structure IsClosed (text : List Char) : Prop where
  literals : Quote.outside.after text = .outside
  brackets : IsNested (brackets text)

/-- The character is neither a quotation mark nor a bracket. -/
def isUnpaired (c : Char) : Bool := !isQuoteMark c && (Op.ofBracket? c).isNone

section

variable {front back text inner : List Char} {c left right : Char} {opening closing : Op}

theorem isClosed_plain (plain : ∀ c ∈ text, isUnpaired c = true) : IsClosed text := by
  simp only [isUnpaired, Bool.and_eq_true, Bool.not_eq_true', Option.isNone_iff_eq_none] at plain
  refine ⟨(after_eq_outside (fun c among => (plain c among).1)
    (show Quote.outside.IsMarked from trivial)).2 rfl, ?_⟩
  rw [brackets_plain fun c among => (plain c among).2]
  exact isNested_nil

theorem IsClosed.append (closed : IsClosed front) (closed' : IsClosed back) :
    IsClosed (front ++ back) := by
  refine ⟨by rw [Quote.after_append, closed.literals, closed'.literals], ?_⟩
  rw [brackets_append closed.literals]
  exact closed.brackets.append ((isNested_shift _).2 closed'.brackets)

theorem IsClosed.behind (whole : IsClosed (front ++ back)) (closed : IsClosed front) :
    IsClosed back := by
  obtain ⟨literals, brackets⟩ := whole
  rw [Quote.after_append, closed.literals] at literals
  rw [brackets_append closed.literals] at brackets
  exact ⟨literals, (isNested_shift _).1 (brackets.behind closed.brackets)⟩

theorem IsClosed.before (whole : IsClosed (front ++ back))
    (plain : ∀ c ∈ back, isUnpaired c = true) :
    IsClosed front := by
  simp only [isUnpaired, Bool.and_eq_true, Bool.not_eq_true', Option.isNone_iff_eq_none] at plain
  obtain ⟨literals, brackets⟩ := whole
  rw [Quote.after_append] at literals
  have outside := (after_eq_outside (fun c among => (plain c among).1)
    (Quote.IsMarked.after (show Quote.outside.IsMarked from trivial) front)).1 literals
  rw [brackets_append outside, brackets_plain fun c among => (plain c among).2, List.map_nil,
    List.append_nil] at brackets
  exact ⟨outside, brackets⟩

section

variable (isLeft : Op.ofBracket? left = some opening) (isRight : Op.ofBracket? right = some closing)
  (pair : opening.closing? = some closing)
include isLeft

theorem not_isQuoteMark_of_bracket : isQuoteMark left = false := by
  have spelled := (Op.spelling_of_ofBracket? isLeft).1
  exact @Op.isQuoteMark_of_mem opening left (by rw [spelled]; exact List.mem_singleton_self left)

theorem after_bracket : Quote.outside.after [left] = .outside := by
  rw [Quote.after_cons, Quote.next, not_isQuoteMark_of_bracket isLeft, if_neg Bool.false_ne_true]
  rfl

include pair

/-- A group is closed at its end only. -/
theorem not_isClosed_front (closed : IsClosed inner) (present : front ≠ [])
    (split : left :: inner ++ [right] = front ++ c :: back) : ¬ IsClosed front := by
  intro early
  obtain ⟨first, lead, rfl⟩ := List.exists_cons_of_ne_nil present
  have rest : inner ++ [right] = lead ++ c :: back := (List.cons.inj split).2
  obtain rfl : left = first := (List.cons.inj split).1
  obtain ⟨trail, rfl⟩ : lead <+: inner := by
    refine List.prefix_of_prefix_length_le ⟨c :: back, rest.symm⟩
      (List.prefix_append inner [right]) ?_
    have length := congrArg List.length rest
    simp only [List.length_append, List.length_cons, List.length_nil] at length
    omega
  have outside : Quote.outside.after lead = .outside := by
    have literals := early.literals
    rwa [← List.singleton_append, Quote.after_append, after_bracket isLeft] at literals
  have nested := early.brackets
  rw [← List.singleton_append, brackets_append (after_bracket isLeft), brackets_singleton isLeft,
    List.singleton_append] at nested
  have whole := closed.brackets
  rw [brackets_append outside, ← isNested_shift 1, List.map_append] at whole
  exact not_isNested_opening (isClosing_of_closing? pair).1 whole nested

include isRight

theorem IsClosed.group (closed : IsClosed inner) : IsClosed (left :: inner ++ [right]) := by
  have first := after_bracket isLeft
  have both : Quote.outside.after (left :: inner) = .outside := by
    rw [← List.singleton_append, Quote.after_append, first, closed.literals]
  refine ⟨by rw [Quote.after_append, both, after_bracket isRight], ?_⟩
  rw [brackets_append both, ← List.singleton_append, brackets_append first,
    brackets_singleton isLeft,
    brackets_singleton isRight]
  obtain ⟨pairs, nested⟩ := (isNested_shift 1).2 closed.brackets
  exact ⟨_, Nested.around pair _ _ nested⟩

end

end

end Text
end MethodLowering
