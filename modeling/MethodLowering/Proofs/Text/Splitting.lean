import MethodLowering.Proofs.Brackets.Depth
import MethodLowering.Proofs.Text.Sealing

/-!
# Splitting at the top level

A text is cut at the separators that stand outside literals and outside brackets.  A closing bracket
without partner closes nothing, so a position is outside brackets when the net depth in front of it
is as low as anywhere before.  The parts give the text back, and no part can be split further.
-/

namespace MethodLowering
namespace Text

/-! ## Where a text is cut -/

/-- No bracket in front of the position is still open, whatever the kinds of brackets are. -/
def IsTop (text : List Char) (position : Nat) : Prop :=
  ∀ earlier ≤ position, depthAt text position ≤ depthAt text earlier

/-- A separator outside literals and brackets.  Brackets separate nothing. -/
structure IsCut (separator : Char) (text : List Char) (position : Nat) : Prop where
  stands : UnquotedAt text position separator
  noBracket : isOpening separator = false ∧ isClosing separator = false
  top : IsTop text position

/-- Positions of the separators between parts, when the first part starts at `start`. -/
def cutsFrom : Nat → List (List Char) → List Nat
  | _, [] | _, [_] => []
  | start, part :: next :: rest =>
      (start + part.length) :: cutsFrom (start + part.length + 1) (next :: rest)

section

variable {separator c : Char} {text rest : List Char} {quote : Quote} {depth position : Nat}
  {parts : List (List Char)}

theorem cutsFrom_consFirst (start : Nat) (c : Char) (present : parts ≠ []) :
    cutsFrom start (consFirst c parts) = cutsFrom (start + 1) parts := by
  obtain ⟨part, others, rfl⟩ := List.exists_cons_of_ne_nil present
  cases others with
  | nil => rfl
  | cons next others =>
      rw [consFirst, cutsFrom, cutsFrom, List.length_cons,
        show start + (part.length + 1) = start + 1 + part.length by omega]

theorem cutsFrom_cons_nil (start : Nat) (present : parts ≠ []) :
    cutsFrom start ([] :: parts) = start :: cutsFrom (start + 1) parts := by
  obtain ⟨part, others, rfl⟩ := List.exists_cons_of_ne_nil present
  rfl

theorem consFirst_ne_nil (c : Char) (parts : List (List Char)) : consFirst c parts ≠ [] := by
  cases parts <;> exact List.cons_ne_nil _ _

theorem splitFrom_ne_nil (separator : Char) (quote : Quote) (depth : Nat) (text : List Char) :
    splitFrom separator quote depth text ≠ [] := by
  cases text with
  | nil => exact List.cons_ne_nil _ _
  | cons c rest =>
      rw [splitFrom]
      split_ifs <;> first | exact consFirst_ne_nil _ _ | exact List.cons_ne_nil _ _

/-! ## The depth of the reading -/

/-- The reading of a text has come to a position: the literals are those of the text, and the depth
is how far the net depth has risen from its lowest value so far. -/
structure ReadsUpTo (text : List Char) (position : Nat) (quote : Quote) (depth : Nat) : Prop where
  quote : quote = Quote.outside.after (text.take position)
  above : ∀ earlier ≤ position, depthAt text position ≤ depthAt text earlier + depth
  lowest : ∃ earlier ≤ position, depthAt text position = depthAt text earlier + depth

theorem readsUpTo_start (text : List Char) : ReadsUpTo text 0 .outside 0 := by
  refine ⟨rfl, fun earlier low => ?_, 0, Nat.le_refl 0, by simp⟩
  obtain rfl : earlier = 0 := Nat.le_zero.1 low
  simp

theorem ReadsUpTo.isTop_iff (reaches : ReadsUpTo text position quote depth) :
    IsTop text position ↔ depth = 0 := by
  constructor
  · intro top
    obtain ⟨earlier, low, same⟩ := reaches.lowest
    have bound := top earlier low
    omega
  · rintro rfl earlier low
    have bound := reaches.above earlier low
    omega

/-- The depth goes up and down with the net depth, but not below zero. -/
theorem ReadsUpTo.next (reaches : ReadsUpTo text position quote depth)
    (here : text[position]? = some c)
    {change : Int} (net : depthAt text (position + 1) = depthAt text position + change)
    {depth' : Nat} (moved : (depth' : Int) = max (depth + change) 0) :
    ReadsUpTo text (position + 1) (quote.next c) depth' := by
  refine ⟨by rw [after_take_succ here, reaches.quote], fun earlier low => ?_, ?_⟩
  · rcases Nat.lt_or_eq_of_le low with before | rfl
    · have bound := reaches.above earlier (Nat.le_of_lt_succ before)
      omega
    · omega
  · obtain ⟨earlier, low, same⟩ := reaches.lowest
    by_cases falls : (depth : Int) + change < 0
    · exact ⟨position + 1, Nat.le_refl _, by omega⟩
    · exact ⟨earlier, Nat.le_succ_of_le low, by omega⟩

/-- The cuts are the separators outside literals and brackets. -/
theorem mem_cutsFrom_splitFrom (reaches : ReadsUpTo text position quote depth)
    (behind : text.drop position = rest) (cut : Nat) :
    cut ∈ cutsFrom position (splitFrom separator quote depth rest) ↔
      position ≤ cut ∧ IsCut separator text cut := by
  induction rest generalizing position quote depth with
  | nil =>
      have outside : text.length ≤ position := List.drop_eq_nil_iff.1 behind
      refine iff_of_false List.not_mem_nil fun ⟨low, isCut⟩ => ?_
      have inside := (List.getElem?_eq_some_iff.1 isCut.stands.1).1
      omega
  | cons c rest induction =>
      have here := getElem?_of_drop behind
      have later := drop_succ_of_drop behind
      -- a character at which the text is not cut goes to the first part
      have passes {depth' : Nat} (next : ReadsUpTo text (position + 1) (quote.next c) depth')
          (whole : ¬ IsCut separator text position) :
          cut ∈ cutsFrom position (consFirst c (splitFrom separator (quote.next c) depth' rest)) ↔
            position ≤ cut ∧ IsCut separator text cut := by
        rw [cutsFrom_consFirst position c (splitFrom_ne_nil _ _ _ _), induction next later]
        refine and_congr_left fun isCut => ⟨Nat.le_of_succ_le, fun low => ?_⟩
        refine Nat.lt_of_le_of_ne low ?_
        rintro rfl
        exact whole isCut
      have isSeparator (isCut : IsCut separator text position) : c = separator :=
        Option.some.inj (here.symm.trans isCut.stands.1)
      rw [splitFrom]
      by_cases covers : quote.covers c = true
      · rw [if_pos covers]
        have inLiteral : (Quote.outside.after (text.take position)).covers c = true := by
          rw [← reaches.quote]
          exact covers
        have net : depthAt text (position + 1) = depthAt text position + 0 := by
          rw [Int.add_zero]
          exact depthAt_succ_of_covers here inLiteral
        refine passes (reaches.next here net (by omega)) fun isCut => ?_
        have plain := isCut.stands.2
        rw [← isSeparator isCut, inLiteral] at plain
        contradiction
      · have stands : UnquotedAt text position c :=
          ⟨here, by rw [← reaches.quote]; exact Bool.eq_false_iff.2 covers⟩
        have net := stands.depthAt_succ
        rw [if_neg covers]
        split_ifs with opens closes separates
        · rw [weight, if_pos opens] at net
          refine passes (reaches.next here net (by omega)) fun isCut => ?_
          rw [isSeparator isCut, isCut.noBracket.1] at opens
          contradiction
        · rw [weight, if_neg opens, if_pos closes] at net
          refine passes (reaches.next here net (by omega)) fun isCut => ?_
          rw [isSeparator isCut, isCut.noBracket.2] at closes
          contradiction
        · rw [weight, if_neg opens, if_neg closes] at net
          obtain ⟨same, top⟩ := Bool.and_eq_true_iff.1 separates
          obtain rfl := eq_of_beq same
          obtain rfl := eq_of_beq top
          rw [cutsFrom_cons_nil position (splitFrom_ne_nil _ _ _ _), List.mem_cons,
            induction (reaches.next here net (by omega)) later]
          have own : IsCut c text position :=
            ⟨stands, ⟨Bool.eq_false_iff.2 opens, Bool.eq_false_iff.2 closes⟩,
              reaches.isTop_iff.2 rfl⟩
          constructor
          · rintro (rfl | ⟨low, isCut⟩)
            · exact ⟨Nat.le_refl _, own⟩
            · exact ⟨Nat.le_of_succ_le low, isCut⟩
          · rintro ⟨low, isCut⟩
            rcases Nat.lt_or_eq_of_le low with before | rfl
            · exact .inr ⟨before, isCut⟩
            · exact .inl rfl
        · rw [weight, if_neg opens, if_neg closes] at net
          refine passes (reaches.next here net (by omega)) fun isCut => separates ?_
          rw [isSeparator isCut, reaches.isTop_iff.1 isCut.top]
          simp

/-! ## The parts -/

theorem intercalate_consFirst (c : Char) (present : parts ≠ []) :
    [separator].intercalate (consFirst c parts) = c :: [separator].intercalate parts := by
  obtain ⟨part, others, rfl⟩ := List.exists_cons_of_ne_nil present
  cases others with
  | nil => simp [consFirst, List.intercalate]
  | cons next others => simp [consFirst, List.intercalate]

/-- The parts with separators between them are the text. -/
theorem intercalate_splitFrom (separator : Char) (quote : Quote) (depth : Nat) (text : List Char) :
    [separator].intercalate (splitFrom separator quote depth text) = text := by
  induction text generalizing quote depth with
  | nil => rfl
  | cons c rest induction =>
      have first (depth' : Nat) :
          [separator].intercalate (consFirst c (splitFrom separator (quote.next c) depth' rest)) =
            c :: rest := by
        rw [intercalate_consFirst c (splitFrom_ne_nil _ _ _ _), induction]
      rw [splitFrom]
      split_ifs with covers opens closes separates
      · exact first depth
      · exact first (depth + 1)
      · exact first (depth - 1)
      · obtain rfl := eq_of_beq (Bool.and_eq_true_iff.1 separates).1
        have joined := induction (quote.next c) depth
        obtain ⟨part, others, split⟩ := List.exists_cons_of_ne_nil
          (splitFrom_ne_nil c (quote.next c) depth rest)
        rw [split] at joined ⊢
        rw [← joined]
        simp [List.intercalate]
      · exact first depth

/-- Read again from where it was read first, the first part is one part; so is every other one, read
from outside literals and brackets. -/
theorem splitFrom_single (separator : Char) (quote : Quote) (depth : Nat) (text : List Char) :
    ∃ first others, splitFrom separator quote depth text = first :: others ∧
      splitFrom separator quote depth first = [first] ∧
      ∀ part ∈ others, splitTop separator part = [part] := by
  induction text generalizing quote depth with
  | nil => exact ⟨[], [], rfl, rfl, List.forall_mem_nil _⟩
  | cons c rest induction =>
      by_cases covers : quote.covers c = true
      · obtain ⟨first, others, split, single, single'⟩ := induction (quote.next c) depth
        refine ⟨c :: first, others, ?_, ?_, single'⟩
        · rw [splitFrom, if_pos covers, split, consFirst]
        · rw [splitFrom, if_pos covers, single, consFirst]
      by_cases opens : isOpening c = true
      · obtain ⟨first, others, split, single, single'⟩ := induction (quote.next c) (depth + 1)
        refine ⟨c :: first, others, ?_, ?_, single'⟩
        · rw [splitFrom, if_neg covers, if_pos opens, split, consFirst]
        · rw [splitFrom, if_neg covers, if_pos opens, single, consFirst]
      by_cases closes : isClosing c = true
      · obtain ⟨first, others, split, single, single'⟩ := induction (quote.next c) (depth - 1)
        refine ⟨c :: first, others, ?_, ?_, single'⟩
        · rw [splitFrom, if_neg covers, if_neg opens, if_pos closes, split, consFirst]
        · rw [splitFrom, if_neg covers, if_neg opens, if_pos closes, single, consFirst]
      obtain ⟨first, others, split, single, single'⟩ := induction (quote.next c) depth
      by_cases separates : (c == separator && depth == 0) = true
      · -- behind a cut the reading is outside literals and brackets, as it is at the start
        have outside := (Quote.next_of_not_covers (Bool.eq_false_iff.2 covers)).2
        have top : depth = 0 := eq_of_beq (Bool.and_eq_true_iff.1 separates).2
        rw [outside, top] at single
        refine ⟨[], first :: others, ?_, rfl, List.forall_mem_cons.2 ⟨single, single'⟩⟩
        rw [splitFrom, if_neg covers, if_neg opens, if_neg closes, if_pos separates, split]
      · refine ⟨c :: first, others, ?_, ?_, single'⟩
        · rw [splitFrom, if_neg covers, if_neg opens, if_neg closes, if_neg separates,
            split, consFirst]
        · rw [splitFrom, if_neg covers, if_neg opens, if_neg closes, if_neg separates,
            single, consFirst]

end

/-- **Splitting.**  The parts with the separator between them are the text; no part can be split
again; and the text is cut at the separators that stand outside literals and brackets, and nowhere
else. -/
theorem splitTop_exact (separator : Char) (text : List Char) :
    [separator].intercalate (splitTop separator text) = text ∧
      (∀ part ∈ splitTop separator text, splitTop separator part = [part]) ∧
      ∀ position, position ∈ cutsFrom 0 (splitTop separator text) ↔
        IsCut separator text position := by
  refine ⟨intercalate_splitFrom separator .outside 0 text, ?_, fun position => ?_⟩
  · obtain ⟨first, others, split, single, single'⟩ := splitFrom_single separator .outside 0 text
    rw [show splitTop separator text = first :: others from split]
    exact List.forall_mem_cons.2 ⟨single, single'⟩
  · have cuts :=
      @mem_cutsFrom_splitFrom separator text text _ _ 0 (readsUpTo_start text) rfl position
    simpa [splitTop] using cuts

/-- A stray closing bracket hides no separator, and brackets of other kinds hide it. -/
example : splitTop ';' "a);b[;\";\"];c".toList = ["a)".toList, "b[;\";\"]".toList, "c".toList] := by
  decide

end Text
end MethodLowering
