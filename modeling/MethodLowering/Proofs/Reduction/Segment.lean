import Mathlib.Data.List.DropRight
import MethodLowering.Proofs.Ledger.Tags
import MethodLowering.Reduction.Basic

/-!
# Segments of a range

While a range is reduced, its ledger shows a list of segments with blanks between them: operators
that are not folded yet, plain text, and finished expressions that wait for their surroundings.
-/

namespace MethodLowering
namespace Reduction

/-- What stands at one place of a range. -/
inductive Piece where
  /-- An operator that is not folded yet. -/
  | op (op : Op)
  /-- Plain text. -/
  | word
  /-- A finished expression. -/
  | tree (expr : Expr)

/-- A piece with the positions it covers. -/
structure Segment where
  span : Span
  piece : Piece

namespace Segment

/-- The operator at a segment. -/
def op? (segment : Segment) : Option Op :=
  match segment.piece with
  | .op op => some op
  | .word | .tree _ => none

/-- The segment is no operator. -/
def isOperand (segment : Segment) : Bool := segment.op?.isNone

/-- The finished expression at a segment. -/
def tree? (segment : Segment) : Option Expr :=
  match segment.piece with
  | .tree expr => some expr
  | .op _ | .word => none

/-- How the tags of a piece look. -/
def IsTagged (state : Reduction) (span : Span) : Piece → Prop
  | .op op =>
      span.stop = span.start + op.width ∧ state.ledger.tag? span.start = some (.operator op) ∧
        ∀ p, span.start < p → p < span.stop → state.ledger.tag? p = some (.operatorTail op)
  | .word => ∀ p, span.start ≤ p → p < span.stop → state.ledger.tag? p = some .unresolved
  | .tree expr =>
      ∃ id, state.pending[id]? = some (some ⟨span, expr⟩) ∧
        state.ledger.tag? span.start = some (.pending id) ∧
        state.ledger.tag? (span.stop - 1) = some (.pending id) ∧
        ∀ p, span.start ≤ p → p < span.stop →
          state.ledger.tag? p = some .space ∨ state.ledger.tag? p = some (.pending id)

/-- The ledger has the segment at its span. -/
structure StandsIn (state : Reduction) (segment : Segment) : Prop where
  nonempty : segment.span.start < segment.span.stop
  tagged : IsTagged state segment.span segment.piece
  placed : ∀ expr, segment.piece = .tree expr → expr.node?.map (·.span) = some segment.span

end Segment

/-- Nothing but blanks stands from `start` up to `stop`. -/
def IsGap (state : Reduction) (start stop : Nat) : Prop :=
  start ≤ stop ∧ ∀ p, start ≤ p → p < stop → state.ledger.tag? p = some .space

/-- The ledger shows exactly the segments from `start` up to `stop`, with blanks between them. -/
def Shows (state : Reduction) : Nat → Nat → List Segment → Prop
  | start, stop, [] => IsGap state start stop ∧ stop ≤ state.ledger.size
  | start, stop, segment :: rest =>
      IsGap state start segment.span.start ∧ segment.StandsIn state ∧
        Shows state segment.span.stop stop rest

/-- The span from the first segment to the last one. -/
def hull (segments : List Segment) : Span :=
  ⟨(segments.head?.map (·.span.start)).getD 0, (segments.getLast?.map (·.span.stop)).getD 0⟩

/-- The operators of a list of segments with their positions. -/
def headsOf (segments : List Segment) : List (Nat × Op) :=
  segments.filterMap fun segment => segment.op?.map fun op => (segment.span.start, op)

section

variable {state : Reduction} {start middle stop : Nat} {segment : Segment}
  {front back segments : List Segment}

theorem IsGap.append (left : IsGap state start middle) (right : IsGap state middle stop) :
    IsGap state start stop := by
  refine ⟨Nat.le_trans left.1 right.1, fun p low high => ?_⟩
  by_cases before : p < middle
  · exact left.2 p low before
  · exact right.2 p (Nat.le_of_not_lt before) high

theorem Shows.le (shows_ : Shows state start stop segments) : start ≤ stop := by
  induction segments generalizing start with
  | nil => exact shows_.1.1
  | cons segment rest induction =>
      have gap := shows_.1.1
      have inner := shows_.2.1.nonempty
      have later := induction shows_.2.2
      omega

theorem Shows.stop_le_size (shows_ : Shows state start stop segments) :
    stop ≤ state.ledger.size := by
  induction segments generalizing start with
  | nil => exact shows_.2
  | cons segment rest induction => exact induction shows_.2.2

/-- A list shown in a range is split at each of its segments. -/
theorem shows_append_cons :
    Shows state start stop (front ++ segment :: back) ↔
      Shows state start segment.span.start front ∧ segment.StandsIn state ∧
        Shows state segment.span.stop stop back := by
  induction front generalizing start with
  | nil =>
      constructor
      · intro shown
        have inside := shown.2.2.stop_le_size
        have later := shown.2.2.le
        have nonempty := shown.2.1.nonempty
        exact ⟨⟨shown.1, by omega⟩, shown.2⟩
      · intro shown
        exact ⟨shown.1.1, shown.2⟩
  | cons first front induction =>
      rw [List.cons_append, Shows, Shows, induction, and_assoc, and_assoc]

theorem Shows.append (left : Shows state start middle front)
    (right : Shows state middle stop back) : Shows state start stop (front ++ back) := by
  induction front generalizing start with
  | nil =>
      cases back with
      | nil => exact ⟨left.1.append right.1, right.2⟩
      | cons segment back => exact ⟨left.1.append right.1, right.2⟩
  | cons first front induction => exact ⟨left.1, left.2.1, induction left.2.2⟩

theorem Shows.split (shown : Shows state start stop (front ++ back)) :
    ∃ middle, Shows state start middle front ∧ Shows state middle stop back := by
  cases back with
  | nil =>
      rw [List.append_nil] at shown
      exact ⟨stop, shown, ⟨Nat.le_refl _, fun p low high => by omega⟩, shown.stop_le_size⟩
  | cons segment back =>
      obtain ⟨left, stands, right⟩ := shows_append_cons.1 shown
      exact ⟨segment.span.start, left, ⟨⟨Nat.le_refl _, fun p low high => by omega⟩, stands, right⟩⟩

/-! ## Tags inside a segment -/

section

variable (stands : segment.StandsIn state)
include stands

/-- The first character of a segment is solid. -/
theorem Segment.StandsIn.isSpace_start : state.ledger.isSpace segment.span.start = false := by
  obtain ⟨span, piece⟩ := segment
  obtain ⟨nonempty, tagged⟩ := stands
  cases piece with
  | op op => simp [Ledger.isSpace, tagged.2.1, Tag.isSpace]
  | word =>
      simp [Ledger.isSpace, tagged span.start (Nat.le_refl _) nonempty, Tag.isSpace]
  | tree expr =>
      obtain ⟨id, -, first, -⟩ := tagged
      simp [Ledger.isSpace, first, Tag.isSpace]

/-- The tag of the last character of a segment. -/
theorem Segment.StandsIn.tag?_last :
    ∃ tag, state.ledger.tag? (segment.span.stop - 1) = some tag ∧ tag.isSpace = false ∧
      tag.op? = segment.op? := by
  obtain ⟨span, piece⟩ := segment
  obtain ⟨nonempty, tagged⟩ := stands
  dsimp only at nonempty tagged ⊢
  cases piece with
  | op op =>
      by_cases single : span.stop - 1 = span.start
      · exact ⟨.operator op, by rw [single]; exact tagged.2.1, rfl, rfl⟩
      · exact ⟨.operatorTail op, tagged.2.2 _ (by omega) (by omega), rfl, rfl⟩
  | word => exact ⟨.unresolved, tagged _ (by omega) (by omega), rfl, rfl⟩
  | tree expr =>
      obtain ⟨id, -, -, last, -⟩ := tagged
      exact ⟨.pending id, last, rfl, rfl⟩

theorem Segment.StandsIn.isSpace_last : state.ledger.isSpace (segment.span.stop - 1) = false := by
  obtain ⟨tag, known, solid, -⟩ := stands.tag?_last
  simp [Ledger.isSpace, known, solid]

theorem Segment.StandsIn.isOperatorAt {p : Nat}
    (low : segment.span.start ≤ p) (high : p < segment.span.stop) :
    state.ledger.isOperatorAt p = segment.op?.isSome := by
  obtain ⟨span, piece⟩ := segment
  obtain ⟨nonempty, tagged⟩ := stands
  dsimp only at nonempty tagged low high
  cases piece with
  | op op =>
      by_cases first : p = span.start
      · simp [Ledger.isOperatorAt, first, tagged.2.1, Tag.isOperator, op?]
      · simp [Ledger.isOperatorAt, tagged.2.2 p (by omega) high, Tag.isOperator, op?]
  | word => simp [Ledger.isOperatorAt, tagged p low high, Tag.isOperator, op?]
  | tree expr =>
      obtain ⟨id, -, -, -, inside⟩ := tagged
      rcases inside p low high with tag | tag <;>
        simp [Ledger.isOperatorAt, tag, Tag.isOperator, op?]

theorem Segment.StandsIn.headAt? {p : Nat}
    (low : segment.span.start ≤ p) (high : p < segment.span.stop) :
    state.ledger.headAt? p = if p = segment.span.start then segment.op? else none := by
  obtain ⟨span, piece⟩ := segment
  obtain ⟨nonempty, tagged⟩ := stands
  dsimp only at nonempty tagged low high
  cases piece with
  | op op =>
      by_cases first : p = span.start
      · simp [Ledger.headAt?, first, tagged.2.1, op?]
      · simp [Ledger.headAt?, first, tagged.2.2 p (by omega) high]
  | word => simp [Ledger.headAt?, tagged p low high, op?]
  | tree expr =>
      obtain ⟨id, -, -, -, inside⟩ := tagged
      rcases inside p low high with tag | tag <;> simp [Ledger.headAt?, tag, op?]

end

theorem IsGap.isSpace (gap : IsGap state start stop) {p : Nat} (low : start ≤ p) (high : p < stop) :
    state.ledger.isSpace p = true := by
  simp [Ledger.isSpace, gap.2 p low high, Tag.isSpace]

theorem IsGap.isOperatorAt (gap : IsGap state start stop) {p : Nat} (low : start ≤ p)
    (high : p < stop) : state.ledger.isOperatorAt p = false := by
  simp [Ledger.isOperatorAt, gap.2 p low high, Tag.isOperator]

theorem IsGap.headAt? (gap : IsGap state start stop) {p : Nat} (low : start ≤ p)
    (high : p < stop) : state.ledger.headAt? p = none := by
  simp [Ledger.headAt?, gap.2 p low high]

end

end Reduction
end MethodLowering
