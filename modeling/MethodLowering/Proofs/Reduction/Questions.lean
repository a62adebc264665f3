import MethodLowering.Proofs.Reduction.Segment
import MethodLowering.Reduction.Brackets

/-!
# Questions about a shown range

What the questions of the reduction answer on a range, in terms of the segments it shows.
-/

namespace MethodLowering

namespace Ledger

theorem headsFrom_add (ledger : Ledger) (start first second : Nat) :
    ledger.headsFrom start (first + second) =
      ledger.headsFrom start first ++ ledger.headsFrom (start + first) second := by
  induction first generalizing start with
  | zero => simp [headsFrom]
  | succ first induction =>
      rw [Nat.succ_add, headsFrom, headsFrom]
      have shifted : start + 1 + first = start + (first + 1) := by omega
      cases ledger.headAt? start with
      | none => rw [induction, shifted]
      | some op => rw [induction, shifted, List.cons_append]

theorem headsFrom_eq_nil {ledger : Ledger} {start count : Nat}
    (plain : ∀ p, start ≤ p → p < start + count → ledger.headAt? p = none) :
    ledger.headsFrom start count = [] := by
  induction count generalizing start with
  | zero => rfl
  | succ count induction =>
      rw [headsFrom, plain start (Nat.le_refl _) (by omega)]
      exact induction fun p low high => plain p (by omega) (by omega)

end Ledger

namespace Reduction

section

variable {state : Reduction} {start middle stop : Nat} {segment : Segment}
  {front back segments : List Segment}

/-! ## Hulls -/

@[simp]
theorem hull_cons_start (segment : Segment) (rest : List Segment) :
    (hull (segment :: rest)).start = segment.span.start := rfl

@[simp]
theorem hull_append_stop (front : List Segment) (last : Segment) :
    (hull (front ++ [last])).stop = last.span.stop := by
  simp [hull]

section

variable (shown : Shows state start stop segments) (present : segments ≠ [])
include shown present

theorem Shows.hull :
    IsGap state start (hull segments).start ∧
      Shows state (hull segments).start (hull segments).stop segments ∧
      IsGap state (hull segments).stop stop ∧ (hull segments).start < (hull segments).stop := by
  have ends : IsGap state (Reduction.hull segments).stop stop ∧
      Shows state start (Reduction.hull segments).stop segments := by
    obtain ⟨front, last, rfl⟩ := List.eq_nil_or_concat' segments |>.resolve_left present
    obtain ⟨left, stands, right⟩ := shows_append_cons.1 shown
    have bound := right.1.1
    rw [hull_append_stop]
    refine ⟨right.1, shows_append_cons.2 ⟨left, stands, ?_⟩⟩
    exact ⟨⟨Nat.le_refl _, fun p low high => by omega⟩, by have := right.2; omega⟩
  obtain ⟨first, rest, rfl⟩ := List.exists_cons_of_ne_nil present
  have inner := ends.2.2.2.le
  have nonempty := ends.2.2.1.nonempty
  rw [hull_cons_start]
  exact ⟨ends.2.1, ⟨⟨Nat.le_refl _, fun p low high => by omega⟩, ends.2.2⟩, ends.1, by omega⟩

theorem Shows.isSpace_hull_start :
    state.ledger.isSpace (Reduction.hull segments).start = false := by
  obtain ⟨first, rest, rfl⟩ := List.exists_cons_of_ne_nil present
  exact shown.2.1.isSpace_start

theorem Shows.isSpace_hull_stop :
    state.ledger.isSpace ((Reduction.hull segments).stop - 1) = false := by
  obtain ⟨front, last, rfl⟩ := List.eq_nil_or_concat' segments |>.resolve_left present
  rw [hull_append_stop]
  exact (shows_append_cons.1 shown).2.1.isSpace_last

end

/-! ## Blanks -/

theorem Shows.trim (shown : Shows state start stop segments) (present : segments ≠ []) :
    state.ledger.trim start stop = Reduction.hull segments := by
  obtain ⟨left, inner, right, nonempty⟩ := shown.hull present
  have size := shown.stop_le_size
  have low := left.1
  have high := right.1
  have first : Text.seek (fun p => !state.ledger.isSpace p) start (stop - start) =
      (Reduction.hull segments).start := by
    refine Text.seek_eq low (by omega) (fun p above below => ?_) (.inr ?_)
    · rw [left.isSpace above below, Bool.not_true]
    · rw [shown.isSpace_hull_start present, Bool.not_false]
  have last : Text.seekDown (fun p => !state.ledger.isSpace p) stop
      (stop - (Reduction.hull segments).start) = (Reduction.hull segments).stop := by
    refine Text.seekDown_eq high (by omega) (fun p above below => ?_) (.inr ?_)
    · rw [right.isSpace above below, Bool.not_true]
    · rw [shown.isSpace_hull_stop present, Bool.not_false]
  simp only [Ledger.trim, Nat.min_eq_left size, first, last]

theorem Shows.trim_isEmpty (shown : Shows state start stop segments) :
    (state.ledger.trim start stop).isEmpty = segments.isEmpty := by
  by_cases present : segments = []
  · subst present
    have size := shown.2
    have bound := shown.1.1
    have first : Text.seek (fun p => !state.ledger.isSpace p) start (stop - start) = stop := by
      refine Text.seek_eq bound (by omega) (fun p above below => ?_) (.inl (by omega))
      rw [shown.1.isSpace above below, Bool.not_true]
    simp [Ledger.trim, Nat.min_eq_left size, first, Span.isEmpty, Text.seekDown]
  · obtain ⟨-, -, -, nonempty⟩ := shown.hull present
    rw [shown.trim present, List.isEmpty_eq_false_iff.2 present, Span.isEmpty]
    simpa using nonempty

theorem Shows.isBlank (shown : Shows state start stop segments) :
    state.ledger.isBlank start stop = segments.isEmpty :=
  shown.trim_isEmpty

/-! ## Operators -/

theorem Segment.StandsIn.headsFrom (stands : segment.StandsIn state) :
    state.ledger.headsFrom segment.span.start (segment.span.stop - segment.span.start) =
      headsOf [segment] := by
  have nonempty := stands.nonempty
  obtain ⟨count, counted⟩ : ∃ count, segment.span.stop - segment.span.start = count + 1 :=
    ⟨segment.span.stop - segment.span.start - 1, by omega⟩
  have later : state.ledger.headsFrom (segment.span.start + 1) count = [] := by
    refine Ledger.headsFrom_eq_nil fun p low high => ?_
    rw [stands.headAt? (by omega) (by omega), if_neg (by omega)]
  rw [counted, Ledger.headsFrom, stands.headAt? (Nat.le_refl _) nonempty, if_pos rfl, later]
  cases known : segment.op? <;> simp [headsOf, known]

theorem headsOf_cons (segment : Segment) (rest : List Segment) :
    headsOf (segment :: rest) = headsOf [segment] ++ headsOf rest := by
  rw [headsOf, headsOf, headsOf, ← List.filterMap_append, List.singleton_append]

theorem headsOf_append (before after : List Segment) :
    headsOf (before ++ after) = headsOf before ++ headsOf after :=
  List.filterMap_append

theorem headsOf_operand (operand : segment.isOperand = true) (rest : List Segment) :
    headsOf (segment :: rest) = headsOf rest := by
  rw [Segment.isOperand, Option.isNone_iff_eq_none] at operand
  rw [headsOf, List.filterMap_cons, operand]
  rfl

theorem headsOf_op {op : Op} (isOp : segment.op? = some op) (rest : List Segment) :
    headsOf (segment :: rest) = (segment.span.start, op) :: headsOf rest := by
  rw [headsOf, List.filterMap_cons, isOp]
  rfl

theorem Shows.headsFrom (shown : Shows state start stop segments) :
    state.ledger.headsFrom start (stop - start) = headsOf segments := by
  induction segments generalizing start with
  | nil =>
      refine Ledger.headsFrom_eq_nil fun p low high => shown.1.headAt? low ?_
      have := shown.1.1
      omega
  | cons segment rest induction =>
      obtain ⟨gap, stands, later⟩ := shown
      have low := gap.1
      have nonempty := stands.nonempty
      have high := later.le
      have lengths : stop - start = (segment.span.start - start) +
          ((segment.span.stop - segment.span.start) + (stop - segment.span.stop)) := by omega
      have blank : state.ledger.headsFrom start (segment.span.start - start) = [] :=
        Ledger.headsFrom_eq_nil fun p above below => gap.headAt? above (by omega)
      rw [lengths, Ledger.headsFrom_add, Ledger.headsFrom_add, blank, List.nil_append,
        Nat.add_sub_cancel' low, Nat.add_sub_cancel' (Nat.le_of_lt nonempty), stands.headsFrom,
        induction later, ← headsOf_cons]

theorem Shows.heads (shown : Shows state start stop segments) :
    state.ledger.heads start stop = headsOf segments := by
  rw [Ledger.heads, Nat.min_eq_left shown.stop_le_size, shown.headsFrom]

/-- Where only operands stand, no character belongs to an operator. -/
theorem Shows.isOperatorAt_eq_false (shown : Shows state start stop segments)
    (operands : ∀ segment ∈ segments, segment.isOperand) {p : Nat} (low : start ≤ p)
    (high : p < stop) : state.ledger.isOperatorAt p = false := by
  induction segments generalizing start with
  | nil => exact shown.1.isOperatorAt low high
  | cons segment rest induction =>
      obtain ⟨gap, stands, later⟩ := shown
      by_cases before : p < segment.span.start
      · exact gap.isOperatorAt low before
      · by_cases inside : p < segment.span.stop
        · have operand := operands segment List.mem_cons_self
          rw [Segment.isOperand, Option.isNone_iff_eq_none] at operand
          rw [stands.isOperatorAt (by omega) inside, operand]
          rfl
        · exact induction later (fun other member => operands other (List.mem_cons_of_mem _ member))
            (by omega)

/-- The operand that starts at `start` ends where the operands end. -/
theorem Shows.greedyStop (shown : Shows state start middle segments)
    (operands : ∀ segment ∈ segments, segment.isOperand) {range : Span}
    (inside : middle ≤ range.stop)
    (ends : middle = range.stop ∨ state.ledger.isOperatorAt middle = true) :
    Reduction.greedyStop state.ledger start range = middle := by
  have bound := shown.le
  refine Text.seek_eq bound (by omega) (fun p low high => ?_) (ends.imp_left (by omega))
  exact shown.isOperatorAt_eq_false operands low high

/-- The operand that ends at `stop` starts where the operands start. -/
theorem Shows.greedyStart (shown : Shows state middle stop segments)
    (operands : ∀ segment ∈ segments, segment.isOperand) {range : Span}
    (inside : range.start ≤ middle)
    (ends : middle = range.start ∨ state.ledger.isOperatorAt (middle - 1) = true) :
    Reduction.greedyStart state.ledger stop range = middle := by
  have bound := shown.le
  refine Text.seekDown_eq bound (by omega) (fun p low high => ?_) (ends.imp_left (by omega))
  exact shown.isOperatorAt_eq_false operands low high

end

end Reduction
end MethodLowering
