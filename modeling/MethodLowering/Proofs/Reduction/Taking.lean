import MethodLowering.Proofs.Reduction.Tracking

/-!
# What a fold takes

A fold starts from an anchor, the operator or the pair of brackets, and takes segments next to it.
Its expression covers what it takes, and around it the range shows what is left.
-/

namespace MethodLowering
namespace Reduction

/-! ## Spans of expressions -/

/-- The expression is written at the span. -/
def HasSpan (expr : Expr) (span : Span) : Prop := expr.node?.map (·.span) = some span

/-- The result of reducing segments covers them: nothing for none. -/
def Covers (segments : List Segment) (result : Option Expr) : Prop :=
  match result with
  | none => segments = []
  | some expr => segments ≠ [] ∧ HasSpan expr (hull segments)

/-- The span with the span of an expression added. -/
def joinNode (span : Span) (operand : Expr) : Span :=
  match operand.node? with
  | some node => span.join node.span
  | none => span

/-- The span with the segments in front of it and behind it. -/
def spread (front : List Segment) (anchor : Span) (back : List Segment) : Span :=
  ⟨(front.head?.map (·.span.start)).getD anchor.start,
    (back.getLast?.map (·.span.stop)).getD anchor.stop⟩

theorem newNodeAround_tracks (anchor : Span) (operands : List Expr) {state other : Reduction}
    (agrees : Agrees state other) :
    Tracks (fun left right after => SameQuietly state left right after ∧
        left.span = operands.foldl joinNode anchor)
      (newNodeAround anchor operands state) (newNodeAround anchor operands other) :=
  newNode_tracks _ agrees

theorem HasSpan.joinNode {expr : Expr} {span : Span} (has : HasSpan expr span) (anchor : Span) :
    joinNode anchor expr = anchor.join span := by
  obtain ⟨node, known, rfl⟩ := Option.map_eq_some_iff.1 has
  rw [Reduction.joinNode, known]

section

variable {state : Reduction} {start middle stop : Nat} {front back segments : List Segment}
  {segment : Segment} {anchor : Span}

theorem spread_start_eq (present : front ≠ []) :
    (spread front anchor back).start = (hull front).start := by
  obtain ⟨first, rest, rfl⟩ := List.exists_cons_of_ne_nil present
  rfl

theorem spread_stop_eq (present : back ≠ []) :
    (spread front anchor back).stop = (hull back).stop := by
  obtain ⟨rest, last, rfl⟩ := List.eq_nil_or_concat' back |>.resolve_left present
  simp [spread, hull]

theorem spread_eq (presentFront : front ≠ []) (presentBack : back ≠ []) :
    spread front anchor back = ⟨(hull front).start, (hull back).stop⟩ :=
  congrArg₂ Span.mk (@spread_start_eq front back anchor presentFront)
    (@spread_stop_eq front back anchor presentBack)

/-- The hull of neighbouring lists is spread around the hull of the middle one. -/
theorem hull_eq_spread_hull {middle : List Segment} (present : middle ≠ []) :
    hull (front ++ middle ++ back) = spread front (hull middle) back := by
  have first : (hull (front ++ middle ++ back)).start =
      (spread front (hull middle) back).start := by
    cases front with
    | nil =>
        obtain ⟨segment, rest, rfl⟩ := List.exists_cons_of_ne_nil present
        rfl
    | cons segment rest => rfl
  have last : (hull (front ++ middle ++ back)).stop = (spread front (hull middle) back).stop := by
    rcases List.eq_nil_or_concat' back with rfl | ⟨rest, final, rfl⟩
    · obtain ⟨rest, final, rfl⟩ := List.eq_nil_or_concat' middle |>.resolve_left present
      rw [List.append_nil, ← List.append_assoc, hull_append_stop]
      simp [spread]
    · rw [← List.append_assoc, hull_append_stop, spread_stop_eq (by simp), hull_append_stop]
  exact congrArg₂ Span.mk first last

theorem hull_eq_spread (front : List Segment) (segment : Segment) (back : List Segment) :
    hull (front ++ segment :: back) = spread front segment.span back := by
  rw [List.append_cons, hull_eq_spread_hull (by simp)]
  rfl

/-- The node around an anchor and its operands has the spread as its span. -/
theorem joinNode_around (left : Shows state start anchor.start front)
    (right : Shows state anchor.stop stop back) (nonempty : anchor.start < anchor.stop)
    {first second : Option Expr} (coversFront : Covers front first)
    (coversBack : Covers back second) :
    [first.getD .absent, second.getD .absent].foldl joinNode anchor = spread front anchor back := by
  have before : joinNode anchor (first.getD .absent) =
      ⟨(spread front anchor back).start, anchor.stop⟩ := by
    cases first with
    | none =>
        rw [show front = [] from coversFront]
        rfl
    | some expr =>
        obtain ⟨-, -, gap, inner⟩ := left.hull coversFront.1
        have bound := gap.1
        rw [Option.getD_some, coversFront.2.joinNode, spread_start_eq coversFront.1, Span.join,
          Nat.min_eq_right (by omega), Nat.max_eq_left (by omega)]
  rw [List.foldl_cons, List.foldl_cons, List.foldl_nil, before]
  cases second with
  | none =>
      rw [show back = [] from coversBack]
      rfl
  | some expr =>
      obtain ⟨gap, -, -, inner⟩ := right.hull coversBack.1
      have bound := gap.1
      have low : (spread front anchor back).start ≤ anchor.start := by
        by_cases present : front = []
        · rw [present]
          exact Nat.le_refl _
        · obtain ⟨-, -, gap', inner'⟩ := left.hull present
          have := gap'.1
          rw [spread_start_eq present]
          omega
      rw [Option.getD_some, coversBack.2.joinNode, Span.join,
        Nat.min_eq_left (by dsimp only; omega),
        Nat.max_eq_right (by dsimp only; omega), ← spread_stop_eq coversBack.1]

theorem Segment.StandsIn.span_eq (stands : segment.StandsIn state) {op : Op}
    (isOp : segment.op? = some op) : segment.span = opSpan op segment.span.start := by
  obtain ⟨span, piece⟩ := segment
  cases piece with
  | op other =>
      obtain rfl := Option.some.inj isOp
      rw [opSpan, ← stands.tagged.1]
  | word => contradiction
  | tree expr => contradiction

theorem Shows.behindGap (gap : IsGap state start middle)
    (shown : Shows state middle stop segments) :
    Shows state start stop segments := by
  cases segments with
  | nil => exact ⟨gap.append shown.1, shown.2⟩
  | cons segment rest => exact ⟨gap.append shown.1, shown.2⟩

theorem Shows.uptoGap (shown : Shows state start middle segments) (gap : IsGap state middle stop)
    (inside : stop ≤ state.ledger.size) : Shows state start stop segments := by
  have rest : Shows state middle stop [] := ⟨gap, inside⟩
  have joined := shown.append rest
  rwa [List.append_nil] at joined

theorem shows_nil_refl (inside : start ≤ state.ledger.size) : Shows state start start [] :=
  ⟨⟨Nat.le_refl _, fun p low high => by omega⟩, inside⟩

end

/-! ## Folds -/

/-- What a fold on a range does: the same expression on both sides, and around it the range shows
the segments that are left, fewer than `count`. -/
structure Takes (range : Span) (count : Nat) (state : Reduction) (expr : Expr)
    (folded : OnSegments.Folded) (after : Reduction) : Prop where
  same : expr = folded.expr
  shorter : folded.front.length + folded.back.length < count
  changes : Changes range.start range.stop state after
  placed : ∃ span, HasSpan expr span ∧ span.start < span.stop ∧
    after.ledger.isSpace span.start = false ∧ after.ledger.isSpace (span.stop - 1) = false ∧
    Shows after range.start span.start folded.front ∧ Shows after span.stop range.stop folded.back

/-- Reducing a range gives what reducing its segments gives, for lists shorter than `bound`. -/
def Simulates (bound : Nat) (operands : Operands) (onSegments : OnSegments.Operands) : Prop :=
  ∀ state other start stop segments, segments.length < bound → Agrees state other →
    Shows state start stop segments →
    Tracks (fun left right after => left = right ∧ Changes start stop state after ∧
      Covers segments left) (operands start stop state) (onSegments segments other)

/-- An anchor that a fold starts from: the segments in front of it and behind it are shown, and its
ends are solid. -/
structure Anchored (range anchor : Span) (before after : List Segment) (state : Reduction) :
    Prop where
  left : Shows state range.start anchor.start before
  right : Shows state anchor.stop range.stop after
  nonempty : anchor.start < anchor.stop
  solid_start : state.ledger.isSpace anchor.start = false
  solid_last : state.ledger.isSpace (anchor.stop - 1) = false

section

variable {range anchor : Span} {before after : List Segment} {state final : Reduction} {count : Nat}
  {segment : Segment}

theorem anchored_of_shows (shown : Shows state range.start range.stop
      (before ++ segment :: after)) :
    Anchored range segment.span before after state := by
  obtain ⟨left, stands, right⟩ := shows_append_cons.1 shown
  exact ⟨left, right, stands.nonempty, stands.isSpace_start, stands.isSpace_last⟩

/-- A fold that takes the segments next to its anchor. -/
theorem Takes.around {expr : Expr} {front left right back : List Segment} {low high : Nat}
    (nonempty : anchor.start < anchor.stop)
    (solid_start : state.ledger.isSpace anchor.start = false)
    (solid_last : state.ledger.isSpace (anchor.stop - 1) = false)
    (shownFront : Shows state range.start low front) (shownLeft : Shows state low anchor.start left)
    (shownRight : Shows state anchor.stop high right)
    (shownBack : Shows state high range.stop back) (changes : Changes low high state final)
    (span : HasSpan expr (spread left anchor right))
    (shorter : front.length + back.length < count) :
    Takes range count state expr ⟨front, expr, back⟩ final := by
  have bounds : range.start ≤ low ∧ low ≤ anchor.start ∧ anchor.stop ≤ high ∧ high ≤ range.stop :=
    ⟨shownFront.le, shownLeft.le, shownRight.le, shownBack.le⟩
  have size := changes.size
  have inside := shownBack.stop_le_size
  have starts : IsGap state low (spread left anchor right).start ∧
      (spread left anchor right).start ≤ anchor.start ∧
      state.ledger.isSpace (spread left anchor right).start = false := by
    by_cases present : left = []
    · subst present
      exact ⟨shownLeft.1, Nat.le_refl _, solid_start⟩
    · obtain ⟨gap, -, gap', inner⟩ := shownLeft.hull present
      have := gap'.1
      rw [spread_start_eq present]
      exact ⟨gap, by omega, shownLeft.isSpace_hull_start present⟩
  have stops : IsGap state (spread left anchor right).stop high ∧
      anchor.stop ≤ (spread left anchor right).stop ∧
      state.ledger.isSpace ((spread left anchor right).stop - 1) = false := by
    by_cases present : right = []
    · subst present
      exact ⟨shownRight.1, Nat.le_refl _, solid_last⟩
    · obtain ⟨gap, -, gap', inner⟩ := shownRight.hull present
      have := gap.1
      rw [spread_stop_eq present]
      exact ⟨gap', by omega, shownRight.isSpace_hull_stop present⟩
  have widths := stops.1.1
  refine ⟨rfl, shorter, changes.mono bounds.1 bounds.2.2.2, spread left anchor right,
    span, by omega,
    (changes.spaces _).trans starts.2.2, (changes.spaces _).trans stops.2.2, ?_, ?_⟩
  · exact (changes.shows_ shownFront (.inl (Nat.le_refl _))).uptoGap (changes.isGap starts.1)
      (by omega)
  · exact Shows.behindGap (changes.isGap stops.1)
      (changes.shows_ shownBack (.inr (Nat.le_refl _)))

end

end Reduction
end MethodLowering
