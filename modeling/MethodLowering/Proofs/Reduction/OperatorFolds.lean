import MethodLowering.Proofs.Reduction.Taking

/-!
# Folding operators over segments

Each fold of an operator over a range does what the fold over the segments of the range does.
-/

namespace MethodLowering
namespace Reduction

section

variable {bound : Nat} {operands : Operands} {onSegments : OnSegments.Operands}
  {state other : Reduction} {range : Span} {before after : List Segment} {segment : Segment}
  {op : Op}

theorem required_tracks (operand : Option Expr) (op : Op) (context : String)
    (agrees : Agrees state other) :
    Tracks (fun left right after => SameQuietly state left right after ∧ operand = some left)
      (required operand op context state) (required operand op context other) := by
  cases operand with
  | none => exact ⟨rfl, agrees⟩
  | some expr => exact ⟨agrees, ⟨rfl, rfl, rfl⟩, rfl⟩

/-! ## Splitting at a position -/

/-- Positions of segments grow along a shown list. -/
theorem Shows.start_lt {start stop : Nat} {segments : List Segment}
    (shown : Shows state start stop segments) {segment : Segment} (member : segment ∈ segments) :
    start ≤ segment.span.start ∧ segment.span.start < stop := by
  obtain ⟨front, back, rfl⟩ := List.append_of_mem member
  obtain ⟨left, stands, right⟩ := shows_append_cons.1 shown
  have low := left.le
  have nonempty := stands.nonempty
  have high := right.le
  omega

theorem splitAt_eq {start stop : Nat} {front back : List Segment}
    (shown : Shows state start stop (front ++ segment :: back)) :
    OnSegments.splitAt segment.span.start (front ++ segment :: back) = (front, back) := by
  obtain ⟨left, stands, right⟩ := shows_append_cons.1 shown
  have earlier (other : Segment) (member : other ∈ front) :
      (other.span.start != segment.span.start) = true := by
    have := (left.start_lt member).2
    rw [bne_iff_ne]
    omega
  rw [OnSegments.splitAt, List.takeWhile_append_of_pos earlier,
    List.dropWhile_append_of_pos earlier]
  simp

/-- The segment of an operator that is listed among the heads. -/
theorem exists_of_mem_headsOf {position : Nat} {op : Op} {segments : List Segment}
    (member : (position, op) ∈ headsOf segments) :
    ∃ front segment back, segments = front ++ segment :: back ∧ segment.op? = some op ∧
      segment.span.start = position := by
  obtain ⟨segment, among, found⟩ := List.mem_filterMap.1 member
  obtain ⟨other, isOp, same⟩ := Option.map_eq_some_iff.1 found
  obtain ⟨rfl, rfl⟩ := Prod.mk.inj same
  obtain ⟨front, back, rfl⟩ := List.append_of_mem among
  exact ⟨front, segment, back, rfl, isOp, rfl⟩

theorem mem_of_pairedColon? {depth position : Nat} {heads : List (Nat × Op)}
    (found : pairedColon? depth heads = some position) : (position, .colon) ∈ heads := by
  induction heads generalizing depth with
  | nil => contradiction
  | cons head rest induction =>
      obtain ⟨place, op⟩ := head
      rw [pairedColon?.eq_def] at found
      dsimp only at found
      split at found
      · exact List.mem_cons_of_mem _ (induction found)
      · split at found
        · obtain rfl := Option.some.inj found
          exact List.mem_cons_self
        · exact List.mem_cons_of_mem _ (induction found)
      · exact List.mem_cons_of_mem _ (induction found)

/-! ## Operands up to the nearest operator -/

theorem dropOperands_append (segments : List Segment) :
    OnSegments.dropOperands segments ++ OnSegments.lastOperands segments = segments :=
  List.rdropWhile_append_rtakeWhile

theorem firstOperands_append (segments : List Segment) :
    OnSegments.firstOperands segments ++ OnSegments.skipOperands segments = segments :=
  List.takeWhile_append_dropWhile

open OnSegments in
theorem Shows.lastOperands {stop : Nat} (shown : Shows state range.start stop before) :
    ∃ middle, Shows state range.start middle (dropOperands before) ∧
      Shows state middle stop (lastOperands before) ∧
      Reduction.greedyStart state.ledger stop range = middle := by
  have operands : ∀ segment ∈ OnSegments.lastOperands before, segment.isOperand := fun _ member =>
    List.mem_rtakeWhile_imp member
  have inside := shown.stop_le_size
  have bound := shown.le
  have joined := dropOperands_append before
  by_cases none : dropOperands before = []
  · rw [none, List.nil_append] at joined
    rw [none, joined]
    rw [joined] at operands
    exact ⟨range.start, shows_nil_refl (by omega), shown,
      shown.greedyStart operands (Nat.le_refl _) (.inl rfl)⟩
  · obtain ⟨rest, last, ends⟩ := List.eq_nil_or_concat' (dropOperands before) |>.resolve_left none
    have isOperator : last.isOperand = false := by
      have notOperand := List.rdropWhile_last_not Segment.isOperand before none
      have final : (dropOperands before).getLast none = last := by simp [ends]
      exact Bool.eq_false_iff.2 (final ▸ notOperand)
    rw [← joined, ends, List.append_assoc, List.singleton_append] at shown
    obtain ⟨left, stands, right⟩ := shows_append_cons.1 shown
    have low := left.le
    have nonempty := stands.nonempty
    have high := right.le
    refine ⟨last.span.stop, ?_, right, right.greedyStart operands (by omega) (.inr ?_)⟩
    · rw [ends]
      exact shows_append_cons.2 ⟨left, stands, shows_nil_refl (by omega)⟩
    · rw [stands.isOperatorAt (by omega) (by omega)]
      exact Option.isNone_eq_false_iff.1 isOperator

open OnSegments in
theorem Shows.firstOperands {start : Nat} (shown : Shows state start range.stop after) :
    ∃ middle, Shows state start middle (firstOperands after) ∧
      Shows state middle range.stop (skipOperands after) ∧
      Reduction.greedyStop state.ledger start range = middle ∧
      middle = ((skipOperands after).head?.map (·.span.start)).getD range.stop := by
  have operands : ∀ segment ∈ OnSegments.firstOperands after, segment.isOperand := fun _ member =>
    List.mem_takeWhile_imp member
  have joined := firstOperands_append after
  have inside := shown.stop_le_size
  have bound := shown.le
  cases rest : skipOperands after with
  | nil =>
      rw [rest, List.append_nil] at joined
      rw [joined]
      rw [joined] at operands
      exact ⟨range.stop, shown, shows_nil_refl inside,
        shown.greedyStop operands (Nat.le_refl _) (.inl rfl), rfl⟩
  | cons next others =>
      have isOperator : next.isOperand = false := by
        have notOperand := List.head?_dropWhile_not (·.isOperand) after
        simp only [show after.dropWhile (·.isOperand) = next :: others from rest,
          List.head?_cons] at notOperand
        exact notOperand
      rw [← joined, rest] at shown
      obtain ⟨left, stands, right⟩ := shows_append_cons.1 shown
      have nonempty := stands.nonempty
      have high := right.le
      refine ⟨next.span.start, left, ?_, left.greedyStop operands (by omega) (.inr ?_), rfl⟩
      · exact ⟨(shows_nil_refl (by omega)).1, stands, right⟩
      · rw [stands.isOperatorAt (by omega) (by omega)]
        exact Option.isNone_eq_false_iff.1 isOperator

theorem length_lastOperands (segments : List Segment) :
    (OnSegments.dropOperands segments).length + (OnSegments.lastOperands segments).length =
      segments.length := by
  rw [← List.length_append, dropOperands_append]

theorem length_firstOperands (segments : List Segment) :
    (OnSegments.firstOperands segments).length + (OnSegments.skipOperands segments).length =
      segments.length := by
  rw [← List.length_append, firstOperands_append]

theorem memberName?_hasSpan {member : Expr} {name : Node} {rebuild : Expr → Expr}
    (found : memberName? member = some (name, rebuild)) (construction : Node) (form : LeafForm)
    (span : Span) (text : String) :
    HasSpan ((rebuild (.leaf construction form)).relocate span text) span := by
  unfold memberName? at found
  split at found
  · obtain ⟨rfl, rfl⟩ := Prod.mk.inj (Option.some.inj found)
    rfl
  · obtain ⟨rfl, rfl⟩ := Prod.mk.inj (Option.some.inj found)
    rfl
  · obtain ⟨rfl, rfl⟩ := Prod.mk.inj (Option.some.inj found)
    rfl
  · contradiction

/-- A qualified construction covers both parts of the access. -/
theorem qualifyConstruction?_tracks {subject member : Expr} {left right : Span}
    (hasSubject : HasSpan subject left) (hasMember : HasSpan member right)
    (agrees : Agrees state other) :
    Tracks (fun first second final => SameQuietly state first second final ∧
        ∀ expr, first = some expr → HasSpan expr ⟨left.start, right.stop⟩)
      (qualifyConstruction? subject member state) (qualifyConstruction? subject member other) := by
  obtain ⟨subjectNode, knownSubject, rfl⟩ := Option.map_eq_some_iff.1 hasSubject
  obtain ⟨memberNode, knownMember, rfl⟩ := Option.map_eq_some_iff.1 hasMember
  unfold qualifyConstruction?
  rw [knownSubject, knownMember]
  cases subject.constructedType? with
  | none => exact ⟨agrees, ⟨rfl, rfl, rfl⟩, nofun⟩
  | some qualifier =>
      cases found : memberName? member with
      | none => exact ⟨agrees, ⟨rfl, rfl, rfl⟩, nofun⟩
      | some named =>
          obtain ⟨name, rebuild⟩ := named
          refine Tracks.bind (blind_textAt _ state other agrees) ?_
          rintro nameText _ state₁ other₁ agrees₁ ⟨rfl, ledger₁, pending₁⟩
          refine Tracks.bind (blind_textAt _ state₁ other₁ agrees₁) ?_
          rintro text _ state₂ other₂ agrees₂ ⟨rfl, ledger₂, pending₂⟩
          refine Tracks.pure agrees₂ ⟨⟨rfl, ledger₂.trans ledger₁, pending₂.trans pending₁⟩, ?_⟩
          intro expr same
          obtain rfl := Option.some.inj same
          exact memberName?_hasSpan found _ _ _ _

/-- A declaration of a qualified type covers both parts of the access. -/
theorem qualifyDeclaration?_tracks {subject member : Expr} {left right : Span}
    (hasSubject : HasSpan subject left) (hasMember : HasSpan member right)
    (agrees : Agrees state other) :
    Tracks (fun first second final => SameQuietly state first second final ∧
        ∀ expr, first = some expr → HasSpan expr (left.join right))
      (qualifyDeclaration? subject member state) (qualifyDeclaration? subject member other) := by
  obtain ⟨subjectNode, knownSubject, rfl⟩ := Option.map_eq_some_iff.1 hasSubject
  unfold qualifyDeclaration?
  rw [knownSubject]
  cases member with
  | declaration node declared continued =>
      obtain rfl := Option.some.inj hasMember
      dsimp only
      split
      · have known : other.body.vars[declared]? = state.body.vars[declared]? := by
          rw [agrees.body]
        refine Tracks.get ?_
        rw [known]
        cases state.body.vars[declared]? with
        | none => exact ⟨agrees, ⟨rfl, rfl, rfl⟩, nofun⟩
        | some entry =>
            refine Tracks.bind (blind_modifyBody _ _ _ agrees) ?_
            rintro _ _ state₂ other₂ agrees₂ ⟨-, ledger₂, pending₂⟩
            refine Tracks.bind (blind_textAt _ state₂ other₂ agrees₂) ?_
            rintro text _ state₃ other₃ agrees₃ ⟨rfl, ledger₃, pending₃⟩
            refine Tracks.pure agrees₃ ⟨⟨rfl, ledger₃.trans ledger₂, pending₃.trans pending₂⟩, ?_⟩
            intro expr same
            obtain rfl := Option.some.inj same
            rfl
      · exact ⟨agrees, ⟨rfl, rfl, rfl⟩, nofun⟩
  | _ => exact ⟨agrees, ⟨rfl, rfl, rfl⟩, nofun⟩

/-! ## Operators with full operands -/

/-- A fold that takes everything. -/
theorem Takes.whole {anchor : Span} {expr : Expr} {final : Reduction} {count : Nat}
    (anchored : Anchored range anchor before after state)
    (changes : Changes range.start range.stop state final)
    (span : HasSpan expr (spread before anchor after)) (positive : 0 < count) :
    Takes range count state expr ⟨[], expr, []⟩ final := by
  have low := anchored.left.le
  have middle := anchored.nonempty
  have high := anchored.right.le
  have inside := anchored.right.stop_le_size
  exact Takes.around middle anchored.solid_start anchored.solid_last (shows_nil_refl (by omega))
    anchored.left anchored.right (shows_nil_refl inside) changes span positive

variable (simulates : Simulates bound operands onSegments) (agrees : Agrees state other)
  (shown : Shows state range.start range.stop (before ++ segment :: after))
  (short : (before ++ segment :: after).length ≤ bound)

include simulates agrees shown short

theorem binary_tracks (isOp : segment.op? = some op) :
    Tracks (Takes range (before ++ segment :: after).length state)
      (binary operands op segment.span.start range state)
      (OnSegments.binary onSegments op segment.span.start before after other) := by
  have anchored := anchored_of_shows shown
  have span := (shows_append_cons.1 shown).2.1.span_eq isOp
  have left := anchored.left
  have right := anchored.right
  have nonempty := anchored.nonempty
  have low := left.le
  have high := right.le
  simp only [List.length_append, List.length_cons] at short ⊢
  unfold binary OnSegments.binary
  refine Tracks.bind (simulates state other _ _ before (by omega) agrees left) ?_
  rintro first _ state₁ other₁ agrees₁ ⟨rfl, changes₁, covers₁⟩
  rw [← span]
  have right₁ := changes₁.shows_ right (.inr (Nat.le_of_lt nonempty))
  refine Tracks.bind (simulates state₁ other₁ _ _ after (by omega) agrees₁ right₁) ?_
  rintro second _ state₂ other₂ agrees₂ ⟨rfl, changes₂, covers₂⟩
  refine Tracks.bind (newNodeAround_tracks _ _ agrees₂) ?_
  rintro node _ state₃ other₃ agrees₃ ⟨⟨rfl, ledger, pending⟩, placed⟩
  refine Tracks.pure agrees₃ (Takes.whole anchored ?_ ?_ (by omega))
  · exact ((changes₁.mono (Nat.le_refl _) (by omega)).trans
      (changes₂.mono (by omega) (Nat.le_refl _))).trans (Changes.of_eq ledger pending)
  · rw [HasSpan, Expr.node?, Option.map_some, placed,
      joinNode_around left right nonempty covers₁ covers₂]

theorem assignment_tracks (isOp : segment.op? = some op) :
    Tracks (Takes range (before ++ segment :: after).length state)
      (assignment operands op segment.span.start range state)
      (OnSegments.assignment onSegments op segment.span.start before after other) := by
  have anchored := anchored_of_shows shown
  have span := (shows_append_cons.1 shown).2.1.span_eq isOp
  have left := anchored.left
  have right := anchored.right
  have nonempty := anchored.nonempty
  have low := left.le
  have high := right.le
  simp only [List.length_append, List.length_cons] at short ⊢
  unfold assignment OnSegments.assignment
  refine Tracks.bind (simulates state other _ _ before (by omega) agrees left) ?_
  rintro first _ state₁ other₁ agrees₁ ⟨rfl, changes₁, covers₁⟩
  refine Tracks.bind (required_tracks _ _ _ agrees₁) ?_
  rintro target _ state₂ other₂ agrees₂ ⟨⟨rfl, ledger₂, pending₂⟩, rfl⟩
  rw [← span]
  have changes₂ := changes₁.trans (Changes.of_eq ledger₂ pending₂)
  have right₂ := changes₂.shows_ right (.inr (Nat.le_of_lt nonempty))
  refine Tracks.bind (simulates state₂ other₂ _ _ after (by omega) agrees₂ right₂) ?_
  rintro second _ state₃ other₃ agrees₃ ⟨rfl, changes₃, covers₃⟩
  refine Tracks.bind (newNodeAround_tracks _ _ agrees₃) ?_
  rintro node _ state₄ other₄ agrees₄ ⟨⟨rfl, ledger, pending⟩, placed⟩
  refine Tracks.pure agrees₄ (Takes.whole anchored ?_ ?_ (by omega))
  · exact ((changes₂.mono (Nat.le_refl _) (by omega)).trans
      (changes₃.mono (by omega) (Nat.le_refl _))).trans (Changes.of_eq ledger pending)
  · rw [HasSpan, Expr.node?, Option.map_some, placed]
    exact congrArg some (joinNode_around left right nonempty covers₁ covers₃)

theorem conditional_tracks (isOp : segment.op? = some .question) :
    Tracks (Takes range (before ++ segment :: after).length state)
      (conditional operands segment.span.start range state)
      (OnSegments.conditional onSegments segment.span.start before after other) := by
  have anchored := anchored_of_shows shown
  have span := (shows_append_cons.1 shown).2.1.span_eq isOp
  have left := anchored.left
  have right := anchored.right
  have nonempty := anchored.nonempty
  have width : segment.span.start + 1 = segment.span.stop := by rw [span]; rfl
  unfold conditional OnSegments.conditional
  refine Tracks.getLedger ?_
  rw [width, right.heads]
  cases found : pairedColon? 0 (headsOf after) with
  | none => exact ⟨rfl, agrees⟩
  | some colon =>
      obtain ⟨front, divider, back, rfl, isColon, rfl⟩ :=
        exists_of_mem_headsOf (mem_of_pairedColon? found)
      obtain ⟨upper, standsDivider, lower⟩ := shows_append_cons.1 right
      have widthDivider : divider.span.start + 1 = divider.span.stop := by
        rw [standsDivider.span_eq isColon]
        rfl
      have low := left.le
      have inner := upper.le
      have nonemptyDivider := standsDivider.nonempty
      have high := lower.le
      dsimp only
      rw [splitAt_eq right, widthDivider]
      simp only [List.length_append, List.length_cons] at short ⊢
      refine Tracks.bind (simulates state other _ _ before (by omega) agrees left) ?_
      rintro condition _ state₁ other₁ agrees₁ ⟨rfl, changes₁, covers₁⟩
      have upper₁ := changes₁.shows_ upper (.inr (by omega))
      refine Tracks.bind (simulates state₁ other₁ _ _ front (by omega) agrees₁ upper₁) ?_
      rintro first _ state₂ other₂ agrees₂ ⟨rfl, changes₂, covers₂⟩
      have lower₂ := changes₂.shows_ (changes₁.shows_ lower (.inr (by omega))) (.inr (by omega))
      refine Tracks.bind (simulates state₂ other₂ _ _ back (by omega) agrees₂ lower₂) ?_
      rintro second _ state₃ other₃ agrees₃ ⟨rfl, changes₃, covers₃⟩
      refine Tracks.bind (newNodeAround_tracks _ _ agrees₃) ?_
      rintro inner _ state₄ other₄ agrees₄ ⟨⟨rfl, ledger₄, pending₄⟩, placed₄⟩
      refine Tracks.bind (newNodeAround_tracks _ _ agrees₄) ?_
      rintro node _ state₅ other₅ agrees₅ ⟨⟨rfl, ledger₅, pending₅⟩, placed₅⟩
      refine Tracks.pure agrees₅ (Takes.whole anchored ?_ ?_ (by omega))
      · have changed₁ := changes₁.mono (Nat.le_refl range.start)
          (show segment.span.start ≤ range.stop by omega)
        have changed₂ := changes₂.mono (show range.start ≤ segment.span.stop by omega)
          (show divider.span.start ≤ range.stop by omega)
        have changed₃ := changes₃.mono (show range.start ≤ divider.span.stop by omega)
          (Nat.le_refl range.stop)
        exact (((changed₁.trans changed₂).trans changed₃).trans
          (Changes.of_eq ledger₄ pending₄)).trans (Changes.of_eq ledger₅ pending₅)
      · have branches : Covers (front ++ divider :: back) (some
            (.operation inner .colon (first.getD .absent) (second.getD .absent))) := by
          refine ⟨by simp, ?_⟩
          rw [HasSpan, Expr.node?, Option.map_some, placed₄, hull_eq_spread]
          exact congrArg some (joinNode_around upper lower nonemptyDivider covers₂ covers₃)
        rw [HasSpan, Expr.node?, Option.map_some, placed₅]
        exact congrArg some (joinNode_around left right nonempty covers₁ branches)

/-! ## Operators with operands beside them -/

theorem access_tracks (isOp : segment.op? = some .dot) :
    Tracks (Takes range (before ++ segment :: after).length state)
      (access operands segment.span.start range state)
      (OnSegments.access onSegments segment.span.start before after other) := by
  have anchored := anchored_of_shows shown
  have span := (shows_append_cons.1 shown).2.1.span_eq isOp
  have width : segment.span.start + 1 = segment.span.stop := by rw [span]; rfl
  have nonempty := anchored.nonempty
  obtain ⟨low, shownFront, shownLeft, greedyLow⟩ := anchored.left.lastOperands
  obtain ⟨high, shownRight, shownBack, greedyHigh, -⟩ := anchored.right.firstOperands
  have lengths := length_lastOperands before
  have lengths' := length_firstOperands after
  simp only [List.length_append, List.length_cons] at short ⊢
  unfold access OnSegments.access
  refine Tracks.getLedger ?_
  rw [width, greedyLow, greedyHigh]
  refine Tracks.bind (simulates state other _ _ _ (by omega) agrees shownLeft) ?_
  rintro first _ state₁ other₁ agrees₁ ⟨rfl, changes₁, covers₁⟩
  refine Tracks.bind (required_tracks _ _ _ agrees₁) ?_
  rintro subject _ state₂ other₂ agrees₂ ⟨⟨rfl, ledger₂, pending₂⟩, rfl⟩
  have changes₂ := changes₁.trans (Changes.of_eq ledger₂ pending₂)
  have right₂ := changes₂.shows_ shownRight (.inr (Nat.le_of_lt nonempty))
  refine Tracks.bind (simulates state₂ other₂ _ _ _ (by omega) agrees₂ right₂) ?_
  rintro second _ state₃ other₃ agrees₃ ⟨rfl, changes₃, covers₃⟩
  refine Tracks.bind (required_tracks _ _ _ agrees₃) ?_
  rintro member _ state₄ other₄ agrees₄ ⟨⟨rfl, ledger₄, pending₄⟩, rfl⟩
  have bounds : low ≤ segment.span.start ∧ segment.span.stop ≤ high :=
    ⟨shownLeft.le, shownRight.le⟩
  have changes₄ : Changes low high state state₄ :=
    ((changes₂.mono (Nat.le_refl _) (by omega)).trans
      (changes₃.mono (by omega) (Nat.le_refl _))).trans (Changes.of_eq ledger₄ pending₄)
  have takes {expr : Expr} {final : Reduction} (ledger : final.ledger = state₄.ledger)
      (pending : final.pending = state₄.pending)
      (has : HasSpan expr (spread (OnSegments.lastOperands before) segment.span
        (OnSegments.firstOperands after))) :
      Takes range (before.length + (after.length + 1)) state expr
        ⟨OnSegments.dropOperands before, expr, OnSegments.skipOperands after⟩ final :=
    Takes.around nonempty anchored.solid_start anchored.solid_last shownFront shownLeft shownRight
      shownBack (changes₄.trans (Changes.of_eq ledger pending)) has (by omega)
  refine Tracks.bind (qualifyConstruction?_tracks covers₁.2 covers₃.2 agrees₄) ?_
  rintro construction _ state₅ other₅ agrees₅ ⟨⟨rfl, ledger₅, pending₅⟩, spanned₅⟩
  cases construction with
  | some construction =>
      refine Tracks.pure agrees₅ (takes ledger₅ pending₅ ?_)
      rw [spread_eq covers₁.1 covers₃.1]
      exact spanned₅ _ rfl
  | none =>
      refine Tracks.bind (qualifyDeclaration?_tracks covers₁.2 covers₃.2 agrees₅) ?_
      rintro declaration _ state₆ other₆ agrees₆ ⟨⟨rfl, ledger₆, pending₆⟩, spanned₆⟩
      have ledger := ledger₆.trans ledger₅
      have pending := pending₆.trans pending₅
      cases declaration with
      | some declaration =>
          refine Tracks.pure agrees₆ (takes ledger pending ?_)
          obtain ⟨-, -, gap, inner⟩ := shownLeft.hull covers₁.1
          obtain ⟨gap', -, -, inner'⟩ := shownRight.hull covers₃.1
          have order := gap.1
          have order' := gap'.1
          have joined := spanned₆ _ rfl
          rw [Span.join, Nat.min_eq_left (by omega), Nat.max_eq_right (by omega)] at joined
          rw [spread_eq covers₁.1 covers₃.1]
          exact joined
      | none =>
          refine Tracks.bind (newNodeAround_tracks _ _ agrees₆) ?_
          rintro node _ state₇ other₇ agrees₇ ⟨⟨rfl, ledger₇, pending₇⟩, placed⟩
          refine Tracks.pure agrees₇ (takes (ledger₇.trans ledger) (pending₇.trans pending) ?_)
          rw [HasSpan, Expr.node?, Option.map_some, placed]
          exact congrArg some (joinNode_around shownLeft shownRight nonempty covers₁ covers₃)

theorem typeTest_tracks (isOp : segment.op? = some .instanceOf) :
    Tracks (Takes range (before ++ segment :: after).length state)
      (typeTest operands segment.span.start range state)
      (OnSegments.typeTest onSegments before after other) := by
  have anchored := anchored_of_shows shown
  have span := (shows_append_cons.1 shown).2.1.span_eq isOp
  have nonempty := anchored.nonempty
  obtain ⟨low, shownFront, shownLeft, greedyLow⟩ := anchored.left.lastOperands
  obtain ⟨high, shownRight, shownBack, greedyHigh, -⟩ := anchored.right.firstOperands
  have lengths := length_lastOperands before
  have lengths' := length_firstOperands after
  simp only [List.length_append, List.length_cons] at short ⊢
  unfold typeTest OnSegments.typeTest
  refine Tracks.getLedger ?_
  rw [← span, greedyLow, greedyHigh]
  refine Tracks.bind (simulates state other _ _ _ (by omega) agrees shownLeft) ?_
  rintro first _ state₁ other₁ agrees₁ ⟨rfl, changes₁, covers₁⟩
  refine Tracks.bind (required_tracks _ _ _ agrees₁) ?_
  rintro operand _ state₂ other₂ agrees₂ ⟨⟨rfl, ledger₂, pending₂⟩, rfl⟩
  have changes₂ := changes₁.trans (Changes.of_eq ledger₂ pending₂)
  have right₂ := changes₂.shows_ shownRight (.inr (Nat.le_of_lt nonempty))
  refine Tracks.getLedger ?_
  rw [right₂.trim_isEmpty]
  cases empty : (OnSegments.firstOperands after).isEmpty with
  | true => exact ⟨rfl, agrees₂⟩
  | false =>
      have present := List.isEmpty_eq_false_iff.1 empty
      obtain ⟨gap, -, gap', inner⟩ := right₂.hull present
      have order := gap.1
      have order' := gap'.1
      rw [right₂.trim present, if_neg Bool.false_ne_true, if_neg Bool.false_ne_true]
      refine Tracks.bind (blind_textAt _ state₂ other₂ agrees₂) ?_
      rintro typeName _ state₃ other₃ agrees₃ ⟨rfl, ledger₃, pending₃⟩
      refine Tracks.markSpan ?_
      refine Tracks.bind (newNodeAround_tracks _ _ (agrees₃.mark _ _)) ?_
      rintro node _ state₄ other₄ agrees₄ ⟨⟨rfl, ledger₄, pending₄⟩, placed⟩
      have bounds : low ≤ segment.span.start ∧ segment.span.stop ≤ high :=
        ⟨shownLeft.le, shownRight.le⟩
      refine Tracks.pure agrees₄ (Takes.around nonempty anchored.solid_start anchored.solid_last
        shownFront shownLeft shownRight shownBack ?_ ?_ (by omega))
      · have marked := (Changes.mark state₃ (hull (OnSegments.firstOperands after))
          (show Tag.isSpace .resolved = false from rfl)).mono (show low ≤ _ by omega)
          (show _ ≤ high by omega)
        exact (((changes₂.mono (Nat.le_refl _) (by omega)).trans
          (Changes.of_eq ledger₃ pending₃)).trans marked).trans (Changes.of_eq ledger₄ pending₄)
      · obtain ⟨-, -, gapLeft, innerLeft⟩ := shownLeft.hull covers₁.1
        have orderLeft := gapLeft.1
        rw [HasSpan, Expr.node?, Option.map_some, placed, List.foldl_cons, List.foldl_nil,
          covers₁.2.joinNode, Span.join, Nat.min_eq_right (by omega), Nat.max_eq_left (by omega),
          ← spread_start_eq covers₁.1, ← spread_stop_eq present]

theorem unary_tracks (isOp : segment.op? = some op) :
    Tracks (Takes range (before ++ segment :: after).length state)
      (unary operands op segment.span.start range state)
      (OnSegments.unary onSegments op segment.span.start before after other) := by
  have anchored := anchored_of_shows shown
  have span := (shows_append_cons.1 shown).2.1.span_eq isOp
  have nonempty := anchored.nonempty
  obtain ⟨low, shownFront, shownLeft, greedyLow⟩ := anchored.left.lastOperands
  obtain ⟨high, shownRight, shownBack, greedyHigh, -⟩ := anchored.right.firstOperands
  have lengths := length_lastOperands before
  have lengths' := length_firstOperands after
  have inside := anchored.left.stop_le_size
  have inside' := shownRight.stop_le_size
  have bounds := shownRight.le
  simp only [List.length_append, List.length_cons] at short ⊢
  unfold unary OnSegments.unary
  refine Tracks.getLedger ?_
  rw [← span, greedyLow, greedyHigh, shownLeft.isBlank]
  dsimp only
  split
  · refine Tracks.bind (simulates state other _ _ _ (by omega) agrees shownLeft) ?_
    rintro first _ state₁ other₁ agrees₁ ⟨rfl, changes₁, covers₁⟩
    refine Tracks.bind (required_tracks _ _ _ agrees₁) ?_
    rintro operand _ state₂ other₂ agrees₂ ⟨⟨rfl, ledger₂, pending₂⟩, rfl⟩
    refine Tracks.bind (newNodeAround_tracks _ _ agrees₂) ?_
    rintro node _ state₃ other₃ agrees₃ ⟨⟨rfl, ledger₃, pending₃⟩, placed⟩
    have right : Shows state segment.span.stop segment.span.stop [] := shows_nil_refl (by omega)
    refine Tracks.pure agrees₃ (Takes.around nonempty anchored.solid_start anchored.solid_last
      shownFront shownLeft right anchored.right ?_ ?_ (by omega))
    · exact ((changes₁.trans (Changes.of_eq ledger₂ pending₂)).trans
        (Changes.of_eq ledger₃ pending₃)).mono (Nat.le_refl _) (Nat.le_of_lt nonempty)
    · have joined := joinNode_around shownLeft right nonempty covers₁
        (show Covers [] none from rfl)
      rw [HasSpan, Expr.node?, Option.map_some, placed]
      exact congrArg some joined
  · refine Tracks.bind (simulates state other _ _ _ (by omega) agrees shownRight) ?_
    rintro first _ state₁ other₁ agrees₁ ⟨rfl, changes₁, covers₁⟩
    refine Tracks.bind (required_tracks _ _ _ agrees₁) ?_
    rintro operand _ state₂ other₂ agrees₂ ⟨⟨rfl, ledger₂, pending₂⟩, rfl⟩
    refine Tracks.bind (newNodeAround_tracks _ _ agrees₂) ?_
    rintro node _ state₃ other₃ agrees₃ ⟨⟨rfl, ledger₃, pending₃⟩, placed⟩
    have left : Shows state segment.span.start segment.span.start [] := shows_nil_refl inside
    refine Tracks.pure agrees₃ (Takes.around nonempty anchored.solid_start anchored.solid_last
      anchored.left left shownRight shownBack ?_ ?_ (by omega))
    · exact ((changes₁.trans (Changes.of_eq ledger₂ pending₂)).trans
        (Changes.of_eq ledger₃ pending₃)).mono (Nat.le_of_lt nonempty) (Nat.le_refl _)
    · have joined := joinNode_around left shownRight nonempty (show Covers [] none from rfl) covers₁
      rw [HasSpan, Expr.node?, Option.map_some, placed]
      exact congrArg some joined

end

end Reduction
end MethodLowering
