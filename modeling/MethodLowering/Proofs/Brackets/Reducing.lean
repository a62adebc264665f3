import MethodLowering.Proofs.Brackets.Pairing

/-!
# Reducing segments pairs their brackets

The bracket that is folded next is the last opening one of its kind, so the first closing one behind
it is its partner.  From one fold to the next, what is left stays well nested.
-/

namespace MethodLowering
namespace Reduction

section

variable {text : List Char} {state other : Reduction} {start stop : Nat} {safe : Prop}
  {before after segments core : List Segment} {segment : Segment}
  {onSegments : OnSegments.Operands} {op : Op} {added more : List (Nat × Nat)}

/-! ## Partners -/

/-- What stands in brackets that a chain goes through is whole pairs, and so is what is left. -/
theorem bracketed?_nested {outer : List (Nat × Op)} {inner rest : List Segment}
    (shown : Shows state start stop after) (isOp : segment.op? = some op)
    (found : OnSegments.bracketed? op segment after = some (inner, rest))
    (nested : IsNested (outer ++ headsOf (segment :: after))) :
    IsNested (headsOf (segment :: inner)) ∧ IsNested (outer ++ headsOf rest) := by
  unfold OnSegments.bracketed? at found
  split at found
  · obtain ⟨closing, closes, closed⟩ := Option.bind_eq_some_iff.1 found
    obtain ⟨close, search, same⟩ := Option.map_eq_some_iff.1 closed
    obtain ⟨pairs, nested⟩ := nested
    rw [headsOf_op isOp] at nested search
    obtain ⟨heads, position, closing', rest', inside, outside, split, closes', nestedInner,
      nestedOuter⟩ := nested.exists_partner (Matching.isClosing_of_closing? closes).1
    obtain rfl : closing = closing' := Option.some.inj (closes.symm.trans closes')
    have here : close = position := by
      rw [closingHead?, if_pos (beq_self_eq_true op), split,
        nestedInner.closingHead?_append closes (Nat.succ_pos _), closingHead?,
        if_neg (by simpa using (closing?_ne closes).symm), if_pos (beq_self_eq_true closing)]
        at search
      exact (Option.some.inj search).symm
    subst here
    obtain ⟨front, last, back, rfl, isClosing, rfl, rfl, rfl⟩ := exists_of_headsOf_eq split
    obtain ⟨takes, drops⟩ := takeWhile_le_eq shown
    rw [takes, drops] at same
    obtain ⟨rfl, rfl⟩ := Prod.mk.inj same
    have around := nestedInner.around closes segment.span.start last.span.start
    refine ⟨⟨(segment.span.start, last.span.start) :: inside, ?_⟩, outside, nestedOuter⟩
    rw [headsOf_op isOp, headsOf_append, headsOf_op isClosing]
    exact around
  · contradiction

/-- The operand of a cast takes whole pairs. -/
theorem castFrom_nested (count : Nat) {outer : List (Nat × Op)} (taken : List Segment)
    (shown : Shows state start stop segments) (nested : IsNested (outer ++ headsOf segments)) :
    ∃ piece, (OnSegments.castFrom count taken segments).1 = taken ++ piece ∧
      IsNested (headsOf piece) ∧
      IsNested (outer ++ headsOf (OnSegments.castFrom count taken segments).2) := by
  induction count generalizing taken segments start with
  | zero =>
      refine ⟨_, rfl, ?_, ?_⟩
      · rw [headsOf_firstOperands]
        exact ⟨[], Nested.nil⟩
      · rw [OnSegments.castFrom, headsOf_skipOperands]
        exact nested
  | succ count induction =>
      have first : IsNested (headsOf (OnSegments.firstOperands segments)) := by
        rw [headsOf_firstOperands]
        exact ⟨[], Nested.nil⟩
      rw [OnSegments.castFrom]
      rw [← firstOperands_append segments] at shown
      rw [← headsOf_skipOperands segments] at nested
      obtain ⟨middle, -, shownRest⟩ := shown.split
      generalize OnSegments.skipOperands segments = rest at nested shownRest
      generalize OnSegments.firstOperands segments = leading at first
      cases rest with
      | nil => exact ⟨_, rfl, first, nested⟩
      | cons next behind =>
          obtain ⟨-, -, shownBehind⟩ := shownRest
          dsimp only
          split
          · exact ⟨_, rfl, first, nested⟩
          · split
            · next isDot =>
                have isOp : next.op? = some .dot := eq_of_beq isDot
                have link : IsNested (headsOf [next]) := by
                  rw [headsOf_op isOp]
                  exact ⟨[], Nested.of_plain (by simp [headsOf, Op.isOpening, Op.isClosing])⟩
                rw [headsOf_op isOp] at nested
                obtain ⟨pairs, nested⟩ := nested
                obtain ⟨piece, same, inside, outside⟩ :=
                  induction (taken ++ leading ++ [next]) shownBehind ⟨_, nested.erase rfl rfl⟩
                refine ⟨leading ++ [next] ++ piece, by rw [same]; simp, ?_, outside⟩
                rw [headsOf_append, headsOf_append]
                exact (first.append link).append inside
            · split
              · next inner tail found =>
                  obtain ⟨op, isOp, bracketed⟩ := Option.bind_eq_some_iff.1 found
                  obtain ⟨whole, left⟩ := bracketed?_nested shownBehind isOp bracketed nested
                  rw [← bracketed?_append bracketed] at shownBehind
                  obtain ⟨_, -, shownTail⟩ := shownBehind.split
                  obtain ⟨piece, same, inside, outside⟩ :=
                    induction (taken ++ leading ++ next :: inner) shownTail left
                  refine ⟨leading ++ next :: inner ++ piece, by rw [same]; simp, ?_, outside⟩
                  rw [headsOf_append, headsOf_append]
                  exact (first.append whole).append inside
              · exact ⟨_, rfl, first, nested⟩

/-! ## Folds of brackets -/

/-- Operands next to brackets have no brackets of their own. -/
theorem PairedOperands.lastOperands (paired : PairedOperands text onSegments)
    (depicts : Depicts text state start stop before) (chars : other.ledger.chars = text) :
    Balances other safe
      (fun result added => Found (OnSegments.lastOperands before) added ∧
        (result = none → OnSegments.lastOperands before = []))
      (onSegments (OnSegments.lastOperands before) other) := by
  obtain ⟨low, last⟩ := depicts.lastOperands
  refine (paired _ _ _ _ other last chars).imp (fun _ => ?_) fun _ _ holds => holds
  rw [headsOf_lastOperands]
  exact ⟨[], Nested.nil⟩

/-- A fold of brackets with the operands in front of them. -/
theorem foldPairs_behind {expr : Expr} {taken back : List Segment}
    (split : after = taken ++ back) (plain : headsOf taken = []) (found : Found core added)
    (first : Found (OnSegments.lastOperands before) more)
    (outer : safe → IsNested (headsOf (before ++ after))) :
    FoldPairs safe (before ++ core ++ after) ⟨OnSegments.dropOperands before, expr, back⟩
      (more ++ added) := by
  subst split
  refine ⟨⟨OnSegments.lastOperands before ++ core ++ taken, ?_, ?_⟩, fun holds => ?_⟩
  · conv_lhs => rw [← dropOperands_append before]
    simp
  · refine ((first.append found).append (found_of_nil plain)).mono fun pair member => ?_
    simpa [or_comm] using member
  · have nested := outer holds
    simp only [headsOf_append, headsOf_dropOperands, plain, List.nil_append] at nested ⊢
    exact nested

theorem paren_balances {position close count : Nat} {content : Option Expr}
    (paired : PairedOperands text onSegments) (left : Depicts text state start position before)
    (right : Depicts text state (close + 1) stop after) (found : Found core added)
    (outer : safe → IsNested (headsOf (before ++ after))) (chars : other.ledger.chars = text) :
    Balances other safe
      (fun folded more => FoldPairs safe (before ++ core ++ after) folded (more ++ added))
      (OnSegments.paren onSegments position close count content before after other) := by
  unfold OnSegments.paren
  dsimp only
  split
  · next present =>
      refine Balances.bind (paired.lastOperands left chars) fun callee state₁ added₁ _ found₁ => ?_
      cases callee with
      | none =>
          rw [found₁.2 rfl] at present
          contradiction
      | some callee =>
          refine Silent.andThen (silent_newNodeAround _ _) fun node state₂ _ => Balances.pure ?_
          exact foldPairs_behind (List.nil_append after).symm rfl found found₁.1 outer
  · have cast : ∃ operand back, OnSegments.castFrom count [] after = (operand, back) :=
      ⟨_, _, rfl⟩
    obtain ⟨operand, back, cast⟩ := cast
    have all := castFrom_append count [] after
    rw [cast, List.nil_append] at all
    have whole (holds : safe) : IsNested (headsOf operand) ∧
        IsNested (headsOf (before ++ back)) := by
      have nested := outer holds
      rw [headsOf_append] at nested
      obtain ⟨piece, same, inside, outside⟩ := castFrom_nested count [] right.shown nested
      rw [cast] at same outside
      dsimp only at same outside
      rw [List.nil_append] at same
      rw [same, headsOf_append]
      exact ⟨inside, outside⟩
    rw [cast]
    dsimp only
    cases typing : (if operand.isEmpty = true then none else content.bind castType?) with
    | none =>
        refine Silent.andThen (silent_newNode _) fun node state₁ _ => Balances.pure ?_
        exact ⟨⟨core, rfl, found⟩, outer⟩
    | some typeName =>
        obtain ⟨high, first⟩ : ∃ high, Depicts text state (close + 1) high operand := by
          rw [← all] at right
          obtain ⟨high, first, -⟩ := right.parts
          exact ⟨high, first⟩
        dsimp only
        refine Balances.bind ((paired _ _ _ _ other first chars).imp (fun holds => (whole holds).1)
          fun _ _ holds => holds) fun target state₁ added₁ _ found₁ => ?_
        cases target with
        | none =>
            rw [found₁.2 rfl] at typing
            contradiction
        | some target =>
            refine Silent.andThen (silent_newNodeAround _ _) fun node state₂ _ => Balances.pure ?_
            refine ⟨⟨core ++ operand, ?_, found.append found₁.1⟩, fun holds => (whole holds).2⟩
            rw [← all]
            simp

/-- What an index takes in are finished expressions. -/
theorem absorb_plain (count : Nat) (indices : List Expr) (stop : Nat) (segments : List Segment) :
    ∃ taken, segments = taken ++ (OnSegments.absorb count indices stop segments).2 ∧
      headsOf taken = [] := by
  induction count generalizing indices stop segments with
  | zero => exact ⟨[], rfl, rfl⟩
  | succ count induction =>
      cases segments with
      | nil => exact ⟨[], rfl, rfl⟩
      | cons segment rest =>
          rw [OnSegments.absorb]
          split
          · exact ⟨[], rfl, rfl⟩
          · next further initializer absorbs =>
              obtain ⟨expr, isTree, -⟩ := Option.bind_eq_some_iff.1 absorbs
              have operand : segment.isOperand = true := by
                obtain ⟨span, piece⟩ := segment
                cases piece with
                | op op => contradiction
                | word => rfl
                | tree expr => rfl
              split
              · exact ⟨[segment], rfl, headsOf_operand operand []⟩
              · obtain ⟨taken, all, plain⟩ := induction (indices ++ further) segment.span.stop rest
                refine ⟨segment :: taken, by rw [List.cons_append, ← all], ?_⟩
                rw [headsOf_operand operand, plain]

theorem index_balances {position close count : Nat} {content : Option Expr}
    (paired : PairedOperands text onSegments) (left : Depicts text state start position before)
    (found : Found core added) (outer : safe → IsNested (headsOf (before ++ after)))
    (chars : other.ledger.chars = text) :
    Balances other safe
      (fun folded more => FoldPairs safe (before ++ core ++ after) folded (more ++ added))
      (OnSegments.index onSegments position close count content before after other) := by
  unfold OnSegments.index
  refine Balances.bind (paired.lastOperands left chars) fun target state₁ added₁ _ found₁ => ?_
  obtain ⟨taken, all, plain⟩ := absorb_plain count [content.getD .absent] (close + 1) after
  refine Silent.andThen (silent_newNode _) fun node state₂ _ => Balances.pure ?_
  exact foldPairs_behind all plain found found₁.1 outer

/-- A list is split only once at the first element without a property. -/
theorem append_cons_inj_of_first {α : Type} {test : α → Bool} {left left' right right' : List α}
    {x x' : α} (same : left ++ x :: right = left' ++ x' :: right')
    (before : ∀ y ∈ left, test y = true) (before' : ∀ y ∈ left', test y = true)
    (here : test x = false) (here' : test x' = false) : left = left' ∧ right = right' := by
  have first := congrArg (List.takeWhile test) same
  rw [List.takeWhile_append_of_pos before, List.takeWhile_append_of_pos before',
    List.takeWhile_cons_of_neg (by simp [here]), List.takeWhile_cons_of_neg (by simp [here']),
    List.append_nil, List.append_nil] at first
  subst first
  exact ⟨rfl, (List.cons.inj (List.append_cancel_left same)).2⟩

theorem bracket_balances (count : Nat) (paired : PairedOperands text onSegments)
    (depicts : Depicts text state start stop (before ++ segment :: after))
    (isOp : segment.op? = some op) (opens : op.isOpening = true)
    (rightmost : ∀ head ∈ headsOf after, head.2 ≠ op) (chars : other.ledger.chars = text) :
    FoldBalances other (before ++ segment :: after)
      (OnSegments.bracket onSegments op segment.span.start count before after other) := by
  obtain ⟨front, -, stands, back⟩ := depicts.split
  -- the partner on the stack is the first closing bracket of the kind
  have partner (nested : IsNested (headsOf (before ++ segment :: after))) :
      ∃ inner position closing rest inside outside,
        headsOf after = inner ++ (position, closing) :: rest ∧ op.closing? = some closing ∧
          Nested inner inside ∧ Nested (headsOf before ++ rest) outside ∧
          ∀ head ∈ inner, head.2 ≠ closing := by
    obtain ⟨pairs, nested⟩ := nested
    rw [headsOf_append, headsOf_op isOp] at nested
    obtain ⟨inner, position, closing, rest, inside, outside, split, closes, within, around⟩ :=
      nested.exists_partner opens
    refine ⟨inner, position, closing, rest, inside, outside, split, closes, within, around, ?_⟩
    exact within.ne_closing closes fun head member => rightmost head (by rw [split]; simp [member])
  unfold OnSegments.bracket
  cases closes : op.closing? with
  | none =>
      intro nested
      obtain ⟨_, _, closing, _, _, _, _, known, _⟩ := partner nested
      rw [closes] at known
      contradiction
  | some closing =>
      dsimp only
      cases found : (headsOf after).find? (·.2 == closing) with
      | none =>
          intro nested
          obtain ⟨inner, position, closing', rest, _, _, split, known, _⟩ := partner nested
          obtain rfl := Option.some.inj (closes.symm.trans known)
          rw [List.find?_eq_none] at found
          exact absurd (beq_self_eq_true closing) (found (position, closing) (by simp [split]))
      | some head =>
          obtain ⟨close, found'⟩ := head
          obtain ⟨same, heads, later, split, earlier⟩ := List.find?_eq_some_iff_append.1 found
          obtain rfl : found' = closing := eq_of_beq same
          obtain ⟨inner, last, rest, rfl, isClosing, rfl, rfl, rfl⟩ := exists_of_headsOf_eq split
          obtain ⟨depictsInner, -, standsLast, depictsRest⟩ := back.split
          have widthLast : last.span.start + 1 = last.span.stop := by
            rw [standsLast.span_eq isClosing, opSpan, closing?_width closes]
          have parts (nested : IsNested (headsOf (before ++ segment :: (inner ++ last :: rest)))) :
              IsNested (headsOf inner) ∧ IsNested (headsOf (before ++ rest)) := by
            obtain ⟨heads, position, closing', tail, inside, outside, split', known, within, around,
              none⟩ := partner nested
            obtain rfl := Option.some.inj (closes.symm.trans known)
            rw [split] at split'
            obtain ⟨sameInner, sameRest⟩ := @append_cons_inj_of_first _
              (fun head : Nat × Op => !(head.2 == found')) _ _ _ _ _ _ split' earlier
              (fun head member => by simpa using none head member) (by simp) (by simp)
            rw [sameInner, headsOf_append, sameRest]
            exact ⟨⟨_, within⟩, _, around⟩
          dsimp only
          rw [splitAt_eq back.shown]
          have recorded : Balances other (IsNested (headsOf (before ++ segment ::
              (inner ++ last :: rest))))
              (fun _ added => added = [(segment.span.start, last.span.start)])
              (recordPair segment.span.start last.span.start other) :=
            ⟨rfl, _, rfl, rfl⟩
          refine Balances.bind recorded fun _ state₀ added₀ chars₀ noted => ?_
          subst noted
          have chars₀ := chars₀.trans chars
          refine Balances.bind ((paired _ _ _ _ state₀ depictsInner chars₀).imp
            (fun nested => (parts nested).1) fun _ _ holds => holds)
            fun content state₁ added₁ chars₁ found₁ => ?_
          have chars₁ := chars₁.trans chars₀
          have core : Found (segment :: inner ++ [last])
              (added₁ ++ [(segment.span.start, last.span.start)]) := by
            obtain ⟨pairs, nested, among⟩ := found₁.1
            refine ⟨(segment.span.start, last.span.start) :: pairs, ?_, fun pair member => ?_⟩
            · have around := nested.around closes segment.span.start last.span.start
              rw [List.cons_append, headsOf_op isOp, headsOf_append, headsOf_op isClosing]
              exact around
            · rcases List.mem_append.1 member with inAdded | first
              · exact List.mem_cons_of_mem _ (among pair inAdded)
              · rw [List.mem_singleton.1 first]
                exact List.mem_cons_self
          rw [show before ++ segment :: (inner ++ last :: rest) =
            before ++ (segment :: inner ++ [last]) ++ rest by simp] at parts ⊢
          rw [← widthLast] at depictsRest
          simp only [List.append_assoc _ added₁] at core ⊢
          cases op with
          | openParen =>
              exact paren_balances paired front depictsRest core (fun nested => (parts nested).2)
                chars₁
          | openBracket =>
              exact index_balances paired front core (fun nested => (parts nested).2) chars₁
          | openBrace =>
              refine Silent.andThen (silent_newNode _) fun node state₂ _ => Balances.pure ?_
              exact ⟨⟨_, rfl, core⟩, fun nested => (parts nested).2⟩
          | _ => contradiction

/-! ## Rounds -/

/-- The last opening bracket of a kind is chosen before what stands in front of it. -/
theorem IsChosen.ne_behind {candidate : Candidate} {front : List Candidate} {last : Option Segment}
    (isChosen : IsChosen candidate front (OnSegments.candidatesFrom last after))
    (opens : candidate.op.isOpening = true) (level : candidate.level = candidate.op.row.level) :
    ∀ head ∈ headsOf after, head.2 ≠ candidate.op := by
  rintro ⟨position, op⟩ member rfl
  obtain ⟨front', segment, back', rfl, isOp, -⟩ := exists_of_mem_headsOf member
  have low : candidate.op.row.level < 4 ∧ candidate.op.isClosing = false := by
    revert opens
    cases candidate.op <;> decide
  have above := OnSegments.le_level_of_mem (isChosen.later level (.inl low.1))
    (show segment ∈ front' ++ segment :: back' by simp) isOp low.2
  omega

/-- No bracket opens where another operator is chosen. -/
theorem IsChosen.unopened {candidate : Candidate}
    (isChosen : IsChosen candidate (OnSegments.candidatesFrom none before)
      (OnSegments.candidatesFrom (some segment) after)) (isOp : segment.op? = some candidate.op)
    (opens : candidate.op.isOpening = false) (closes : candidate.op.isClosing = false) :
    ∀ head ∈ headsOf (before ++ segment :: after), head.2.isOpening = false := by
  have level : 3 ≤ candidate.level := by
    rw [Candidate.level]
    split
    · decide
    · revert opens closes
      cases candidate.op <;> decide
  have above {op : Op} (bound : 3 ≤ op.row.level) : op.isOpening = false := by
    revert bound
    cases op <;> decide
  rintro ⟨position, op⟩ member
  rw [headsOf_append, headsOf_op isOp] at member
  have plain (bound : op.isClosing = false → 3 ≤ op.row.level) : op.isOpening = false := by
    cases closing : op.isClosing with
    | true => exact Matching.not_isOpening_of_isClosing closing
    | false => exact above (bound closing)
  rcases List.mem_append.1 member with inFront | behind
  · obtain ⟨front, other, back, rfl, isOther, -⟩ := exists_of_mem_headsOf inFront
    refine plain fun open_ => Nat.le_trans level ?_
    exact OnSegments.le_level_of_mem isChosen.front_le (by simp) isOther open_
  · rcases List.mem_cons.1 behind with same | inBack
    · obtain ⟨-, rfl⟩ := Prod.mk.inj same
      exact opens
    · obtain ⟨front, other, back, rfl, isOther, -⟩ := exists_of_mem_headsOf inBack
      refine plain fun open_ => Nat.le_trans level ?_
      exact OnSegments.le_level_of_mem isChosen.back_le (by simp) isOther open_

theorem fold_balances {candidate : Candidate} (count : Nat)
    (paired : PairedOperands text onSegments)
    (depicts : Depicts text state start stop (before ++ segment :: after))
    (isOp : segment.op? = some candidate.op) (closes : candidate.op.isClosing = false)
    (same : candidate = OnSegments.candidateOf before.getLast? segment candidate.op)
    (isChosen : IsChosen candidate (OnSegments.candidatesFrom none before)
      (OnSegments.candidatesFrom (some segment) after)) (chars : other.ledger.chars = text) :
    FoldBalances other (before ++ segment :: after)
      (OnSegments.fold onSegments candidate count before after other) := by
  have behind (opens : candidate.op.isOpening = true) :
      ∀ head ∈ headsOf after, head.2 ≠ candidate.op := by
    refine isChosen.ne_behind opens ?_
    rw [same]
    exact OnSegments.level_candidateOf _ _ (by rintro plus; rw [plus] at opens; contradiction)
      (by rintro minus; rw [minus] at opens; contradiction)
  have unopened (opens : candidate.op.isOpening = false) := isChosen.unopened isOp opens closes
  have position : candidate.position = segment.span.start := by rw [same]; rfl
  clear same isChosen
  obtain ⟨place, op, isSign⟩ := candidate
  dsimp only at isOp position closes behind unopened
  subst position
  refine OnSegments.fold_cases (motive := fun folds =>
    FoldBalances other (before ++ segment :: after) (folds other)) ?_ ?_ ?_ ?_ ?_ ?_ ?_ ?_
  · exact fun opens => bracket_balances count paired depicts isOp opens (behind opens) chars
  · exact fun same =>
      conditional_balances paired depicts (unopened (same ▸ rfl)) chars (same ▸ isOp)
  · exact fun same => access_balances paired depicts (unopened (same ▸ rfl)) chars (same ▸ isOp)
  · exact fun same => typeTest_balances paired depicts (unopened (same ▸ rfl)) chars (same ▸ isOp)
  · exact fun own => unary_balances paired depicts (unopened own) chars isOp closes
  · exact fun own => assignment_balances paired depicts (unopened own) chars isOp closes
  · exact fun closing => absurd (closing.symm.trans closes) Bool.true_eq_false.mp
  · exact fun own => binary_balances paired depicts (unopened own) chars isOp closes

theorem rounds_balances (paired : PairedOperands text onSegments)
    (fit : FitOperands text onSegments) (count : Nat) {range : Span}
    (depicts : Depicts text state range.start range.stop segments) (spans : hull segments = range)
    (present : segments ≠ []) (chars : other.ledger.chars = text) :
    Balances other (IsNested (headsOf segments)) (fun _ added => Found segments added)
      (OnSegments.rounds onSegments count segments other) := by
  induction count generalizing state other segments with
  | zero => exact Silent.andThen (silent_textAt _) fun _ _ _ _ => rfl
  | succ count induction =>
      unfold OnSegments.rounds
      refine Silent.andThen (silent_modifyBody _) fun _ state₁ chars₁ => ?_
      have chars₁ := chars₁.trans chars
      cases whole : OnSegments.whole? segments with
      | some expr =>
          refine Balances.pure (found_of_nil ?_)
          unfold OnSegments.whole? at whole
          split at whole
          · next segment =>
              refine headsOf_operand ?_ []
              obtain ⟨span, piece⟩ := segment
              cases piece <;> first | contradiction | rfl
          · contradiction
      | none =>
          dsimp only
          unfold OnSegments.next
          cases best : OnSegments.best? segments with
          | none =>
              dsimp only
              cases heads : headsOf segments with
              | nil => exact (silent_leaf segments).balances fun _ => found_of_nil heads
              | cons head rest =>
                  -- only closing brackets are left, the first without partner
                  rintro ⟨pairs, nested⟩
                  obtain ⟨position, op⟩ := head
                  obtain ⟨before, segment, after, split, isOp, -, -, -⟩ :=
                    @exists_of_headsOf_eq segments op position [] rest heads
                  have closes := OnSegments.isClosing_of_best?_eq_none best split isOp
                  have reads := nested [] []
                  obtain ⟨middle, first, -⟩ := Matching.exists_of_readAll_cons reads
                  rcases Matching.read_cases first
                    with ⟨opens, -⟩ | ⟨_, _, stacked, -⟩ | ⟨-, plain, -⟩
                  · rw [Matching.not_isOpening_of_isClosing closes] at opens
                    contradiction
                  · contradiction
                  · rw [closes] at plain
                    contradiction
          | some candidate =>
              obtain ⟨before, segment, after, rfl, isOp, closes, same, isChosen⟩ :=
                OnSegments.exists_of_best?_eq_some best
              have position : candidate.position = segment.span.start := by rw [same]; rfl
              dsimp only
              rw [pure_bind]
              dsimp only
              rw [position, splitAt_eq depicts.shown]
              have balances :=
                (fold_balances (hull (before ++ segment :: after)).length paired depicts
                isOp closes same isChosen chars₁).and_ensures
                (fold_ensures fit depicts isOp position chars₁)
              refine Balances.bind balances fun folded state₂ added₂ chars₂ holds => ?_
              obtain ⟨front, expr, back⟩ := folded
              obtain ⟨⟨⟨middle, split, found⟩, left⟩, faithful, middle', split', solid, span⟩ :=
                holds
              dsimp only at split left faithful split' span ⊢
              obtain rfl : middle = middle' := by
                rw [split'] at split
                exact (List.append_cancel_left (List.append_cancel_right split)).symm
              split
              · next none =>
                  rw [Bool.and_eq_true, List.isEmpty_iff, List.isEmpty_iff] at none
                  obtain ⟨rfl, rfl⟩ := none
                  rw [List.nil_append, List.append_nil] at split
                  rw [split]
                  exact Balances.pure found
              · have first := depicts.shown.isSpace_hull_start present
                have last := depicts.shown.isSpace_hull_stop present
                rw [spans] at first last
                rw [split] at depicts
                obtain ⟨final, depicts', spaces⟩ := depicts.folded solid span faithful
                have tree (rest : List Segment) :
                    headsOf (⟨hull middle, .tree expr⟩ :: rest) = headsOf rest :=
                  headsOf_operand rfl rest
                rw [show expr.node?.map (·.span) = some (hull middle) from span, Option.getD_some]
                refine (induction depicts' (depicts'.shown.hull_eq (by simp)
                  ((spaces _).trans first) ((spaces _).trans last)) (by simp)
                  (chars₂.trans chars₁)).imp (fun nested => ?_) fun _ more rest => ?_
                · have nested := left nested
                  rw [headsOf_append] at nested
                  rw [headsOf_append, tree]
                  exact nested
                · obtain ⟨pairs, nested, among⟩ := rest
                  obtain ⟨pairs', nested', among'⟩ := found
                  rw [headsOf_append, tree] at nested
                  obtain ⟨all, nestedAll, outside, inside⟩ := nested.insert nested'
                  refine ⟨all, ?_, fun pair member => ?_⟩
                  · rw [split, headsOf_append, headsOf_append]
                    exact nestedAll
                  · rcases List.mem_append.1 member with inMore | inAdded
                    · exact outside pair (among pair inMore)
                    · exact inside pair (among' pair inAdded)

theorem reduce_paired (nesting depth : Nat) :
    PairedOperands text (OnSegments.reduce nesting depth) := by
  induction nesting generalizing depth with
  | zero =>
      intro state start stop segments other depicts chars
      exact Silent.andThen (silent_textAt _) fun _ _ _ _ => rfl
  | succ nesting induction =>
      intro state start stop segments other depicts chars
      unfold OnSegments.reduce
      refine Silent.andThen (silent_deepen depth) fun _ state₁ chars₁ => ?_
      split
      · next none =>
          rw [List.isEmpty_iff] at none
          subst none
          exact Balances.pure ⟨found_of_nil rfl, fun _ => rfl⟩
      · next some =>
          rw [List.isEmpty_iff] at some
          obtain ⟨-, inner, -, -⟩ := depicts.shown.hull some
          refine Balances.bind (rounds_balances (induction (depth + 1))
            (reduce_fit nesting (depth + 1))
            Limits.reductionRounds ⟨depicts.portrays, inner, depicts.fits⟩ rfl some
            (chars₁.trans chars)) fun expr state₂ added₂ _ found => ?_
          exact Balances.pure ⟨found, fun absent => absurd absent (Option.some_ne_none expr)⟩

/-- Reducing a statement pairs the brackets of its segments. -/
theorem statement_balances (nesting : Nat) (depicts : Depicts text state start stop segments)
    (chars : other.ledger.chars = text) :
    Balances other (IsNested (headsOf segments)) (fun _ added => Found segments added)
      (OnSegments.statement nesting segments other) := by
  unfold OnSegments.statement
  refine Silent.andThen (silent_modifyBody _) fun _ state₁ chars₁ => ?_
  refine Balances.bind (reduce_paired nesting 1 _ _ _ segments state₁ depicts (chars₁.trans chars))
    fun result state₂ added₂ _ found => ?_
  exact ⟨rfl, [], rfl, found.1⟩

end

end Reduction
end MethodLowering
