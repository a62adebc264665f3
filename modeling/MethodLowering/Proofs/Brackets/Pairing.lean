import MethodLowering.Proofs.Brackets.Matching
import MethodLowering.Proofs.Reduction.Lossless
import MethodLowering.Proofs.Roundtrip.Choosing

/-!
# Brackets that a reduction combines

While segments are reduced, every pair of brackets that is combined is a pair of the stack matching
of their operators; and where the operators are well nested, no bracket is found without partner.
-/

namespace MethodLowering

/-- A bracket without partner is the reason. -/
def Failure.isUnbalanced : Failure → Bool
  | .malformed (.unbalancedBracket ..) => true
  | _ => false

/-- The operators are well nested by kind. -/
def IsNested (heads : List (Nat × Op)) : Prop := ∃ pairs, Nested heads pairs

theorem IsNested.append {front back : List (Nat × Op)} (left : IsNested front)
    (right : IsNested back) : IsNested (front ++ back) := by
  obtain ⟨_, left⟩ := left
  obtain ⟨_, right⟩ := right
  exact ⟨_, left.append right⟩

/-- Where no bracket opens, a part of well-nested operators is well nested. -/
theorem IsNested.part {heads part : List (Nat × Op)} (nested : IsNested heads)
    (unopened : ∀ head ∈ heads, head.2.isOpening = false) (among : ∀ head ∈ part, head ∈ heads) :
    IsNested part := by
  obtain ⟨pairs, nested⟩ := nested
  exact ⟨[], Nested.of_plain fun head member =>
    nested.plain_of_not_opening unopened head (among head member)⟩

namespace Reduction

/-! ## Results -/

/-- A success adds pairs that have the property; a failure, where `safe` holds, is not for a bracket
without partner. -/
def Balances {α : Type} (state : Reduction) (safe : Prop)
    (property : α → List (Nat × Nat) → Prop) : EStateM.Result Failure Reduction α → Prop
  | .ok value after => after.ledger.chars = state.ledger.chars ∧
      ∃ added, after.pairs = added ++ state.pairs ∧ property value added
  | .error failure _ => safe → failure.isUnbalanced = false

/-- The computation combines no brackets and asks for none. -/
def Silent {α : Type} (computation : ReduceM α) : Prop :=
  ∀ state, Balances state True (fun _ added => added = []) (computation state)

section

variable {α β : Type} {state : Reduction} {safe safe' : Prop}

theorem Balances.bind {first : α → List (Nat × Nat) → Prop} {second : β → List (Nat × Nat) → Prop}
    {computation : ReduceM α} {next : α → ReduceM β}
    (balances : Balances state safe first (computation state))
    (later : ∀ value after added, after.ledger.chars = state.ledger.chars → first value added →
      Balances after safe (fun result more => second result (more ++ added)) (next value after)) :
    Balances state safe second ((computation >>= next) state) := by
  simp only [Bind.bind, EStateM.bind]
  generalize computation state = result at balances
  cases result with
  | error failure after => exact balances
  | ok value after =>
      obtain ⟨chars, added, pairs, holds⟩ := balances
      have rest := later value after added chars holds
      dsimp only
      generalize next value after = result at rest
      cases result with
      | error failure final => exact rest
      | ok value final =>
          obtain ⟨chars', more, pairs', holds'⟩ := rest
          exact ⟨chars'.trans chars, more ++ added,
            by rw [pairs', pairs, List.append_assoc], holds'⟩

theorem Balances.imp {first second : α → List (Nat × Nat) → Prop}
    {result : EStateM.Result Failure Reduction α} (balances : Balances state safe first result)
    (weaker : safe' → safe) (implies : ∀ value added, first value added → second value added) :
    Balances state safe' second result := by
  cases result with
  | error failure after => exact fun holds => balances (weaker holds)
  | ok value after =>
      obtain ⟨chars, added, pairs, holds⟩ := balances
      exact ⟨chars, added, pairs, implies value added holds⟩

/-- What is known of the value of a success besides. -/
theorem Balances.and_ensures {text : List Char} {first : α → List (Nat × Nat) → Prop}
    {second : α → Prop} {result : EStateM.Result Failure Reduction α}
    (balances : Balances state safe first result) (ensures : Ensures text second result) :
    Balances state safe (fun value added => first value added ∧ second value) result := by
  cases result with
  | error failure after => exact balances
  | ok value after =>
      obtain ⟨chars, added, pairs, holds⟩ := balances
      exact ⟨chars, added, pairs, holds, ensures.2⟩

theorem Balances.pure {property : α → List (Nat × Nat) → Prop} {value : α}
    (holds : property value []) :
    Balances state safe property ((Pure.pure value : ReduceM α) state) :=
  ⟨rfl, [], rfl, holds⟩

/-! ## Computations without brackets -/

theorem Silent.balances {property : α → List (Nat × Nat) → Prop} {computation : ReduceM α}
    (silent : Silent computation) (holds : ∀ value, property value []) :
    Balances state safe property (computation state) := by
  refine (silent state).imp (fun _ => trivial) fun value added none => ?_
  rw [none]
  exact holds value

theorem Silent.andThen {property : β → List (Nat × Nat) → Prop} {computation : ReduceM α}
    {next : α → ReduceM β} (silent : Silent computation)
    (later : ∀ value after, after.ledger.chars = state.ledger.chars →
      Balances after safe property (next value after)) :
    Balances state safe property ((computation >>= next) state) := by
  refine Balances.bind ((silent state).imp (fun _ => trivial) fun _ _ none => none)
    fun value after added chars none => ?_
  subst none
  simpa using later value after chars

theorem Silent.pure (value : α) : Silent (Pure.pure value) := fun _ => ⟨rfl, [], rfl, rfl⟩

theorem Silent.bind {computation : ReduceM α} {next : α → ReduceM β} (first : Silent computation)
    (second : ∀ value, Silent (next value)) : Silent (computation >>= next) :=
  fun _ => first.andThen fun value after _ => second value after

theorem silent_get : Silent (get : ReduceM Reduction) := fun _ => ⟨rfl, [], rfl, rfl⟩

theorem silent_getLedger : Silent getLedger := fun _ => ⟨rfl, [], rfl, rfl⟩

theorem silent_modifyBody (change : Body → Body) : Silent (modifyBody change) :=
  fun _ => ⟨rfl, [], rfl, rfl⟩

theorem silent_textAt (span : Span) : Silent (textAt span) := by
  intro state
  rcases textAt_cases span state with ⟨-, read⟩ | ⟨-, strays⟩
  · rw [read]
    exact ⟨rfl, [], rfl, rfl⟩
  · rw [strays]
    exact fun _ => rfl

theorem silent_newNode (span : Span) : Silent (newNode span) :=
  (silent_textAt span).bind fun _ => silent_get.bind fun _ =>
    (silent_modifyBody _).bind fun _ => Silent.pure _

theorem silent_newNodeAround (anchor : Span) (operands : List Expr) :
    Silent (newNodeAround anchor operands) :=
  silent_newNode _

theorem silent_deepen (depth : Nat) :
    Silent (modify fun state => { state with deepest := max state.deepest depth }) :=
  fun _ => ⟨rfl, [], rfl, rfl⟩

theorem silent_reject {error : SourceError}
    (other : (Failure.malformed error).isUnbalanced = false) : Silent (reject error : ReduceM α) :=
  fun _ _ => other

theorem silent_required (operand : Option Expr) (op : Op) (context : String) :
    Silent (required operand op context) := by
  cases operand with
  | none => exact silent_reject rfl
  | some expr => exact Silent.pure expr

theorem silent_qualifyConstruction? (subject member : Expr) :
    Silent (qualifyConstruction? subject member) := by
  unfold qualifyConstruction?
  split
  · exact (silent_textAt _).bind fun _ => (silent_textAt _).bind fun _ => Silent.pure _
  · exact Silent.pure _

theorem silent_qualifyDeclaration? (subject member : Expr) :
    Silent (qualifyDeclaration? subject member) := by
  unfold qualifyDeclaration?
  split
  · split
    · refine silent_get.bind fun state => ?_
      split
      · exact (silent_modifyBody _).bind fun _ => (silent_textAt _).bind fun _ => Silent.pure _
      · exact Silent.pure _
    · exact Silent.pure _
  · exact Silent.pure _

theorem silent_classify (span : Span) (text : List Char) : Silent (classify span text) := by
  unfold classify
  split
  · exact (silent_newNode _).bind fun _ => Silent.pure _
  · split
    · exact silent_reject rfl
    · exact (silent_newNode _).bind fun _ => Silent.pure _
    · exact silent_get.bind fun _ => (silent_modifyBody _).bind fun _ =>
        (silent_newNode _).bind fun _ => Silent.pure _

theorem silent_leaf (segments : List Segment) : Silent (OnSegments.leaf segments) := by
  unfold OnSegments.leaf
  split
  · exact (silent_newNode _).bind fun _ => Silent.pure _
  · exact silent_getLedger.bind fun _ => silent_classify _ _

end

/-! ## Pairs of segments -/

/-- The operators of the segments are well nested, and the pairs are among theirs. -/
def Found (segments : List Segment) (added : List (Nat × Nat)) : Prop :=
  ∃ pairs, Nested (headsOf segments) pairs ∧ ∀ pair ∈ added, pair ∈ pairs

/-- What a fold does to brackets: the segments it takes are well nested, and so are, where `safe`
holds, the ones that are left. -/
structure FoldPairs (safe : Prop) (segments : List Segment) (folded : OnSegments.Folded)
    (added : List (Nat × Nat)) : Prop where
  taken : ∃ middle, segments = folded.front ++ middle ++ folded.back ∧ Found middle added
  left : safe → IsNested (headsOf (folded.front ++ folded.back))

/-- A fold of the segments pairs brackets as they nest and, where they do, fails over none of
them. -/
def FoldBalances (state : Reduction) (segments : List Segment) :
    EStateM.Result Failure Reduction OnSegments.Folded → Prop :=
  Balances state (IsNested (headsOf segments)) (FoldPairs (IsNested (headsOf segments)) segments)

/-- Operands are reduced with pairs of theirs only. -/
def PairedOperands (text : List Char) (onSegments : OnSegments.Operands) : Prop :=
  ∀ state start stop segments other, Depicts text state start stop segments →
    other.ledger.chars = text →
    Balances other (IsNested (headsOf segments))
      (fun result added => Found segments added ∧ (result = none → segments = []))
      (onSegments segments other)

section

variable {text : List Char} {state other : Reduction} {start stop : Nat} {safe : Prop}
  {before after segments left right front back : List Segment} {segment : Segment}
  {onSegments : OnSegments.Operands} {op : Op} {added more : List (Nat × Nat)}

theorem Found.append (first : Found left added) (second : Found right more) :
    Found (left ++ right) (more ++ added) := by
  obtain ⟨pairs, nested, among⟩ := first
  obtain ⟨pairs', nested', among'⟩ := second
  refine ⟨pairs' ++ pairs,
    by rw [headsOf_append]; exact nested.append nested', fun pair member => ?_⟩
  rcases List.mem_append.1 member with inMore | inAdded
  · exact List.mem_append_left _ (among' pair inMore)
  · exact List.mem_append_right _ (among pair inAdded)

theorem Found.mono (found : Found segments more) (among : ∀ pair ∈ added, pair ∈ more) :
    Found segments added := by
  obtain ⟨pairs, nested, known⟩ := found
  exact ⟨pairs, nested, fun pair member => known pair (among pair member)⟩

theorem found_of_plain
    (plain : ∀ head ∈ headsOf segments, head.2.isOpening = false ∧ head.2.isClosing = false) :
    Found segments [] :=
  ⟨[], Nested.of_plain plain, nofun⟩

theorem found_op (isOp : segment.op? = some op) (opens : op.isOpening = false)
    (closes : op.isClosing = false) : Found [segment] [] := by
  refine found_of_plain fun head member => ?_
  rw [headsOf_op isOp] at member
  rw [List.mem_singleton.1 member]
  exact ⟨opens, closes⟩

theorem headsOf_operands (operands : ∀ segment ∈ segments, segment.isOperand = true) :
    headsOf segments = [] := by
  induction segments with
  | nil => rfl
  | cons segment rest induction =>
      rw [headsOf_operand (operands segment List.mem_cons_self)]
      exact induction fun other among => operands other (List.mem_cons_of_mem _ among)

theorem headsOf_lastOperands (segments : List Segment) :
    headsOf (OnSegments.lastOperands segments) = [] :=
  headsOf_operands fun _ among => List.mem_rtakeWhile_imp among

theorem headsOf_firstOperands (segments : List Segment) :
    headsOf (OnSegments.firstOperands segments) = [] :=
  headsOf_operands fun _ among => List.mem_takeWhile_imp among

theorem headsOf_dropOperands (segments : List Segment) :
    headsOf (OnSegments.dropOperands segments) = headsOf segments := by
  conv_rhs => rw [← dropOperands_append segments, headsOf_append, headsOf_lastOperands,
    List.append_nil]

theorem headsOf_skipOperands (segments : List Segment) :
    headsOf (OnSegments.skipOperands segments) = headsOf segments := by
  conv_rhs => rw [← firstOperands_append segments, headsOf_append, headsOf_firstOperands,
    List.nil_append]

theorem found_of_nil (none : headsOf segments = []) : Found segments [] := by
  refine found_of_plain fun head member => ?_
  rw [none] at member
  contradiction

/-- An operator is listed among the heads at its place. -/
theorem exists_of_headsOf_eq {position : Nat} {front back : List (Nat × Op)}
    (split : headsOf segments = front ++ (position, op) :: back) :
    ∃ before segment after, segments = before ++ segment :: after ∧ segment.op? = some op ∧
      segment.span.start = position ∧ headsOf before = front ∧ headsOf after = back := by
  obtain ⟨before, rest, rfl, rfl, later⟩ := List.filterMap_eq_append_iff.1 split
  obtain ⟨skipped, segment, after, rfl, none, found, rfl⟩ := List.filterMap_eq_cons_iff.1 later
  obtain ⟨op', isOp, same⟩ := Option.map_eq_some_iff.1 found
  obtain ⟨rfl, rfl⟩ := Prod.mk.inj same
  refine ⟨before ++ skipped, segment, after, by simp, isOp, rfl, ?_, rfl⟩
  have nothing : headsOf skipped = [] := List.filterMap_eq_nil_iff.2 none
  rw [headsOf_append, nothing, List.append_nil]
  rfl

/-! ## Operators -/

/-- A fold of an operator with what stands next to it, where no bracket opens. -/
theorem foldPairs_around {expr : Expr}
    (split : segments = front ++ (left ++ [segment] ++ right) ++ back)
    (isOp : segment.op? = some op) (closes : op.isClosing = false)
    (unopened : ∀ head ∈ headsOf segments, head.2.isOpening = false) (first : Found left added)
    (second : Found right more) :
    FoldPairs (IsNested (headsOf segments)) segments ⟨front, expr, back⟩ (more ++ added) := by
  have opens : op.isOpening = false := by
    refine unopened (segment.span.start, op) ?_
    rw [split]
    simp [headsOf_append, headsOf_op isOp]
  refine ⟨⟨_, split, ?_⟩, fun nested => nested.part unopened fun head member => ?_⟩
  · have joined := (first.append (found_op isOp opens closes)).append second
    simpa using joined
  · rw [split]
    simp only [headsOf_append, List.mem_append] at member ⊢
    tauto

/-- An operand of a fold, where no bracket opens. -/
theorem PairedOperands.operand (paired : PairedOperands text onSegments)
    (depicts : Depicts text state start stop left) (chars : other.ledger.chars = text)
    (unopened : ∀ head ∈ headsOf segments, head.2.isOpening = false)
    (among : ∀ head ∈ headsOf left, head ∈ headsOf segments) :
    Balances other (IsNested (headsOf segments))
      (fun result added => Found left added ∧ (result = none → left = []))
      (onSegments left other) :=
  (paired _ _ _ _ other depicts chars).imp (fun nested => nested.part unopened among)
    fun _ _ holds => holds

theorem mem_of_lastOperands {head : Nat × Op} {heads : List (Nat × Op)}
    (member : head ∈ headsOf (OnSegments.lastOperands before)) : head ∈ heads := by
  rw [headsOf_lastOperands] at member
  contradiction

theorem mem_of_firstOperands {head : Nat × Op} {heads : List (Nat × Op)}
    (member : head ∈ headsOf (OnSegments.firstOperands after)) : head ∈ heads := by
  rw [headsOf_firstOperands] at member
  contradiction

section

variable (paired : PairedOperands text onSegments)
  (depicts : Depicts text state start stop (before ++ segment :: after))
  (unopened : ∀ head ∈ headsOf (before ++ segment :: after), head.2.isOpening = false)
  (chars : other.ledger.chars = text)

include paired depicts unopened chars

theorem conditional_balances (isOp : segment.op? = some .question) :
    FoldBalances other (before ++ segment :: after)
      (OnSegments.conditional onSegments segment.span.start before after other) := by
  obtain ⟨front, -, -, back⟩ := depicts.split
  unfold OnSegments.conditional
  cases found : pairedColon? 0 (headsOf after) with
  | none => exact fun _ => rfl
  | some colon =>
      obtain ⟨upper, divider, lower, rfl, isColon, rfl⟩ :=
        exists_of_mem_headsOf (mem_of_pairedColon? found)
      obtain ⟨depictsUpper, -, -, depictsLower⟩ := back.split
      dsimp only
      rw [splitAt_eq back.shown]
      refine Balances.bind (paired.operand front chars unopened
          (by simp +contextual [headsOf_append]))
        fun condition state₁ added₁ chars₁ found₁ => ?_
      have chars₁ := chars₁.trans chars
      refine Balances.bind (paired.operand depictsUpper chars₁ unopened
          (by simp +contextual [headsOf_append, headsOf_op isOp]))
        fun first state₂ added₂ chars₂ found₂ => ?_
      have chars₂ := chars₂.trans chars₁
      refine Balances.bind (paired.operand depictsLower chars₂ unopened
          (by simp +contextual [headsOf_append, headsOf_op isOp, headsOf_op isColon]))
        fun second state₃ added₃ chars₃ found₃ => ?_
      refine (silent_newNodeAround _ _).andThen fun inner state₄ _ => ?_
      refine (silent_newNodeAround _ _).andThen fun node state₅ _ => Balances.pure ?_
      have branches := (found₂.1.append (found_op isColon rfl rfl)).append found₃.1
      have whole : FoldPairs (IsNested (headsOf (before ++ segment :: (upper ++ divider :: lower))))
          (before ++ segment :: (upper ++ divider :: lower))
          ⟨[], .operation node .question (condition.getD .absent)
            (.operation inner .colon (first.getD .absent) (second.getD .absent)), []⟩
          ((added₃ ++ ([] ++ added₂)) ++ added₁) :=
        foldPairs_around (by simp) isOp rfl unopened found₁.1 branches
      simpa using whole

section

variable (isOp : segment.op? = some op) (closes : op.isClosing = false)
include isOp closes

theorem binary_balances :
    FoldBalances other (before ++ segment :: after)
      (OnSegments.binary onSegments op segment.span.start before after other) := by
  obtain ⟨front, -, -, back⟩ := depicts.split
  unfold OnSegments.binary
  refine Balances.bind (paired.operand front chars unopened (by simp +contextual [headsOf_append]))
    fun first state₁ added₁ chars₁ found₁ => ?_
  refine Balances.bind (paired.operand back (chars₁.trans chars) unopened
      (by simp +contextual [headsOf_append, headsOf_op isOp]))
    fun second state₂ added₂ chars₂ found₂ => ?_
  refine (silent_newNodeAround _ _).andThen fun node state₃ _ => Balances.pure ?_
  exact foldPairs_around (by simp) isOp closes unopened found₁.1 found₂.1

theorem assignment_balances :
    FoldBalances other (before ++ segment :: after)
      (OnSegments.assignment onSegments op segment.span.start before after other) := by
  obtain ⟨front, -, -, back⟩ := depicts.split
  unfold OnSegments.assignment
  refine Balances.bind (paired.operand front chars unopened (by simp +contextual [headsOf_append]))
    fun first state₁ added₁ chars₁ found₁ => ?_
  refine (silent_required _ _ _).andThen fun target state₂ chars₂ => ?_
  refine Balances.bind (paired.operand back ((chars₂.trans chars₁).trans chars) unopened
      (by simp +contextual [headsOf_append, headsOf_op isOp]))
    fun second state₃ added₃ chars₃ found₃ => ?_
  refine (silent_newNodeAround _ _).andThen fun node state₄ _ => Balances.pure ?_
  exact foldPairs_around (by simp) isOp closes unopened found₁.1 found₃.1

theorem unary_balances :
    FoldBalances other (before ++ segment :: after)
      (OnSegments.unary onSegments op segment.span.start before after other) := by
  obtain ⟨front, -, -, back⟩ := depicts.split
  have nothing : Found [] [] := ⟨[], Nested.nil, nofun⟩
  unfold OnSegments.unary
  split
  · obtain ⟨low, last⟩ := front.lastOperands
    refine Balances.bind (paired.operand last chars unopened fun _ => mem_of_lastOperands)
      fun result state₁ added₁ chars₁ found₁ => ?_
    refine (silent_required _ _ _).andThen fun operand state₂ _ => ?_
    refine (silent_newNodeAround _ _).andThen fun node state₃ _ => Balances.pure ?_
    refine foldPairs_around (show before ++ segment :: after = OnSegments.dropOperands before ++
      (OnSegments.lastOperands before ++ [segment] ++ []) ++ after by
        rw [List.append_nil, ← List.append_assoc, dropOperands_append]
        simp) isOp closes unopened found₁.1 nothing
  · obtain ⟨high, first⟩ := back.firstOperands
    refine Balances.bind (paired.operand first chars unopened fun _ => mem_of_firstOperands)
      fun result state₁ added₁ chars₁ found₁ => ?_
    refine (silent_required _ _ _).andThen fun operand state₂ _ => ?_
    refine (silent_newNodeAround _ _).andThen fun node state₃ _ => Balances.pure ?_
    have whole := @foldPairs_around (before ++ segment :: after) _ _ _ _ _ _ _ _
      (.operation node op .absent operand) (show before ++ segment :: after = before ++
        ([] ++ [segment] ++ OnSegments.firstOperands after) ++ OnSegments.skipOperands after by
        conv_lhs => rw [← firstOperands_append after]
        simp) isOp closes unopened nothing found₁.1
    simpa using whole

end

theorem typeTest_balances (isOp : segment.op? = some .instanceOf) :
    FoldBalances other (before ++ segment :: after)
      (OnSegments.typeTest onSegments before after other) := by
  obtain ⟨front, -, -, back⟩ := depicts.split
  obtain ⟨low, last⟩ := front.lastOperands
  unfold OnSegments.typeTest
  refine Balances.bind (paired.operand last chars unopened fun _ => mem_of_lastOperands)
    fun result state₁ added₁ chars₁ found₁ => ?_
  refine (silent_required _ _ _).andThen fun operand state₂ _ => ?_
  split
  · exact fun _ => rfl
  · refine (silent_textAt _).andThen fun typeName state₃ _ => ?_
    refine (silent_newNodeAround _ _).andThen fun node state₄ _ => Balances.pure ?_
    exact foldPairs_around (split_operands before segment after) isOp rfl unopened found₁.1
      (found_of_nil (headsOf_firstOperands after))

theorem access_balances (isOp : segment.op? = some .dot) :
    FoldBalances other (before ++ segment :: after)
      (OnSegments.access onSegments segment.span.start before after other) := by
  obtain ⟨front, -, -, back⟩ := depicts.split
  obtain ⟨low, last⟩ := front.lastOperands
  obtain ⟨high, first⟩ := back.firstOperands
  unfold OnSegments.access
  refine Balances.bind (paired.operand last chars unopened fun _ => mem_of_lastOperands)
    fun result state₁ added₁ chars₁ found₁ => ?_
  refine (silent_required _ _ _).andThen fun subject state₂ chars₂ => ?_
  refine Balances.bind (paired.operand first ((chars₂.trans chars₁).trans chars) unopened
    fun _ => mem_of_firstOperands) fun result state₃ added₃ chars₃ found₃ => ?_
  refine (silent_required _ _ _).andThen fun member state₄ chars₄ => ?_
  have whole (expr : Expr) := @foldPairs_around (before ++ segment :: after) _ _ _ _ _ _ _ _ expr
    (split_operands before segment after) isOp rfl unopened found₁.1 found₃.1
  refine (silent_qualifyConstruction? _ _).andThen fun construction state₅ _ => ?_
  cases construction with
  | some construction => exact Balances.pure (whole construction)
  | none =>
      refine (silent_qualifyDeclaration? _ _).andThen fun declaration state₆ _ => ?_
      cases declaration with
      | some declaration => exact Balances.pure (whole declaration)
      | none =>
          refine (silent_newNodeAround _ _).andThen fun node state₇ _ => Balances.pure ?_
          exact whole _

end
end

end Reduction
end MethodLowering
