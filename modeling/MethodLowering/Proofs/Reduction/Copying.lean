import MethodLowering.Proofs.Body.Declaring
import MethodLowering.Proofs.Expr.Copies
import MethodLowering.Proofs.Reduction.OnSegments

/-!
# Reading a text inside another one

The segments of a text that stand further on in another text are reduced to a copy of its tree.
More rounds and more nesting may be allowed there.
-/

namespace MethodLowering

namespace Span

theorem shift_join (count : Nat) (left right : Span) :
    (left.join right).shift count = (left.shift count).join (right.shift count) := by
  rw [join, join, shift, shift, shift]
  congr 1
  · exact (Nat.add_min_add_right ..).symm
  · exact (Nat.add_max_add_right ..).symm

theorem length_shift (count : Nat) (span : Span) : (span.shift count).length = span.length := by
  rw [length, length, shift]
  exact Nat.add_sub_add_right ..

end Span

namespace Reduction

/-- The text of the left reduction stands, up to `stop`, further on in the whole text of the right
one.  Their bodies may differ in the numbering of nodes and in the record of effort. -/
structure Copying (shift stop : Nat) (whole : List Char) (left right : Reduction) : Prop where
  chars : right.ledger.chars = whole
  slice : ∀ span : Span, span.stop ≤ stop →
    (span.shift shift).slice right.ledger.chars = span.slice left.ledger.chars ∧
      (left.ledger.holds span = true → right.ledger.holds (span.shift shift) = true)
  scope : right.scope = left.scope
  body : ∃ nextNode effort, right.body = { left.body with nextNode, effort }

/-- If the left computation succeeds, so does the right one, with a related value. -/
def Follows {α β : Type} (shift stop : Nat) (whole : List Char) (related : α → β → Prop) :
    EStateM.Result Failure Reduction α → EStateM.Result Failure Reduction β → Prop
  | .ok value left, .ok copy right => Copying shift stop whole left right ∧ related value copy
  | .ok _ _, .error _ _ => False
  | .error _ _, _ => True

section

variable {α β γ δ : Type} {shift stop : Nat} {whole : List Char} {left right : Reduction}

theorem Follows.bind {first : α → β → Prop} {second : γ → δ → Prop} {computation : ReduceM α}
    {other : ReduceM β} {next : α → ReduceM γ} {again : β → ReduceM δ}
    (follows : Follows shift stop whole first (computation left) (other right))
    (later : ∀ value copy left' right', Copying shift stop whole left' right' → first value copy →
      Follows shift stop whole second (next value left') (again copy right')) :
    Follows shift stop whole second ((computation >>= next) left) ((other >>= again) right) := by
  simp only [Bind.bind, EStateM.bind]
  generalize computation left = begun at follows
  generalize other right = resumed at follows
  cases begun with
  | error failure state => trivial
  | ok value state =>
      cases resumed with
      | error failure state' => exact follows.elim
      | ok copy state' => exact later value copy state state' follows.1 follows.2

theorem Follows.pure {related : α → β → Prop} {value : α} {copy : β}
    (copying : Copying shift stop whole left right) (holds : related value copy) :
    Follows shift stop whole related ((Pure.pure value : ReduceM α) left)
    ((Pure.pure copy : ReduceM β) right) :=
  ⟨copying, holds⟩

/-- Looking at the states. -/
theorem Follows.get {related : α → β → Prop} {next : Reduction → ReduceM α}
    {again : Reduction → ReduceM β}
    (follows : Follows shift stop whole related (next left left) (again right right)) :
    Follows shift stop whole related ((MonadState.get >>= next) left)
    ((MonadState.get >>= again) right) :=
  follows

/-- Looking at the ledgers. -/
theorem Follows.getLedger {related : α → β → Prop} {next : Ledger → ReduceM α}
    {again : Ledger → ReduceM β}
    (follows : Follows shift stop whole related (next left.ledger left)
      (again right.ledger right)) :
    Follows shift stop whole related ((Reduction.getLedger >>= next) left)
      ((Reduction.getLedger >>= again) right) :=
  follows

/-! ## Nodes -/

theorem textAt_follows (copying : Copying shift stop whole left right) {span : Span}
    (within : span.stop ≤ stop) :
    Follows shift stop whole (fun text copy => copy = text) (textAt span left)
      (textAt (span.shift shift) right) := by
  rcases textAt_cases span left with ⟨inside, read⟩ | ⟨-, strays⟩
  · rcases textAt_cases (span.shift shift) right with ⟨-, read'⟩ | ⟨outside, -⟩
    · rw [read, read']
      refine ⟨copying, ?_⟩
      rw [Ledger.textAt_eq, Ledger.textAt_eq, (copying.slice span within).1]
    · rw [(copying.slice span within).2 inside] at outside
      contradiction
  · rw [strays]
    trivial

/-- A reduction that stalls does not succeed. -/
theorem stalls_follows {α β : Type} {related : α → β → Prop} {span : Span}
    {result : EStateM.Result Failure Reduction β} :
    Follows shift stop whole related
      ((do reject (.resolveStalled (← textAt span)) : ReduceM α) left) result := by
  rcases textAt_cases span left with ⟨-, read⟩ | ⟨-, strays⟩
  · simp only [Bind.bind, EStateM.bind, read]
    trivial
  · simp only [Bind.bind, EStateM.bind, strays]
    trivial

theorem modifyBody_follows (copying : Copying shift stop whole left right)
    {change again : Body → Body}
    (same : ∀ body nextNode effort, ∃ nextNode' effort',
      again { body with nextNode, effort } =
        { change body with nextNode := nextNode', effort := effort' }) :
    Follows shift stop whole (fun _ _ =>
      True) (modifyBody change left) (modifyBody again right) := by
  obtain ⟨nextNode, effort, body⟩ := copying.body
  refine ⟨⟨copying.chars, copying.slice, copying.scope, ?_⟩, trivial⟩
  change ∃ nextNode effort, again right.body = { change left.body with nextNode, effort }
  rw [body]
  exact same left.body nextNode effort

theorem newNode_follows (copying : Copying shift stop whole left right) {span : Span}
    (within : span.stop ≤ stop) :
    Follows shift stop whole (Node.Copies shift stop) (newNode span left)
      (newNode (span.shift shift) right) := by
  refine (textAt_follows copying within).bind fun text copy left' right' copying same => ?_
  obtain ⟨nextNode, effort, body⟩ := copying.body
  refine ⟨⟨copying.chars, copying.slice, copying.scope, right'.body.nextNode + 1, effort, ?_⟩,
    rfl, same, within⟩
  change { right'.body with nextNode := right'.body.nextNode + 1 } = _
  rw [body]

/-- The span around operands. -/
def spanAround (anchor : Span) (operands : List Expr) : Span :=
  operands.foldl
    (fun span operand =>
      match operand.node? with
      | some node => span.join node.span
      | none => span)
    anchor

theorem spanAround_copies {operands operands' : List Expr}
    (copies : List.Forall₂ (Expr.Copies shift stop) operands operands') {anchor : Span}
    (within : anchor.stop ≤ stop) :
    spanAround (anchor.shift shift) operands' = (spanAround anchor operands).shift shift ∧
      (spanAround anchor operands).stop ≤ stop := by
  induction copies generalizing anchor with
  | nil => exact ⟨rfl, within⟩
  | @cons operand operand' rest rest' first later induction =>
      have nodes := first.node?
      rw [spanAround, spanAround, List.foldl_cons, List.foldl_cons]
      revert nodes
      generalize operand.node? = node
      generalize operand'.node? = node'
      rintro (nodes | -)
      · dsimp only
        rw [nodes.span, ← Span.shift_join]
        exact induction (Nat.max_le.2 ⟨within, nodes.within⟩)
      · exact induction within

theorem newNodeAround_follows (copying : Copying shift stop whole left right) {anchor : Span}
    {operands operands' : List Expr} (within : anchor.stop ≤ stop)
    (copies : List.Forall₂ (Expr.Copies shift stop) operands operands') :
    Follows shift stop whole (Node.Copies shift stop) (newNodeAround anchor operands left)
      (newNodeAround (anchor.shift shift) operands' right) := by
  obtain ⟨same, inside⟩ := spanAround_copies copies within
  have follows := newNode_follows copying inside
  rw [← same] at follows
  exact follows

theorem required_follows (copying : Copying shift stop whole left right)
    {operand operand' : Option Expr}
    (copies : Option.Rel (Expr.Copies shift stop) operand operand') (op : Op) (context : String) :
    Follows shift stop whole (Expr.Copies shift stop) (required operand op context left)
      (required operand' op context right) := by
  cases copies with
  | none => trivial
  | some copies => exact .pure copying copies

/-! ## Leaves -/

theorem newLeaf_follows (copying : Copying shift stop whole left right) {span : Span}
    (within : span.stop ≤ stop) (form : LeafForm) :
    Follows shift stop whole (Expr.Copies shift stop)
    ((do return .leaf (← newNode span) form : ReduceM Expr) left)
      ((do return .leaf (← newNode (span.shift shift)) form : ReduceM Expr) right) :=
  (newNode_follows copying within).bind fun _ _ _ _ copying nodes => .pure copying (.leaf nodes)

theorem classify_follows (copying : Copying shift stop whole left right) {span : Span}
    (within : span.stop ≤ stop) (text : List Char) :
    Follows shift stop whole (Expr.Copies shift stop) (classify span text left)
      (classify (span.shift shift) text right) := by
  rw [classify, classify]
  cases leafForm? text with
  | some form => exact newLeaf_follows copying within form
  | none =>
      cases declared? (Text.words text) with
      | none => trivial
      | some declared =>
          cases declared with
          | nothing => exact newLeaf_follows copying within .verbatim
          | «variable» name typeName isFinal isStatic =>
              obtain ⟨nextNode, effort, body⟩ := copying.body
              refine .get ((modifyBody_follows copying ?_).bind fun _ _ _ _ later _ => ?_)
              · intro other nextNode' effort'
                rw [body, copying.scope]
                exact ⟨nextNode', effort', Body.declare_with ..⟩
              · refine (newNode_follows later within).bind fun node node' _ _ last nodes => ?_
                rw [body]
                exact .pure last (.declaration nodes)

end

/-! ## Segments -/

/-- A piece and its copy. -/
inductive Piece.Copies (shift stop : Nat) (span : Span) : Piece → Piece → Prop where
  | op {op : Op} (whole : span.stop = span.start + op.width) :
      Piece.Copies shift stop span (.op op) (.op op)
  | word : Piece.Copies shift stop span .word .word
  | tree {expr copy : Expr} (copies : expr.Copies shift stop copy) :
      Piece.Copies shift stop span (.tree expr) (.tree copy)

/-- The copy of a segment stands further on; the segment itself ends at `stop` at the latest. -/
structure Segment.Copies (shift stop : Nat) (segment copy : Segment) : Prop where
  span : copy.span = segment.span.shift shift
  within : segment.span.stop ≤ stop
  piece : segment.piece.Copies shift stop segment.span copy.piece

/-- All segments of a list are copied. -/
abbrev AllCopy (shift stop : Nat) : List Segment → List Segment → Prop :=
  List.Forall₂ (Segment.Copies shift stop)

section

variable {shift stop : Nat} {segment copy : Segment}
  {segments copies front front' back back' : List Segment}
  {op : Op}

theorem forall₂_takeWhile {α β : Type} {related : α → β → Prop} {test : α → Bool} {again : β → Bool}
    (same : ∀ x y, related x y → again y = test x) {xs : List α} {ys : List β}
    (all : List.Forall₂ related xs ys) :
    List.Forall₂ related (xs.takeWhile test) (ys.takeWhile again) := by
  induction all with
  | nil => exact .nil
  | @cons x y xs ys first rest induction =>
      rw [List.takeWhile_cons, List.takeWhile_cons, same x y first]
      split
      · exact .cons first induction
      · exact .nil

theorem forall₂_dropWhile {α β : Type} {related : α → β → Prop} {test : α → Bool} {again : β → Bool}
    (same : ∀ x y, related x y → again y = test x) {xs : List α} {ys : List β}
    (all : List.Forall₂ related xs ys) :
    List.Forall₂ related (xs.dropWhile test) (ys.dropWhile again) := by
  induction all with
  | nil => exact .nil
  | @cons x y xs ys first rest induction =>
      rw [List.dropWhile_cons, List.dropWhile_cons, same x y first]
      split
      · exact induction
      · exact .cons first rest

theorem Segment.Copies.start (copies : segment.Copies shift stop copy) :
    copy.span.start = segment.span.start + shift := by
  rw [copies.span]
  rfl

theorem Segment.Copies.op? (copies : segment.Copies shift stop copy) : copy.op? = segment.op? := by
  obtain ⟨span, piece⟩ := segment
  obtain ⟨span', piece'⟩ := copy
  obtain ⟨-, -, same⟩ := copies
  cases same with
  | op | word | tree => rfl

theorem Segment.Copies.isOperand (copies : segment.Copies shift stop copy) :
    copy.isOperand = segment.isOperand := by
  rw [Segment.isOperand, Segment.isOperand, copies.op?]

theorem Segment.Copies.tree? (copies : segment.Copies shift stop copy) :
    Option.Rel (Expr.Copies shift stop) segment.tree? copy.tree? := by
  obtain ⟨span, piece⟩ := segment
  obtain ⟨span', piece'⟩ := copy
  obtain ⟨-, -, same⟩ := copies
  cases same with
  | op | word => exact .none
  | tree same => exact .some same

theorem Segment.Copies.opSpan_stop (copies : segment.Copies shift stop copy)
    (isOp : segment.op? = some op) : segment.span.start + op.width ≤ stop := by
  obtain ⟨span, piece⟩ := segment
  obtain ⟨span', piece'⟩ := copy
  obtain ⟨-, within, same⟩ := copies
  cases same with
  | op whole =>
      obtain rfl := Option.some.inj isOp
      exact whole ▸ within
  | word | tree => contradiction

theorem headsOf_copies (all : AllCopy shift stop segments copies) :
    headsOf copies = (headsOf segments).map fun head => (head.1 + shift, head.2) := by
  induction all with
  | nil => rfl
  | @cons segment copy rest rest' first later induction =>
      rw [headsOf, headsOf, List.filterMap_cons, List.filterMap_cons, first.op?, first.start]
      cases segment.op? with
      | none => exact induction
      | some op => exact congrArg (List.cons _) induction

/-- An operator that is listed at a position is whole. -/
theorem width_le_of_mem_headsOf (all : AllCopy shift stop segments copies) {position : Nat}
    (among : (position, op) ∈ headsOf segments) : position + op.width ≤ stop := by
  induction all with
  | nil => contradiction
  | @cons segment copy rest rest' first later induction =>
      rw [headsOf, List.filterMap_cons] at among
      cases isOp : segment.op? with
      | none =>
          rw [isOp] at among
          exact induction among
      | some found =>
          rw [isOp] at among
          rcases List.mem_cons.1 among with same | behind
          · obtain ⟨rfl, rfl⟩ := Prod.mk.inj same
            exact first.opSpan_stop isOp
          · exact induction behind

theorem hull_copies (all : AllCopy shift stop segments copies) (present : segments ≠ []) :
    hull copies = (hull segments).shift shift ∧ (hull segments).stop ≤ stop := by
  obtain ⟨first, rest, rfl⟩ := List.exists_cons_of_ne_nil present
  cases all with
  | @cons _ first' _ rest' start later =>
      have ends : ∀ last last' : Segment, last.Copies shift stop last' →
          ∀ rest rest' : List Segment,
          AllCopy shift stop rest rest' →
          (((last' :: rest').getLast?.map (·.span.stop)).getD 0 =
            ((last :: rest).getLast?.map (·.span.stop)).getD 0 + shift ∧
            ((last :: rest).getLast?.map (·.span.stop)).getD 0 ≤ stop) := by
        intro last last' copied rest rest' later
        induction later generalizing last last' with
        | nil =>
            refine ⟨?_, copied.within⟩
            exact congrArg Span.stop copied.span
        | @cons next next' rest rest' copied' later induction =>
            rw [List.getLast?_cons_cons, List.getLast?_cons_cons]
            exact induction next next' copied'
      obtain ⟨same, within⟩ := ends first first' start rest rest' later
      refine ⟨?_, within⟩
      rw [hull, hull, Span.shift, same]
      exact congrArg (Span.mk · _) start.start

end

namespace OnSegments

section

variable {shift stop : Nat} {segment copy : Segment} {segments copies : List Segment} {op : Op}

section

variable (all : AllCopy shift stop segments copies)
include all

theorem lastOperands_copies : AllCopy shift stop (lastOperands segments) (lastOperands copies) := by
  unfold lastOperands List.rtakeWhile
  rw [AllCopy, List.forall₂_reverse_iff]
  exact forall₂_takeWhile (fun _ _ copied => copied.isOperand) (List.forall₂_reverse_iff.2 all)

theorem dropOperands_copies : AllCopy shift stop (dropOperands segments) (dropOperands copies) := by
  unfold dropOperands List.rdropWhile
  rw [AllCopy, List.forall₂_reverse_iff]
  exact forall₂_dropWhile (fun _ _ copied => copied.isOperand) (List.forall₂_reverse_iff.2 all)

theorem firstOperands_copies : AllCopy shift stop (firstOperands segments) (firstOperands copies) :=
  forall₂_takeWhile (fun _ _ copied => copied.isOperand) all

theorem skipOperands_copies : AllCopy shift stop (skipOperands segments) (skipOperands copies) :=
  forall₂_dropWhile (fun _ _ copied => copied.isOperand) all

theorem splitAt_copies (position : Nat) :
    AllCopy shift stop (splitAt position segments).1 (splitAt (position + shift) copies).1 ∧
      AllCopy shift stop (splitAt position segments).2 (splitAt (position + shift) copies).2 := by
  have same (segment copy : Segment) (copied : segment.Copies shift stop copy) :
      (copy.span.start != position + shift) = (segment.span.start != position) := by
    rw [copied.start, bne, bne]
    congr 1
    rw [Bool.eq_iff_iff, beq_iff_eq, beq_iff_eq]
    exact Nat.add_right_cancel_iff
  refine ⟨forall₂_takeWhile same all, ?_⟩
  have dropped := forall₂_dropWhile same all
  revert dropped
  rw [splitAt, splitAt]
  generalize List.dropWhile _ segments = rest
  generalize List.dropWhile _ copies = rest'
  rintro (- | ⟨-, later⟩)
  · exact .nil
  · exact later

end


/-! ## The next operator -/

/-- The candidate further on. -/
def shiftCandidate (shift : Nat) (candidate : Candidate) : Candidate :=
  { candidate with position := candidate.position + shift }

theorem candidatesFrom_copies {last last' : Option Segment}
    (behind : last'.map Segment.op? = last.map Segment.op?)
    (all : AllCopy shift stop segments copies) :
    candidatesFrom last' copies = (candidatesFrom last segments).map (shiftCandidate shift) := by
  induction all generalizing last last' with
  | nil => rfl
  | @cons segment copy rest rest' first later induction =>
      have again := @induction (some segment) (some copy) (congrArg some first.op?)
      rw [candidatesFrom, candidatesFrom, first.op?]
      cases segment.op? with
      | none => exact again
      | some op =>
          dsimp only
          split
          · exact again
          · rw [List.map_cons, again]
            congr 1
            have sign : isSignBehind last' = isSignBehind last := by
              cases last with
              | none =>
                  obtain rfl : last' = none := Option.map_eq_none_iff.1 behind
                  rfl
              | some segment =>
                  obtain ⟨copy, rfl, same⟩ := Option.map_eq_some_iff.1 behind
                  rw [isSignBehind, isSignBehind, same]
            rw [candidateOf, candidateOf, sign, first.start]
            rfl

theorem best?_copies (all : AllCopy shift stop segments copies) :
    best? copies = (best? segments).map (shiftCandidate shift) := by
  rw [best?, best?, candidatesFrom_copies rfl all]
  generalize candidatesFrom none segments = candidates
  have step : ∀ best : Option Candidate,
      (candidates.map (shiftCandidate shift)).foldl
          (fun best next => some (Candidate.better best next)) (best.map (shiftCandidate shift)) =
        (candidates.foldl (fun best next => some (Candidate.better best next)) best).map
          (shiftCandidate shift) := by
    induction candidates with
    | nil => exact fun _ => rfl
    | cons next rest induction =>
        intro best
        rw [List.map_cons, List.foldl_cons, List.foldl_cons, ← induction]
        congr 1
        cases best with
        | none => rfl
        | some best =>
            rw [Option.map_some, Candidate.better, Candidate.better]
            exact congrArg some (apply_ite (shiftCandidate shift) _ _ _).symm
  exact step none

end

end OnSegments

end Reduction
end MethodLowering
