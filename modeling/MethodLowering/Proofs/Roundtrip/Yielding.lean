import MethodLowering.Proofs.Reduction.Lossless
import MethodLowering.Proofs.Roundtrip.Choosing
import MethodLowering.Proofs.Roundtrip.Spelling

/-!
# Spelled lists of trees

A computation that succeeds changes nothing of note but the numbering of nodes.  It may fail for a
span outside the text only, and the reduction of a statement never does.  Segments that spell
a list of trees are reduced with such computations; folding the operator that is next either leaves
segments that spell the same trees, or joins the expressions of smaller spellings to that of the
whole.
-/

namespace MethodLowering
namespace Tree

open Reduction

/-! ## Computations that succeed -/

/-- Only the numbering of nodes and the record of effort may differ. -/
structure Quiet (before after : Reduction) : Prop where
  ledger : after.ledger = before.ledger
  scope : after.scope = before.scope
  body : ∃ nextNode effort, after.body = { before.body with nextNode, effort }

/-- The computation fails, for a span that is not one of the text. -/
def Strays {α : Type} (result : EStateM.Result Failure Reduction α) : Prop :=
  ∃ after, result = .error (.undefined .badRange) after

/-- The computation succeeds with a value of the property, and changes nothing of note, unless it
strays from the text. -/
def Yields {α : Type} (state : Reduction) (property : α → Prop) :
    EStateM.Result Failure Reduction α → Prop
  | .ok value after => Quiet state after ∧ property value
  | .error failure _ => failure = .undefined .badRange

section

variable {α β : Type} {state other : Reduction}

theorem Quiet.refl (state : Reduction) : Quiet state state := ⟨rfl, rfl, _, _, rfl⟩

theorem Quiet.trans {first second third : Reduction} (left : Quiet first second)
    (right : Quiet second third) : Quiet first third := by
  obtain ⟨_, _, body⟩ := left.body
  obtain ⟨nextNode, effort, body'⟩ := right.body
  refine ⟨right.ledger.trans left.ledger, right.scope.trans left.scope, nextNode, effort, ?_⟩
  rw [body', body]

theorem Strays.bind {computation : ReduceM α} (strays : Strays (computation state))
    (next : α → ReduceM β) : Strays ((computation >>= next) state) := by
  obtain ⟨after, failed⟩ := strays
  exact ⟨after, bind_eq_error.2 (.inl failed)⟩

theorem Yields.cases {property : α → Prop} {result : EStateM.Result Failure Reduction α}
    (yields : Yields state property result) :
    Strays result ∨ ∃ value after, result = .ok value after ∧ Quiet state after ∧
      property value := by
  cases result with
  | ok value after => exact .inr ⟨value, after, rfl, yields⟩
  | error failure after => exact .inl ⟨after, by rw [show failure = _ from yields]⟩

theorem Strays.yields {property : α → Prop} {result : EStateM.Result Failure Reduction α}
    (strays : Strays result) : Yields state property result := by
  obtain ⟨after, rfl⟩ := strays
  rfl

theorem Yields.bind {first : α → Prop} {second : β → Prop} {computation : ReduceM α}
    {next : α → ReduceM β} (yields : Yields state first (computation state))
    (later : ∀ value after, Quiet state after → first value →
      Yields after second (next value after)) :
    Yields state second ((computation >>= next) state) := by
  rcases yields.cases with strays | ⟨value, after, ran, quiet, holds⟩
  · exact (strays.bind next).yields
  rw [bind_of_ok ran]
  rcases (later value after quiet holds).cases with strays | ⟨value', final, ran', quiet', holds'⟩
  · exact strays.yields
  · rw [ran']
    exact ⟨quiet.trans quiet', holds'⟩

theorem Yields.pure {property : α → Prop} {value : α} (holds : property value) :
    Yields state property ((Pure.pure value : ReduceM α) state) :=
  ⟨Quiet.refl state, holds⟩

theorem Yields.imp {first second : α → Prop} {result : EStateM.Result Failure Reduction α}
    (yields : Yields state first result) (implies : ∀ value, first value → second value) :
    Yields state second result := by
  cases result with
  | ok value after => exact ⟨yields.1, implies value yields.2⟩
  | error failure after => exact yields

theorem newNode_yields (span : Span) :
    Yields state (fun node => node.text = state.ledger.textAt span) (newNode span state) := by
  rcases newNode_cases span state with ⟨-, made⟩ | ⟨-, strays⟩
  · rw [made]
    exact ⟨⟨rfl, rfl, _, _, rfl⟩, rfl⟩
  · rw [strays]
    rfl

theorem newNodeAround_yields (anchor : Span) (operands : List Expr) :
    Yields state (fun _ => True) (newNodeAround anchor operands state) :=
  (newNode_yields _).imp fun _ _ => trivial

end

/-! ## Lists of expressions -/

/-- The expression holds the expressions of the trees, joined by commas. -/
inductive Lists : List Tree → Expr → Prop where
  | one {tree : Tree} {expr : Expr} (pictures : tree.Pictures expr) : Lists [tree] expr
  | join {front back : List Tree} {node : Node} {left right : Expr} (first : Lists front left)
      (second : Lists back right) : Lists (front ++ back) (.operation node .comma left right)

/-- What trees are read as: nothing when there are none. -/
def Listed (items : List Tree) : Option Expr → Prop
  | none => items = []
  | some expr => Lists items expr

section

variable {text : List Char} {items : List Tree} {tree : Tree} {expr : Expr}

theorem Lists.ne_nil (lists : Lists items expr) : items ≠ [] := by
  induction lists with
  | one pictures => simp
  | join first second induction _ => simp [induction]

theorem Lists.pictures (lists : Lists [tree] expr) : tree.Pictures expr := by
  generalize only : [tree] = items at lists
  cases lists with
  | one pictures =>
      obtain rfl := List.singleton_inj.1 only
      exact pictures
  | join first second =>
      rcases List.append_eq_singleton_iff.1 only.symm with ⟨rfl, -⟩ | ⟨-, rfl⟩
      · exact absurd rfl first.ne_nil
      · exact absurd rfl second.ne_nil

theorem Listed.pictures {result : Option Expr} (listed : Listed [tree] result) :
    ∃ expr, result = some expr ∧ tree.Pictures expr := by
  cases result with
  | none => contradiction
  | some expr => exact ⟨expr, rfl, Lists.pictures listed⟩

theorem Listed.exists_lists {result : Option Expr} (listed : Listed items result)
    (present : items ≠ []) : ∃ expr, result = some expr ∧ Lists items expr := by
  cases result with
  | none => exact absurd listed present
  | some expr => exact ⟨expr, rfl, listed⟩

theorem commaItems_of_pictures (well : tree.isWellFormed = true) (pictures : tree.Pictures expr) :
    expr.commaItems = [expr] := by
  have notComma {op : Op}
      (kind : op.isMark = true ∨ op.isStep = true ∨ op.isBinary = true) : op ≠ .comma := by
    rintro rfl
    revert kind
    decide
  have single {node : Node} {op : Op} {left right : Expr} (other : op ≠ .comma) :
      (Expr.operation node op left right).commaItems = [.operation node op left right] := by
    cases op <;> first | rfl | contradiction
  cases pictures with
  | leading first =>
      simp only [isWellFormed, Bool.and_eq_true, Bool.or_eq_true, decide_eq_true_eq] at well
      exact single (notComma (by tauto))
  | trailing first =>
      simp only [isWellFormed, Bool.and_eq_true, decide_eq_true_eq] at well
      exact single (notComma (.inr (.inl well.1.1)))
  | binary one other =>
      simp only [isWellFormed, Bool.and_eq_true, decide_eq_true_eq] at well
      exact single (notComma (.inr (.inr well.1.1.1.1)))
  | _ => rfl

theorem areWellFormed_append (front back : List Tree) :
    areWellFormed (front ++ back) = (areWellFormed front && areWellFormed back) := by
  induction front with
  | nil => rfl
  | cons first rest induction =>
      rw [List.cons_append, areWellFormed, areWellFormed, induction, Bool.and_assoc]

theorem Lists.commaItems (lists : Lists items expr) (well : areWellFormed items = true) :
    List.Forall₂ Pictures items expr.commaItems := by
  induction lists with
  | one pictures =>
      rw [areWellFormed, Bool.and_eq_true] at well
      rw [commaItems_of_pictures well.1 pictures]
      exact .cons pictures .nil
  | join first second left right =>
      rw [areWellFormed_append, Bool.and_eq_true] at well
      exact List.rel_append (left well.1) (right well.2)

theorem Listed.forall₂ {result : Option Expr} (listed : Listed items result)
    (well : areWellFormed items = true) : List.Forall₂ Pictures items (Reduction.items result) := by
  cases result with
  | none =>
      rw [show items = [] from listed]
      exact .nil
  | some expr => exact Lists.commaItems listed well

/-! ## Spelled lists -/

/-- Segments of a text that spell well-formed trees, with few enough operators. -/
structure Written (text : List Char) (items : List Tree) (segments : List Segment) : Prop where
  well : areWellFormed items = true
  spelled : Spelled text (listParts items) segments
  shown : ∃ state start stop, Depicts text state start stop segments
  few : (headsOf segments).length < Limits.reductionRounds

/-- Spelled lists shorter than the bound are read as their trees. -/
def ReadsTo (text : List Char) (bound : Nat) (operands : OnSegments.Operands) : Prop :=
  ∀ items segments other, Written text items segments → other.ledger.chars = text →
    segments.length < bound → Yields other (Listed items) (operands segments other)

/-- A fold gives the expression of the trees, or leaves a spelling of them with fewer operators. -/
def Advances (text : List Char) (items : List Tree) (segments : List Segment)
    (folded : OnSegments.Folded) : Prop :=
  (folded.front = [] ∧ folded.back = [] ∧ Lists items folded.expr) ∨
    ((∀ span, Spelled text (listParts items)
      (folded.front ++ ⟨span, .tree folded.expr⟩ :: folded.back)) ∧
      (headsOf folded.front).length + (headsOf folded.back).length < (headsOf segments).length)

variable {before after segments front middle back : List Segment} {segment : Segment} {op : Op}
  {bound count : Nat} {operands : OnSegments.Operands} {other : Reduction} {form : Form}

theorem Written.forms (written : Written text items segments) (form : Form)
    (among : .form form ∈ listParts items) : form.AtLeast 0 := by
  obtain ⟨item, listed, rfl⟩ := form_mem_listParts among
  exact ⟨isWellFormed_of_mem written.well listed, Nat.zero_le _⟩

/-- Some neighbouring segments of a spelled list that spell trees of their own. -/
theorem Written.inner (written : Written text items (front ++ middle ++ back)) {inside : List Tree}
    (well : areWellFormed inside = true) (spelled : Spelled text (listParts inside) middle) :
    Written text inside middle := by
  obtain ⟨state, start, stop, depicts⟩ := written.shown
  obtain ⟨_, left, -⟩ := depicts.parts
  obtain ⟨_, -, inner⟩ := left.parts
  refine ⟨well, spelled, ⟨_, _, _, inner⟩, ?_⟩
  have few := written.few
  simp only [headsOf_append, List.length_append] at few
  omega

theorem Written.one (written : Written text items (front ++ middle ++ back))
    (well : tree.isWellFormed = true) (spelled : Spelled text [.form (.tree tree)] middle) :
    Written text [tree] middle := by
  refine written.inner ?_ spelled
  rw [areWellFormed, well]
  rfl

/-! ## Neighbours of a folded form -/

theorem lastOperands_eq_nil (apart : Apart Segment.isOperand (front ++ segment :: back))
    (operand : segment.isOperand = true) : OnSegments.lastOperands front = [] := by
  rcases List.eq_nil_or_concat' front with rfl | ⟨rest, last, rfl⟩
  · rfl
  · rw [OnSegments.lastOperands, List.rtakeWhile_concat_neg]
    intro both
    rw [Apart, List.append_assoc] at apart
    have pair := (List.isChain_append_cons_cons.1 apart).2.1
    rw [both, operand] at pair
    contradiction

theorem firstOperands_eq_nil (apart : Apart Segment.isOperand (front ++ segment :: back))
    (operand : segment.isOperand = true) : OnSegments.firstOperands back = [] := by
  cases back with
  | nil => rfl
  | cons next rest =>
      rw [OnSegments.firstOperands, List.takeWhile_cons_of_neg]
      intro both
      have pair := (List.isChain_append_cons_cons.1 apart).2.1
      rw [both, operand] at pair
      contradiction

/-- What can be folded stands between operators. -/
theorem neighbours_of_refold (items : List Tree)
    (refold : ∀ segment expr, segment.piece = .tree expr →
      form.Pictures expr → Spelled text (listParts items) (front ++ segment :: back)) :
    OnSegments.lastOperands front = [] ∧ OnSegments.firstOperands back = [] := by
  obtain ⟨expr, pictures⟩ := form.exists_pictures
  have apart := (refold ⟨⟨0, 0⟩, .tree expr⟩ expr rfl pictures).apart (apart_listParts items)
  exact ⟨lastOperands_eq_nil apart (isOperand_of_tree rfl),
    firstOperands_eq_nil apart (isOperand_of_tree rfl)⟩

theorem lastOperands_concat (none : OnSegments.lastOperands front = [])
    (operand : segment.isOperand = true) :
    OnSegments.lastOperands (front ++ [segment]) = [segment] ∧
      OnSegments.dropOperands (front ++ [segment]) = front := by
  have last : OnSegments.lastOperands (front ++ [segment]) = [segment] := by
    rw [OnSegments.lastOperands, List.rtakeWhile_concat_pos _ _ _ operand]
    rw [OnSegments.lastOperands] at none
    rw [none, List.nil_append]
  refine ⟨last, ?_⟩
  have whole := dropOperands_append (front ++ [segment])
  rw [last] at whole
  exact List.append_cancel_right whole

theorem firstOperands_cons (none : OnSegments.firstOperands back = [])
    (operand : segment.isOperand = true) :
    OnSegments.firstOperands (segment :: back) = [segment] ∧
      OnSegments.skipOperands (segment :: back) = back := by
  have first : OnSegments.firstOperands (segment :: back) = [segment] := by
    rw [OnSegments.firstOperands, List.takeWhile_cons_of_pos operand]
    rw [OnSegments.firstOperands] at none
    rw [none]
  refine ⟨first, ?_⟩
  have whole := firstOperands_append (segment :: back)
  rw [first, List.singleton_append] at whole
  exact (List.cons.inj whole).2

/-- A bracket closes at the first closing one behind it. -/
theorem find?_closing {closing : Op} {last : Segment} (isLast : last.op? = some closing)
    (absent : ¬ Occurs closing middle) :
    (headsOf (middle ++ last :: back)).find? (·.2 == closing) =
      some (last.span.start, closing) := by
  have skipped : (headsOf middle).find? (·.2 == closing) = none := by
    rw [List.find?_eq_none]
    rintro ⟨position, found⟩ among same
    obtain rfl : found = closing := eq_of_beq same
    obtain ⟨front, segment, back, rfl, isOp, -⟩ := exists_of_mem_headsOf among
    exact absent ⟨segment, by simp, isOp⟩
  rw [headsOf_append, headsOf_op isLast, List.find?_append, skipped, Option.none_or,
    List.find?_cons_of_pos]
  exact beq_self_eq_true closing

end

end Tree
end MethodLowering
