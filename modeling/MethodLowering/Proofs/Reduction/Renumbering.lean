import MethodLowering.Proofs.Expr.Renumbering
import MethodLowering.Reduction.Statement

/-!
# Reading the same text again

A text that is reduced from a body with more variables and nodes fails for the same reason, or gives
the same tree with later numbers.
-/

namespace MethodLowering

/-- The second body has more variables and nodes. -/
structure Body.Behind (gap : Mark) (body later : Body) : Prop where
  vars : later.vars.size = body.vars.size + gap.vars
  nodes : later.nextNode = body.nextNode + gap.nodes

theorem Body.Behind.declare {gap : Mark} {body later : Body} (behind : body.Behind gap later)
    (entry other : Variable) : (body.declare entry).Behind gap (later.declare other) := by
  have size (body : Body) (entry : Variable) :
      (body.declare entry).vars.size = body.vars.size + 1 := by
    rw [Body.declare]
    cases entry.scope <;> simp [Body.modifyParagraph]
  have node (body : Body) (entry : Variable) : (body.declare entry).nextNode = body.nextNode := by
    rw [Body.declare]
    cases entry.scope <;> rfl
  have vars := behind.vars
  refine ⟨?_, ?_⟩
  · rw [size, size]
    omega
  · rw [node, node, behind.nodes]

/-- The pending expression with later numbers. -/
def Subtree.renumber (gap : Mark) (subtree : Subtree) : Subtree :=
  { subtree with expr := subtree.expr.renumber gap }

namespace Reduction

/-- The second reduction has the same tags, and its expressions have later numbers. -/
structure Beside (gap : Mark) (left right : Reduction) : Prop where
  ledger : right.ledger = left.ledger
  pending : right.pending = left.pending.map (Option.map (Subtree.renumber gap))
  body : left.body.Behind gap right.body

/-- Both computations fail for the same reason, or the second one gives the renumbered value. -/
def Repeats {α : Type} (gap : Mark) (renumber : α → α) :
    EStateM.Result Failure Reduction α → EStateM.Result Failure Reduction α → Prop
  | .ok value state, .ok other state' => other = renumber value ∧ Beside gap state state'
  | .error failure _, .error failure' _ => failure' = failure
  | _, _ => False

section

variable {α β : Type} {gap : Mark} {left right : Reduction}

theorem Repeats.bind {first : α → α} {second : β → β} {computation other : ReduceM α}
    {next again : α → ReduceM β} (repeats : Repeats gap first (computation left) (other right))
    (later : ∀ value state state', Beside gap state state' →
      Repeats gap second (next value state) (again (first value) state')) :
    Repeats gap second ((computation >>= next) left) ((other >>= again) right) := by
  simp only [Bind.bind, EStateM.bind]
  generalize computation left = begun at repeats
  generalize other right = resumed at repeats
  cases begun with
  | ok value state =>
      cases resumed with
      | ok value' state' =>
          obtain ⟨rfl, beside⟩ := repeats
          exact later value state state' beside
      | error failure state' => exact repeats.elim
  | error failure state =>
      cases resumed with
      | ok value' state' => exact repeats.elim
      | error failure' state' => exact repeats

theorem Repeats.pure {renumber : α → α} {value other : α} (beside : Beside gap left right)
    (same : other = renumber value) :
    Repeats gap renumber ((Pure.pure value : ReduceM α) left)
    ((Pure.pure other : ReduceM α) right) :=
  ⟨same, beside⟩

theorem Repeats.reject {renumber : α → α} {error : SourceError} :
    Repeats gap renumber ((reject error : ReduceM α) left) ((reject error : ReduceM α) right) :=
  rfl

theorem Repeats.rejectBracket {renumber : α → α} {op : Op} {position : Nat}
    (beside : Beside gap left right) :
    Repeats gap renumber ((rejectBracket op position : ReduceM α) left)
      ((rejectBracket op position : ReduceM α) right) := by
  change Failure.malformed _ = Failure.malformed _
  rw [beside.ledger]

/-- Looking at the ledger. -/
theorem Repeats.getLedger {renumber : α → α} {next again : Ledger → ReduceM α}
    (beside : Beside gap left right)
    (repeats : Repeats gap renumber (next left.ledger left) (again left.ledger right)) :
    Repeats gap renumber ((Reduction.getLedger >>= next) left)
    ((Reduction.getLedger >>= again) right) := by
  change Repeats gap renumber (next left.ledger left) (again right.ledger right)
  rwa [beside.ledger]

/-- Both computations decide alike. -/
theorem Repeats.ite {renumber : α → α} {condition : Prop} [Decidable condition]
    {first second again other : ReduceM α}
    (yes : condition → Repeats gap renumber (first left) (again right))
    (no : ¬ condition → Repeats gap renumber (second left) (other right)) :
    Repeats gap renumber ((if condition then first else second : ReduceM α) left)
      ((if condition then again else other : ReduceM α) right) := by
  by_cases holds : condition
  · rw [if_pos holds, if_pos holds]
    exact yes holds
  · rw [if_neg holds, if_neg holds]
    exact no holds

/-- Looking at the states. -/
theorem Repeats.get {renumber : α → α} {next again : Reduction → ReduceM α}
    (repeats : Repeats gap renumber (next left left) (again right right)) :
    Repeats gap renumber ((MonadState.get >>= next) left) ((MonadState.get >>= again) right) :=
  repeats

section

variable (beside : Beside gap left right)
include beside

theorem textAt_repeats (span : Span) :
    Repeats gap id (textAt span left) (textAt span right) := by
  unfold textAt
  exact .getLedger beside (.ite (fun _ => .pure beside rfl) fun _ => rfl)

theorem markSpan_repeats (span : Span) (tag : Tag) :
    Repeats gap id (markSpan span tag left) (markSpan span tag right) :=
  ⟨rfl, congrArg (·.mark span tag) beside.ledger, beside.pending, beside.body⟩

theorem recordPair_repeats (opening closing : Nat) :
    Repeats gap id (recordPair opening closing left) (recordPair opening closing right) :=
  ⟨rfl, beside.ledger, beside.pending, beside.body⟩

theorem effort_repeats (count : Effort → Effort) :
    Repeats gap id (modifyBody (fun body => { body with effort := count body.effort }) left)
      (modifyBody (fun body => { body with effort := count body.effort }) right) :=
  ⟨rfl, beside.ledger, beside.pending, beside.body.vars, beside.body.nodes⟩

theorem declare_repeats (entry other : Variable) :
    Repeats gap id (modifyBody (fun body => body.declare entry) left)
      (modifyBody (fun body => body.declare other) right) :=
  ⟨rfl, beside.ledger, beside.pending, beside.body.declare entry other⟩

theorem retype_repeats (id other : VariableId) (typeName otherName : String) :
    Repeats gap (fun value => value) (modifyBody (fun body => body.retype id typeName) left)
      (modifyBody (fun body => body.retype other otherName) right) := by
  refine ⟨rfl, beside.ledger, beside.pending, ?_, beside.body.nodes⟩
  simpa [Body.retype] using beside.body.vars

theorem newNode_repeats (span : Span) :
    Repeats gap (Node.renumber gap) (newNode span left) (newNode span right) := by
  refine (textAt_repeats beside span).bind fun text left' right' beside => ?_
  have nodes := beside.body.nodes
  refine ⟨?_, beside.ledger, beside.pending, beside.body.vars, ?_⟩
  · rw [Node.renumber, nodes, id]
  · change right'.body.nextNode + 1 = left'.body.nextNode + 1 + gap.nodes
    omega

end

/-- The span of a node does not depend on the numbers of its operands. -/
theorem newNodeAround_renumber (anchor : Span) (operands : List Expr) :
    newNodeAround anchor (operands.map (Expr.renumber gap)) = newNodeAround anchor operands := by
  unfold newNodeAround
  congr 1
  induction operands generalizing anchor with
  | nil => rfl
  | cons operand rest induction =>
      rw [List.map_cons, List.foldl_cons, List.foldl_cons, induction, Expr.node?_renumber]
      cases operand.node? <;> rfl

theorem newNodeAround_repeats (beside : Beside gap left right) (anchor : Span)
    (operands : List Expr) :
    Repeats gap (Node.renumber gap) (newNodeAround anchor operands left)
      (newNodeAround anchor (operands.map (Expr.renumber gap)) right) := by
  rw [newNodeAround_renumber]
  exact newNode_repeats beside _

theorem required_repeats (beside : Beside gap left right) (operand : Option Expr) (op : Op)
    (context : String) :
    Repeats gap (Expr.renumber gap) (required operand op context left)
      (required (operand.map (Expr.renumber gap)) op context right) := by
  cases operand with
  | some expr => exact .pure beside rfl
  | none => exact .reject

theorem getD_renumber (operand : Option Expr) :
    (operand.map (Expr.renumber gap)).getD .absent = (operand.getD .absent).renumber gap := by
  cases operand <;> rfl

/-! ## Leaves and operators -/

theorem newLeaf_repeats (beside : Beside gap left right) (span : Span) (form : LeafForm) :
    Repeats gap (Expr.renumber gap) ((do return .leaf (← newNode span) form : ReduceM Expr) left)
      ((do return .leaf (← newNode span) form : ReduceM Expr) right) :=
  (newNode_repeats beside span).bind fun _ _ _ beside => .pure beside rfl

theorem classify_repeats (beside : Beside gap left right) (span : Span) (text : List Char) :
    Repeats gap (Expr.renumber gap) (classify span text left) (classify span text right) := by
  rw [classify]
  cases leafForm? text with
  | some form => exact newLeaf_repeats beside span form
  | none =>
      cases declared? (Text.words text) with
      | none => exact .reject
      | some declared =>
          cases declared with
          | nothing => exact newLeaf_repeats beside span .verbatim
          | «variable» name typeName isFinal isStatic =>
              refine .get ((declare_repeats beside _ _).bind fun _ _ _ later => ?_)
              refine (newNode_repeats later span).bind fun node _ _ last => .pure last ?_
              rw [Expr.renumber, beside.body.vars]

theorem leaf_repeats (beside : Beside gap left right) (range : Span) :
    Repeats gap (Expr.renumber gap) (leaf range left) (leaf range right) := by
  exact .getLedger beside (.ite (fun _ => newLeaf_repeats beside range .verbatim)
    fun _ => classify_repeats beside range _)

/-- Operands are reduced again to the same trees with later numbers. -/
def RepeatsOperands (gap : Mark) (operands : Operands) : Prop :=
  ∀ start stop left right, Beside gap left right →
    Repeats gap (Option.map (Expr.renumber gap)) (operands start stop left)
      (operands start stop right)

variable {operands : Operands}

section

variable (repeats : RepeatsOperands gap operands) (beside : Beside gap left right)
include repeats beside

theorem binary_repeats (op : Op) (position : Nat) (range : Span) :
    Repeats gap (Expr.renumber gap) (binary operands op position range left)
      (binary operands op position range right) := by
  refine (repeats _ _ _ _ beside).bind fun first _ _ beside => ?_
  refine (repeats _ _ _ _ beside).bind fun second _ _ beside => ?_
  rw [getD_renumber, getD_renumber]
  exact (newNodeAround_repeats beside _ [_, _]).bind fun node _ _ beside => .pure beside rfl

theorem assignment_repeats (op : Op) (position : Nat) (range : Span) :
    Repeats gap (Expr.renumber gap) (assignment operands op position range left)
      (assignment operands op position range right) := by
  refine (repeats _ _ _ _ beside).bind fun first _ _ beside => ?_
  refine (required_repeats beside first _ _).bind fun target _ _ beside => ?_
  refine (repeats _ _ _ _ beside).bind fun second _ _ beside => ?_
  rw [getD_renumber]
  exact (newNodeAround_repeats beside _ [_, _]).bind fun node _ _ beside => .pure beside rfl

theorem conditional_repeats (position : Nat) (range : Span) :
    Repeats gap (Expr.renumber gap) (conditional operands position range left)
      (conditional operands position range right) := by
  refine .getLedger beside ?_
  cases pairedColon? 0 (left.ledger.heads (position + 1) range.stop) with
  | none => exact .reject
  | some colon =>
      refine (repeats _ _ _ _ beside).bind fun condition _ _ beside => ?_
      refine (repeats _ _ _ _ beside).bind fun first _ _ beside => ?_
      refine (repeats _ _ _ _ beside).bind fun second _ _ beside => ?_
      rw [getD_renumber, getD_renumber, getD_renumber]
      refine (newNodeAround_repeats beside _ [_, _]).bind fun inner _ _ beside => ?_
      have branches := newNodeAround_repeats beside ⟨position, position + 1⟩
        [condition.getD .absent,
          .operation inner .colon (first.getD .absent) (second.getD .absent)]
      exact branches.bind fun outer _ _ beside => .pure beside rfl

end

theorem qualifyConstruction?_repeats (beside : Beside gap left right) (subject member : Expr) :
    Repeats gap (Option.map (Expr.renumber gap)) (qualifyConstruction? subject member left)
      (qualifyConstruction? (subject.renumber gap) (member.renumber gap) right) := by
  have nothing : Repeats gap (Option.map (Expr.renumber gap))
      ((Pure.pure none : ReduceM (Option Expr)) left) ((Pure.pure none : ReduceM _) right) :=
    .pure beside rfl
  unfold qualifyConstruction?
  rw [Expr.constructedType?_renumber, Expr.node?_renumber, Expr.node?_renumber]
  cases subject.constructedType? with
  | none => exact nothing
  | some qualifier =>
      cases subject.node? with
      | none => exact nothing
      | some subjectNode =>
          rcases Expr.memberName?_renumber gap member with ⟨first, second⟩ |
            ⟨name, rebuild, rebuilt, first, second, same⟩
          · rw [first, second]
            exact nothing
          · rw [first, second]
            cases member.node? with
            | none => exact nothing
            | some memberNode =>
                refine (textAt_repeats beside _).bind fun nameText _ _ beside => ?_
                refine (textAt_repeats beside _).bind fun text _ _ beside => .pure beside ?_
                refine congrArg some ?_
                have construction := same (.leaf
                  { name with span := ⟨subjectNode.span.start, name.span.stop⟩, text := nameText }
                  (.construction (qualifier ++ "." ++ Text.trimmed name.text)))
                exact (congrArg (fun expr : Expr => expr.relocate _ _) construction).trans
                  (Expr.relocate_renumber ..)

theorem qualifyDeclaration?_repeats (beside : Beside gap left right) (subject member : Expr) :
    Repeats gap (Option.map (Expr.renumber gap)) (qualifyDeclaration? subject member left)
      (qualifyDeclaration? (subject.renumber gap) (member.renumber gap) right) := by
  have nothing : Repeats gap (Option.map (Expr.renumber gap))
      ((Pure.pure none : ReduceM (Option Expr)) left) ((Pure.pure none : ReduceM _) right) :=
    .pure beside rfl
  unfold qualifyDeclaration?
  rw [Expr.node?_renumber]
  cases subject.node? with
  | none => exact nothing
  | some subjectNode =>
      cases member with
      | declaration node declared continued =>
          dsimp only [Option.map_some, Expr.renumber, Node.renumber]
          split
          · refine .get ?_
            have size := beside.body.vars
            cases known : left.body.vars[declared]? with
            | none =>
                have unknown : right.body.vars[declared + gap.vars]? = none := by
                  rw [Array.getElem?_eq_none_iff] at known ⊢
                  omega
                rw [unknown]
                exact nothing
            | some entry =>
                have inside := (Array.getElem?_eq_some_iff.1 known).1
                have there : declared + gap.vars < right.body.vars.size :=
                  size ▸ Nat.add_lt_add_right inside _
                obtain ⟨found, known⟩ : ∃ found, right.body.vars[declared + gap.vars]? =
                  some found :=
                  ⟨_, Array.getElem?_eq_getElem there⟩
                rw [known]
                refine (retype_repeats beside _ _ _ _).bind fun _ _ _ beside => ?_
                exact (textAt_repeats beside _).bind fun text _ _ beside => .pure beside rfl
          · exact nothing
      | _ => exact nothing

section

variable (repeats : RepeatsOperands gap operands) (beside : Beside gap left right)
include repeats beside

theorem access_repeats (position : Nat) (range : Span) :
    Repeats gap (Expr.renumber gap) (access operands position range left)
      (access operands position range right) := by
  refine .getLedger beside ((repeats _ _ _ _ beside).bind fun first _ _ beside => ?_)
  refine (required_repeats beside first _ _).bind fun subject _ _ beside => ?_
  refine (repeats _ _ _ _ beside).bind fun second _ _ beside => ?_
  refine (required_repeats beside second _ _).bind fun member _ _ beside => ?_
  refine (qualifyConstruction?_repeats beside subject member).bind fun result _ _ beside => ?_
  cases result with
  | some construction => exact .pure beside rfl
  | none =>
      refine (qualifyDeclaration?_repeats beside subject member).bind fun result _ _ beside => ?_
      cases result with
      | some declaration => exact .pure beside rfl
      | none =>
          exact (newNodeAround_repeats beside _ [subject, member]).bind fun node _ _ beside =>
            .pure beside rfl

theorem typeTest_repeats (position : Nat) (range : Span) :
    Repeats gap (Expr.renumber gap) (typeTest operands position range left)
      (typeTest operands position range right) := by
  refine .getLedger beside ((repeats _ _ _ _ beside).bind fun first _ _ beside => ?_)
  refine (required_repeats beside first _ _).bind fun operand _ _ beside => .getLedger beside ?_
  refine .ite (fun _ => .reject) fun _ => ?_
  refine (textAt_repeats beside _).bind fun typeName _ _ beside => ?_
  refine (markSpan_repeats beside _ _).bind fun _ _ _ beside => ?_
  exact (newNodeAround_repeats beside _ [operand]).bind fun node _ _ beside => .pure beside rfl

theorem unary_repeats (op : Op) (position : Nat) (range : Span) :
    Repeats gap (Expr.renumber gap) (unary operands op position range left)
      (unary operands op position range right) := by
  refine .getLedger beside ?_
  dsimp only
  split
  · refine (repeats _ _ _ _ beside).bind fun first _ _ beside => ?_
    refine (required_repeats beside first _ _).bind fun operand _ _ beside => ?_
    exact (newNodeAround_repeats beside _ [operand]).bind fun node _ _ beside => .pure beside rfl
  · refine (repeats _ _ _ _ beside).bind fun first _ _ beside => ?_
    refine (required_repeats beside first _ _).bind fun operand _ _ beside => ?_
    exact (newNodeAround_repeats beside _ [operand]).bind fun node _ _ beside => .pure beside rfl

end

/-! ## Brackets -/

theorem items_renumber (inner : Option Expr) :
    items (inner.map (Expr.renumber gap)) = (items inner).map (Expr.renumber gap) := by
  cases inner with
  | none => rfl
  | some expr => exact Expr.commaItems_renumber gap expr

theorem group_repeats (beside : Beside gap left right) (span : Span) (brace : Bool)
    (inner : Option Expr) :
    Repeats gap (Expr.renumber gap)
      ((do return .group (← newNode span) brace (items inner) : ReduceM Expr) left)
      ((do return .group (← newNode span) brace (items (inner.map (Expr.renumber gap))) :
        ReduceM Expr) right) := by
  refine (newNode_repeats beside span).bind fun node _ _ beside => .pure beside ?_
  rw [items_renumber, Expr.renumber, Expr.renumberAll_eq]

theorem paren_repeats (repeats : RepeatsOperands gap operands) (beside : Beside gap left right)
    (position close : Nat) (inner : Option Expr) (range : Span) :
    Repeats gap (Expr.renumber gap) (paren operands position close inner range left)
      (paren operands position close (inner.map (Expr.renumber gap)) range right) := by
  have reads : (inner.map (Expr.renumber gap)).bind castType? = inner.bind castType? := by
    cases inner with
    | none => rfl
    | some expr => exact Expr.castType?_renumber gap expr
  refine .getLedger beside (.ite (fun _ => ?_) fun _ => ?_)
  · refine (repeats _ _ _ _ beside).bind fun callee _ _ beside => ?_
    cases callee with
    | none => exact .rejectBracket beside
    | some callee =>
        refine (newNodeAround_repeats beside _ [callee]).bind fun node _ _ beside => .pure beside ?_
        rw [items_renumber, Expr.renumber, Expr.renumberAll_eq]
  · rw [reads]
    generalize (if left.ledger.isBlank (close + 1) _ = true then none else inner.bind castType?) =
      type
    cases type with
    | none => exact group_repeats beside _ _ _
    | some typeName =>
        refine (repeats _ _ _ _ beside).bind fun operand _ _ beside => ?_
        cases operand with
        | none => exact .rejectBracket beside
        | some operand =>
            exact (newNodeAround_repeats beside _ [operand]).bind fun node _ _ beside =>
              .pure beside rfl

theorem join_pending (beside : Beside gap left right) (id : Nat) :
    right.pending[id]?.join = left.pending[id]?.join.map (Subtree.renumber gap) := by
  rw [beside.pending, Array.getElem?_map]
  cases left.pending[id]? with
  | none => rfl
  | some entry => rfl

theorem pendingFrom?_renumber (beside : Beside gap left right) (start : Nat) (range : Span) :
    pendingFrom? right start range =
      (pendingFrom? left start range).map fun found => (found.1, found.2.renumber gap) := by
  unfold pendingFrom?
  rw [beside.ledger]
  cases Text.seek? (fun position => !left.ledger.isSpace position) start (range.stop - start) with
  | none => rfl
  | some next =>
      dsimp only
      cases left.ledger.tag? next with
      | none => rfl
      | some tag =>
          cases tag with
          | pending id =>
              dsimp only
              rw [join_pending beside id]
              cases left.pending[id]?.join with
              | none => rfl
              | some subtree =>
                  dsimp only [Option.map_some, Subtree.renumber]
                  split <;> rfl
          | _ => rfl

/-- What an index takes in, with later numbers. -/
def renumberAbsorbed (gap : Mark) (taken : List Expr × Expr × Nat) : List Expr × Expr × Nat :=
  (taken.1.map (Expr.renumber gap), taken.2.1.renumber gap, taken.2.2)

/-- A pending expression is used up, whatever its numbers. -/
theorem modify_renumber (pending : Array (Option Subtree)) (id : Nat) :
    (pending.map (Option.map (Subtree.renumber gap))).modify id (fun _ => none) =
      (pending.modify id fun _ => none).map (Option.map (Subtree.renumber gap)) := by
  apply Array.ext_getElem?
  intro position
  simp only [Array.getElem?_modify, Array.getElem?_map]
  split
  · cases pending[position]? <;> rfl
  · rfl

theorem absorb_repeats (beside : Beside gap left right) (range : Span) (count : Nat)
    (indices : List Expr) (stop : Nat) :
    Repeats gap (renumberAbsorbed gap) (absorb range count indices stop left)
      (absorb range count (indices.map (Expr.renumber gap)) stop right) := by
  induction count generalizing left right indices stop with
  | zero => exact .pure beside rfl
  | succ count induction =>
      refine .get ?_
      rw [pendingFrom?_renumber beside]
      cases pendingFrom? left stop range with
      | none => exact .pure beside rfl
      | some found =>
          obtain ⟨id, subtree⟩ := found
          dsimp only [Option.map_some, Subtree.renumber]
          rw [Expr.absorbed?_renumber]
          cases absorbed? subtree.expr with
          | none => exact .pure beside rfl
          | some parts =>
              obtain ⟨further, initializer⟩ := parts
              dsimp only [Option.map_some]
              have used : Repeats gap (fun value => value)
                  ((modify fun state : Reduction =>
                    { state with pending := state.pending.modify id fun _ => none } :
                      ReduceM _) left)
                  ((modify fun state : Reduction =>
                    { state with pending := state.pending.modify id fun _ => none } :
                      ReduceM _) right) := by
                refine ⟨rfl, beside.ledger, ?_, beside.body⟩
                dsimp only
                rw [beside.pending]
                exact modify_renumber left.pending id
              rw [← List.map_append, Expr.isPresent_renumber]
              refine used.bind fun _ _ _ beside => .ite (fun _ => .pure beside rfl) fun _ => ?_
              exact induction beside _ _

theorem index_repeats (repeats : RepeatsOperands gap operands) (beside : Beside gap left right)
    (position close : Nat) (inner : Option Expr) (range : Span) :
    Repeats gap (Expr.renumber gap) (index operands position close inner range left)
      (index operands position close (inner.map (Expr.renumber gap)) range right) := by
  refine .getLedger beside ((repeats _ _ _ _ beside).bind fun target _ _ beside => ?_)
  rw [getD_renumber, getD_renumber]
  refine (absorb_repeats beside range range.length [inner.getD .absent] (close + 1)).bind
    fun taken state state' beside => ?_
  obtain ⟨indices, initializer, stop⟩ := taken
  have made (span again : Span) (same : again = span) :
      Repeats gap (Expr.renumber gap)
        ((newNode span >>= fun node =>
          pure (.index node (target.getD .absent) indices initializer)) state)
        ((newNode again >>= fun node =>
          pure (.index node ((target.getD .absent).renumber gap) (indices.map (Expr.renumber gap))
            (initializer.renumber gap))) state') := by
    subst same
    refine (newNode_repeats beside _).bind fun node _ _ beside => .pure beside ?_
    rw [Expr.renumber, Expr.renumberAll_eq]
  refine made _ _ ?_
  rw [Expr.node?_renumber]
  cases (target.getD .absent).node? <;> rfl

theorem bracket_repeats (repeats : RepeatsOperands gap operands) (beside : Beside gap left right)
    (op : Op) (position : Nat) (range : Span) :
    Repeats gap (Expr.renumber gap) (bracket operands op position range left)
      (bracket operands op position range right) := by
  refine .getLedger beside ?_
  cases op.closing? with
  | none => exact .rejectBracket beside
  | some closing =>
      dsimp only
      generalize Text.seek? _ _ _ = found
      cases found with
      | none => exact .rejectBracket beside
      | some close =>
          refine (recordPair_repeats beside _ _).bind fun _ _ _ beside => ?_
          refine (repeats _ _ _ _ beside).bind fun inner _ _ beside => ?_
          cases op with
          | openParen => exact paren_repeats repeats beside _ _ _ _
          | openBracket => exact index_repeats repeats beside _ _ _ _
          | _ => exact group_repeats beside _ _ _

/-! ## Ranges and statements -/

theorem fold_repeats (repeats : RepeatsOperands gap operands) (beside : Beside gap left right)
    (candidate : Candidate) (range : Span) :
    Repeats gap (Expr.renumber gap) (fold operands candidate range left)
      (fold operands candidate range right) := by
  obtain ⟨position, op, isSign⟩ := candidate
  cases op with
  | openParen => exact bracket_repeats repeats beside .openParen _ _
  | openBracket => exact bracket_repeats repeats beside .openBracket _ _
  | openBrace => exact bracket_repeats repeats beside .openBrace _ _
  | question => exact conditional_repeats repeats beside _ _
  | dot => exact access_repeats repeats beside _ _
  | instanceOf => exact typeTest_repeats repeats beside _ _
  | increment | decrement | not => exact unary_repeats repeats beside _ _ _
  | _ =>
      refine .ite (fun _ => unary_repeats repeats beside _ _ _) fun _ => ?_
      refine .ite (fun _ => assignment_repeats repeats beside _ _ _) fun _ => ?_
      exact .ite (fun _ => .rejectBracket beside) fun _ => binary_repeats repeats beside _ _ _

theorem pendingAt?_renumber (beside : Beside gap left right) (range : Span) :
    pendingAt? right range = (pendingAt? left range).map (Expr.renumber gap) := by
  unfold pendingAt?
  rw [beside.ledger]
  cases left.ledger.tag? range.start with
  | none => rfl
  | some tag =>
      cases tag with
      | pending id =>
          dsimp only
          rw [join_pending beside id]
          cases left.pending[id]?.join with
          | none => rfl
          | some subtree =>
              dsimp only [Option.map_some, Subtree.renumber]
              split <;> rfl
      | _ => rfl

theorem keepPending_repeats (beside : Beside gap left right) (span : Span) (expr : Expr) :
    Repeats gap id (keepPending span expr left) (keepPending span (expr.renumber gap) right) := by
  have size : right.pending.size = left.pending.size := by rw [beside.pending, Array.size_map]
  refine ⟨rfl, ?_, ?_, beside.body⟩
  · dsimp only
    rw [beside.ledger, size]
  · dsimp only
    rw [beside.pending, Array.map_push]
    rfl

theorem nextCandidate_repeats (beside : Beside gap left right) (range : Span) :
    Repeats gap id (nextCandidate range left) (nextCandidate range right) := by
  refine .getLedger beside ?_
  cases bestCandidate? left.ledger range with
  | some candidate => exact .pure beside rfl
  | none =>
      dsimp only
      cases (left.ledger.heads range.start range.stop).head? with
      | none => exact .pure beside rfl
      | some head => exact .rejectBracket beside

/-- A resolved range gives its expression. -/
theorem resolved_repeats (beside : Beside gap left right) (range : Span) (expr : Expr) :
    Repeats gap (Expr.renumber gap) ((do markSpan range .resolved; return expr : ReduceM Expr) left)
      ((do markSpan range .resolved; return expr.renumber gap : ReduceM Expr) right) :=
  (markSpan_repeats beside range .resolved).bind fun _ _ _ beside => .pure beside rfl

theorem rounds_repeats (repeats : RepeatsOperands gap operands) (beside : Beside gap left right)
    (range : Span) (count : Nat) :
    Repeats gap (Expr.renumber gap) (rounds operands range count left)
      (rounds operands range count right) := by
  induction count generalizing left right with
  | zero => exact (textAt_repeats beside range).bind fun _ _ _ _ => .reject
  | succ count induction =>
      refine (effort_repeats beside fun effort => { effort with rounds := effort.rounds + 1 }).bind
        fun _ _ _ beside => .get ?_
      rw [pendingAt?_renumber beside]
      generalize pendingAt? _ range = found
      cases found with
      | some expr => exact resolved_repeats beside range expr
      | none =>
          refine (nextCandidate_repeats beside range).bind fun candidate _ _ beside => ?_
          cases candidate with
          | none =>
              exact (leaf_repeats beside range).bind fun expr _ _ beside =>
                resolved_repeats beside range expr
          | some candidate =>
              refine (fold_repeats repeats beside candidate range).bind fun expr _ _ beside => ?_
              have span : (((expr.renumber gap).node?.map (·.span)).getD range) =
                  ((expr.node?.map (·.span)).getD range) := by
                rw [Expr.node?_renumber]
                cases expr.node? <;> rfl
              rw [span]
              refine .ite (fun _ => .reject) fun _ => .ite (fun _ => ?_) fun _ => ?_
              · exact resolved_repeats beside range expr
              · exact (keepPending_repeats beside _ expr).bind fun _ _ _ beside => induction beside

theorem reduce_repeats (gap : Mark) (nesting depth : Nat) :
    RepeatsOperands gap (reduce nesting depth) := by
  induction nesting generalizing depth with
  | zero => exact fun _ _ _ _ beside => (textAt_repeats beside _).bind fun _ _ _ _ => .reject
  | succ nesting induction =>
      intro start stop left right beside
      have deeper : Repeats gap (fun value => value)
          ((modify fun state : Reduction => { state with deepest := max state.deepest depth } :
            ReduceM _) left)
          ((modify fun state : Reduction => { state with deepest := max state.deepest depth } :
            ReduceM _) right) := ⟨rfl, beside.ledger, beside.pending, beside.body⟩
      refine deeper.bind fun _ _ _ beside => .getLedger beside (.ite (fun _ => .pure beside rfl) ?_)
      exact fun _ => (rounds_repeats (induction _) beside _ _).bind fun expr _ _ beside =>
        .pure beside rfl

theorem statement_repeats (beside : Beside gap left right) :
    Repeats gap (Expr.renumber gap) (statement left) (statement right) := by
  refine (effort_repeats beside fun effort =>
    { effort with statements := effort.statements + 1 }).bind fun _ _ _ beside =>
    .getLedger beside ?_
  refine (reduce_repeats gap _ _ _ _ _ _ beside).bind fun result _ _ beside => ?_
  rw [getD_renumber]
  exact ⟨rfl, beside.ledger, beside.pending, beside.body.vars, beside.body.nodes⟩

end
end Reduction
end MethodLowering
