import MethodLowering.Proofs.Body.Making

/-!
# Variables and nodes of a statement

A statement is read in the scope of one paragraph.  Whatever its reduction does, the body only gains
variables of this paragraph and counts nodes.  The nodes and variables of every expression it makes
are new, no expression lacks a required part, and where the text has no line break, neither has what
is kept of it.
-/

namespace MethodLowering

open Body

/-- Where the computation succeeds, its value and the state behind it have the property. -/
def Gives {σ α : Type} (computation : EStateM Failure σ α) (state : σ) (property : α → σ → Prop) :
    Prop :=
  ∀ value after, computation state = .ok value after → property value after

section

variable {σ α β : Type} {state after : σ} {computation : EStateM Failure σ α}
  {property : α → σ → Prop}

theorem Gives.bind {next : α → EStateM Failure σ β} {final : β → σ → Prop}
    (gives : Gives computation state property)
    (later : ∀ value between, property value between → Gives (next value) between final) :
    Gives (computation >>= next) state final := by
  intro value after result
  obtain ⟨between, middle, begun, ended⟩ := bind_eq_ok.1 result
  exact later between middle (gives between middle begun) value after ended

/-- A computation whose result is known. -/
theorem Gives.of_ok {value : α} (result : computation state = .ok value after)
    (holds : property value after) : Gives computation state property := by
  intro other final same
  rw [result, EStateM.Result.ok.injEq] at same
  obtain ⟨rfl, rfl⟩ := same
  exact holds

/-- The first part succeeds for certain. -/
theorem Gives.next {value : α} {further : α → EStateM Failure σ β} {final : β → σ → Prop}
    (result : computation state = .ok value after) (later : Gives (further value) after final) :
    Gives (computation >>= further) state final := by
  intro other last ended
  obtain ⟨_, _, begun, behind⟩ := bind_eq_ok.1 ended
  rw [result, EStateM.Result.ok.injEq] at begun
  obtain ⟨rfl, rfl⟩ := begun
  exact later other last behind

theorem Gives.throw {failure : Failure} :
    Gives (MonadExcept.throw failure : EStateM Failure σ α) state property := by
  intro value after result
  contradiction

theorem Gives.pure {value : α} (holds : property value state) :
    Gives (Pure.pure value : EStateM Failure σ α) state property :=
  .of_ok rfl holds

end

namespace Reduction

section

variable {β : Type} {span : Span} {state : Reduction} {final : β → Reduction → Prop}

theorem textAt_gives (span : Span) (state : Reduction) :
    Gives (textAt span) state fun text after =>
      text = state.ledger.textAt span ∧ after = state := by
  rcases textAt_cases span state with ⟨-, read⟩ | ⟨-, strays⟩
  · exact .of_ok read ⟨rfl, rfl⟩
  · intro text after result
    rw [strays] at result
    contradiction

theorem Gives.textAt {next : String → ReduceM β}
    (later : Gives (next (state.ledger.textAt span)) state final) :
    Gives (Reduction.textAt span >>= next) state final := by
  refine (textAt_gives span state).bind fun text after same => ?_
  obtain ⟨rfl, rfl⟩ := same
  exact later

/-- A reduction that stalls does not succeed. -/
theorem Gives.stalls :
    Gives (do reject (.resolveStalled (← Reduction.textAt span)) : ReduceM β) state final :=
  Gives.textAt .throw

theorem newNode_gives (span : Span) (state : Reduction) :
    Gives (newNode span) state fun node after =>
      node = ⟨state.body.nextNode, span, state.ledger.textAt span⟩ ∧
        after = { state with body := { state.body with nextNode := state.body.nextNode + 1 } } :=
  Gives.textAt (.of_ok rfl ⟨rfl, rfl⟩)

theorem Gives.newNode {next : Node → ReduceM β}
    (later : Gives (next ⟨state.body.nextNode, span, state.ledger.textAt span⟩)
      { state with body := { state.body with nextNode := state.body.nextNode + 1 } } final) :
    Gives (Reduction.newNode span >>= next) state final := by
  refine (newNode_gives span state).bind fun node after same => ?_
  obtain ⟨rfl, rfl⟩ := same
  exact later

end

/-- The expression is there, and it is new. -/
def New (solid : Prop) (base : Body) (expr : Expr) (mark : Mark) : Prop :=
  expr.isPresent = true ∧ expr.Made solid base.mark mark

/-- The operand, where there is one, is new. -/
def NewOperand (solid : Prop) (base : Body) (operand : Option Expr) (mark : Mark) : Prop :=
  ∀ expr ∈ operand, New solid base expr mark

/-- The node is new. -/
def NewNode (solid : Prop) (base : Body) (node : Node) (mark : Mark) : Prop :=
  node.IsMade solid base.mark mark

/-- The reduction reads in the scope of a paragraph, on from the body `base`, and what it reads has
no line break where `solid` holds. -/
structure Kept (solid : Prop) (scope : ParagraphId) (base : Body) (state : Reduction) : Prop where
  same_scope : state.scope = scope
  declares : Declares scope base state.body
  pending : ∀ (id : Nat) (subtree : Subtree), state.pending[id]? = some (some subtree) →
    New solid base subtree.expr state.body.mark
  chars : solid → Text.Unbroken state.ledger.chars
  vars : solid → ∀ first, base.UnbrokenFrom first → state.body.UnbrokenFrom first

/-- Where the computation succeeds, it keeps the scope, and its value has a property that may depend
on what has been numbered. -/
def Makes {α : Type} (solid : Prop) (scope : ParagraphId) (base : Body) (property : α → Mark → Prop)
    (state : Reduction) (computation : ReduceM α) : Prop :=
  Gives computation state fun value after =>
    Kept solid scope base after ∧ state.body.mark ≤ after.body.mark ∧ property value after.body.mark

section

variable {α β : Type} {solid : Prop} {scope : ParagraphId} {base : Body} {state : Reduction}
  {low high : Mark} {expr : Expr} {operand : Option Expr}

theorem New.mono (new : New solid base expr low) (above : low ≤ high) : New solid base expr high :=
  ⟨new.1, new.2.mono above⟩

theorem NewOperand.made (new : NewOperand solid base operand low) :
    (operand.getD .absent).Made solid base.mark low := by
  cases operand with
  | none => exact Expr.made_absent
  | some expr => exact (new expr rfl).2

theorem newOperand_none : NewOperand solid base none low := by
  intro expr found
  contradiction

theorem newOperand_some (new : New solid base expr low) :
    NewOperand solid base (some expr) low := by
  intro other same
  obtain rfl := Option.some.inj same
  exact new

theorem Makes.bind {first : α → Mark → Prop} {second : β → Mark → Prop} {computation : ReduceM α}
    {next : α → ReduceM β} (makes : Makes solid scope base first state computation)
    (later : ∀ value after, Kept solid scope base after → state.body.mark ≤ after.body.mark →
      first value after.body.mark → Makes solid scope base second after (next value)) :
    Makes solid scope base second state (computation >>= next) := by
  refine Gives.bind makes fun between after made value final ended => ?_
  obtain ⟨kept, above, holds⟩ := made
  obtain ⟨keptLast, higher, holdsLast⟩ := later between after kept above holds value final ended
  exact ⟨keptLast, Mark.le_trans above higher, holdsLast⟩

/-- A computation that succeeds whatever the state. -/
theorem Makes.of_ok {property : α → Mark → Prop} {computation : ReduceM α} {value : α}
    {after : Reduction} (result : computation state = .ok value after)
    (kept : Kept solid scope base after) (above : state.body.mark ≤ after.body.mark)
    (holds : property value after.body.mark) : Makes solid scope base property state computation :=
  Gives.of_ok result ⟨kept, above, holds⟩

theorem Makes.pure {property : α → Mark → Prop} {value : α} (kept : Kept solid scope base state)
    (holds : property value state.body.mark) :
    Makes solid scope base property state (Pure.pure value) :=
  .of_ok rfl kept (Mark.le_refl _) holds

/-- Nothing is promised of a failure. -/
theorem Makes.reject {property : α → Mark → Prop} {error : SourceError} :
    Makes solid scope base property state (reject error) :=
  nofun

theorem Makes.rejectBracket {property : α → Mark → Prop} {op : Op} {position : Nat} :
    Makes solid scope base property state (rejectBracket op position) :=
  nofun

theorem Makes.get {property : α → Mark → Prop} {next : Reduction → ReduceM α}
    (makes : Makes solid scope base property state (next state)) :
    Makes solid scope base property state (MonadState.get >>= next) :=
  makes

theorem Makes.getLedger {property : α → Mark → Prop} {next : Ledger → ReduceM α}
    (makes : Makes solid scope base property state (next state.ledger)) :
    Makes solid scope base property state (Reduction.getLedger >>= next) :=
  makes

section

variable (kept : Kept solid scope base state)
include kept

/-- Tags, depth and recorded pairs do not matter. -/
theorem Kept.of_eq {other : Reduction}
    (sameScope : other.scope = state.scope) (samePending : other.pending = state.pending)
    (sameBody : other.body = state.body) (sameChars : other.ledger.chars = state.ledger.chars) :
    Kept solid scope base other :=
  ⟨sameScope.trans kept.same_scope, sameBody ▸ kept.declares, by
    rw [samePending, sameBody]
    exact kept.pending, sameChars ▸ kept.chars, sameBody ▸ kept.vars⟩

/-- A change of the body that declares in the scope. -/
theorem Kept.body {body : Body}
    (declares : Declares scope base body) (above : state.body.mark ≤ body.mark)
    (vars : solid → ∀ first, state.body.UnbrokenFrom first → body.UnbrokenFrom first) :
    Kept solid scope base { state with body } :=
  ⟨kept.same_scope, declares, fun id subtree known => (kept.pending id subtree known).mono above,
    kept.chars, fun holds first unbroken => vars holds first (kept.vars holds first unbroken)⟩

theorem Kept.count {nextNode : Nat} {effort : Effort}
    (above : state.body.nextNode ≤ nextNode) :
    Kept solid scope base { state with body := { state.body with nextNode, effort } } :=
  kept.body (kept.declares.trans (declares_count scope above)) ⟨Nat.le_refl _, above⟩
    fun _ _ unbroken => unbroken

theorem Kept.textAt (holds : solid) (span : Span) :
    Text.Unbroken (state.ledger.textAt span).toList := by
  rw [Ledger.textAt_eq, String.toList_ofList]
  exact (kept.chars holds).slice span

end

/-! ## Nodes -/

section

variable (kept : Kept solid scope base state)
include kept

theorem Kept.node (span : Span) :
    NewNode solid base ⟨state.body.nextNode, span, state.ledger.textAt span⟩
      ⟨state.body.vars.size, state.body.nextNode + 1⟩ :=
  ⟨⟨kept.declares.mark_le.2, Nat.lt_succ_self _⟩, fun holds => kept.textAt holds span⟩

theorem newNode_makes (span : Span) :
    Makes solid scope base (NewNode solid base) state (newNode span) := by
  intro node after result
  obtain ⟨rfl, rfl⟩ := newNode_gives span state node after result
  exact ⟨kept.count (Nat.le_succ _), ⟨Nat.le_refl _, Nat.le_succ _⟩, kept.node span⟩

theorem newNodeAround_makes (anchor : Span) (operands : List Expr) :
    Makes solid scope base (NewNode solid base) state (newNodeAround anchor operands) :=
  newNode_makes kept _

theorem required_makes
    (new : NewOperand solid base operand state.body.mark) (op : Op) (context : String) :
    Makes solid scope base (New solid base) state (required operand op context) := by
  cases operand with
  | some expr => exact .pure kept (new expr rfl)
  | none => exact .reject

/-- A computation that leaves scope, pending expressions, body and text as they are. -/
theorem silent_makes {computation : ReduceM α} {value : α} {after : Reduction}
    (result : computation state = .ok value after)
    (sameScope : after.scope = state.scope) (samePending : after.pending = state.pending)
    (sameBody : after.body = state.body) (sameChars : after.ledger.chars = state.ledger.chars) :
    Makes solid scope base (fun _ _ => True) state computation :=
  .of_ok result (kept.of_eq sameScope samePending sameBody sameChars) (sameBody ▸ Mark.le_refl _)
    trivial

theorem textAt_makes (span : Span) :
    Makes solid scope base (fun text _ => solid → Text.Unbroken text.toList) state
      (textAt span) := by
  intro text after result
  obtain ⟨rfl, rfl⟩ := textAt_gives span state text after result
  exact ⟨kept, Mark.le_refl _, fun holds => kept.textAt holds span⟩

theorem markSpan_makes (span : Span) (tag : Tag) :
    Makes solid scope base (fun _ _ => True) state (markSpan span tag) :=
  silent_makes kept rfl rfl rfl rfl (Ledger.chars_mark ..)

theorem recordPair_makes (opening closing : Nat) :
    Makes solid scope base (fun _ _ => True) state (recordPair opening closing) :=
  silent_makes kept rfl rfl rfl rfl rfl

end

/-! ## Text without operators -/

/-- Only `this` and `super` read as a receiver. -/
theorem leafForm?_receiver {text : List Char} (read : leafForm? text = some .receiver) :
    String.ofList text = "this" ∨ String.ofList text = "super" := by
  unfold leafForm? at read
  split at read
  · contradiction
  · next same => exact .inl same
  · next same => exact .inr same
  · split_ifs at read <;> cases read

theorem unbroken_leafForm? {text : List Char} {typeName : String} (unbroken : Text.Unbroken text)
    (reads : leafForm? text = some (.construction typeName)) : Text.Unbroken typeName.toList := by
  unfold leafForm? at reads
  split at reads
  · cases reads
  · cases reads
  · cases reads
  · split_ifs at reads with literal alone construction
    · cases reads
    · cases reads
    · obtain rfl := LeafForm.construction.inj (Option.some.inj reads)
      rw [String.toList_ofList]
      exact (unbroken.drop 4).trim

/-- A declared name and its type are made of the words. -/
theorem unbroken_declared? {words : List (List Char)} {name typeName : String}
    {isFinal isStatic : Bool} (each : ∀ word ∈ words, Text.Unbroken word)
    (reads : declared? words = some (.variable name typeName isFinal isStatic)) :
    Text.Unbroken name.toList ∧ Text.Unbroken typeName.toList := by
  unfold declared? at reads
  dsimp only at reads
  split at reads
  · rename_i last type types reversed
    have among {word : List Char} (member : word ∈ last :: type :: types) : Text.Unbroken word := by
      rw [← reversed, List.mem_reverse] at member
      exact each word ((List.dropWhile_suffix isModifier).subset member)
    split_ifs at reads with areTypes isName
    · obtain ⟨rfl, rfl, -, -⟩ := Declared.variable.inj (Option.some.inj reads)
      refine ⟨?_, Text.unbroken_addDimensions (Text.unbroken_joined (by decide) ?_) _⟩
      · rw [String.toList_ofList]
        exact (among List.mem_cons_self).element
      · refine List.forall_mem_map.2 fun word member => ?_
        rw [String.toList_ofList]
        exact among (List.mem_cons_of_mem _ (List.mem_reverse.1 member))
    · cases Option.some.inj reads
  · contradiction

section

variable (kept : Kept solid scope base state)
include kept

/-- A leaf at a new node, with the text at its span. -/
theorem newLeaf_makes (span : Span) {form : LeafForm}
    (built : ∀ node, node.text = state.ledger.textAt span → (Expr.leaf node form).IsBuilt)
    (named : solid → ∀ typeName, form = .construction typeName → Text.Unbroken typeName.toList) :
    Makes solid scope base (New solid base) state (do return .leaf (← newNode span) form) :=
  Gives.newNode (.of_ok rfl ⟨kept.count (Nat.le_succ _), ⟨Nat.le_refl _, Nat.le_succ _⟩, rfl,
    Expr.made_leaf (kept.node span) (built _ rfl) named⟩)

theorem verbatim_makes (span : Span) :
    Makes solid scope base (New solid base) state (do return .leaf (← newNode span) .verbatim) :=
  newLeaf_makes kept span (fun _ _ => trivial) fun _ _ same => by contradiction

theorem declare_makes {entry : Variable} (isLocal : entry.IsLocal state.body.extraContainers scope)
    (unbroken : solid → entry.IsUnbroken) :
    Makes solid scope base (fun _ mark => state.body.vars.size < mark.vars) state
      (modifyBody fun body => body.declare entry) := by
  have declares : Declares scope state.body (state.body.declare entry) := declares_declare isLocal
  refine .of_ok rfl (kept.body (kept.declares.trans declares) declares.mark_le
    fun holds first vars => vars.declare (unbroken holds)) declares.mark_le ?_
  simp [declare, isLocal.scope, mark, modifyParagraph]

theorem classify_makes (span : Span) :
    Makes solid scope base (New solid base) state (classify span (state.ledger.slice span)) := by
  have unbroken (holds : solid) : Text.Unbroken (state.ledger.slice span) := by
    rw [Ledger.slice_eq]
    exact (kept.chars holds).slice span
  rw [classify]
  cases read : leafForm? (state.ledger.slice span) with
  | some form =>
      refine newLeaf_makes kept span (fun node spelled => ?_) fun holds typeName same =>
        unbroken_leafForm? (unbroken holds) (same ▸ read)
      cases form with
      | receiver =>
          change Text.trimmed node.text = "this" ∨ Text.trimmed node.text = "super"
          rw [spelled, Ledger.textAt_eq_ofList]
          rcases leafForm?_receiver read with same | same
          · rw [same]
            decide
          · rw [same]
            decide
      | _ => trivial
  | none =>
      cases declares : declared? (Text.words (state.ledger.slice span)) with
      | none => exact .reject
      | some declared =>
          cases declared with
          | nothing => exact verbatim_makes kept span
          | «variable» name typeName isFinal isStatic =>
              obtain rfl := kept.same_scope
              have solidEntry (holds : solid) := unbroken_declared? (unbroken holds).words declares
              refine .get ((declare_makes kept (Variable.isLocal_ofType rfl) fun holds =>
                ⟨(solidEntry holds).1, (solidEntry holds).2⟩).bind ?_)
              intro _ declared keptNow _ grown
              refine (newNode_makes keptNow span).bind fun node final keptLast above own => ?_
              refine .pure keptLast ⟨rfl, Expr.made_declaration own kept.declares.mark_le.1 ?_⟩
              exact Nat.lt_of_lt_of_le grown above.1

theorem leaf_makes (range : Span) :
    Makes solid scope base (New solid base) state (leaf range) := by
  refine .getLedger ?_
  dsimp only
  split
  · exact verbatim_makes kept range
  · exact classify_makes kept range

end

/-! ## Operators -/

/-- Operands are reduced to new expressions. -/
def MakesOperands (solid : Prop) (scope : ParagraphId) (base : Body) (operands : Operands) : Prop :=
  ∀ start stop state, Kept solid scope base state →
    Makes solid scope base (NewOperand solid base) state (operands start stop)

variable {operands : Operands}

section

variable (makes : MakesOperands solid scope base operands) (kept : Kept solid scope base state)
include makes kept

theorem binary_makes {op : Op} (other : op ≠ .question) (position : Nat) (range : Span) :
    Makes solid scope base (New solid base) state (binary operands op position range) := by
  refine (makes _ _ _ kept).bind fun left _ kept _ newLeft => ?_
  refine (makes _ _ _ kept).bind fun right _ kept above newRight => ?_
  refine (newNodeAround_makes kept _ _).bind fun node _ kept later own => .pure kept ⟨rfl, ?_⟩
  exact Expr.made_operation own (Expr.isBuilt_operation other _ _)
    (newLeft.made.mono (Mark.le_trans above later)) (newRight.made.mono later)

theorem assignment_makes (op : Op) (position : Nat) (range : Span) :
    Makes solid scope base (New solid base) state (assignment operands op position range) := by
  refine (makes _ _ _ kept).bind fun left _ kept _ newLeft => ?_
  refine (required_makes kept newLeft _ _).bind fun target _ kept _ newTarget => ?_
  refine (makes _ _ _ kept).bind fun right _ kept above newRight => ?_
  refine (newNodeAround_makes kept _ _).bind fun node _ kept later own => .pure kept ⟨rfl, ?_⟩
  exact Expr.made_of_children [target, right.getD .absent] rfl rfl rfl rfl own newTarget.1
    (List.forall_mem_cons.2 ⟨newTarget.2.mono (Mark.le_trans above later),
      List.forall_mem_singleton.2 (newRight.made.mono later)⟩)

theorem conditional_makes (position : Nat) (range : Span) :
    Makes solid scope base (New solid base) state (conditional operands position range) := by
  refine .getLedger ?_
  cases pairedColon? 0 (state.ledger.heads (position + 1) range.stop) with
  | none => exact .reject
  | some colon =>
      refine (makes _ _ _ kept).bind fun condition _ kept _ newCondition => ?_
      refine (makes _ _ _ kept).bind fun first _ kept first_le newFirst => ?_
      refine (makes _ _ _ kept).bind fun second _ kept second_le newSecond => ?_
      refine (newNodeAround_makes kept _ _).bind fun inner _ kept inner_le ownInner => ?_
      refine (newNodeAround_makes kept _ _).bind fun outer _ kept outer_le ownOuter =>
        .pure kept ⟨rfl, ?_⟩
      have branches_le := Mark.le_trans inner_le outer_le
      refine Expr.made_operation ownOuter ⟨inner, _, _, rfl⟩ ?_ ?_
      · exact newCondition.made.mono (Mark.le_trans first_le (Mark.le_trans second_le branches_le))
      · refine (Expr.made_operation ownInner
          (Expr.isBuilt_operation (by decide) _ _) ?_ ?_).mono outer_le
        · exact newFirst.made.mono (Mark.le_trans second_le inner_le)
        · exact newSecond.made.mono inner_le

end

/-- The member with a construction in place of its name is as new as the member. -/
theorem memberName?_new {member : Expr} {name : Node} {rebuild : Expr → Expr}
    (found : memberName? member = some (name, rebuild)) (new : New solid base member high)
    (nameSpan span : Span) {nameText text typeName : String}
    (solidName : solid → Text.Unbroken nameText.toList)
    (named : solid → Text.Unbroken name.text.toList → Text.Unbroken typeName.toList)
    (solidText : solid → Text.Unbroken text.toList) :
    New solid base ((rebuild (.leaf { name with span := nameSpan, text := nameText }
      (.construction typeName))).relocate span text) high := by
  have construction {node : Node} (own : node.IsMade solid base.mark high) (span : Span)
      {text : String} (solidText : solid → Text.Unbroken text.toList)
      (named : solid → Text.Unbroken node.text.toList → Text.Unbroken typeName.toList) :
      (Expr.leaf { node with span, text } (.construction typeName)).Made solid base.mark high := by
    refine Expr.made_leaf ⟨own.numbered, solidText⟩ trivial fun holds other same => ?_
    obtain rfl := LeafForm.construction.inj same
    exact named holds (own.text holds)
  have parts {items : List Expr} {inner : Expr} (parts : member.children =
      items.filter Expr.isPresent)
      (among : inner ∈ items) := new.2.part items new.1 parts among
  unfold memberName? at found
  split at found
  · obtain ⟨rfl, rfl⟩ := Prod.mk.inj (Option.some.inj found)
    exact ⟨rfl, construction (new.2.ownNode rfl) span solidText named⟩
  · rename_i node callee arguments
    obtain ⟨rfl, rfl⟩ := Prod.mk.inj (Option.some.inj found)
    have own := new.2.ownNode rfl
    have ownName := (parts rfl List.mem_cons_self).ownNode rfl
    refine ⟨rfl, Expr.made_of_children (.leaf _ (.construction typeName) :: arguments)
      rfl rfl rfl rfl
      ⟨own.numbered, solidText⟩ ⟨rfl, (((Expr.everywhere_iff rfl).1 new.2).1.built).2⟩
        (List.forall_mem_cons.2 ⟨?_, ?_⟩)⟩
    · exact construction ownName nameSpan solidName named
    · exact fun item among => parts rfl (List.mem_cons_of_mem _ among)
  · rename_i node target indices initializer
    obtain ⟨rfl, rfl⟩ := Prod.mk.inj (Option.some.inj found)
    have own := new.2.ownNode rfl
    have ownName := (parts rfl List.mem_cons_self).ownNode rfl
    refine ⟨rfl, Expr.made_of_children
      (.leaf _ (.construction typeName) :: (indices ++ [initializer])) rfl rfl rfl rfl
      ⟨own.numbered, solidText⟩ ((Expr.everywhere_iff rfl).1 new.2).1.built
      (List.forall_mem_cons.2 ⟨?_, ?_⟩)⟩
    · exact construction ownName nameSpan solidName named
    · exact fun item among => parts rfl (List.mem_cons_of_mem _ among)
  · contradiction

theorem nothing_makes (kept : Kept solid scope base state) :
    Makes solid scope base (NewOperand solid base) state (pure none) :=
  .pure kept newOperand_none

theorem qualifyConstruction?_makes {subject member : Expr} (kept : Kept solid scope base state)
    (first : New solid base subject state.body.mark)
    (second : New solid base member state.body.mark) :
    Makes solid scope base (NewOperand solid base) state (qualifyConstruction? subject member) := by
  unfold qualifyConstruction?
  split
  · rename_i typed _ found _
    refine Gives.textAt (Gives.textAt (Makes.pure kept (newOperand_some ?_)))
    refine memberName?_new found second _ _ (fun holds => kept.textAt holds _)
      (fun holds solidName => ?_) fun holds => kept.textAt holds _
    simp only [String.toList_append, Text.unbroken_append]
    exact ⟨⟨(first.2.unbroken holds).constructed typed, by decide⟩, solidName.trimmed⟩
  · exact nothing_makes kept

theorem qualifyDeclaration?_makes {subject member : Expr} (kept : Kept solid scope base state)
    (first : New solid base subject state.body.mark)
    (second : New solid base member state.body.mark) :
    Makes solid scope base (NewOperand solid base) state (qualifyDeclaration? subject member) := by
  unfold qualifyDeclaration?
  split
  · rename_i subjectNode node declared continued known
    split
    · refine .get ?_
      cases found : state.body.vars[declared]? with
      | none => exact nothing_makes kept
      | some entry =>
          have bounds := ((Expr.everywhere_iff rfl).1 second.2).1.numbered.declared declared rfl
          have own := second.2.ownNode rfl
          have typed (typeName : String) := kept.declares.retype bounds.1 typeName
          have counted (typeName : String) :
              (state.body.retype declared typeName).mark = state.body.mark := by
            simp [mark, retype]
          refine Gives.next rfl (Gives.textAt (.of_ok rfl
            ⟨kept.body (typed _) ?_ fun holds _ vars =>
              vars.retype found ((first.2.ownNode known).text holds), ?_,
            newOperand_some ⟨rfl, ?_⟩⟩))
          · rw [counted]
            exact Mark.le_refl _
          · exact (counted _).symm ▸ Mark.le_refl _
          · refine Expr.made_declaration ⟨?_, fun holds => kept.textAt holds _⟩ bounds.1 ?_
            · exact (counted _).symm ▸ own.numbered
            · exact (counted _).symm ▸ bounds.2
    · exact nothing_makes kept
  · exact nothing_makes kept

section

variable (makes : MakesOperands solid scope base operands) (kept : Kept solid scope base state)
include makes kept

theorem access_makes (position : Nat) (range : Span) :
    Makes solid scope base (New solid base) state (access operands position range) := by
  refine .getLedger ((makes _ _ _ kept).bind fun left _ kept _ newLeft => ?_)
  refine (required_makes kept newLeft _ _).bind fun subject _ kept _ newSubject => ?_
  refine (makes _ _ _ kept).bind fun right _ kept right_le newRight => ?_
  refine (required_makes kept newRight _ _).bind fun member _ kept member_le newMember => ?_
  have newSubject := newSubject.mono (Mark.le_trans right_le member_le)
  refine (qualifyConstruction?_makes kept newSubject newMember).bind
    fun result _ kept first_le new => ?_
  cases result with
  | some construction => exact .pure kept (new construction rfl)
  | none =>
      refine (qualifyDeclaration?_makes kept (newSubject.mono first_le)
        (newMember.mono first_le)).bind
        fun result _ kept second_le new => ?_
      cases result with
      | some declaration => exact .pure kept (new declaration rfl)
      | none =>
          refine (newNodeAround_makes kept _ _).bind fun node _ kept later own =>
            .pure kept ⟨rfl, ?_⟩
          have above := Mark.le_trans first_le (Mark.le_trans second_le later)
          exact Expr.made_of_children [subject, member] rfl rfl rfl rfl own
            ⟨newSubject.1, newMember.1⟩ (List.forall_mem_cons.2 ⟨newSubject.2.mono above,
              List.forall_mem_singleton.2 (newMember.2.mono above)⟩)

theorem typeTest_makes (position : Nat) (range : Span) :
    Makes solid scope base (New solid base) state (typeTest operands position range) := by
  refine .getLedger ((makes _ _ _ kept).bind fun left _ kept _ newLeft => ?_)
  refine (required_makes kept newLeft _ _).bind fun operand after kept _ newOperand => ?_
  refine .getLedger ?_
  dsimp only
  split
  · exact .reject
  · refine (textAt_makes kept _).bind fun typeName _ kept text_le named => ?_
    refine (markSpan_makes kept _ _).bind fun _ _ kept mark_le _ => ?_
    refine (newNodeAround_makes kept _ _).bind fun node _ kept later own => .pure kept ⟨rfl, ?_⟩
    refine Expr.made_of_parts [operand] rfl rfl rfl own (fun holds other same => ?_) newOperand.1
      (List.forall_mem_singleton.2
        (newOperand.2.mono (Mark.le_trans text_le (Mark.le_trans mark_le later))))
    obtain rfl := Option.some.inj same
    exact named holds

theorem unary_makes {op : Op} (other : op ≠ .question) (position : Nat) (range : Span) :
    Makes solid scope base (New solid base) state (unary operands op position range) := by
  refine .getLedger ?_
  dsimp only
  split
  · refine (makes _ _ _ kept).bind fun left _ kept _ newLeft => ?_
    refine (required_makes kept newLeft _ _).bind fun operand _ kept _ newOperand => ?_
    refine (newNodeAround_makes kept _ _).bind fun node _ kept later own => .pure kept ⟨rfl, ?_⟩
    exact Expr.made_operation own (Expr.isBuilt_operation other _ _) (newOperand.2.mono later)
      Expr.made_absent
  · refine (makes _ _ _ kept).bind fun right _ kept _ newRight => ?_
    refine (required_makes kept newRight _ _).bind fun operand _ kept _ newOperand => ?_
    refine (newNodeAround_makes kept _ _).bind fun node _ kept later own => .pure kept ⟨rfl, ?_⟩
    exact Expr.made_operation own (Expr.isBuilt_operation other _ _) Expr.made_absent
      (newOperand.2.mono later)

end

/-! ## Brackets -/

theorem items_everywhere {property : Expr → Prop} {content : Option Expr}
    (all : (content.getD .absent).Everywhere property) :
    ∀ item ∈ items content, item.Everywhere property := by
  cases content with
  | none => exact List.forall_mem_nil _
  | some expr => exact Expr.Everywhere.commaItems all

theorem isPresent_of_mem_items {content : Option Expr} :
    ∀ item ∈ items content, item.isPresent = true := by
  cases content with
  | none => exact List.forall_mem_nil _
  | some expr => exact fun _ => Expr.isPresent_of_mem_commaItems

variable {inner : Option Expr}

theorem group_makes (kept : Kept solid scope base state)
    (new : NewOperand solid base inner state.body.mark) (span : Span) (brace : Bool) :
    Makes solid scope base (New solid base) state
      (do return .group (← newNode span) brace (items inner)) := by
  refine (newNode_makes kept _).bind fun node _ kept later own => .pure kept ⟨rfl, ?_⟩
  exact Expr.made_of_children (items inner) rfl rfl rfl rfl own isPresent_of_mem_items
    fun item member => Expr.Made.mono (items_everywhere new.made item member) later

theorem unbroken_castType? {expr : Expr} {typeName : String} (unbroken : expr.Unbroken)
    (named : castType? expr = some typeName) : Text.Unbroken typeName.toList := by
  unfold castType? at named
  dsimp only at named
  split_ifs at named
  obtain rfl := Option.some.inj named
  rw [String.toList_ofList]
  exact unbroken.own.trim

theorem paren_makes (makes : MakesOperands solid scope base operands)
    (kept : Kept solid scope base state) (new : NewOperand solid base inner state.body.mark)
    (position close : Nat) (range : Span) :
    Makes solid scope base (New solid base) state (paren operands position close inner range) := by
  refine .getLedger ?_
  dsimp only
  split
  · refine (makes _ _ _ kept).bind fun result _ kept above newCallee => ?_
    cases result with
    | none => exact .rejectBracket
    | some callee =>
        obtain ⟨present, made⟩ := newCallee callee rfl
        refine (newNodeAround_makes kept _ _).bind fun node _ kept later own => .pure kept ⟨rfl, ?_⟩
        refine Expr.made_of_children (callee :: items inner) rfl rfl rfl rfl own
          ⟨present, isPresent_of_mem_items⟩ (List.forall_mem_cons.2 ⟨made.mono later, ?_⟩)
        exact fun item member =>
          Expr.Made.mono (items_everywhere new.made item member) (Mark.le_trans above later)
  · split
    · rename_i typeName isCast
      refine (makes _ _ _ kept).bind fun result _ kept above newOperand => ?_
      cases result with
      | none => exact .rejectBracket
      | some operand =>
          obtain ⟨present, made⟩ := newOperand operand rfl
          refine (newNodeAround_makes kept _ _).bind fun node _ kept later own =>
            .pure kept ⟨rfl, ?_⟩
          refine Expr.made_of_parts [operand] rfl rfl rfl own (fun holds other same => ?_) present
            (List.forall_mem_singleton.2 (made.mono later))
          obtain rfl := Option.some.inj same
          split at isCast
          · contradiction
          · obtain ⟨expr, rfl, named⟩ := Option.bind_eq_some_iff.1 isCast
            exact unbroken_castType? ((new expr rfl).2.unbroken holds) named
    · exact group_makes kept new _ _

/-- What holds of all that an index takes from holds of all that it takes. -/
theorem absorbed?_everywhere {property : Expr → Prop} {expr initializer : Expr}
    {further : List Expr}
    (taken : absorbed? expr = some (further, initializer)) (all : expr.Everywhere property) :
    (∀ item ∈ further, item.Everywhere property) ∧ initializer.Everywhere property := by
  unfold absorbed? at taken
  split at taken
  · rename_i node indices last
    obtain ⟨rfl, rfl⟩ := Prod.mk.inj (Option.some.inj taken)
    have part {item : Expr} (member : item ∈ Expr.absent :: indices ++ [last]) :
        item.Everywhere property :=
      all.part _ rfl rfl member
    exact ⟨fun item member => part (by simp [member]), part (by simp)⟩
  · obtain ⟨rfl, rfl⟩ := Prod.mk.inj (Option.some.inj taken)
    exact ⟨List.forall_mem_nil _, all⟩
  · contradiction

theorem pendingFrom?_known {start id : Nat} {range : Span} {subtree : Subtree}
    (found : pendingFrom? state start range = some (id, subtree)) :
    state.pending[id]? = some (some subtree) := by
  unfold pendingFrom? at found
  split at found
  · contradiction
  · split at found
    · split at found
      · rename_i known
        split at found
        · obtain ⟨rfl, rfl⟩ := Prod.mk.inj (Option.some.inj found)
          exact Option.join_eq_some_iff.1 known
        · contradiction
      · contradiction
    · contradiction

/-- A pending expression that is used up leaves the others. -/
theorem Kept.use (kept : Kept solid scope base state) (id : Nat) :
    Kept solid scope base { state with pending := state.pending.modify id fun _ => none } := by
  refine ⟨kept.same_scope, kept.declares, fun other subtree known => kept.pending other subtree ?_,
    kept.chars, kept.vars⟩
  rw [Array.getElem?_modify] at known
  split at known
  · cases entry : state.pending[other]? with
    | none => simp [entry] at known
    | some found => simp [entry] at known
  · exact known

/-- There is an index, and the indices and the initializer that are taken in are new. -/
def NewIndices (solid : Prop) (base : Body) (result : List Expr × Expr × Nat) (mark : Mark) :
    Prop :=
  result.1 ≠ [] ∧ (∀ item ∈ result.1, item.Made solid base.mark mark) ∧
    result.2.1.Made solid base.mark mark

theorem absorb_makes (kept : Kept solid scope base state) (range : Span) (count : Nat)
    {indices : List Expr} (stop : Nat) (nonempty : indices ≠ [])
    (new : ∀ item ∈ indices, item.Made solid base.mark state.body.mark) :
    Makes solid scope base (NewIndices solid base) state (absorb range count indices stop) := by
  induction count generalizing state indices stop with
  | zero => exact .pure kept ⟨nonempty, new, Expr.made_absent⟩
  | succ count induction =>
      have ends : Makes solid scope base (NewIndices solid base) state
          (pure (indices, .absent, stop)) :=
        .pure kept ⟨nonempty, new, Expr.made_absent⟩
      rw [absorb]
      refine .get ?_
      cases found : pendingFrom? state stop range with
      | none => exact ends
      | some pair =>
          obtain ⟨id, subtree⟩ := pair
          dsimp only
          cases taken : absorbed? subtree.expr with
          | none => exact ends
          | some parts =>
              obtain ⟨further, initializer⟩ := parts
              obtain ⟨others, last⟩ :=
                absorbed?_everywhere taken (kept.pending id subtree (pendingFrom?_known found)).2
              have still : indices ++ further ≠ [] :=
                List.append_ne_nil_of_left_ne_nil nonempty further
              have all := List.forall_mem_append.2 ⟨new, others⟩
              have used : Makes solid scope base (fun _ mark => mark = state.body.mark) state
                  (modify fun state =>
                    { state with pending := state.pending.modify id fun _ => none }) :=
                .of_ok rfl (kept.use id) (Mark.le_refl _) rfl
              refine used.bind fun _ after kept _ same => ?_
              split
              · exact .pure kept ⟨still, same ▸ all, same ▸ last⟩
              · exact induction kept _ still (same ▸ all)

theorem index_makes (makes : MakesOperands solid scope base operands)
    (kept : Kept solid scope base state) (new : NewOperand solid base inner state.body.mark)
    (position close : Nat) (range : Span) :
    Makes solid scope base (New solid base) state (index operands position close inner range) := by
  refine .getLedger ((makes _ _ _ kept).bind fun target _ kept above newTarget => ?_)
  refine (absorb_makes kept _ _ _ (List.cons_ne_nil _ _)
    (List.forall_mem_singleton.2 (new.made.mono above))).bind fun result _ kept absorb_le all => ?_
  obtain ⟨indices, initializer, stop⟩ := result
  refine (newNode_makes kept _).bind fun node _ kept later own => .pure kept ⟨rfl, ?_⟩
  have made := newTarget.made.mono (Mark.le_trans absorb_le later)
  refine Expr.made_of_children (target.getD .absent :: (indices ++ [initializer])) rfl rfl rfl rfl
    own all.1 (List.forall_mem_cons.2 ⟨made, List.forall_mem_append.2 ⟨?_, ?_⟩⟩)
  · exact fun item member => (all.2.1 item member).mono later
  · exact List.forall_mem_singleton.2 (all.2.2.mono later)

theorem bracket_makes (makes : MakesOperands solid scope base operands)
    (kept : Kept solid scope base state) (op : Op) (position : Nat) (range : Span) :
    Makes solid scope base (New solid base) state (bracket operands op position range) := by
  refine .getLedger ?_
  cases op.closing? with
  | none => exact .rejectBracket
  | some closing =>
      dsimp only
      generalize Text.seek? _ _ _ = found
      cases found with
      | none => exact .rejectBracket
      | some close =>
          refine (recordPair_makes kept _ _).bind fun _ _ kept _ _ => ?_
          refine (makes _ _ _ kept).bind fun inner _ kept _ newInner => ?_
          split
          · exact paren_makes makes kept newInner _ _ _
          · exact index_makes makes kept newInner _ _ _
          · exact group_makes kept newInner _ _

/-! ## Ranges and statements -/

theorem fold_makes (makes : MakesOperands solid scope base operands)
    (kept : Kept solid scope base state) (candidate : Candidate) (range : Span) :
    Makes solid scope base (New solid base) state (fold operands candidate range) := by
  unfold fold
  dsimp only
  split
  · exact bracket_makes makes kept _ _ _
  · exact bracket_makes makes kept _ _ _
  · exact bracket_makes makes kept _ _ _
  · exact conditional_makes makes kept _ _
  · exact access_makes makes kept _ _
  · exact typeTest_makes makes kept _ _
  · exact unary_makes makes kept (by simp [*]) _ _
  · exact unary_makes makes kept (by simp [*]) _ _
  · exact unary_makes makes kept (by simp [*]) _ _
  · next other _ _ _ _ _ =>
    split
    · exact unary_makes makes kept ‹_› _ _
    · split
      · exact assignment_makes makes kept _ _ _
      · split
        · exact .rejectBracket
        · exact binary_makes makes kept ‹_› _ _

theorem pendingAt?_known {range : Span} {expr : Expr} (found : pendingAt? state range = some expr) :
    ∃ (id : Nat) (subtree : Subtree), state.pending[id]? = some (some subtree) ∧
      subtree.expr = expr := by
  unfold pendingAt? at found
  split at found
  · split at found
    · rename_i known
      split at found
      · exact ⟨_, _, Option.join_eq_some_iff.1 known, Option.some.inj found⟩
      · contradiction
    · contradiction
  · contradiction

section

variable (kept : Kept solid scope base state)
include kept

theorem keepPending_makes (span : Span)
    (new : New solid base expr state.body.mark) :
    Makes solid scope base (fun _ _ => True) state (keepPending span expr) := by
  refine .of_ok rfl ⟨kept.same_scope, kept.declares, fun id subtree known => ?_, ?_, kept.vars⟩
    (Mark.le_refl _) trivial
  · rw [Array.getElem?_push] at known
    split at known
    · obtain rfl := Option.some.inj (Option.some.inj known)
      exact new
    · exact kept.pending id subtree known
  · rw [Ledger.chars_mark]
    exact kept.chars

theorem nextCandidate_makes (range : Span) :
    Makes solid scope base (fun _ _ => True) state (nextCandidate range) := by
  refine .getLedger ?_
  cases bestCandidate? state.ledger range with
  | some candidate => exact .pure kept trivial
  | none =>
      dsimp only
      split
      · exact .rejectBracket
      · exact .pure kept trivial

/-- A resolved range gives its expression. -/
theorem resolved_makes (range : Span)
    (new : New solid base expr state.body.mark) :
    Makes solid scope base (New solid base) state (do markSpan range .resolved; return expr) :=
  (markSpan_makes kept range .resolved).bind fun _ _ kept above _ => .pure kept (new.mono above)

/-- Counting work changes nothing else. -/
theorem effort_makes (count : Effort → Effort) :
    Makes solid scope base (fun _ _ => True) state
      (modifyBody fun body => { body with effort := count body.effort }) :=
  .of_ok rfl (kept.count (Nat.le_refl _)) (Mark.le_refl _) trivial

end

theorem rounds_makes (makes : MakesOperands solid scope base operands)
    (kept : Kept solid scope base state) (range : Span) (count : Nat) :
    Makes solid scope base (New solid base) state (rounds operands range count) := by
  induction count generalizing state with
  | zero => exact Gives.stalls
  | succ count induction =>
      refine (effort_makes kept fun effort => { effort with rounds := effort.rounds + 1 }).bind
        fun _ after kept _ _ => .get ?_
      cases found : pendingAt? after range with
      | some expr =>
          obtain ⟨id, subtree, known, rfl⟩ := pendingAt?_known found
          exact resolved_makes kept range (kept.pending id subtree known)
      | none =>
          refine (nextCandidate_makes kept range).bind fun candidate _ kept _ _ => ?_
          cases candidate with
          | none =>
              refine (leaf_makes kept range).bind fun expr _ kept _ new => ?_
              exact resolved_makes kept range new
          | some candidate =>
              refine (fold_makes makes kept candidate range).bind fun expr _ kept _ new => ?_
              dsimp only
              split
              · exact .reject
              · split
                · exact resolved_makes kept range new
                · exact (keepPending_makes kept _ new).bind fun _ _ kept _ _ => induction kept

theorem reduce_makes (solid : Prop) (scope : ParagraphId) (base : Body) (nesting depth : Nat) :
    MakesOperands solid scope base (reduce nesting depth) := by
  induction nesting generalizing depth with
  | zero => exact fun _ _ _ _ => Gives.stalls
  | succ nesting induction =>
      intro start stop state kept
      have deeper : Makes solid scope base (fun _ _ => True) state
          (modify fun state => { state with deepest := max state.deepest depth }) :=
        silent_makes kept rfl rfl rfl rfl rfl
      refine deeper.bind fun _ after kept _ _ => .getLedger ?_
      dsimp only
      split
      · exact .pure kept newOperand_none
      · exact (rounds_makes (induction _) kept _ _).bind fun expr _ kept _ new =>
          .pure kept (newOperand_some new)

theorem statement_makes (kept : Kept solid scope base state) :
    Makes solid scope base (fun expr => expr.Made solid base.mark) state statement := by
  refine (effort_makes kept fun effort => { effort with statements := effort.statements + 1 }).bind
    fun _ _ kept _ _ => .getLedger ?_
  refine (reduce_makes solid scope base _ _ _ _ _ kept).bind fun result after kept _ new => ?_
  exact .of_ok rfl (kept.count (Nat.le_refl _)) (Mark.le_refl _) new.made

end
end Reduction

/-! ## Statements and clauses of a body -/

/-- The tree was read from some text, as a clause or as a statement. -/
def Placed.IsRead (placed : Placed) : Prop :=
  ∃ scope text before after, readExpression scope text before = .ok placed after ∨
    readStatement scope text before = .ok placed after

namespace Body

/-- The tree was read in the scope of a paragraph, on from one body up to another. -/
structure Reads (scope : ParagraphId) (before : Body) (placed : Placed) (after : Body) : Prop where
  declares : Declares scope before after
  within : placed.expr.Within before.mark after.mark
  sight : placed.sight = after.sightFrom scope
  isRead : placed.IsRead

/-- Reading goes on from a body to one with more variables of the scope, and gives a new tree. -/
structure Continues (solid : Prop) (scope : ParagraphId) (base before : Body) (expr : Expr)
    (after : Body) : Prop where
  declares : Declares scope base after
  mark_le : before.mark ≤ after.mark
  made : expr.Made solid base.mark after.mark
  vars : solid → ∀ first, before.UnbrokenFrom first → after.UnbrokenFrom first

section

variable {solid : Prop} {scope : ParagraphId} {base before after : Body} {text : List Char}
  {placed : Placed} {shared : SharedDeclaration} {expr result : Expr}

theorem Continues.refl (declares : Declares scope base before)
    (made : expr.Made solid base.mark before.mark) :
    Continues solid scope base before expr before :=
  ⟨declares, Mark.le_refl _, made, fun _ _ unbroken => unbroken⟩

theorem readExpression_continues (read : readExpression scope text before = .ok placed after) :
    Continues (Text.Unbroken text) scope before before placed.expr after := by
  rw [readExpression] at read
  cases result : Reduction.statement { ledger := Ledger.scan text, scope, body := before } with
  | error failure state => simp [result] at read
  | ok expr state =>
      rw [result, EStateM.Result.ok.injEq] at read
      obtain ⟨rfl, rfl⟩ := read
      have start : Reduction.Kept (Text.Unbroken text) scope before
          { ledger := Ledger.scan text, scope, body := before } := by
        refine ⟨rfl, .refl scope before, by simp, fun unbroken => ?_, fun _ _ unbroken => unbroken⟩
        rw [(Ledger.scan_sound text).1.chars]
        exact unbroken
      obtain ⟨kept, above, made⟩ := Reduction.statement_makes start expr state result
      exact ⟨kept.declares, above, made, kept.vars⟩

theorem readExpression_reads (read : readExpression scope text before = .ok placed after) :
    Reads scope before placed after := by
  have continues := readExpression_continues read
  refine ⟨continues.declares, continues.made.within, ?_, scope, text, before, after, .inl read⟩
  rw [readExpression] at read
  split at read
  · obtain ⟨rfl, rfl⟩ := EStateM.Result.ok.inj read
    rfl
  · contradiction

theorem continueName_continues (owned : shared.scope = some scope)
    (typed : solid → Text.Unbroken shared.typeName.toList) (declares : Declares scope base before)
    (made : expr.Made solid base.mark before.mark)
    (read : continueName shared expr before = .ok result after) :
    Continues solid scope base before result after := by
  unfold continueName at read
  split at read
  · rename_i node
    obtain ⟨rfl, rfl⟩ := EStateM.Result.ok.inj read
    let entry := Variable.ofType before.extraContainers (Text.trimmed node.text) shared.typeName
      shared.isFinal shared.isStatic .body shared.scope
    have mine : entry.IsLocal before.extraContainers scope :=
      ⟨owned, Variable.category_ofType, rfl⟩
    have grown : Declares scope before (before.declare entry) := declares_declare mine
    have own := (made.mono grown.mark_le).ownNode rfl
    refine ⟨declares.trans grown, grown.mark_le, Expr.made_declaration own declares.mark_le.1 ?_,
      fun holds first unbroken => unbroken.declare ⟨(own.text holds).trimmed, typed holds⟩⟩
    change before.vars.size < (before.declare entry).vars.size
    simp [declare, mine.scope, modifyParagraph]
  · obtain ⟨rfl, rfl⟩ := EStateM.Result.ok.inj read
    exact .refl declares made

/-- A name that becomes a declaration stays written. -/
theorem continueName_isPresent (read : continueName shared expr before = .ok result after)
    (present : expr.isPresent = true) : result.isPresent = true := by
  unfold continueName at read
  split at read
  · obtain ⟨rfl, rfl⟩ := EStateM.Result.ok.inj read
    rfl
  · obtain ⟨rfl, rfl⟩ := EStateM.Result.ok.inj read
    exact present

section

variable (owned : shared.scope = some scope) (typed : solid → Text.Unbroken shared.typeName.toList)
  (declares : Declares scope base before) (made : expr.Made solid base.mark before.mark)
include owned typed declares made

theorem continueItem_continues (read : continueItem shared expr before = .ok result after) :
    Continues solid scope base before result after := by
  unfold continueItem at read
  split at read
  · rename_i node op target value
    have part {inner : Expr} := @Expr.Made.part _ _ _ _ inner [target, value] made rfl rfl
    obtain ⟨renamed, body, named, ended⟩ := bind_eq_ok.1 read
    obtain ⟨rfl, rfl⟩ := EStateM.Result.ok.inj ended
    obtain ⟨grown, above, new, vars⟩ :=
      continueName_continues owned typed declares (part (by simp)) named
    have present := continueName_isPresent named ((Expr.everywhere_iff rfl).1 made).1.built
    refine ⟨grown, above, ?_, vars⟩
    exact Expr.made_of_children [renamed, value] rfl rfl rfl rfl ((made.mono above).ownNode rfl)
      present (List.forall_mem_cons.2
        ⟨new, List.forall_mem_singleton.2 ((part (by simp)).mono above)⟩)
  · exact continueName_continues owned typed declares made read

theorem continueItems_continues {isFirst isFirst' : Bool}
    (read : continueItems shared isFirst expr before = .ok (result, isFirst') after) :
    Continues solid scope base before result after := by
  induction isFirst, expr using continueItems.induct generalizing before after result isFirst' with
  | case1 isFirst =>
      rw [continueItems] at read
      obtain ⟨same, rfl⟩ := EStateM.Result.ok.inj read
      obtain ⟨rfl, -⟩ := Prod.mk.inj same
      exact .refl declares made
  | case2 isFirst node left right leftInduction rightInduction =>
      have part {inner : Expr} := @Expr.Made.part _ _ _ _ inner [left, right] made rfl rfl
      rw [continueItems] at read
      obtain ⟨⟨newLeft, between⟩, middle, first, behind⟩ := bind_eq_ok.1 read
      obtain ⟨⟨newRight, last⟩, final, second, ended⟩ := bind_eq_ok.1 behind
      obtain ⟨same, rfl⟩ := EStateM.Result.ok.inj ended
      obtain ⟨rfl, -⟩ := Prod.mk.inj same
      obtain ⟨grown, above, madeLeft, vars⟩ := leftInduction declares (part (by simp)) first
      obtain ⟨grownLast, higher, madeRight, varsLast⟩ :=
        rightInduction _ grown ((part (by simp)).mono above) second
      have all := Mark.le_trans above higher
      refine ⟨grownLast, all, ?_, fun holds id unbroken =>
        varsLast holds id (vars holds id unbroken)⟩
      exact Expr.made_operation ((made.mono all).ownNode rfl)
        (Expr.isBuilt_operation (by decide) _ _) (madeLeft.mono higher) madeRight
  | case3 item notAbsent notComma =>
      rw [continueItems] at read
      · obtain ⟨same, rfl⟩ := EStateM.Result.ok.inj read
        obtain ⟨rfl, -⟩ := Prod.mk.inj same
        exact .refl declares made
      · exact notAbsent
      · exact notComma
  | case4 item notAbsent notComma =>
      rw [continueItems] at read
      · obtain ⟨renamed, body, named, ended⟩ := bind_eq_ok.1 read
        obtain ⟨same, rfl⟩ := EStateM.Result.ok.inj ended
        obtain ⟨rfl, -⟩ := Prod.mk.inj same
        exact continueItem_continues owned typed declares made named
      · exact notAbsent
      · exact notComma

end

theorem continueDeclaration_continues (declares : Declares scope base before)
    (vars : solid → ∀ first, base.UnbrokenFrom first → before.UnbrokenFrom first)
    (made : expr.Made solid base.mark before.mark)
    (read : continueDeclaration expr before = .ok result after) :
    Continues solid scope base before result after := by
  rw [continueDeclaration] at read
  cases found : expr.commaItems.head?.bind Expr.declaredVariable? with
  | none =>
      rw [found] at read
      obtain ⟨rfl, rfl⟩ := EStateM.Result.ok.inj read
      exact .refl declares made
  | some lead =>
      obtain ⟨item, head, leads⟩ := Option.bind_eq_some_iff.1 found
      have member : item ∈ expr.commaItems := List.mem_of_mem_head? head
      have recent := Expr.declaredVariable?_within
        (Expr.Everywhere.commaItems made.within item member) leads
      rw [found] at read
      obtain ⟨_, _, asked, behind⟩ := bind_eq_ok.1 read
      obtain ⟨rfl, rfl⟩ := EStateM.Result.ok.inj asked
      cases known : before.vars[lead]? with
      | none =>
          rw [known] at behind
          obtain ⟨rfl, rfl⟩ := EStateM.Result.ok.inj behind
          exact .refl declares made
      | some entry =>
          rw [known] at behind
          obtain ⟨pair, body, continued, ended⟩ := bind_eq_ok.1 behind
          obtain ⟨rfl, rfl⟩ := EStateM.Result.ok.inj ended
          refine continueItems_continues (declares.scope_of_getElem? recent.1 known)
            (fun holds => ?_)
            declares made continued
          -- the body read on from has no variable from its own number on
          have none_above : base.UnbrokenFrom base.vars.size := fun id entry above known =>
            absurd (Array.getElem?_eq_some_iff.1 known).1 (Nat.not_lt.2 above)
          rw [String.toList_ofList]
          exact (vars holds _ none_above lead entry recent.1 known).typeName.element

theorem readStatement_continues (read : readStatement scope text before = .ok placed after) :
    Continues (Text.Unbroken text) scope before before placed.expr after ∧
      placed.sight = after.sightFrom scope := by
  obtain ⟨root, body, first, behind⟩ := bind_eq_ok.1 read
  obtain ⟨expr, final, second, ended⟩ := bind_eq_ok.1 behind
  obtain ⟨rfl, rfl⟩ := EStateM.Result.ok.inj ended
  have reads := readExpression_continues first
  have further := continueDeclaration_continues reads.declares reads.vars reads.made second
  exact ⟨⟨further.declares, Mark.le_trans reads.mark_le further.mark_le, further.made,
    fun holds id unbroken => further.vars holds id (reads.vars holds id unbroken)⟩, rfl⟩

theorem readStatement_reads (read : readStatement scope text before = .ok placed after) :
    Reads scope before placed after :=
  have continues := readStatement_continues read
  ⟨continues.1.declares, continues.1.made.within, continues.2, scope, text, before,
    after, .inr read⟩

end
end Body

/-- A tree that was read is built everywhere. -/
theorem Placed.IsRead.built {placed : Placed} (isRead : placed.IsRead) : placed.expr.Built := by
  obtain ⟨scope, text, before, after, asClause | asStatement⟩ := isRead
  · exact (Body.readExpression_continues asClause).made.built
  · exact (Body.readStatement_continues asStatement).1.made.built

end MethodLowering
