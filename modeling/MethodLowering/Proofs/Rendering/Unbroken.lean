import MethodLowering.Proofs.Lowering.Unbroken

/-!
# Lines without line breaks

Where the body comes from lines without line breaks and the texts of the options have none, every
line of the written body is one line: its text has no line break.
-/

namespace MethodLowering

open Text

/-- The texts of the options that are written are unbroken. -/
structure Options.IsUnbroken (options : Options) : Prop where
  nullLiteral : Unbroken options.nullLiteral.toList
  toTextHelper : Unbroken options.toTextHelper.toList
  pointerTypeTest : Unbroken options.pointerTypeTest.toList
  objectTypeTest : Unbroken options.objectTypeTest.toList
  deferKeyword : Unbroken options.deferKeyword.toList

namespace Rendering

/-- All that is written is unbroken; `base` is the number of parameters. -/
structure IsUnbroken (base : VariableId) (rendering : Rendering) : Prop where
  options : rendering.body.options.IsUnbroken
  body : rendering.body.IsUnbroken base
  lifted : ∀ lifted ∈ rendering.body.lifted, lifted.IsUnbroken
  trees : ∀ tree ∈ rendering.body.trees, tree.Written base
  directives : ∀ number, ∀ directive ∈ rendering.directives.get number, directive.IsUnbroken ∧
    ∀ part ∈ directive.parts, part.Written base

section

variable {base : VariableId} {rendering : Rendering} {render : Expr →
  String} {expr left right : Expr}
  {first second callee text : String} {parts : List String} {directive : Directive}
    {entry : Variable}

/-! ## Texts -/

theorem unbroken_concat :
    Unbroken (first ++ second).toList ↔ Unbroken first.toList ∧ Unbroken second.toList := by
  rw [String.toList_append, unbroken_append]

theorem unbroken_commaSeparated (each : ∀ part ∈ parts, Unbroken part.toList) :
    Unbroken (commaSeparated parts).toList :=
  unbroken_joined (by decide) each

theorem unbroken_applied (head : Unbroken callee.toList)
    (each : ∀ part ∈ parts, Unbroken part.toList) :
    Unbroken (applied callee parts).toList := by
  simp only [applied, unbroken_concat]
  exact ⟨⟨⟨head, by decide⟩, unbroken_commaSeparated each⟩, by decide⟩

theorem unbroken_marked (unbroken : Unbroken text.toList) : Unbroken (marked text).toList := by
  simp only [marked, unbroken_concat]
  exact ⟨⟨by decide, by decide⟩, unbroken⟩

theorem unbroken_trimmedText (unbroken : expr.Unbroken) : Unbroken expr.trimmedText.toList := by
  rw [Expr.trimmedText, String.toList_ofList]
  exact unbroken.own.trim

theorem unbroken_opText (op : Op) : Unbroken op.text.toList := by
  cases op <;> decide

theorem unbroken_keywordText (keyword : Keyword) : Unbroken keyword.text.toList := by
  cases keyword <;> decide

/-- The declared variable of a tree of the body is no parameter. -/
theorem IsUnbroken.declared (unbroken : rendering.IsUnbroken base) (written : expr.Written base)
    (found : expr.declaredVariable?.bind (rendering.body.vars[·]?) = some entry) :
    entry.IsUnbroken := by
  obtain ⟨id, declares, known⟩ := Option.bind_eq_some_iff.1 found
  exact unbroken.body.vars id entry (written.declared declares) known

/-! ## Directives -/

/-- Trees of the body are written without line break. -/
def Renders (base : VariableId) (render : Expr → String) : Prop :=
  ∀ expr, expr.Written base → Unbroken (render expr).toList

variable (renders : Renders base render)
include renders

theorem Renders.map {items : List Expr} (each : ∀ item ∈ items, item.Written base) :
    ∀ part ∈ items.map render, Unbroken part.toList :=
  List.forall_mem_map.2 fun item member => renders item (each item member)

theorem unbroken_assignmentText? (unbroken : rendering.IsUnbroken base) (target : expr.Written base)
    (strings : directive.IsUnbroken) (mentioned : ∀ part ∈ directive.parts, part.Written base)
    (found : rendering.assignmentText? render expr directive = some text) :
    Unbroken text.toList := by
  have own := renders expr target
  cases directive with
  | initEmpty =>
      obtain rfl := Option.some.inj found
      exact own
  | clearValue isText =>
      cases isText with
      | true =>
          obtain rfl := Option.some.inj found
          exact unbroken_concat.2 ⟨own, by decide⟩
      | false =>
          obtain rfl := Option.some.inj found
          exact unbroken_concat.2 ⟨own, by decide⟩
  | bulkCopy source method declare checked =>
      have argument := renders source (mentioned source (List.mem_singleton_self _))
      obtain ⟨⟨head, name⟩, front, rfl⟩ := Option.map_eq_some_iff.1 found
      have both : Unbroken head.toList ∧ Unbroken name.toList := by
        split at front
        · obtain ⟨entry, known, same⟩ := Option.map_eq_some_iff.1 front
          obtain ⟨rfl, rfl⟩ := Prod.mk.inj same
          exact ⟨own, (unbroken.declared target known).name⟩
        · obtain ⟨rfl, rfl⟩ := Prod.mk.inj (Option.some.inj front)
          exact ⟨unbroken_concat.2 ⟨own, by decide⟩, own⟩
      dsimp only
      simp only [unbroken_concat]
      refine ⟨⟨⟨both.1, by decide⟩, unbroken_applied ?_ (List.forall_mem_singleton.2 argument)⟩, ?_⟩
      · simp only [unbroken_concat]
        exact ⟨⟨both.2, by decide⟩, strings⟩
      · split <;> decide
  | constructFrom call declare =>
      cases call with
      | call node callee arguments =>
          have whole := mentioned _ (List.mem_singleton_self _)
          have part {inner : Expr} :=
            @Expr.Written.part base _ inner (callee :: arguments) whole rfl rfl
          have passed := renders.map fun item member => part (List.mem_cons_of_mem _ member)
          simp only [assignmentText?] at found
          split at found
          · obtain rfl := Option.some.inj found
            exact unbroken_applied own passed
          · obtain ⟨typeName, constructed, rfl⟩ := Option.map_eq_some_iff.1 found
            have named := (part List.mem_cons_self).unbroken.constructed constructed
            simp only [unbroken_concat]
            exact ⟨⟨own, by decide⟩, unbroken_applied named.spellPlain passed⟩
      | _ => contradiction
  | arrayConstructor dimensions initializer =>
      obtain rfl := Option.some.inj found
      split
      · simp only [unbroken_concat]
        exact ⟨⟨own, by decide⟩, renders _ (mentioned _ (by simp [Directive.parts]))⟩
      · refine unbroken_applied own (renders.map fun item member => mentioned item ?_)
        exact List.mem_append_left _ member
  | arrayTemporary name arrayType dimensions =>
      obtain rfl := Option.some.inj found
      simp only [unbroken_concat]
      exact ⟨⟨own, by decide⟩, strings.1⟩
  | _ => contradiction

theorem unbroken_replacement? (unbroken : rendering.IsUnbroken base) (written : expr.Written base)
    (strings : directive.IsUnbroken) (mentioned : ∀ part ∈ directive.parts, part.Written base)
    (found : rendering.replacement? render expr directive = some text) : Unbroken text.toList := by
  unfold replacement? at found
  dsimp only at found
  split at found
  · obtain rfl := Option.some.inj found
    exact unbroken_marked (unbroken_trimmedText written.unbroken)
  · obtain rfl := Option.some.inj found
    exact unbroken.options.nullLiteral
  · rename_i subject negated
    obtain rfl := Option.some.inj found
    simp only [unbroken_concat]
    refine ⟨⟨renders subject (mentioned subject (List.mem_singleton_self _)), by decide⟩, ?_⟩
    split <;> decide
  · rename_i pointer node operand typeName
    obtain rfl := Option.some.inj found
    have part := written.part [operand] rfl rfl (List.mem_singleton_self _)
    refine unbroken_applied ?_ (List.forall_mem_singleton.2 (renders operand part))
    simp only [unbroken_concat]
    refine ⟨⟨⟨?_, by decide⟩, (written.unbroken.named rfl).spellPlain⟩, by decide⟩
    split
    · exact unbroken.options.pointerTypeTest
    · exact unbroken.options.objectTypeTest
  · rename_i node callee arguments
    obtain ⟨typeName, constructed, rfl⟩ := Option.map_eq_some_iff.1 found
    have part {inner : Expr} :=
      @Expr.Written.part base _ inner (callee :: arguments) written rfl rfl
    have named := (part List.mem_cons_self).unbroken.constructed constructed
    exact unbroken_applied named.spellPlain
      (renders.map fun item member => part (List.mem_cons_of_mem _ member))
  · rename_i arrayType node target indices initializer
    obtain rfl := Option.some.inj found
    have part {inner : Expr} :=
      @Expr.Written.part base _ inner (target :: indices ++ [initializer]) written rfl rfl
    refine unbroken_applied (Unbroken.spell strings _) (renders.map fun item member => part ?_)
    split at member
    · simp [List.mem_singleton.1 member]
    · simp [(List.mem_filter.1 member).1]
  · rename_i node op target value _ _ _
    have part := written.part [target, value] rfl rfl List.mem_cons_self
    exact unbroken_assignmentText? renders unbroken part strings mentioned found
  · contradiction

omit renders in
theorem unbroken_wrap (unbroken : rendering.IsUnbroken base) (solid : Unbroken text.toList) :
    Unbroken (rendering.wrap text directive).toList := by
  cases directive with
  | outerField => exact unbroken_concat.2 ⟨by decide, solid⟩
  | smartHandleGet => exact unbroken_concat.2 ⟨solid, by decide⟩
  | toText =>
      exact unbroken_applied unbroken.options.toTextHelper (List.forall_mem_singleton.2 solid)
  | _ => exact solid

/-! ## Plain forms -/

theorem unbroken_operationText (op : Op) (first : left.Written base) (second : right.Written base) :
    Unbroken (operationText render op left right).toList := by
  have front := renders left first
  have back := renders right second
  have sign := unbroken_opText op
  unfold operationText
  split_ifs
  · exact unbroken_concat.2 ⟨sign, back⟩
  · exact unbroken_concat.2 ⟨front, sign⟩
  · simp only [unbroken_concat]
    exact ⟨⟨front, by decide⟩, back⟩
  · simp only [unbroken_concat]
    exact ⟨⟨⟨⟨front, by decide⟩, sign⟩, by decide⟩, back⟩

omit renders in
theorem unbroken_leafText (unbroken : rendering.IsUnbroken base) {node : Node} {form : LeafForm}
    (written : (Expr.leaf node form).Written base) :
    Unbroken (rendering.leafText node.text form).toList := by
  cases form with
  | null => exact unbroken.options.nullLiteral
  | construction typeName =>
      exact unbroken_concat.2 ⟨by decide, (written.unbroken.named rfl).spellPlain⟩
  | _ => exact Unbroken.trimmed written.unbroken.own

omit renders in
theorem unbroken_declarationText (unbroken : rendering.IsUnbroken base) {declared : VariableId}
    (later : base ≤ declared) (continued : Bool) :
    Unbroken (rendering.declarationText declared continued).toList := by
  unfold declarationText
  split
  · rename_i entry known
    have own := unbroken.body.vars declared entry later known
    split
    · exact own.name
    · simp only [unbroken_concat]
      exact ⟨⟨own.typeName.spell _, by decide⟩, own.name⟩
  · decide

theorem unbroken_callText (unbroken : rendering.IsUnbroken base) {node : Node} {callee : Expr}
    {arguments : List Expr} (head : callee.Written base)
    (each : ∀ item ∈ arguments, item.Written base) :
    Unbroken (rendering.callText render node callee arguments).toList := by
  unfold callText
  split
  · rename_i lifted found
    obtain ⟨id, -, known⟩ := Option.bind_eq_some_iff.1 found
    have own := unbroken.lifted lifted (Array.mem_of_getElem? known)
    refine unbroken_applied (unbroken_concat.2 ⟨by decide, own.name⟩) ?_
    exact List.forall_mem_append.2 ⟨renders.map each, List.forall_mem_map.2 own.captures⟩
  · exact unbroken_applied (renders callee head) (renders.map each)

omit renders in
theorem unbroken_join (each : ∀ part ∈ parts, Unbroken part.toList) :
    Unbroken (String.join parts).toList := by
  rw [String.toList_join]
  intro member
  obtain ⟨part, among, inside⟩ := List.mem_flatMap.1 member
  exact each part among inside

theorem unbroken_plain (unbroken : rendering.IsUnbroken base) (written : expr.Written base) :
    Unbroken (rendering.plain render expr).toList := by
  cases expr with
  | absent => exact unbroken_nil
  | leaf node form => exact unbroken_leafText unbroken written
  | declaration node declared continued =>
      exact unbroken_declarationText unbroken (written.declared rfl) continued
  | operation node op left right =>
      have part {inner : Expr} := @Expr.Written.part base _ inner [left, right] written rfl rfl
      exact unbroken_operationText renders op (part (by simp)) (part (by simp))
  | assignment node op target value =>
      have part {inner : Expr} := @Expr.Written.part base _ inner [target, value] written rfl rfl
      simp only [plain, unbroken_concat]
      exact ⟨⟨⟨⟨renders target (part (by simp)), by decide⟩, unbroken_opText op⟩, by decide⟩,
        renders value (part (by simp))⟩
  | typeTest node operand typeName =>
      have part := written.part [operand] rfl rfl (List.mem_singleton_self _)
      simp only [plain, unbroken_concat]
      exact ⟨⟨renders operand part, by decide⟩, written.unbroken.named rfl⟩
  | access node subject member =>
      have part {inner : Expr} := @Expr.Written.part base _ inner [subject, member] written rfl rfl
      simp only [plain, unbroken_concat]
      refine ⟨⟨renders subject (part (by simp)), ?_⟩, renders member (part (by simp))⟩
      cases accessMark (rendering.directivesOf (.access node subject member)) <;> decide
  | group node brace items =>
      have each := unbroken_commaSeparated (renders.map fun item member =>
        written.part items rfl rfl member)
      cases brace with
      | true =>
          simp only [plain, unbroken_concat]
          exact ⟨⟨by decide, each⟩, by decide⟩
      | false =>
          simp only [plain, unbroken_concat]
          exact ⟨⟨by decide, each⟩, by decide⟩
  | cast node typeName operand =>
      have part := written.part [operand] rfl rfl (List.mem_singleton_self _)
      have named := written.unbroken.named rfl
      refine unbroken_applied ?_ (List.forall_mem_singleton.2 (renders operand part))
      simp only [unbroken_concat]
      refine ⟨⟨by decide, ?_⟩, by decide⟩
      split
      · exact named.spellPlain
      · exact named.spell _
  | call node callee arguments =>
      have part {inner : Expr} :=
        @Expr.Written.part base _ inner (callee :: arguments) written rfl rfl
      exact unbroken_callText renders unbroken (part List.mem_cons_self)
        fun item member => part (List.mem_cons_of_mem _ member)
  | index node target indices initializer =>
      have part {inner : Expr} :=
        @Expr.Written.part base _ inner (target :: indices ++ [initializer]) written rfl rfl
      simp only [plain, unbroken_concat]
      refine ⟨⟨renders target (part (by simp)), unbroken_join ?_⟩, ?_⟩
      · refine List.forall_mem_map.2 fun item member => ?_
        simp only [unbroken_concat]
        exact ⟨⟨by decide, renders item (part (by simp [member]))⟩, by decide⟩
      · split
        · exact unbroken_concat.2 ⟨by decide, renders initializer (part (by simp))⟩
        · decide

omit renders in
/-- Expressions are written without line break. -/
theorem unbroken_expressionFrom (unbroken : rendering.IsUnbroken base) (depth : Nat) :
    Renders base (rendering.expressionFrom depth) := by
  induction depth with
  | zero => exact fun expr written => unbroken_trimmedText written.unbroken
  | succ depth renders =>
      intro expr written
      unfold expressionFrom
      dsimp only
      have known : ∀ directive ∈ rendering.directivesOf expr, directive.IsUnbroken ∧
          ∀ part ∈ directive.parts, part.Written base := by
        unfold directivesOf
        split
        · exact unbroken.directives _
        · exact List.forall_mem_nil _
      have start : Unbroken (((rendering.directivesOf expr).findSome?
          (rendering.replacement? (rendering.expressionFrom depth) expr)).getD
            (rendering.plain (rendering.expressionFrom depth) expr)).toList := by
        cases found : (rendering.directivesOf expr).findSome?
            (rendering.replacement? (rendering.expressionFrom depth) expr) with
        | none => exact unbroken_plain renders unbroken written
        | some text =>
            obtain ⟨directive, member, replaced⟩ := List.exists_of_findSome?_eq_some found
            obtain ⟨strings, mentioned⟩ := known directive member
            exact unbroken_replacement? renders unbroken written strings mentioned replaced
      exact List.foldlRecOn (motive := fun (text : String) => Unbroken text.toList) _ _ start
        fun text solid directive _ => unbroken_wrap unbroken solid

end

/-! ## Lines -/

/-- The lines that the steps write are unbroken. -/
def UnbrokenLines (steps : List Page.Step) : Prop :=
  ∀ text, .line text ∈ steps → Unbroken text.toList

section

variable {base : VariableId} {rendering : Rendering} {lines inner : List Page.Step} {text : String}
  {expr : Expr} {placed : Placed} {label : Option String} {keyword : Keyword}
  {inside : ParagraphId → List Page.Step}

theorem unbrokenLines_nil : UnbrokenLines [] := fun _ => List.not_mem_nil.elim

theorem UnbrokenLines.append (front : UnbrokenLines lines) (back : UnbrokenLines inner) :
    UnbrokenLines (lines ++ inner) :=
  fun text member => (List.mem_append.1 member).elim (front text) (back text)

theorem UnbrokenLines.behind (unbroken : UnbrokenLines lines) (solid : Unbroken text.toList) :
    UnbrokenLines (.line text :: lines) := by
  intro other member
  rcases List.mem_cons.1 member with same | later
  · exact Page.Step.line.inj same ▸ solid
  · exact unbroken other later

theorem unbrokenLines_line (solid : Unbroken text.toList) : UnbrokenLines [.line text] :=
  unbrokenLines_nil.behind solid

theorem UnbrokenLines.nest (unbroken : UnbrokenLines lines) :
    UnbrokenLines (Page.nested lines) := by
  intro text member
  simp only [Page.nested, List.cons_append, List.mem_cons, List.mem_append, reduceCtorEq,
    List.not_mem_nil, false_or, or_false] at member
  exact unbroken text member

theorem UnbrokenLines.opened (unbroken : UnbrokenLines lines) (solid : Unbroken text.toList) :
    UnbrokenLines (opened text :: lines) :=
  unbroken.behind (unbroken_concat.2 ⟨solid, by decide⟩)

theorem unbrokenLines_closed : UnbrokenLines [closed] := unbrokenLines_line (by decide)

theorem unbrokenLines_label (labelled : UnbrokenLabel label) :
    UnbrokenLines (labelLines label) := by
  cases label with
  | none => exact unbrokenLines_nil
  | some text => exact unbrokenLines_line (unbroken_concat.2 ⟨labelled, by decide⟩)

theorem unbrokenLines_block (header : Unbroken text.toList) (body : UnbrokenLines inner) :
    UnbrokenLines (blockLines text inner) :=
  (body.nest.append unbrokenLines_closed).opened header

variable (unbroken : rendering.IsUnbroken base)
include unbroken

theorem unbroken_clause (written : placed.expr.Written base) :
    Unbroken (rendering.clause placed).toList :=
  unbroken_expressionFrom unbroken Limits.renderDepth placed.expr written

theorem unbrokenLines_prelude : UnbrokenLines (rendering.preludeLines expr) := by
  intro text member
  obtain ⟨directive, known, writes⟩ := List.mem_filterMap.1 member
  have own : directive.IsUnbroken ∧ ∀ part ∈ directive.parts, part.Written base := by
    unfold directivesOf at known
    split at known
    · exact unbroken.directives _ directive known
    · contradiction
  cases directive with
  | arrayTemporary name arrayType dimensions =>
      obtain ⟨⟨solidName, solidType⟩, mentioned⟩ := own
      obtain rfl := Page.Step.line.inj (Option.some.inj writes)
      have renders := unbroken_expressionFrom unbroken Limits.renderDepth
      simp only [unbroken_concat]
      refine ⟨⟨by decide, unbroken_applied ?_ (renders.map mentioned)⟩, by decide⟩
      simp only [unbroken_concat]
      exact ⟨⟨Unbroken.spell solidType _, by decide⟩, solidName⟩
  | _ => contradiction

theorem unbrokenLines_expression (written : expr.Written base) :
    UnbrokenLines (rendering.expressionLines expr) := by
  refine (unbrokenLines_prelude unbroken).append
    (unbrokenLines_line (unbroken_concat.2 ⟨?_, by decide⟩))
  exact unbroken_expressionFrom unbroken Limits.renderDepth expr written

theorem unbrokenLines_branchHeader (isFirst : Bool) (written : placed.expr.Written base) :
    UnbrokenLines [rendering.branchHeader isFirst placed] := by
  have condition := unbroken_clause unbroken written
  unfold branchHeader
  split_ifs
  · refine unbrokenLines_nil.opened ?_
    simp only [unbroken_concat]
    exact ⟨⟨by decide, condition⟩, by decide⟩
  · exact unbrokenLines_nil.opened (by decide)
  · refine unbrokenLines_nil.opened ?_
    simp only [unbroken_concat]
    exact ⟨⟨by decide, condition⟩, by decide⟩

theorem unbrokenLines_branches {branches : List Branch} (isFirst : Bool)
    (clauses : ∀ branch ∈ branches, branch.condition.expr.Written base)
    (bodies : ∀ id, UnbrokenLines (inside id)) :
    UnbrokenLines (rendering.branchLines inside isFirst branches) := by
  induction branches generalizing isFirst with
  | nil => exact unbrokenLines_closed
  | cons branch rest induction =>
      obtain ⟨own, others⟩ := List.forall_mem_cons.1 clauses
      exact ((unbrokenLines_branchHeader unbroken isFirst own).append
        (bodies branch.body).nest).append
        (induction false others)

theorem unbroken_clauseSuffix (written : placed.expr.Written base) :
    Unbroken (rendering.clauseSuffix placed).toList := by
  unfold clauseSuffix
  split
  · decide
  · exact unbroken_concat.2 ⟨by decide, unbroken_clause unbroken written⟩

theorem unbroken_iterationHeader (byElement : Bool) (written : placed.expr.Written base) :
    Unbroken (rendering.iterationHeader placed byElement).toList := by
  have renders := unbroken_expressionFrom unbroken Limits.renderDepth
  unfold iterationHeader
  dsimp only
  split
  · rename_i node left right same
    rw [same] at written
    have part {inner : Expr} := @Expr.Written.part base _ inner [left, right] written rfl rfl
    simp only [unbroken_concat]
    refine ⟨⟨?_, by decide⟩, renders right (part (by simp))⟩
    split
    · rename_i declared declares
      have own : left.declaredVariable? = some declared := by
        split at declares
        · exact declares
        · contradiction
      split
      · rename_i entry known
        have isUnbroken := unbroken.body.vars declared entry ((part (by simp)).declared own) known
        exact unbroken_concat.2 ⟨by decide, isUnbroken.name⟩
      · exact renders left (part (by simp))
    · exact renders left (part (by simp))
  · exact renders _ written

theorem unbroken_handlerHeader (written : placed.expr.Written base) :
    Unbroken (rendering.handlerHeader placed).toList := by
  unfold handlerHeader
  split
  · rename_i entry known
    have own := unbroken.declared written known
    simp only [unbroken_concat]
    exact ⟨⟨own.typeName.spellPlain, by decide⟩, own.name⟩
  · exact unbroken_clause unbroken written

theorem unbrokenLines_handlers {handlers : List Handler}
    (clauses : ∀ handler ∈ handlers, handler.declaration.expr.Written base)
    (bodies : ∀ id, UnbrokenLines (inside id)) :
    UnbrokenLines (rendering.handlerLines inside handlers) := by
  induction handlers with
  | nil => exact unbrokenLines_closed
  | cons handler rest induction =>
      obtain ⟨own, others⟩ := List.forall_mem_cons.1 clauses
      refine ((bodies handler.body).nest.append (induction others)).opened ?_
      simp only [unbroken_concat]
      exact ⟨⟨by decide, unbroken_handlerHeader unbroken own⟩, by decide⟩

theorem unbrokenLines_guarded {handlers : List Handler} (guarded : ParagraphId)
    (clauses : ∀ handler ∈ handlers, handler.declaration.expr.Written base)
    (bodies : ∀ id, UnbrokenLines (inside id)) :
    UnbrokenLines (rendering.guardedLines inside guarded handlers) := by
  unfold guardedLines
  split
  · exact bodies guarded
  · refine ((bodies guarded).nest.append ?_).opened (by decide)
    exact unbrokenLines_handlers unbroken clauses bodies

theorem unbrokenLines_cleanup (cleanup : UnbrokenLines inner) (guarded : UnbrokenLines lines) :
    UnbrokenLines (rendering.cleanupLines inner lines) := by
  refine (UnbrokenLines.append (UnbrokenLines.nest ?_) unbrokenLines_closed).behind (by decide)
  exact (cleanup.nest.append (guarded.behind (by decide))).opened unbroken.options.deferKeyword

theorem unbroken_jumpText (written : placed.expr.Written base) (labelled : UnbrokenLabel label) :
    Unbroken (rendering.jumpText keyword placed label).toList := by
  have word := unbroken_keywordText keyword
  cases label with
  | some target =>
      have target : Unbroken target.toList := labelled
      simp only [jumpText, unbroken_concat]
      exact ⟨⟨⟨word, by decide⟩, target⟩, by decide⟩
  | none =>
      unfold jumpText
      dsimp only
      split
      · exact unbroken_concat.2 ⟨word, by decide⟩
      · simp only [unbroken_concat]
        exact ⟨⟨⟨word, by decide⟩, unbroken_clause unbroken written⟩, by decide⟩

theorem unbrokenLines_detail {detail : Detail}
    (clauses : ∀ clause ∈ detail.clauses, clause.expr.Written base)
    (labelled : UnbrokenLabel detail.target?) (bodies : ∀ id, UnbrokenLines (inside id)) :
    UnbrokenLines (rendering.detailLines inside keyword detail) := by
  have clause {placed : Placed} (member : placed ∈ detail.clauses) :=
    unbroken_clause unbroken (clauses placed member)
  cases detail with
  | conditional branches =>
      refine unbrokenLines_branches unbroken true (fun branch member => ?_) bodies
      exact clauses _ (List.mem_map_of_mem member)
  | counted init condition update body =>
      have suffix {placed : Placed} (member : placed ∈ [init, condition, update]) :=
        unbroken_clauseSuffix unbroken (clauses placed member)
      refine unbrokenLines_block ?_ (bodies body)
      simp only [unbroken_concat]
      exact ⟨⟨⟨⟨⟨⟨by decide, clause (by simp [Detail.clauses])⟩, by decide⟩, suffix (by simp)⟩,
        by decide⟩,
        suffix (by simp)⟩, by decide⟩
  | iterator header byElement body =>
      have front :=
        unbroken_iterationHeader unbroken byElement (clauses header (by simp [Detail.clauses]))
      refine unbrokenLines_block ?_ (bodies body)
      simp only [unbroken_concat]
      exact ⟨⟨by decide, front⟩, by decide⟩
  | doLoop body condition =>
      refine ((bodies body).nest.append (unbrokenLines_line ?_)).opened (by decide)
      simp only [unbroken_concat]
      exact ⟨⟨by decide, clause (by simp [Detail.clauses])⟩, by decide⟩
  | tryBlock guarded handlers cleanup =>
      have front := unbrokenLines_guarded unbroken guarded
        (fun handler member => clauses _ (List.mem_map_of_mem member)) bodies
      cases cleanup with
      | some cleanup => exact unbrokenLines_cleanup unbroken (bodies cleanup) front
      | none => exact front
  | jump value target =>
      refine unbrokenLines_line (unbroken_jumpText unbroken ?_ labelled)
      exact clauses value (by simp [Detail.clauses])
  | caseLabel value =>
      refine unbrokenLines_line ?_
      simp only [unbroken_concat]
      exact ⟨⟨by decide, clause (by simp [Detail.clauses])⟩, by decide⟩
  | defaultLabel => exact unbrokenLines_line (by decide)
  | unread => exact unbrokenLines_nil
  | _ =>
      refine unbrokenLines_block ?_ (bodies _)
      simp only [unbroken_concat]
      exact ⟨⟨by decide, clause (by simp [Detail.clauses])⟩, by decide⟩

theorem unbrokenLines_construct {construct : Construct}
    (member : construct ∈ rendering.body.constructs) (bodies : ∀ id, UnbrokenLines (inside id)) :
    UnbrokenLines (rendering.constructLines inside construct) := by
  have own := unbroken.body.constructs construct member
  refine (unbrokenLines_label own.label).append ?_
  refine unbrokenLines_detail unbroken (fun clause among => ?_) own.detail.target bodies
  refine unbroken.trees _ (List.mem_append_right _ (List.mem_flatMap.2 ⟨construct, ?_, ?_⟩))
  · exact Array.mem_toList_iff.2 member
  · exact List.mem_map_of_mem among

theorem unbrokenLines_item {paragraph : Paragraph} {item : Item}
    (known : paragraph ∈ rendering.body.paragraphs) (member : item ∈ paragraph.items)
    (bodies : ∀ id, UnbrokenLines (inside id)) :
    UnbrokenLines (rendering.itemLines inside item) := by
  cases item with
  | empty => exact unbrokenLines_line (by decide)
  | expression root =>
      refine unbrokenLines_expression unbroken (unbroken.trees _ (List.mem_append_left _ ?_))
      refine List.mem_flatMap.2 ⟨paragraph, Array.mem_toList_iff.2 known, ?_⟩
      exact List.mem_flatMap.2 ⟨_, Array.mem_toList_iff.2 member, List.mem_singleton_self _⟩
  | block id =>
      refine UnbrokenLines.append (UnbrokenLines.append ?_ ((bodies id).nest.behind (by decide)))
        unbrokenLines_closed
      cases found : rendering.body.paragraphs[id]? with
      | none => exact unbrokenLines_nil
      | some block =>
          exact unbrokenLines_label (unbroken.body.paragraphs block
            (Array.mem_of_getElem? found)).label
  | construct id =>
      unfold itemLines
      dsimp only
      split
      · rename_i construct found
        exact unbrokenLines_construct unbroken (Array.mem_of_getElem? found) bodies
      · exact unbrokenLines_nil

/-- **Unbroken lines.**  No line of a paragraph has a line break. -/
theorem unbrokenLines_paragraphFrom (nesting : Nat) (id : ParagraphId) :
    UnbrokenLines (rendering.paragraphFrom nesting id) := by
  induction nesting generalizing id with
  | zero => exact unbrokenLines_nil
  | succ nesting induction =>
      unfold paragraphFrom
      split
      · exact unbrokenLines_nil
      · rename_i paragraph known
        intro text written
        obtain ⟨item, member, written⟩ := List.mem_flatMap.1 written
        have lines := unbrokenLines_item unbroken (Array.mem_of_getElem? known)
          (Array.mem_toList_iff.1 member) induction
        dsimp only at written
        split at written
        · exact lines.nest text written
        · exact lines text written

end
end Rendering

/-- The rendering of a body that is read from lines without line breaks. -/
theorem Body.ofLines_rendering_unbroken {context : Context} {options : Options}
    {lines : List String} {body : Body} {types : TypeReport} {lowering : Lowering}
    (solid : ∀ line ∈ lines, Unbroken line.toList) (texts : body.options.IsUnbroken)
    (read : Body.ofLines context options lines = .ok body)
    (lowered : body.lower types = .ok lowering) :
    Rendering.IsUnbroken (Body.initial context options).vars.size ⟨body, lowering.directives⟩ where
  options := texts
  body := (Body.ofLines_unbroken solid read).1
  lifted := (Body.ofLines_unbroken solid read).2
  trees := Body.ofLines_written solid read
  directives := Body.lower_unbroken solid read lowered

end MethodLowering
