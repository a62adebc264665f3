import MethodLowering.Proofs.Lowering.Footprint
import MethodLowering.Proofs.Body.Continuation
import MethodLowering.Rendering.Statement

/-!
# Rendering a part

The trees of a part are written alike in the part and in the whole body: their nodes have the same
directives, and these mention trees of the part only.
-/

namespace MethodLowering
namespace Rendering

/-- The first body with its directives is a part of the second. -/
structure IsPart (part whole : Rendering) : Prop where
  body : part.body.IsPart whole.body
  same : ∀ node < part.body.nextNode, whole.directives.get node = part.directives.get node
  parts : ∀ node, ∀ directive ∈ part.directives.get node, ∀ inner ∈ directive.parts,
    inner.Within .zero part.body.mark

section

variable {part whole : Rendering} {expr : Expr}

theorem IsPart.spellType (isPart : part.IsPart whole) (typeName : String) :
    whole.spellType typeName = part.spellType typeName := by
  rw [Rendering.spellType, Rendering.spellType, Body.extraContainers, Body.extraContainers,
    isPart.body.options]

theorem IsPart.directivesOf (isPart : part.IsPart whole)
    (within : expr.Within .zero part.body.mark) :
    whole.directivesOf expr = part.directivesOf expr := by
  unfold Rendering.directivesOf
  split
  · rename_i node known
    exact isPart.same node.id (within.ownNode known).2
  · rfl

theorem IsPart.parts_of_mem (isPart : part.IsPart whole) {directive : Directive}
    (member : directive ∈ part.directivesOf expr) :
    ∀ inner ∈ directive.parts, inner.Within .zero part.body.mark := by
  unfold Rendering.directivesOf at member
  split at member
  · exact isPart.parts _ directive member
  · contradiction

theorem IsPart.declared? (isPart : part.IsPart whole) (within : expr.Within .zero part.body.mark) :
    expr.declaredVariable?.bind (whole.body.vars[·]?) =
      expr.declaredVariable?.bind (part.body.vars[·]?) := by
  cases found : expr.declaredVariable? with
  | none => rfl
  | some declared =>
      exact isPart.body.extended.getElem?_vars (Expr.declaredVariable?_within within found).2

/-! ## Expressions -/

variable {inWhole inPart : Expr → String}

theorem map_part {known : Expr → Prop}
    (same : ∀ inner : Expr, known inner → inWhole inner = inPart inner)
    {items : List Expr} (inside : ∀ inner ∈ items, known inner) :
    items.map inWhole = items.map inPart :=
  List.map_congr_left fun inner member => same inner (inside inner member)

section

variable (isPart : part.IsPart whole)
  (same : ∀ inner : Expr, inner.Within .zero part.body.mark → inWhole inner = inPart inner)
include isPart same

theorem IsPart.assignmentText?
    {target : Expr} (within : target.Within .zero part.body.mark) {directive : Directive}
    (parts : ∀ inner ∈ directive.parts, inner.Within .zero part.body.mark) :
    whole.assignmentText? inWhole target directive =
      part.assignmentText? inPart target directive := by
  have own := same target within
  cases directive with
  | initEmpty => simp only [Rendering.assignmentText?, own]
  | clearValue text => cases text <;> simp only [Rendering.assignmentText?, own]
  | bulkCopy source method declare checked =>
      simp only [Rendering.assignmentText?, own, isPart.declared? within,
        same source (parts source (by simp [Directive.parts]))]
  | constructFrom call declare =>
      have inside := parts call (by simp [Directive.parts])
      cases call with
      | call node callee arguments =>
          have inner : ∀ item ∈ callee :: arguments, item.Within .zero part.body.mark :=
            fun item member => inside.of_mem rfl rfl member
          have others := map_part same fun item member => inner item (List.mem_cons_of_mem _ member)
          simp only [Rendering.assignmentText?, own, others]
      | _ => rfl
  | arrayConstructor dimensions initializer =>
      have others : dimensions.map inWhole = dimensions.map inPart :=
        map_part same fun item member => parts item (by simp [Directive.parts, member])
      simp only [Rendering.assignmentText?, own, others,
        same initializer (parts initializer (by simp [Directive.parts]))]
  | arrayTemporary name arrayType dimensions => simp only [Rendering.assignmentText?, own]
  | _ => rfl

theorem IsPart.replacement? (within : expr.Within .zero part.body.mark) {directive : Directive}
    (parts : ∀ inner ∈ directive.parts, inner.Within .zero part.body.mark) :
    whole.replacement? inWhole expr directive = part.replacement? inPart expr directive := by
  have options := isPart.body.options
  unfold Rendering.replacement?
  dsimp only
  split
  · rfl
  · rw [options]
  · rename_i subject negated
    rw [same subject (parts subject (by simp [Directive.parts]))]
  · rename_i pointer node operand typeName
    rw [options, same operand (within.of_mem rfl rfl (List.mem_singleton.2 rfl))]
  · rename_i node callee arguments
    have inner : ∀ item ∈ callee :: arguments, item.Within .zero part.body.mark :=
      fun item member => within.of_mem rfl rfl member
    rw [map_part same fun item member => inner item (List.mem_cons_of_mem _ member)]
  · rename_i arrayType node target indices initializer
    have inner : ∀ item ∈ target :: indices ++ [initializer], item.Within .zero part.body.mark :=
      fun item member => within.of_mem rfl rfl member
    rw [isPart.spellType, map_part same]
    intro item member
    split at member
    · rw [List.mem_singleton.1 member]
      exact inner initializer (by simp)
    · exact inner item (by simp [(List.mem_filter.1 member).1])
  · rename_i node op target value _ _ _ _
    exact isPart.assignmentText? same (within.of_mem rfl rfl (List.mem_cons_self ..)) parts
  · rfl

theorem IsPart.callText {node : Node} {callee : Expr} {arguments : List Expr}
    (within : (Expr.call node callee arguments).Within .zero part.body.mark) :
    whole.callText inWhole node callee arguments = part.callText inPart node callee arguments := by
  have inner : ∀ item ∈ callee :: arguments, item.Within .zero part.body.mark :=
    fun item member => within.of_mem rfl rfl member
  have others := map_part same fun item member => inner item (List.mem_cons_of_mem _ member)
  have lifted : (whole.body.liftedAt? node).bind (whole.body.lifted[·]?) =
      (part.body.liftedAt? node).bind (part.body.lifted[·]?) :=
    isPart.body.lifted_bind (within.ownNode rfl).2
  unfold Rendering.callText
  rw [lifted, others, same callee (inner callee (by simp))]

theorem IsPart.plain (within : expr.Within .zero part.body.mark) :
    whole.plain inWhole expr = part.plain inPart expr := by
  cases expr with
  | absent => rfl
  | leaf node form =>
      cases form with
      | null => exact congrArg Options.nullLiteral isPart.body.options
      | _ => rfl
  | declaration node declared continued =>
      simp only [Rendering.plain, declarationText, isPart.body.getElem?_vars within,
        isPart.spellType]
  | operation node op left right =>
      have inner : ∀ item ∈ [left, right], item.Within .zero part.body.mark :=
        fun item member => within.of_mem rfl rfl member
      simp only [Rendering.plain, operationText, same left (inner left (by simp)),
        same right (inner right (by simp))]
  | assignment node op target value =>
      have inner : ∀ item ∈ [target, value], item.Within .zero part.body.mark :=
        fun item member => within.of_mem rfl rfl member
      simp only [Rendering.plain, same target (inner target (by simp)),
        same value (inner value (by simp))]
  | typeTest node operand typeName =>
      simp only [Rendering.plain, same operand (within.of_mem rfl rfl (List.mem_singleton.2 rfl))]
  | access node subject member =>
      have inner : ∀ item ∈ [subject, member], item.Within .zero part.body.mark :=
        fun item listed => within.of_mem rfl rfl listed
      simp only [Rendering.plain, same subject (inner subject (by simp)),
        same member (inner member (by simp)), isPart.directivesOf within]
  | group node brace items =>
      have inner : ∀ item ∈ items, item.Within .zero part.body.mark :=
        fun item member => within.of_mem rfl rfl member
      cases brace <;> simp only [Rendering.plain, map_part same inner]
  | cast node typeName operand =>
      simp only [Rendering.plain, isPart.spellType,
        same operand (within.of_mem rfl rfl (List.mem_singleton.2 rfl))]
  | call node callee arguments => exact isPart.callText same within
  | index node target indices initializer =>
      have inner : ∀ item ∈ target :: indices ++ [initializer], item.Within .zero part.body.mark :=
        fun item member => within.of_mem rfl rfl member
      have others : indices.map (fun index => "[" ++ inWhole index ++ "]") =
          indices.map fun index => "[" ++ inPart index ++ "]" :=
        List.map_congr_left fun item member => by rw [same item (inner item (by simp [member]))]
      simp only [Rendering.plain, others, same target (inner target (by simp)),
        same initializer (inner initializer (by simp))]

end

theorem IsPart.wrap (isPart : part.IsPart whole) : whole.wrap = part.wrap := by
  funext text directive
  cases directive with
  | toText =>
      change applied whole.body.options.toTextHelper [text] = _
      rw [isPart.body.options]
      rfl
  | _ => rfl

/-- A tree of the part is written alike. -/
theorem IsPart.expressionFrom (isPart : part.IsPart whole) (depth : Nat)
    (within : expr.Within .zero part.body.mark) :
    whole.expressionFrom depth expr = part.expressionFrom depth expr := by
  induction depth generalizing expr with
  | zero => rfl
  | succ depth induction =>
      have same (inner : Expr) (inside : inner.Within .zero part.body.mark) :
          whole.expressionFrom depth inner = part.expressionFrom depth inner := induction inside
      have replaced : (part.directivesOf expr).findSome?
            (whole.replacement? (whole.expressionFrom depth) expr) =
          (part.directivesOf expr).findSome?
            (part.replacement? (part.expressionFrom depth) expr) := by
        rw [← List.head?_filterMap, ← List.head?_filterMap]
        refine congrArg List.head? (List.filterMap_congr fun directive member => ?_)
        exact isPart.replacement? same within (isPart.parts_of_mem member)
      simp only [Rendering.expressionFrom, isPart.directivesOf within, replaced,
        isPart.plain same within, isPart.wrap]

theorem IsPart.expression (isPart : part.IsPart whole)
    (within : expr.Within .zero part.body.mark) : whole.expression expr = part.expression expr :=
  isPart.expressionFrom _ within

/-! ## Clauses -/

variable {placed : Placed}

section

variable (isPart : part.IsPart whole)
include isPart

theorem IsPart.clause (known : placed.IsKnown part.body) :
    whole.clause placed = part.clause placed :=
  isPart.expression known.within

theorem IsPart.expressionLines (within : expr.Within .zero part.body.mark) :
    whole.expressionLines expr = part.expressionLines expr := by
  have prelude : whole.preludeLines expr = part.preludeLines expr := by
    unfold preludeLines
    rw [isPart.directivesOf within]
    refine List.filterMap_congr fun directive member => ?_
    have parts := isPart.parts_of_mem member
    cases directive with
    | arrayTemporary name arrayType dimensions =>
        have others : dimensions.map whole.expression = dimensions.map part.expression :=
          map_part (fun _ => isPart.expression) parts
        simp only [others, isPart.spellType]
    | _ => rfl
  rw [Rendering.expressionLines, Rendering.expressionLines, prelude, isPart.expression within]

theorem IsPart.clauseSuffix (known : placed.IsKnown part.body) :
    whole.clauseSuffix placed = part.clauseSuffix placed := by
  rw [Rendering.clauseSuffix, Rendering.clauseSuffix, isPart.clause known]

theorem IsPart.branchHeader (isFirst : Bool) (known : placed.IsKnown part.body) :
    whole.branchHeader isFirst placed = part.branchHeader isFirst placed := by
  rw [Rendering.branchHeader, Rendering.branchHeader, isPart.clause known]

theorem IsPart.iterationHeader (byElement : Bool) (known : placed.IsKnown part.body) :
    whole.iterationHeader placed byElement = part.iterationHeader placed byElement := by
  have within := known.within
  unfold Rendering.iterationHeader
  split
  · rename_i node left right shown
    rw [shown] at within
    have inner : ∀ item ∈ [left, right], item.Within .zero part.body.mark :=
      fun item member => within.of_mem rfl rfl member
    have first := inner left (by simp)
    rw [isPart.expression first, isPart.expression (inner right (by simp))]
    dsimp only
    split
    · rename_i declared found
      split at found
      · rw [isPart.body.extended.getElem?_vars (Expr.declaredVariable?_within first found).2]
      · contradiction
    · rfl
  · exact isPart.expression within

theorem IsPart.handlerHeader (known : placed.IsKnown part.body) :
    whole.handlerHeader placed = part.handlerHeader placed := by
  unfold Rendering.handlerHeader
  rw [isPart.declared? known.within, isPart.clause known]

theorem IsPart.jumpText (keyword : Keyword) (label : Option String)
    (known : placed.IsKnown part.body) :
    whole.jumpText keyword placed label = part.jumpText keyword placed label := by
  unfold Rendering.jumpText
  rw [isPart.clause known]

end

/-! ## Constructs -/

variable {linesInWhole linesInPart : ParagraphId → List Page.Step}

theorem IsPart.branchLines (isPart : part.IsPart whole) {isFirst : Bool} {branches : List Branch}
    (known : ∀ branch ∈ branches, branch.condition.IsKnown part.body)
    (same : ∀ branch ∈ branches, linesInWhole branch.body = linesInPart branch.body) :
    whole.branchLines linesInWhole isFirst branches =
      part.branchLines linesInPart isFirst branches := by
  induction branches generalizing isFirst with
  | nil => rfl
  | cons branch rest induction =>
      rw [Rendering.branchLines, Rendering.branchLines,
        isPart.branchHeader isFirst (known branch (by simp)), same branch (by simp),
        induction (fun other member => known other (List.mem_cons_of_mem _ member))
          fun other member => same other (List.mem_cons_of_mem _ member)]

theorem IsPart.handlerLines (isPart : part.IsPart whole) {handlers : List Handler}
    (known : ∀ handler ∈ handlers, handler.declaration.IsKnown part.body)
    (same : ∀ handler ∈ handlers, linesInWhole handler.body = linesInPart handler.body) :
    whole.handlerLines linesInWhole handlers = part.handlerLines linesInPart handlers := by
  induction handlers with
  | nil => rfl
  | cons handler rest induction =>
      rw [Rendering.handlerLines, Rendering.handlerLines,
        isPart.handlerHeader (known handler (by simp)), same handler (by simp),
        induction (fun other member => known other (List.mem_cons_of_mem _ member))
          fun other member => same other (List.mem_cons_of_mem _ member)]

/-- A construct of the part is written alike when its bodies are. -/
theorem IsPart.detailLines (isPart : part.IsPart whole) {keyword : Keyword} {detail : Detail}
    (known : ∀ clause ∈ detail.clauses, clause.IsKnown part.body)
    (same : ∀ id ∈ detail.bodies, linesInWhole id = linesInPart id) :
    whole.detailLines linesInWhole keyword detail =
      part.detailLines linesInPart keyword detail := by
  cases detail with
  | conditional branches =>
      exact isPart.branchLines (fun branch member => known _ (List.mem_map_of_mem member))
        fun branch member => same _ (List.mem_map_of_mem member)
  | counted init condition update body =>
      simp only [Rendering.detailLines, isPart.clause (known init (by simp [Detail.clauses])),
        isPart.clauseSuffix (known condition (by simp [Detail.clauses])),
        isPart.clauseSuffix (known update (by simp [Detail.clauses])),
        same body (by simp [Detail.bodies])]
  | iterator header byElement body =>
      simp only [Rendering.detailLines, same body (by simp [Detail.bodies]),
        isPart.iterationHeader byElement (known header (by simp [Detail.clauses]))]
  | whileLoop condition body =>
      simp only [Rendering.detailLines, same body (by simp [Detail.bodies]),
        isPart.clause (known condition (by simp [Detail.clauses]))]
  | doLoop body condition =>
      simp only [Rendering.detailLines, same body (by simp [Detail.bodies]),
        isPart.clause (known condition (by simp [Detail.clauses]))]
  | switch subject body =>
      simp only [Rendering.detailLines, same body (by simp [Detail.bodies]),
        isPart.clause (known subject (by simp [Detail.clauses]))]
  | synchronized lock body =>
      simp only [Rendering.detailLines, same body (by simp [Detail.bodies]),
        isPart.clause (known lock (by simp [Detail.clauses]))]
  | tryBlock guarded handlers cleanup =>
      have handled := @IsPart.handlerLines part whole linesInWhole linesInPart isPart handlers
        (fun handler member => known _ (List.mem_map_of_mem member))
        fun handler member => same _ (by simp [Detail.bodies, Detail.handlerBodies_mem member])
      have statements : whole.guardedLines linesInWhole guarded handlers =
          part.guardedLines linesInPart guarded handlers := by
        rw [guardedLines, guardedLines, handled, same guarded (by simp [Detail.bodies])]
      cases cleanup with
      | none => exact statements
      | some cleanup =>
          simp only [Rendering.detailLines, cleanupLines, statements, isPart.body.options,
            same cleanup (by simp [Detail.bodies])]
  | jump value label =>
      simp only [Rendering.detailLines,
        isPart.jumpText keyword label (known value (by simp [Detail.clauses]))]
  | caseLabel value =>
      simp only [Rendering.detailLines, isPart.clause (known value (by simp [Detail.clauses]))]
  | defaultLabel => rfl
  | unread => rfl

/-! ## Paragraphs -/

/-- A statement of the part is written alike when the paragraphs inside it are. -/
theorem IsPart.itemLines (isPart : part.IsPart whole) {around : ParagraphId} {item : Item}
    (known : item.IsKnown part.body around)
    (same : ∀ id, part.body.Follows around id → linesInWhole id = linesInPart id) :
    whole.itemLines linesInWhole item = part.itemLines linesInPart item := by
  cases item with
  | empty => rfl
  | expression placed => exact isPart.expressionLines known.within
  | block id =>
      have away : id ≠ Body.root := Nat.ne_of_gt (Nat.lt_of_le_of_lt (Nat.zero_le _) known.1)
      simp only [Rendering.itemLines, isPart.body.paragraphs id away known.2, same id known]
  | construct id =>
      obtain ⟨construct, found, clauses, slots⟩ := known
      have inside := (Array.getElem?_eq_some_iff.1 found).1
      simp only [Rendering.itemLines, isPart.body.constructs id inside, found, constructLines]
      rw [isPart.detailLines clauses fun slot member => same slot (slots slot member)]

theorem IsPart.isSwitchLabel (isPart : part.IsPart whole) {around : ParagraphId} {item : Item}
    (known : item.IsKnown part.body around) :
    whole.isSwitchLabel item = part.isSwitchLabel item := by
  cases item with
  | construct id =>
      obtain ⟨construct, found, -⟩ := known
      have inside := (Array.getElem?_eq_some_iff.1 found).1
      simp only [Rendering.isSwitchLabel, isPart.body.constructs id inside]
  | _ => rfl

/-- A paragraph of the part is written alike, however deep one may go beyond its depth. -/
theorem IsPart.paragraphFrom (isPart : part.IsPart whole) {nesting deeper id : Nat}
    (other : id ≠ Body.root) (inside : id < part.body.paragraphs.size)
    (enough : part.body.paragraphs.size ≤ id + nesting)
    (more : part.body.paragraphs.size ≤ id + deeper) :
    whole.paragraphFrom deeper id = part.paragraphFrom nesting id := by
  induction nesting generalizing deeper id with
  | zero => omega
  | succ nesting induction =>
      obtain ⟨deeper, rfl⟩ : ∃ less, deeper = less + 1 := ⟨deeper - 1, by omega⟩
      rw [Rendering.paragraphFrom, Rendering.paragraphFrom, isPart.body.paragraphs id other inside]
      cases found : part.body.paragraphs[id]? with
      | none => rfl
      | some paragraph =>
          simp only [List.flatMap_def]
          refine congrArg List.flatten (List.map_congr_left fun item listed => ?_)
          have known := isPart.body.known id paragraph found item (Array.mem_toList_iff.1 listed)
          have lines : whole.itemLines (whole.paragraphFrom deeper) item =
              part.itemLines (part.paragraphFrom nesting) item := by
            refine isPart.itemLines known fun target follows => ?_
            obtain ⟨behind, within⟩ : id < target ∧ target < part.body.paragraphs.size := follows
            have later : id + 1 ≤ target := behind
            exact induction (Nat.ne_of_gt (Nat.lt_of_le_of_lt (Nat.zero_le _) behind)) within
              (by omega) (by omega)
          rw [lines, isPart.isSwitchLabel known]

theorem IsPart.liftedLines (isPart : part.IsPart whole) (lifted : Lifted) :
    whole.liftedLines lifted = part.liftedLines lifted := by
  have capture : whole.captureText = part.captureText := by
    funext capture
    rw [captureText, captureText, isPart.spellType]
  simp only [Rendering.liftedLines, constructorText, capture]

end
end Rendering
end MethodLowering
