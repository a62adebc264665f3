import MethodLowering.Proofs.Body.Continuation
import MethodLowering.Proofs.Lowering.Footprint

/-!
# Lowering a part

The trees of a part are lowered alike in the part and in the whole body: every question that comes
up has the same answer.
-/

namespace MethodLowering
namespace Lowering

/-! ## Equal computations -/

/-- Two computations that go on alike with every possible result are the same. -/
theorem Lowers.bind_congr {α β : Type} {low high : Mark} {computation : LowerM α}
    {property : α → Prop} {left right : α → LowerM β}
    (lowers : Lowers low high computation property)
    (same : ∀ result, property result → left result = right result) :
    computation >>= left = computation >>= right := by
  funext state
  cases ran : computation state with
  | error fault => simp [Bind.bind, StateT.bind, Except.bind, ran]
  | ok pair =>
      obtain ⟨result, after⟩ := pair
      simp only [Bind.bind, StateT.bind, Except.bind, ran]
      rw [same result (lowers state result after ran).2]

/-- Two computations that go on alike with the answer to a question are the same. -/
theorem lift_bind_congr {α β : Type} {answer : Except Fault α} {left right : α → LowerM β}
    (same : ∀ result, answer = .ok result → left result = right result) :
    (liftM answer : LowerM α) >>= left = (liftM answer : LowerM α) >>= right :=
  (@lowers_lift .zero .zero α answer).bind_congr same

theorem forM_congr {α : Type} {items : List α} {left right : α → LowerM Unit}
    (same : ∀ item ∈ items, left item = right item) : items.forM left = items.forM right := by
  induction items with
  | nil => rfl
  | cons item rest induction =>
      have others := induction fun other member => same other (List.mem_cons_of_mem _ member)
      simp only [List.forM, same item (by simp), others]

section

variable {part whole : Body} {sight : Sight} {standing : Standing} {expr left right : Expr}

theorem categoryOf_part (isPart : part.IsPart whole) (fits : sight.Fits part)
    (within : expr.Within .zero part.mark) :
    categoryOf whole sight expr = categoryOf part sight expr := by
  rw [categoryOf, categoryOf, isPart.category fits within]

theorem reportType_part (isPart : part.IsPart whole) (typeName : String) :
    reportType whole typeName = reportType part typeName := by
  unfold reportType Body.mentionedTypes
  rw [isPart.mentionedFrom]

/-! ## Expressions -/

section

variable (isPart : part.IsPart whole)
include isPart

theorem joinText_part (fits : sight.Fits part)
    (first : left.Within .zero part.mark) (second : right.Within .zero part.mark) :
    joinText whole sight left right = joinText part sight left right := by
  rw [joinText, joinText, categoryOf_part isPart fits first, categoryOf_part isPart fits second]

theorem lowerOperation_part (fits : sight.Fits part) {node : Node}
    {op : Op} (within : (Expr.operation node op left right).Within .zero part.mark) :
    lowerOperation whole sight (.operation node op left right) op left right =
      lowerOperation part sight (.operation node op left right) op left right := by
  have inner : ∀ part' ∈ [left, right], part'.Within .zero part.mark :=
    fun part' member => within.of_mem rfl rfl member
  have first := inner left (by simp)
  have second := inner right (by simp)
  unfold lowerOperation
  split
  · rw [joinText_part isPart fits first second]
  · refine lift_bind_congr fun compared answered => ?_
    split
    · rfl
    · rw [categoryOf_part isPart fits (inner _ (comparedWithNull_mem answered))]
  · refine lift_bind_congr fun compared answered => ?_
    split
    · rfl
    · rw [categoryOf_part isPart fits (inner _ (comparedWithNull_mem answered))]
  · rfl
  · split
    · rename_i choice yes no
      have branches : ∀ branch ∈ [yes, no], branch.Within .zero part.mark :=
        fun branch member => second.of_mem rfl rfl member
      exact joinText_part isPart fits (branches yes (by simp)) (branches no (by simp))
    · rfl
  · rfl

theorem lowerName_part (fits : sight.Fits part) :
    lowerName whole sight standing expr = lowerName part sight standing expr := by
  rw [lowerName, lowerName, isPart.options, isPart.lookupAt fits]

theorem accessMark_part (subject : Expr) (category : Category) :
    accessMark whole subject category = accessMark part subject category := by
  unfold accessMark
  simp only [reportType_part isPart]

theorem lowerAccess_part (fits : sight.Fits part)
    {subject member : Expr} (within : subject.Within .zero part.mark) :
    lowerAccess whole sight expr subject member = lowerAccess part sight expr subject member := by
  have mark : accessMark whole subject = accessMark part subject :=
    funext fun category => accessMark_part isPart subject category
  unfold lowerAccess
  rw [categoryOf_part isPart fits within, mark]

theorem lowerArguments_part (fits : sight.Fits part)
    {arguments : List Expr} (within : ∀ argument ∈ arguments, argument.Within .zero part.mark) :
    lowerArguments whole sight arguments = lowerArguments part sight arguments := by
  induction arguments with
  | nil => rfl
  | cons argument rest induction =>
      rw [lowerArguments, lowerArguments, categoryOf_part isPart fits (within argument (by simp)),
        induction fun other member => within other (List.mem_cons_of_mem _ member)]

theorem lowerLeaf_part (fits : sight.Fits part) (form : LeafForm) :
    lowerLeaf whole sight standing expr form = lowerLeaf part sight standing expr form := by
  cases form with
  | construction typeName => exact reportType_part isPart typeName
  | identifier => exact lowerName_part isPart fits
  | _ => rfl

theorem lowerExpr_part (fits : sight.Fits part) (within : expr.Within .zero part.mark) :
    lowerExpr whole sight standing expr = lowerExpr part sight standing expr := by
  have category {inner : Expr} (inside : inner.Within .zero part.mark) :
      categoryOf whole sight inner = categoryOf part sight inner :=
        categoryOf_part isPart fits inside
  cases expr with
  | absent => rfl
  | leaf node form => rw [lowerExpr, lowerExpr, lowerLeaf_part isPart fits]
  | declaration node declared continued =>
      have same : lowerDeclaration whole declared = lowerDeclaration part declared := by
        unfold lowerDeclaration
        rw [isPart.getElem?_vars within]
        simp only [reportType_part isPart]
      rw [lowerExpr, lowerExpr, same]
  | operation node op left right =>
      rw [lowerExpr, lowerExpr, lowerOperation_part isPart fits within]
  | assignment node op target value =>
      have inner : ∀ item ∈ [target, value], item.Within .zero part.mark :=
        fun item member => within.of_mem rfl rfl member
      rw [lowerExpr, lowerExpr, lowerCompound, lowerCompound, category (inner target (by simp)),
        category (inner value (by simp))]
  | typeTest node operand typeName =>
      rw [lowerExpr, lowerExpr, lowerTypeTest, lowerTypeTest, reportType_part isPart,
        category (within.of_mem rfl rfl (List.mem_singleton.2 rfl))]
  | access node subject member =>
      have inner : ∀ item ∈ [subject, member], item.Within .zero part.mark :=
        fun item listed => within.of_mem rfl rfl listed
      rw [lowerExpr, lowerExpr, lowerAccess_part isPart fits (inner subject (by simp))]
  | group node brace items => rfl
  | cast node typeName operand => rw [lowerExpr, lowerExpr, reportType_part isPart]
  | call node callee arguments =>
      have inner : ∀ item ∈ callee :: arguments, item.Within .zero part.mark :=
        fun item member => within.of_mem rfl rfl member
      rw [lowerExpr, lowerExpr, isPart.options, lowerArguments_part isPart fits fun item member =>
        inner item (List.mem_cons_of_mem _ member)]
  | index node target indices initializer =>
      rw [lowerExpr, lowerExpr, lowerIndex, lowerIndex, isPart.declaredType fits within]

theorem visit_part (fits : sight.Fits part) {depth : Nat} (within : expr.Within .zero part.mark) :
    visit whole sight depth (standing, expr) = visit part sight depth (standing, expr) := by
  induction depth generalizing standing expr with
  | zero => rfl
  | succ depth induction =>
      rw [visit, visit, lowerExpr_part isPart fits within]
      split
      · rfl
      · refine bind_congr fun _ => (lowers_expr within).bind_congr fun parts inner => ?_
        exact forM_congr fun item member => induction (inner item member)

theorem visitPlaced_part {placed : Placed}
    (known : placed.IsKnown part) : visitPlaced whole placed = visitPlaced part placed :=
  visit_part isPart known.fits known.within

end

/-! ## Statements -/

variable {sole : Bool} {target value : Expr}

theorem lowerConstructed_part (isPart : part.IsPart whole) (fits : sight.Fits part) {call : Expr}
    {category : Category} {constructed : String} {arguments : List Expr}
    (first : target.Within .zero part.mark)
    (others : ∀ argument ∈ arguments, argument.Within .zero part.mark) :
    lowerConstructed whole sight sole expr target call category constructed arguments =
      lowerConstructed part sight sole expr target call category constructed arguments := by
  unfold lowerConstructed
  dsimp only
  split
  · rfl
  · rw [categoryOf_part isPart fits (others _ (List.mem_singleton.2 rfl)),
      isPart.declaredType fits first]
  · rfl
  · rfl

theorem lowerAssignment_part (isPart : part.IsPart whole) (fits : sight.Fits part)
    (first : target.Within .zero part.mark) (second : value.Within .zero part.mark) :
    lowerAssignment whole sight sole expr target value =
      lowerAssignment part sight sole expr target value := by
  unfold lowerAssignment
  rw [categoryOf_part isPart fits first]
  refine bind_congr fun category => ?_
  split
  · split
    · rfl
    · rename_i node callee arguments
      have own := (second.ownNode rfl).2
      have inner : ∀ item ∈ callee :: arguments, item.Within .zero part.mark :=
        fun item member => second.of_mem rfl rfl member
      rw [isPart.liftedAt? own]
      split
      · exact lowerConstructed_part isPart fits first fun item member =>
          inner item (List.mem_cons_of_mem _ member)
      · rfl
    · split
      · rw [lowerFreshArray, lowerFreshArray, isPart.declaredType fits second]
      · rfl
    · rfl
  · rfl

theorem lowerRoot_part (isPart : part.IsPart whole) (fits : sight.Fits part)
    (within : expr.Within .zero part.mark) :
    lowerRoot whole sight sole expr = lowerRoot part sight sole expr := by
  induction sole, expr using lowerRoot.induct with
  | case1 sole node left right leftInduction rightInduction =>
      have inner : ∀ item ∈ [left, right], item.Within .zero part.mark :=
        fun item member => within.of_mem rfl rfl member
      rw [lowerRoot, lowerRoot, leftInduction (inner left (by simp)),
        rightInduction (inner right (by simp))]
  | case2 sole node target value =>
      have inner : ∀ item ∈ [target, value], item.Within .zero part.mark :=
        fun item member => within.of_mem rfl rfl member
      rw [lowerRoot, lowerRoot,
        lowerAssignment_part isPart fits (inner target (by simp)) (inner value (by simp))]
  | case3 sole expr notComma notAssign =>
      rw [lowerRoot, lowerRoot]
      all_goals assumption

theorem lowerThrow_part (isPart : part.IsPart whole) (within : value.Within .zero part.mark) :
    lowerThrow whole value = lowerThrow part value := by
  unfold lowerThrow
  split
  · rw [isPart.liftedAt? (within.ownNode rfl).2]
  · rfl

/-! ## Paragraphs -/

variable {inWhole inPart : ParagraphId → LowerM Unit}

section

variable (isPart : part.IsPart whole)
include isPart

theorem visitHandlers_part {last : Option ParagraphId}
    {handlers : List Handler} (known : ∀ handler ∈ handlers, handler.declaration.IsKnown part)
    (same : ∀ handler ∈ handlers, inWhole handler.body = inPart handler.body) :
    visitHandlers whole inWhole last handlers = visitHandlers part inPart last handlers := by
  induction handlers generalizing last with
  | nil => rfl
  | cons handler rest induction =>
      rw [visitHandlers, visitHandlers, visitPlaced_part isPart (known handler (by simp)),
        same handler (by simp),
        induction (fun other member => known other (List.mem_cons_of_mem _ member))
          fun other member => same other (List.mem_cons_of_mem _ member)]

theorem visitBranches_part {branches : List Branch}
    (known : ∀ branch ∈ branches, branch.condition.IsKnown part)
    (same : ∀ branch ∈ branches, inWhole branch.body = inPart branch.body) :
    visitBranches whole inWhole branches = visitBranches part inPart branches := by
  induction branches with
  | nil => rfl
  | cons branch rest induction =>
      rw [visitBranches, visitBranches, visitPlaced_part isPart (known branch (by simp)),
        same branch (by simp),
        induction (fun other member => known other (List.mem_cons_of_mem _ member))
          fun other member => same other (List.mem_cons_of_mem _ member)]

/-- A construct of a part is lowered alike when its bodies are. -/
theorem visitConstruct_part {construct : Construct}
    (known : ∀ clause ∈ construct.detail.clauses, clause.IsKnown part)
    (same : ∀ id ∈ construct.detail.bodies, inWhole id = inPart id) :
    visitConstruct whole inWhole construct = visitConstruct part inPart construct := by
  obtain ⟨keyword, label, scope, detail⟩ := construct
  have clause (placed : Placed) (member : placed ∈ detail.clauses) :
      visitPlaced whole placed = visitPlaced part placed :=
    visitPlaced_part isPart (known placed member)
  cases detail with
  | conditional branches =>
      exact visitBranches_part isPart (fun branch member => known _ (List.mem_map_of_mem member))
        fun branch member => same _ (List.mem_map_of_mem member)
  | counted init condition update loop =>
      have start := known init (by simp [Detail.clauses])
      simp only [visitConstruct, lowerRoot_part isPart start.fits start.within,
        clause init (by simp [Detail.clauses]), clause condition (by simp [Detail.clauses]),
        clause update (by simp [Detail.clauses]), same loop (by simp [Detail.bodies])]
  | tryBlock guarded handlers cleanup =>
      have handled := @visitHandlers_part part whole inWhole inPart isPart none handlers
        (fun handler member => known _ (List.mem_map_of_mem member))
        fun handler member => same _ (by simp [Detail.bodies, Detail.handlerBodies_mem member])
      simp only [visitConstruct, same guarded (by simp [Detail.bodies]), handled]
      cases cleanup with
      | none => rfl
      | some cleanup => simp only [same cleanup (by simp [Detail.bodies])]
  | jump value target =>
      have thrown := known value (by simp [Detail.clauses])
      simp only [visitConstruct, lowerThrow_part isPart thrown.within,
        visitPlaced_part isPart thrown]
  | caseLabel value => exact clause value (List.mem_cons_self ..)
  | defaultLabel => rfl
  | unread => rfl
  | doLoop loop condition =>
      simp only [visitConstruct, same loop (by simp [Detail.bodies]),
        clause condition (by simp [Detail.clauses])]
  | _ header =>
      simp only [visitConstruct, clause header (List.mem_cons_self ..),
        same _ (List.mem_singleton.2 rfl)]

/-- A statement of a part is lowered alike when the paragraphs inside it are. -/
theorem visitItem_part {around : ParagraphId} {item : Item}
    (known : item.IsKnown part around)
    (same : ∀ id, part.Follows around id → inWhole id = inPart id) :
    visitItem whole inWhole item = visitItem part inPart item := by
  cases item with
  | empty => rfl
  | expression placed =>
      rw [visitItem, visitItem, lowerRoot_part isPart known.fits known.within,
        visitPlaced_part isPart known]
  | block id => exact same id known
  | construct id =>
      obtain ⟨construct, found, clauses, slots⟩ := known
      have inside := (Array.getElem?_eq_some_iff.1 found).1
      simp only [visitItem, isPart.constructs id inside, found]
      exact visitConstruct_part isPart clauses fun slot member => same slot (slots slot member)

/-- A paragraph of a part is lowered alike, however deep one may go beyond its depth. -/
theorem visitParagraph_part {nesting deeper : Nat} {id : Nat}
    (other : id ≠ Body.root) (inside : id < part.paragraphs.size)
    (enough : part.paragraphs.size ≤ id + nesting) (more : part.paragraphs.size ≤ id + deeper) :
    visitParagraph whole deeper id = visitParagraph part nesting id := by
  induction nesting generalizing deeper id with
  | zero => omega
  | succ nesting induction =>
      obtain ⟨deeper, rfl⟩ : ∃ less, deeper = less + 1 := ⟨deeper - 1, by omega⟩
      rw [visitParagraph, visitParagraph, isPart.paragraphs id other inside]
      cases found : part.paragraphs[id]? with
      | none => rfl
      | some paragraph =>
          refine forM_congr fun item listed => ?_
          have known := isPart.known id paragraph found item (Array.mem_toList_iff.1 listed)
          refine visitItem_part isPart known fun target follows => ?_
          obtain ⟨behind, within⟩ : id < target ∧ target < part.paragraphs.size := follows
          have later : id + 1 ≤ target := behind
          exact induction (Nat.ne_of_gt (Nat.lt_of_le_of_lt (Nat.zero_le _) behind)) within
            (by omega) (by omega)

end

end
end Lowering
end MethodLowering
