import MethodLowering.Lowering.Statement
import MethodLowering.Proofs.Body.Declaring
import MethodLowering.Proofs.Body.Shape

/-!
# What lowering touches

Lowering a tree reports further types behind those already reported, and gives directives to nodes
of the tree only.  The expressions that such a directive mentions are parts of the tree.
-/

namespace MethodLowering

/-! ## Directives -/

namespace Directive

/-- The expressions that a directive mentions. -/
def parts : Directive → List Expr
  | emptinessTest subject _ => [subject]
  | bulkCopy source _ _ _ => [source]
  | constructFrom call _ => [call]
  | arrayConstructor dimensions initializer => dimensions ++ [initializer]
  | arrayTemporary _ _ dimensions => dimensions
  | _ => []

end Directive

namespace Directives

theorem get_insert (directives : Directives) (node other : Nat) (directive : Directive) :
    (directives.insert node directive).get other = if node = other then
        if (directives.get node).contains directive then directives.get node
        else directives.get node ++ [directive]
      else directives.get other := by
  have found : (directives.insert node directive).byNode.get? other =
      if node = other then some (if (directives.get node).contains directive then
        directives.get node else directives.get node ++ [directive])
      else directives.byNode.get? other := by
    rw [insert, Std.TreeMap.get?_eq_getElem?, Std.TreeMap.getElem?_insert,
      Std.TreeMap.get?_eq_getElem?]
    simp only [Nat.compare_eq_eq]
  rw [get, found]
  split <;> rfl

end Directives

/-! ## Growth of a lowering -/

namespace Lowering

/-- Types are only added, directives are only given to nodes between two marks, and what these
mention is between the marks. -/
structure Grows (low high : Mark) (before after : Lowering) : Prop where
  types : before.types.toList <+: after.types.toList
  below : ∀ node < low.nodes, after.directives.get node = before.directives.get node
  given : ∀ node, ∀ directive ∈ after.directives.get node,
    directive ∈ before.directives.get node ∨ ∀ part ∈ directive.parts, part.Within low high

/-- The computation, where it succeeds, only makes the lowering grow, and its result has the
property. -/
def Lowers {α : Type} (low high : Mark) (computation : LowerM α) (property : α → Prop) : Prop :=
  ∀ before result after, computation before = .ok (result, after) →
    before.Grows low high after ∧ property result

section

variable {low high : Mark} {before between after : Lowering}

theorem Grows.refl (low high : Mark) (lowering : Lowering) : lowering.Grows low high lowering :=
  ⟨List.prefix_rfl, fun _ _ => rfl, fun _ _ member => .inl member⟩

theorem Grows.trans (first : before.Grows low high between)
    (second : between.Grows low high after) :
    before.Grows low high after := by
  refine ⟨first.types.trans second.types,
    fun node below => (second.below node below).trans (first.below node below),
    fun node directive member => ?_⟩
  rcases second.given node directive member with old | new
  · exact first.given node directive old
  · exact .inr new

variable {α β : Type} {computation : LowerM α} {property : α → Prop}

theorem Lowers.pure {result : α} (holds : property result) :
    Lowers low high (pure result) property := by
  intro before value after ran
  obtain ⟨rfl, rfl⟩ := Prod.mk.inj (Except.ok.inj ran)
  exact ⟨.refl low high before, holds⟩

/-- Two computations one after the other succeed when both do. -/
theorem exists_of_bind {next : α → LowerM β} {value : β}
    (ran : (computation >>= next) before = .ok (value, after)) :
    ∃ result between, computation before = .ok (result, between) ∧
      next result between = .ok (value, after) := by
  cases result : computation before with
  | error fault => simp [Bind.bind, StateT.bind, Except.bind, result] at ran
  | ok pair =>
      refine ⟨pair.1, pair.2, rfl, ?_⟩
      simpa [Bind.bind, StateT.bind, Except.bind, result] using ran

theorem Lowers.bind {next : α → LowerM β} {further : β → Prop}
    (first : Lowers low high computation property)
    (rest : ∀ result, property result → Lowers low high (next result) further) :
    Lowers low high (computation >>= next) further := by
  intro before value after ran
  obtain ⟨result, between, early, behind⟩ := exists_of_bind ran
  obtain ⟨grows, holds⟩ := first before result between early
  obtain ⟨growsLater, holdsLater⟩ := rest result holds between value after behind
  exact ⟨grows.trans growsLater, holdsLater⟩

theorem Lowers.weaken {further : α → Prop} (lowers : Lowers low high computation property)
    (weaker : ∀ result, property result → further result) :
    Lowers low high computation further :=
  fun before result after ran =>
    ⟨(lowers before result after ran).1, weaker result (lowers before result after ran).2⟩

/-- A question to the body changes nothing. -/
theorem lowers_lift (answer : Except Fault α) :
    Lowers low high (liftM answer : LowerM α) fun result => answer = .ok result := by
  intro before result after ran
  cases answer with
  | error fault => contradiction
  | ok value =>
      obtain ⟨rfl, rfl⟩ := Prod.mk.inj (Except.ok.inj ran)
      exact ⟨.refl low high before, rfl⟩

theorem lowers_get : Lowers low high (get : LowerM Lowering) fun _ => True := by
  intro before result after ran
  obtain ⟨-, rfl⟩ := Prod.mk.inj (Except.ok.inj ran)
  exact ⟨.refl low high before, trivial⟩

theorem lowers_modify {change : Lowering → Lowering}
    (grows : ∀ lowering : Lowering, lowering.Grows low high (change lowering)) :
    Lowers low high (modify change : LowerM Unit) fun _ => True := by
  intro before result after ran
  obtain ⟨-, rfl⟩ := Prod.mk.inj (Except.ok.inj ran)
  exact ⟨grows before, trivial⟩

theorem Lowers.forM {items : List β} {act : β → LowerM Unit}
    (each : ∀ item ∈ items, Lowers low high (act item) fun _ => True) :
    Lowers low high (items.forM act) fun _ => True := by
  induction items with
  | nil => exact .pure trivial
  | cons item rest induction =>
      refine (each item (List.mem_cons_self ..)).bind fun _ _ => induction fun other member => ?_
      exact each other (List.mem_cons_of_mem _ member)

end

/-! ## Single changes -/

section

variable {low high : Mark} {body : Body} {sight : Sight} {expr : Expr}

theorem lowers_direct {directive : Directive} (within : expr.Within low high)
    (parts : ∀ part ∈ directive.parts, part.Within low high) :
    Lowers low high (direct expr directive) fun _ => True := by
  unfold direct
  split
  · rename_i node known
    refine lowers_modify fun lowering => ⟨List.prefix_rfl, fun other below => ?_, ?_⟩
    · have above := (within.ownNode known).1
      rw [Directives.get_insert, if_neg (by omega)]
    · intro other found member
      rw [Directives.get_insert] at member
      split at member
      · rename_i same
        subst same
        split at member
        · exact .inl member
        · rcases List.mem_append.1 member with old | new
          · exact .inl old
          · rw [List.mem_singleton.1 new]
            exact .inr parts
      · exact .inl member
  · exact .pure trivial

theorem prefix_add (report : TypeReport) (name : String) :
    report.toList <+: (report.add name).toList := by
  rw [TypeReport.add]
  split
  · exact List.prefix_rfl
  · simp [TypeReport.toList]

theorem prefix_foldl_add (names : List String) (report : TypeReport) :
    report.toList <+: (names.foldl TypeReport.add report).toList := by
  induction names generalizing report with
  | nil => exact List.prefix_rfl
  | cons name rest induction => exact (prefix_add report name).trans (induction _)

theorem lowers_reportType (typeName : String) :
    Lowers low high (reportType body typeName) fun _ => True := by
  unfold reportType
  generalize body.mentionedTypes typeName.toList = names
  refine lowers_modify fun lowering => ⟨?_, fun _ _ => rfl, fun _ _ member => .inl member⟩
  exact prefix_foldl_add names lowering.types

theorem lowers_categoryOf : Lowers low high (categoryOf body sight expr) fun _ => True :=
  (lowers_lift _).weaken fun _ _ => trivial

theorem lowers_enter : Lowers low high (enter expr) fun _ => True := by
  unfold enter
  split
  · exact lowers_modify fun lowering =>
      ⟨List.prefix_rfl, fun _ _ => rfl, fun _ _ member => .inl member⟩
  · exact .pure trivial

/-- A directive without parts. -/
theorem lowers_mark {directive : Directive} (within : expr.Within low high)
    (bare : directive.parts = []) : Lowers low high (direct expr directive) fun _ => True :=
  lowers_direct within (by simp [bare])

theorem lowers_skip : Lowers low high (pure () : LowerM Unit) fun _ => True := .pure trivial

end

/-! ## Expressions -/

section

variable {low high : Mark} {body : Body} {sight : Sight} {standing : Standing}
  {expr left right : Expr}

theorem lowers_joinText (first : left.Within low high) (second : right.Within low high) :
    Lowers low high (joinText body sight left right) fun _ => True := by
  refine lowers_categoryOf.bind fun leftCategory _ =>
    lowers_categoryOf.bind fun rightCategory _ => ?_
  split
  · exact lowers_mark second rfl
  · split
    · exact lowers_mark first rfl
    · exact lowers_skip

/-- What is compared with null is one of the operands. -/
theorem comparedWithNull_mem {op : Op} {subject : Expr}
    (compared : comparedWithNull op left right = .ok (some subject)) : subject ∈ [left, right] := by
  unfold comparedWithNull at compared
  repeat' split at compared
  · contradiction
  · obtain rfl := Option.some.inj (Except.ok.inj compared)
    simp
  · contradiction
  · obtain rfl := Option.some.inj (Except.ok.inj compared)
    simp
  · simp at compared

/-- A comparison asks for the side that is compared with null. -/
theorem lowerOperation_comparison {op : Op} (comparison : op = .equal ∨ op = .notEqual)
    (expr left right : Expr) :
    lowerOperation body sight expr op left right = (do
      let compared ← (liftM (comparedWithNull op left right) : LowerM (Option Expr))
      compared.elim (return ()) fun subject => do
        let category ← categoryOf body sight subject
        if category == .container || category == .array then
          direct expr (.emptinessTest subject (op == .notEqual))) := by
  rcases comparison with rfl | rfl
  · exact bind_congr fun compared => by cases compared <;> rfl
  · exact bind_congr fun compared => by cases compared <;> rfl

theorem lowers_operation {node : Node} {op : Op}
    (within : (Expr.operation node op left right).Within low high) :
    Lowers low high (lowerOperation body sight (.operation node op left right) op left right)
      fun _ => True := by
  have inner : ∀ part ∈ [left, right], part.Within low high :=
    fun part member => within.of_mem rfl rfl member
  have first := inner left (by simp)
  have second := inner right (by simp)
  have compares (comparison : op = .equal ∨ op = .notEqual) : Lowers low high
      (lowerOperation body sight (.operation node op left right) op left right) fun _ => True := by
    rw [lowerOperation_comparison comparison]
    refine (lowers_lift _).bind fun compared answered => ?_
    cases compared with
    | none => exact lowers_skip
    | some subject =>
        have inside := inner subject (comparedWithNull_mem answered)
        refine lowers_categoryOf.bind fun category _ => ?_
        split
        · refine lowers_direct within ?_
          simpa [Directive.parts] using inside
        · exact lowers_skip
  unfold lowerOperation
  split
  · split
    · exact lowers_joinText first second
    · exact lowers_skip
  · exact compares (.inl rfl)
  · exact compares (.inr rfl)
  · exact lowers_mark within rfl
  · split
    · rename_i choice first' second'
      have branches : ∀ part ∈ [first', second'], part.Within low high :=
        fun part member => second.of_mem rfl rfl member
      exact lowers_joinText (branches first' (by simp)) (branches second' (by simp))
    · exact lowers_skip
  · exact lowers_skip

theorem lowers_name (within : expr.Within low high) :
    Lowers low high (lowerName body sight standing expr) fun _ => True := by
  unfold lowerName
  split
  · exact lowers_mark within rfl
  · exact lowers_skip

theorem lowers_accessMark (subject : Expr) (category : Category) :
    Lowers low high (accessMark body subject category) fun _ => True := by
  unfold accessMark
  split
  · exact .pure trivial
  · exact .pure trivial
  · exact .pure trivial
  · split
    · exact (lowers_reportType _).bind fun _ _ => .pure trivial
    · exact .pure trivial
  · exact .pure trivial

theorem lowers_access {subject member : Expr} (within : expr.Within low high) :
    Lowers low high (lowerAccess body sight expr subject member) fun _ => True := by
  unfold lowerAccess
  split
  · exact (lowers_mark within rfl).bind fun _ _ => .pure trivial
  · refine lowers_categoryOf.bind fun category _ => (lowers_accessMark subject category).bind
      fun mark _ => ?_
    exact (lowers_mark within rfl).bind fun _ _ => .pure trivial

theorem lowers_arguments {arguments : List Expr}
    (within : ∀ argument ∈ arguments, argument.Within low high) :
    Lowers low high (lowerArguments body sight arguments) fun _ => True := by
  induction arguments with
  | nil => exact lowers_skip
  | cons argument rest induction =>
      have others := induction fun other member => within other (List.mem_cons_of_mem _ member)
      unfold lowerArguments
      split
      · refine lowers_categoryOf.bind fun category _ => ?_
        split
        · exact (lowers_mark (within argument (by simp)) rfl).bind fun _ _ => others
        · exact lowers_skip.bind fun _ _ => others
      · exact lowers_skip.bind fun _ _ => others

theorem lowers_leaf {form : LeafForm} (within : expr.Within low high) :
    Lowers low high (lowerLeaf body sight standing expr form) fun _ => True := by
  cases form with
  | null => exact lowers_mark within rfl
  | verbatim => exact lowers_mark within rfl
  | construction typeName => exact lowers_reportType typeName
  | identifier => exact lowers_name within
  | literal => exact lowers_skip
  | receiver => exact lowers_skip

theorem lowers_declaration (declared : VariableId) :
    Lowers low high (lowerDeclaration body declared) fun _ => True := by
  unfold lowerDeclaration
  split
  · exact lowers_reportType _
  · exact lowers_skip

theorem lowers_compound {op : Op} {target value : Expr} (within : expr.Within low high)
    (inner : value.Within low high) :
    Lowers low high (lowerCompound body sight expr op target value) fun _ => True := by
  unfold lowerCompound
  split
  · exact lowers_mark within rfl
  · split
    · refine lowers_categoryOf.bind fun category _ => ?_
      split
      · refine lowers_categoryOf.bind fun other _ => ?_
        split
        · exact lowers_mark inner rfl
        · exact lowers_skip
      · exact lowers_skip
    · exact lowers_skip

theorem lowers_typeTest {operand : Expr} {typeName : String} (within : expr.Within low high) :
    Lowers low high (lowerTypeTest body sight expr operand typeName) fun _ => True :=
  (lowers_reportType typeName).bind fun _ _ => lowers_categoryOf.bind fun _ _ =>
    lowers_mark within rfl

theorem lowers_index {target : Expr} (within : expr.Within low high) :
    Lowers low high (lowerIndex body sight standing expr target) fun _ => True := by
  unfold lowerIndex
  split
  · refine (lowers_lift _).bind fun declared _ => ?_
    split
    · exact lowers_mark within rfl
    · exact lowers_mark within rfl
  · exact lowers_skip

/-- All parts are between the marks. -/
def AllWithin (low high : Mark) (parts : List (Standing × Expr)) : Prop :=
  ∀ part ∈ parts, part.2.Within low high

/-- Lowering an expression stays between the marks of its tree, and goes on with its parts. -/
theorem lowers_expr (within : expr.Within low high) :
    Lowers low high (lowerExpr body sight standing expr) (AllWithin low high) := by
  cases expr with
  | absent => exact .pure (by simp [AllWithin])
  | leaf node form => exact (lowers_leaf within).bind fun _ _ => .pure (by simp [AllWithin])
  | declaration node declared continued =>
      exact (lowers_declaration declared).bind fun _ _ => .pure (by simp [AllWithin])
  | operation node op left right =>
      have inner : ∀ part ∈ [left, right], part.Within low high :=
        fun part member => within.of_mem rfl rfl member
      exact (lowers_operation within).bind fun _ _ => .pure (by simpa [AllWithin] using inner)
  | assignment node op target value =>
      have inner : ∀ part ∈ [target, value], part.Within low high :=
        fun part member => within.of_mem rfl rfl member
      refine (lowers_compound within (inner value (by simp))).bind fun _ _ =>
        lowers_get.bind fun _ _ => .pure ?_
      simpa [AllWithin] using inner
  | typeTest node operand typeName =>
      have inner : ∀ part ∈ [operand], part.Within low high :=
        fun part member => within.of_mem rfl rfl member
      exact (lowers_typeTest within).bind fun _ _ => .pure (by simpa [AllWithin] using inner)
  | access node subject member =>
      have inner : ∀ part ∈ [subject, member], part.Within low high :=
        fun part member => within.of_mem rfl rfl member
      exact (lowers_access within).bind fun _ _ => .pure (by simpa [AllWithin] using inner)
  | group node brace items =>
      have inner : ∀ part ∈ items, part.Within low high :=
        fun part member => within.of_mem rfl rfl member
      exact .pure (by simpa [AllWithin] using inner)
  | cast node typeName operand =>
      have inner : ∀ part ∈ [operand], part.Within low high :=
        fun part member => within.of_mem rfl rfl member
      exact (lowers_reportType typeName).bind fun _ _ => .pure (by simpa [AllWithin] using inner)
  | call node callee arguments =>
      have inner : ∀ part ∈ callee :: arguments, part.Within low high :=
        fun part member => within.of_mem rfl rfl member
      have others : ∀ part ∈ arguments, part.Within low high :=
        fun part member => inner part (List.mem_cons_of_mem _ member)
      unfold lowerExpr
      dsimp only
      split
      · exact (lowers_arguments others).bind fun _ _ => .pure (by simpa [AllWithin] using inner)
      · exact lowers_skip.bind fun _ _ => .pure (by simpa [AllWithin] using inner)
  | index node target indices initializer =>
      have inner : ∀ part ∈ target :: indices ++ [initializer], part.Within low high :=
        fun part member => within.of_mem rfl rfl member
      refine (lowers_index within).bind fun _ _ => .pure ?_
      intro part member
      rcases List.mem_cons.1 member with rfl | later
      · exact inner target (by simp)
      · obtain ⟨other, inside, rfl⟩ := List.mem_map.1 later
        exact inner other (List.mem_cons_of_mem _ inside)

/-- Lowering a tree stays between the marks of the tree. -/
theorem lowers_visit {depth : Nat} (within : expr.Within low high) :
    Lowers low high (visit body sight depth (standing, expr)) fun _ => True := by
  induction depth generalizing standing expr with
  | zero => exact lowers_skip
  | succ depth induction =>
      unfold visit
      split
      · exact lowers_skip
      · refine lowers_enter.bind fun _ _ => (lowers_expr within).bind fun parts inner =>
          .forM fun part member => ?_
        exact induction (inner part member)

theorem lowers_placed {placed : Placed} (within : placed.expr.Within low high) :
    Lowers low high (visitPlaced body placed) fun _ => True :=
  lowers_visit within

end

/-! ## Statements -/

section

variable {low high : Mark} {body : Body} {sight : Sight} {sole : Bool} {expr target value : Expr}

theorem lowers_constructed {call : Expr} {category : Category} {constructed : String}
    {arguments : List Expr} (within : expr.Within low high) (whole : call.Within low high)
    (inner : ∀ argument ∈ arguments, argument.Within low high) :
    Lowers low high (lowerConstructed body sight sole expr target call category
      constructed arguments)
      fun _ => True := by
  unfold lowerConstructed
  dsimp only
  split
  · exact lowers_mark within (by unfold emptied; split <;> rfl)
  · refine lowers_categoryOf.bind fun source _ => ?_
    split
    · exact lowers_mark within (by unfold emptied; split <;> rfl)
    · split
      · exact lowers_mark within rfl
      · split
        · refine (lowers_lift _).bind fun declared _ => lowers_direct within ?_
          simpa [Directive.parts] using inner
        · exact lowers_skip
  · refine lowers_direct within ?_
    simpa [Directive.parts] using whole
  · exact lowers_skip

theorem lowers_freshArray {array initializer : Expr} {indices : List Expr}
    (within : expr.Within low high) (inner : ∀ index ∈ indices, index.Within low high)
    (last : initializer.Within low high) :
    Lowers low high (lowerFreshArray body sight sole expr target array indices initializer)
      fun _ => True := by
  have dimensions : ∀ index ∈ indices.filter Expr.isPresent, index.Within low high :=
    fun index member => inner index (List.mem_filter.1 member).1
  unfold lowerFreshArray
  dsimp only
  split
  · refine lowers_direct within fun part member => ?_
    rcases List.mem_append.1 member with front | final
    · exact dimensions part front
    · rw [List.mem_singleton.1 final]
      exact last
  · split
    · refine (lowers_lift _).bind fun arrayType _ => (lowers_modify fun lowering => ?_).bind
        fun _ _ => lowers_get.bind fun _ _ => lowers_direct within dimensions
      exact ⟨List.prefix_rfl, fun _ _ => rfl, fun _ _ member => .inl member⟩
    · exact lowers_skip

theorem lowers_assignment (within : expr.Within low high) (inner : value.Within low high) :
    Lowers low high (lowerAssignment body sight sole expr target value) fun _ => True := by
  refine lowers_categoryOf.bind fun category _ => ?_
  split
  · split
    · exact lowers_mark within (by unfold emptied; split <;> rfl)
    · rename_i node callee arguments
      have parts : ∀ part ∈ callee :: arguments, part.Within low high :=
        fun part member => inner.of_mem rfl rfl member
      split
      · exact lowers_constructed within inner fun part member =>
          parts part (List.mem_cons_of_mem _ member)
      · exact lowers_skip
    · rename_i node array indices initializer
      have parts : ∀ part ∈ array :: indices ++ [initializer], part.Within low high :=
        fun part member => inner.of_mem rfl rfl member
      split
      · exact lowers_freshArray within (fun part member => parts part (by simp [member]))
          (parts initializer (by simp))
      · exact lowers_skip
    · exact lowers_skip
  · exact lowers_skip

theorem lowers_root (within : expr.Within low high) :
    Lowers low high (lowerRoot body sight sole expr) fun _ => True := by
  induction sole, expr using lowerRoot.induct with
  | case1 sole node left right leftInduction rightInduction =>
      have inner : ∀ part ∈ [left, right], part.Within low high :=
        fun part member => within.of_mem rfl rfl member
      rw [lowerRoot]
      exact (leftInduction (inner left (by simp))).bind fun _ _ =>
        rightInduction (inner right (by simp))
  | case2 sole node target value =>
      rw [lowerRoot]
      exact lowers_assignment within (within.of_mem rfl rfl (List.mem_cons_of_mem target
        (List.mem_singleton.2 rfl)))
  | case3 sole expr notComma notAssign =>
      rw [lowerRoot]
      · exact lowers_skip
      all_goals assumption

theorem lowers_throw (within : value.Within low high) :
    Lowers low high (lowerThrow body value) fun _ => True := by
  unfold lowerThrow
  split
  · split
    · exact lowers_mark within rfl
    · exact lowers_skip
  · exact lowers_skip

/-! ## Paragraphs -/

variable {paragraph : ParagraphId → LowerM Unit} {inside : ParagraphId → Prop}

theorem lowers_handlers {last : Option ParagraphId} {handlers : List Handler}
    (within : ∀ handler ∈ handlers, handler.declaration.expr.Within low high)
    (bodies : ∀ handler ∈ handlers,
      Lowers low high (paragraph handler.body) fun _ => True) :
    Lowers low high (visitHandlers body paragraph last handlers) fun _ => True := by
  induction handlers generalizing last with
  | nil => exact lowers_skip
  | cons handler rest induction =>
      have others (next : Option ParagraphId) :=
        @induction next (fun other member => within other (List.mem_cons_of_mem _ member))
          fun other member => bodies other (List.mem_cons_of_mem _ member)
      unfold visitHandlers
      refine (lowers_placed (within handler (by simp))).bind fun _ _ => ?_
      split
      · exact (bodies handler (by simp)).bind fun _ _ => others _
      · exact lowers_skip.bind fun _ _ => others _

theorem lowers_branches {branches : List Branch}
    (within : ∀ branch ∈ branches, branch.condition.expr.Within low high)
    (bodies : ∀ branch ∈ branches, Lowers low high (paragraph branch.body) fun _ => True) :
    Lowers low high (visitBranches body paragraph branches) fun _ => True := by
  induction branches with
  | nil => exact lowers_skip
  | cons branch rest induction =>
      refine (lowers_placed (within branch (by simp))).bind fun _ _ =>
        (bodies branch (by simp)).bind fun _ _ => ?_
      exact induction (fun other member => within other (List.mem_cons_of_mem _ member))
        fun other member => bodies other (List.mem_cons_of_mem _ member)

/-- Lowering a construct stays between the marks of its clauses when its bodies do. -/
theorem lowers_construct {construct : Construct}
    (within : ∀ clause ∈ construct.detail.clauses, clause.expr.Within low high)
    (bodies : ∀ id ∈ construct.detail.bodies, Lowers low high (paragraph id) fun _ => True) :
    Lowers low high (visitConstruct body paragraph construct) fun _ => True := by
  obtain ⟨keyword, label, scope, detail⟩ := construct
  cases detail with
  | conditional branches =>
      exact lowers_branches (fun branch member => within _ (List.mem_map_of_mem member))
        fun branch member => bodies _ (List.mem_map_of_mem member)
  | counted init condition update loop =>
      refine (lowers_root (within init (by simp [Detail.clauses]))).bind fun _ _ => ?_
      refine (lowers_placed (within init (by simp [Detail.clauses]))).bind fun _ _ => ?_
      refine (lowers_placed (within condition (by simp [Detail.clauses]))).bind fun _ _ => ?_
      refine (lowers_placed (within update (by simp [Detail.clauses]))).bind fun _ _ => ?_
      exact bodies loop (by simp [Detail.bodies])
  | doLoop loop condition =>
      refine (bodies loop (by simp [Detail.bodies])).bind fun _ _ => ?_
      exact lowers_placed (within condition (by simp [Detail.clauses]))
  | tryBlock guarded handlers cleanup =>
      refine (bodies guarded (by simp [Detail.bodies])).bind fun _ _ => ?_
      refine (lowers_handlers (fun handler member => within _ (List.mem_map_of_mem member))
        fun handler member => bodies _ ?_).bind fun _ _ => ?_
      · simp [Detail.bodies, Detail.handlerBodies_mem member]
      · cases cleanup with
        | some cleanup => exact bodies cleanup (by simp [Detail.bodies])
        | none => exact lowers_skip
  | jump value target =>
      have lowersValue :=
        @lowers_placed low high body value (within value (by simp [Detail.clauses]))
      unfold visitConstruct
      dsimp only
      split
      · exact (lowers_throw (within value (by simp [Detail.clauses]))).bind fun _ _ => lowersValue
      · exact lowers_skip.bind fun _ _ => lowersValue
  | caseLabel value => exact lowers_placed (within value (by simp [Detail.clauses]))
  | defaultLabel => exact lowers_skip
  | unread => exact lowers_skip
  | _ header =>
      refine (lowers_placed (within header (by simp [Detail.clauses]))).bind fun _ _ => ?_
      exact bodies _ (by simp [Detail.bodies])

/-- What a statement refers to: trees between the marks, and paragraphs inside. -/
def ItemWithin (body : Body) (low high : Mark) (inside : ParagraphId → Prop) : Item → Prop
  | .empty => True
  | .expression placed => placed.expr.Within low high
  | .block id => inside id
  | .construct id => ∀ construct, body.constructs[id]? = some construct →
      (∀ clause ∈ construct.detail.clauses, clause.expr.Within low high) ∧
        ∀ slot ∈ construct.detail.bodies, inside slot

theorem lowers_item {item : Item} (within : ItemWithin body low high inside item)
    (paragraphs : ∀ id, inside id → Lowers low high (paragraph id) fun _ => True) :
    Lowers low high (visitItem body paragraph item) fun _ => True := by
  cases item with
  | empty => exact lowers_skip
  | expression placed => exact (lowers_root within).bind fun _ _ => lowers_placed within
  | block id => exact paragraphs id within
  | construct id =>
      unfold visitItem
      dsimp only
      split
      · rename_i construct known
        obtain ⟨clauses, slots⟩ := within construct known
        exact lowers_construct clauses fun slot member => paragraphs slot (slots slot member)
      · exact lowers_skip

/-- Lowering paragraphs stays between the marks when all of their statements do. -/
theorem lowers_paragraph {nesting : Nat} {id : ParagraphId}
    (region : ∀ id paragraph, inside id → body.paragraphs[id]? = some paragraph →
      ∀ item ∈ paragraph.items, ItemWithin body low high inside item)
    (member : inside id) : Lowers low high (visitParagraph body nesting id) fun _ => True := by
  induction nesting generalizing id with
  | zero => exact lowers_skip
  | succ nesting induction =>
      unfold visitParagraph
      split
      · rename_i paragraph known
        refine .forM fun item listed => ?_
        exact lowers_item (region id paragraph member known item (Array.mem_toList_iff.1 listed))
          fun other deeper => induction deeper
      · exact lowers_skip

end
end Lowering
end MethodLowering
