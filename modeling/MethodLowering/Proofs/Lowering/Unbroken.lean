import MethodLowering.Proofs.Lowering.Fitting
import MethodLowering.Proofs.Output.Prefix
import MethodLowering.Proofs.Reader.Unbroken

/-!
# Directives without line breaks

The names and types that directives write come from the trees of the body, and so do the expressions
that they mention.  Where the trees have no line breaks, neither has anything that directives bring
in.
-/

namespace MethodLowering

open MethodLowering.Expr Lowering

/-! ## Trees of a body -/

namespace Expr

/-- The expression is unbroken, and what it declares is no parameter of the method: the number of
the variable is not below `base`. -/
structure IsWritten (base : VariableId) (expr : Expr) : Prop where
  unbroken : expr.IsUnbroken
  declared : ∀ id, expr.declaredVariable? = some id → base ≤ id

/-- All of the tree is unbroken and declares no parameters. -/
def Written (base : VariableId) (expr : Expr) : Prop := expr.Everywhere (IsWritten base)

section

variable {base : VariableId} {expr inner : Expr} {typeName : String} {id : VariableId}

theorem Written.unbroken (written : expr.Written base) : expr.Unbroken :=
  written.mono fun _ own => own.unbroken

theorem Written.part (items : List Expr) (written : expr.Written base)
    (present : expr.isPresent = true)
    (parts : expr.children = items.filter isPresent) (member : inner ∈ items) :
    inner.Written base :=
  Everywhere.part items written present parts member

theorem Written.declared (written : expr.Written base)
    (declares : expr.declaredVariable? = some id) :
    base ≤ id := by
  cases expr with
  | absent => contradiction
  | _ => exact ((everywhere_iff rfl).1 written).1.declared id declares

theorem Within.written {high : Mark} {nodes : Nat} (within : expr.Within ⟨base, nodes⟩ high)
    (unbroken : expr.Unbroken) : expr.Written base := by
  intro inner inside
  refine ⟨unbroken inner inside, fun id declares => ?_⟩
  have own := within.inside inside
  exact (declaredVariable?_within own declares).1

end
end Expr

namespace Body

variable {context : Context} {options : Options} {lines : List String} {body : Body} {tree : Expr}

/-- A tree of the body is that of a statement or a clause. -/
theorem exists_hasTree (known : tree ∈ body.trees) :
    ∃ placed, body.HasTree placed ∧ placed.expr = tree := by
  rcases List.mem_append.1 known with ofParagraph | ofConstruct
  · obtain ⟨paragraph, member, inside⟩ := List.mem_flatMap.1 ofParagraph
    obtain ⟨item, listed, own⟩ := List.mem_flatMap.1 inside
    cases item with
    | expression placed =>
        obtain rfl := List.mem_singleton.1 own
        exact ⟨placed, .inl ⟨paragraph, Array.mem_toList_iff.1 member,
          Array.mem_toList_iff.1 listed⟩, rfl⟩
    | _ => contradiction
  · obtain ⟨construct, member, inside⟩ := List.mem_flatMap.1 ofConstruct
    obtain ⟨clause, listed, rfl⟩ := List.mem_map.1 inside
    exact ⟨clause, .inr ⟨construct, Array.mem_toList_iff.1 member, listed⟩, rfl⟩

/-- The trees of a body that is read from unbroken lines. -/
theorem ofLines_written (solid : ∀ line ∈ lines, Text.Unbroken line.toList)
    (read : Body.ofLines context options lines = .ok body) :
    ∀ tree ∈ body.trees, tree.Written (initial context options).vars.size := by
  intro tree known
  obtain ⟨placed, has, rfl⟩ := exists_hasTree known
  have unbroken := (ofLines_unbroken solid read).1.hasTree has
  obtain ⟨reader, reached, -, rfl⟩ := Body.ofLines_reaches read
  have grown := Edits.grown (reached.since (Reader.since_initial context options)).edits
  exact (grown.isNew_of_hasTree (show reader.body.HasTree placed from has)).within.written unbroken

end Body

/-! ## Names and types -/

namespace Directive

/-- The names and types that the directive writes are unbroken. -/
def IsUnbroken : Directive → Prop
  | bulkCopy _ method _ _ => Text.Unbroken method.toList
  | arrayTemporary name arrayType _ => Text.Unbroken name.toList ∧ Text.Unbroken arrayType.toList
  | arrayValue arrayType => Text.Unbroken arrayType.toList
  | _ => True

section

variable {base : VariableId} {body : Body} {sight : Sight} {directive : Directive}
  {expr target value initializer part : Expr} {node : Node} {indices : List Expr}
    {typeName : String}

theorem unbroken_of_constructedType? (unbroken : expr.Unbroken)
    (construction : expr.isConstruction = true)
    {declared : Option String} (typed : body.declaredType sight expr = .ok declared) :
    Text.Unbroken (declared.getD "").toList := by
  cases expr with
  | leaf node form =>
      cases form with
      | construction typeName =>
          obtain rfl := Except.ok.inj typed
          exact unbroken.named rfl
      | _ => contradiction
  | _ => contradiction

/-- The type of an array that is constructed is that of its elements with brackets. -/
theorem unbroken_arrayType (unbroken : (Expr.index node target indices initializer).Unbroken)
    (construction : target.isConstruction = true) {declared : Option String}
    (typed : body.declaredType sight (.index node target indices initializer) = .ok declared) :
    Text.Unbroken (declared.getD "").toList := by
  have part := unbroken.part (target :: indices ++ [initializer]) rfl rfl List.mem_cons_self
  cases found : body.declaredType sight target with
  | error fault => simp [Body.declaredType, found, Bind.bind, Except.bind] at typed
  | ok element =>
      have solid := unbroken_of_constructedType? part construction found
      cases element with
      | none =>
          obtain rfl : none = declared := by
            simpa [Body.declaredType, found, Bind.bind, Except.bind, Pure.pure,
              Except.pure] using typed
          decide
      | some typeName =>
          obtain rfl : some (TypeName.addDimensions
            (String.ofList (TypeName.strip typeName.toList).1)
              ((TypeName.strip typeName.toList).2 + indices.length)) = declared := by
            simpa [Body.declaredType, found, construction, Bind.bind, Except.bind,
              Pure.pure, Except.pure]
              using typed
          refine Text.unbroken_addDimensions ?_ _
          rw [String.toList_ofList]
          exact Text.Unbroken.element solid

/-! ## Parts -/

/-- What a directive mentions are parts of the expression that it is for. -/
theorem Suits.parts (suits : directive.Suits body expr) (written : expr.Written base) :
    ∀ part ∈ directive.parts, part.Written base := by
  have nothing (none : directive.parts = []) : ∀ part ∈ directive.parts, part.Written base := by
    rw [none]
    exact List.forall_mem_nil _
  cases directive with
  | emptinessTest subject negated =>
      obtain ⟨node, left, right, rfl, sides⟩ := suits
      have operand {inner : Expr} := @Written.part base _ inner [left, right] written rfl rfl
      refine List.forall_mem_singleton.2 ?_
      rcases sides with ⟨-, rfl⟩ | ⟨-, rfl⟩
      · exact operand (by simp)
      · exact operand (by simp)
  | bulkCopy source method declare checked =>
      obtain ⟨node, target, value, rfl, -, ⟨inner, callee, rfl, -⟩, -⟩ := suits
      have call : (Expr.call inner callee [source]).Written base :=
        written.part [target, _] rfl rfl (by simp)
      exact List.forall_mem_singleton.2 (call.part [callee, source] rfl rfl (by simp))
  | constructFrom call declare =>
      obtain ⟨node, target, value, rfl, -, rfl, -⟩ := suits
      exact List.forall_mem_singleton.2 (written.part [target, call] rfl rfl (by simp))
  | arrayConstructor dimensions initializer =>
      obtain ⟨node, target, value, rfl, -, inner, array, indices, rfl, -, rfl⟩ := suits
      have index : (Expr.index inner array indices initializer).Written base :=
        written.part [target, _] rfl rfl (by simp)
      have each {part : Expr} :=
        @Written.part base _ part (array :: indices ++ [initializer]) index rfl rfl
      intro part member
      rcases List.mem_append.1 member with dimension | last
      · exact each (by simp [(List.mem_filter.1 dimension).1])
      · exact each (by simp [List.mem_singleton.1 last])
  | arrayTemporary name arrayType dimensions =>
      obtain ⟨node, target, value, rfl, -, inner, array, indices, initializer, rfl, -, -, rfl⟩ :=
        suits
      have index : (Expr.index inner array indices initializer).Written base :=
        written.part [target, _] rfl rfl (by simp)
      intro part member
      refine index.part (array :: indices ++ [initializer]) rfl rfl ?_
      simp [(List.mem_filter.1 member).1]
  | _ => exact nothing rfl

end
end Directive

/-! ## Walking -/

namespace Lowering

/-- All directives that the computation gives write unbroken names and types. -/
def GivesUnbroken {α : Type} (computation : LowerM α) : Prop :=
  Logs computation fun log _ => ∀ direction ∈ log.given, direction.directive.IsUnbroken

section

variable {α β : Type} {body : Body} {sight : Sight} {sole : Bool} {base : VariableId}
  {expr target value callee : Expr} {node inner : Node} {category : Category}
    {directive : Directive}
  {arguments : List Expr} {constructed : String} {paragraph : ParagraphId → LowerM Unit}

theorem givesUnbroken_pure (result : α) : GivesUnbroken (pure result : LowerM α) :=
  .pure (List.forall_mem_nil _)

theorem GivesUnbroken.bind {computation : LowerM α} {next : α → LowerM β}
    (early : GivesUnbroken computation) (late : ∀ result, GivesUnbroken (next result)) :
    GivesUnbroken (computation >>= next) :=
  Logs.bind early fun _ _ first => (late _).weaken fun _ _ second =>
    List.forall_mem_append.2 ⟨first, second⟩

theorem givesUnbroken_direct (known : expr.node? = some node)
    (lasting : temporary? directive = none)
    (isUnbroken : directive.IsUnbroken) : GivesUnbroken (direct expr directive) := by
  refine (logs_direct (isPresent_iff.2 ⟨node, known⟩) lasting).weaken fun log _ same => ?_
  rw [same]
  exact List.forall_mem_singleton.2 isUnbroken

/-- The names of temporaries are made of their numbers. -/
theorem Logs.named {computation : LowerM α} {property : Log → α → Prop}
    (logs : Logs computation property) :
    Logs computation fun log result => property log result ∧
      ∀ name ∈ log.names, ∃ count, name = temporaryName count := by
  intro before result after ran
  obtain ⟨log, follows, holds⟩ := logs before result after ran
  refine ⟨log, follows, holds, fun name member => ?_⟩
  rw [follows.names] at member
  obtain ⟨count, -, rfl⟩ := List.mem_map.1 member
  exact ⟨count, rfl⟩

theorem unbroken_temporaryName (count : Nat) : Text.Unbroken (temporaryName count).toList := by
  rw [temporaryName, String.toList_append, Text.unbroken_append]
  exact ⟨by decide, Text.unbroken_toString count⟩

theorem givesUnbroken_emptied (known : expr.node? = some node) (declare : Bool) :
    GivesUnbroken (direct expr (emptied declare category)) := by
  unfold emptied
  split
  · exact givesUnbroken_direct known rfl trivial
  · exact givesUnbroken_direct known rfl trivial

theorem unbroken_bulkMethod (first second : String) :
    Text.Unbroken (bulkMethod first second).toList := by
  unfold bulkMethod
  split <;> decide

theorem givesUnbroken_constructed (known : expr.node? = some node) :
    GivesUnbroken (lowerConstructed body sight sole expr target value category constructed
      arguments) := by
  unfold lowerConstructed
  dsimp only
  split
  · exact givesUnbroken_emptied known _
  · refine quiet_categoryOf.bind fun sourceCategory _ => ?_
    split_ifs
    · exact givesUnbroken_emptied known _
    · exact givesUnbroken_direct known rfl trivial
    · refine (quiet_lift _).bind fun declared _ => ?_
      exact givesUnbroken_direct known rfl (unbroken_bulkMethod _ _)
    · exact givesUnbroken_pure ()
  · exact givesUnbroken_direct known rfl trivial
  · exact givesUnbroken_pure ()

theorem givesUnbroken_freshArray {array initializer : Expr} {indices : List Expr}
    (known : expr.node? = some node)
    (unbroken : (Expr.index inner array indices initializer).Unbroken)
    (construction : array.isConstruction = true) :
    GivesUnbroken (lowerFreshArray body sight sole expr target
      (.index inner array indices initializer)
      indices initializer) := by
  unfold lowerFreshArray
  dsimp only
  split_ifs
  · exact givesUnbroken_direct known rfl trivial
  · refine (quiet_lift _).bind fun declared typed => ?_
    refine (logs_temporary (isPresent_iff.2 ⟨node, known⟩) _ _).named.weaken ?_
    rintro log _ ⟨⟨name, rfl⟩, named⟩
    obtain ⟨count, rfl⟩ := named name (by simp [Log.names, temporary?])
    refine List.forall_mem_singleton.2 ⟨unbroken_temporaryName count, ?_⟩
    exact Directive.unbroken_arrayType unbroken construction typed
  · exact givesUnbroken_pure ()

theorem givesUnbroken_assignment (known : expr.node? = some node) (unbroken : value.Unbroken) :
    GivesUnbroken (lowerAssignment body sight sole expr target value) := by
  refine quiet_categoryOf.bind fun category _ => ?_
  split
  · split
    · exact givesUnbroken_emptied known _
    · split
      · exact givesUnbroken_constructed known
      · exact givesUnbroken_pure ()
    · split
      · rename_i construction
        exact givesUnbroken_freshArray known unbroken construction
      · exact givesUnbroken_pure ()
    · exact givesUnbroken_pure ()
  · exact givesUnbroken_pure ()

theorem givesUnbroken_root (unbroken : expr.Unbroken) :
    GivesUnbroken (lowerRoot body sight sole expr) := by
  induction sole, expr using lowerRoot.induct with
  | case1 sole node left right leftInduction rightInduction =>
      have part {inner : Expr} := @Expr.Unbroken.part _ inner [left, right] unbroken rfl rfl
      rw [lowerRoot]
      exact (leftInduction (part (by simp))).bind fun _ => rightInduction (part (by simp))
  | case2 sole node target value =>
      rw [lowerRoot]
      exact givesUnbroken_assignment rfl (unbroken.part [target, value] rfl rfl (by simp))
  | case3 sole expr notComma notAssign =>
      rw [lowerRoot]
      · exact givesUnbroken_pure ()
      all_goals assumption

theorem givesUnbroken_throw : GivesUnbroken (lowerThrow body value) := by
  unfold lowerThrow
  split
  · split
    · exact givesUnbroken_direct rfl rfl trivial
    · exact givesUnbroken_pure ()
  · exact givesUnbroken_pure ()

/-- Entering a tree writes no name; a type is written for an array that is used in place. -/
theorem givesUnbroken_placed {placed : Placed} (unbroken : placed.expr.Unbroken) :
    GivesUnbroken (visitPlaced body placed) := by
  refine logs_visit.weaken fun log _ tallies direction member => ?_
  obtain ⟨tree, among, fits⟩ := tallies.fits direction member
  obtain rfl := List.mem_singleton.1 among
  have solid : direction.expr.Unbroken := unbroken.inside fits.inside
  -- what writes a second statement is decided before the tree is entered
  have whole (splits : direction.directive.splits = true) : False := by
    have listed := tallies.once.subset (List.mem_map_of_mem (f := Direction.expr)
      (List.mem_filter.2 ⟨member, Directive.decides_of_splits splits⟩))
    have inner := (List.mem_filter.1 listed).2
    simp [isOuter, Directive.isPlainAssignment_of_splits fits.suits splits] at inner
  have suits := fits.suits
  have typed := fits.typed
  cases given : direction.directive with
  | bulkCopy source method declare checked => exact (whole (by rw [given]; rfl)).elim
  | arrayTemporary name arrayType dimensions => exact (whole (by rw [given]; rfl)).elim
  | arrayValue arrayType =>
      rw [given] at suits typed
      obtain ⟨node, target, indices, initializer, same, construction⟩ := suits
      obtain ⟨sight, typed⟩ := typed
      rw [same] at solid typed
      exact Directive.unbroken_arrayType solid construction typed
  | _ => trivial

theorem givesUnbroken_handlers {handlers : List Handler} (last : Option ParagraphId)
    (clauses : ∀ handler ∈ handlers, handler.declaration.expr.Unbroken)
    (paragraphs : ∀ id, GivesUnbroken (paragraph id)) :
    GivesUnbroken (visitHandlers body paragraph last handlers) := by
  induction handlers generalizing last with
  | nil => exact givesUnbroken_pure ()
  | cons handler rest induction =>
      obtain ⟨own, others⟩ := List.forall_mem_cons.1 clauses
      refine (givesUnbroken_placed own).bind fun _ => ?_
      split
      · exact (paragraphs _).bind fun _ => induction _ others
      · exact induction _ others

theorem givesUnbroken_branches {branches : List Branch}
    (clauses : ∀ branch ∈ branches, branch.condition.expr.Unbroken)
    (paragraphs : ∀ id, GivesUnbroken (paragraph id)) :
    GivesUnbroken (visitBranches body paragraph branches) := by
  induction branches with
  | nil => exact givesUnbroken_pure ()
  | cons branch rest induction =>
      obtain ⟨own, others⟩ := List.forall_mem_cons.1 clauses
      refine (givesUnbroken_placed own).bind fun _ => (paragraphs _).bind fun _ => induction others

theorem givesUnbroken_construct {construct : Construct}
    (clauses : ∀ clause ∈ construct.detail.clauses, clause.expr.Unbroken)
    (paragraphs : ∀ id, GivesUnbroken (paragraph id)) :
    GivesUnbroken (visitConstruct body paragraph construct) := by
  obtain ⟨keyword, label, scope, detail⟩ := construct
  have placed {clause : Placed} (member : clause ∈ detail.clauses) :
      GivesUnbroken (visitPlaced body clause) := givesUnbroken_placed (clauses clause member)
  cases detail with
  | conditional branches =>
      exact givesUnbroken_branches (fun branch member =>
        clauses _ (List.mem_map_of_mem member)) paragraphs
  | counted init condition update loop =>
      refine (givesUnbroken_root (clauses init (by simp [Detail.clauses]))).bind fun _ => ?_
      refine (placed (by simp [Detail.clauses])).bind fun _ => ?_
      refine (placed (by simp [Detail.clauses])).bind fun _ => ?_
      exact (placed (by simp [Detail.clauses])).bind fun _ => paragraphs _
  | doLoop loop condition => exact (paragraphs _).bind fun _ => placed (by simp [Detail.clauses])
  | tryBlock guarded handlers cleanup =>
      refine (paragraphs _).bind fun _ => ?_
      refine (givesUnbroken_handlers none (fun handler member => ?_) paragraphs).bind fun _ => ?_
      · exact clauses _ (List.mem_map_of_mem member)
      cases cleanup with
      | some cleanup => exact paragraphs _
      | none => exact givesUnbroken_pure ()
  | jump value target =>
      unfold visitConstruct
      dsimp only
      split
      · exact givesUnbroken_throw.bind fun _ => placed (by simp [Detail.clauses])
      · exact placed (by simp [Detail.clauses])
  | caseLabel value => exact placed (by simp [Detail.clauses])
  | defaultLabel => exact givesUnbroken_pure ()
  | unread => exact givesUnbroken_pure ()
  | _ => exact (placed (by simp [Detail.clauses])).bind fun _ => paragraphs _

theorem givesUnbroken_item {item : Item} (own : ∀ tree ∈ item.trees, tree.Unbroken)
    (constructs : ∀ construct ∈ body.constructs, ∀ clause ∈ construct.detail.clauses,
      clause.expr.Unbroken) (paragraphs : ∀ id, GivesUnbroken (paragraph id)) :
    GivesUnbroken (visitItem body paragraph item) := by
  cases item with
  | empty => exact givesUnbroken_pure ()
  | expression root =>
      have solid := own root.expr (List.mem_singleton_self _)
      exact (givesUnbroken_root solid).bind fun _ => givesUnbroken_placed solid
  | block id => exact paragraphs id
  | construct id =>
      unfold visitItem
      dsimp only
      split
      · rename_i construct known
        exact givesUnbroken_construct (constructs construct (Array.mem_of_getElem? known))
          paragraphs
      · exact givesUnbroken_pure ()

theorem givesUnbroken_forM {items : List β} {act : β → LowerM Unit}
    (each : ∀ item ∈ items, GivesUnbroken (act item)) : GivesUnbroken (items.forM act) := by
  induction items with
  | nil => exact givesUnbroken_pure ()
  | cons item rest induction =>
      obtain ⟨own, others⟩ := List.forall_mem_cons.1 each
      exact own.bind fun _ => induction others

/-- Lowering unbroken paragraphs and constructs brings in no line break. -/
theorem givesUnbroken_paragraph (unbroken : body.IsUnbroken base) (nesting : Nat)
    (id : ParagraphId) :
    GivesUnbroken (visitParagraph body nesting id) := by
  induction nesting generalizing id with
  | zero => exact givesUnbroken_pure ()
  | succ nesting induction =>
      unfold visitParagraph
      split
      · rename_i paragraph known
        refine givesUnbroken_forM fun item member => givesUnbroken_item ?_ ?_ induction
        · intro tree own
          cases item with
          | expression placed =>
              obtain rfl := List.mem_singleton.1 own
              exact (unbroken.paragraphs _ (Array.mem_of_getElem? known)).items placed
                (Array.mem_toList_iff.1 member)
          | _ => contradiction
        · exact fun construct among => (unbroken.constructs construct among).detail.clauses
      · exact givesUnbroken_pure ()

end
end Lowering

/-- **Unbroken directives.**  The names and types that the directives of a body from unbroken lines
write are unbroken, and so is what they mention. -/
theorem Body.lower_unbroken {context : Context} {options : Options}
    {lines : List String} {body : Body}
    {types : TypeReport} {lowering : Lowering} (solid : ∀ line ∈ lines, Text.Unbroken line.toList)
    (read : Body.ofLines context options lines = .ok body)
    (lowered : body.lower types = .ok lowering) :
    ∀ number, ∀ directive ∈ lowering.directives.get number, directive.IsUnbroken ∧
      ∀ part ∈ directive.parts, part.Written (Body.initial context options).vars.size := by
  intro number directive member
  constructor
  · obtain ⟨log, follows, unbroken⟩ := givesUnbroken_paragraph (Body.ofLines_unbroken solid read).1
      body.paragraphs.size Body.root { types } () lowering (Body.lower_eq_ok.1 lowered)
    obtain ⟨direction, among, -, rfl⟩ := follows.given member
    exact unbroken direction among
  · obtain ⟨log, follows, tallies⟩ := (Body.ofLines_wellFormed read).lower_follows lowered
    obtain ⟨direction, among, -, rfl⟩ := follows.given member
    obtain ⟨tree, known, fits⟩ := tallies.fits direction among
    exact fits.suits.parts ((Body.ofLines_written solid read tree known).inside fits.inside)

end MethodLowering
