import MethodLowering.Proofs.Reduction.Ownership

/-!
# Trees and their places

Every expression of a tree that was read lacks no required part, knows where it stands in the text,
and has what stands there.  Declaring the further names of a comma list keeps every property that
does not depend on a name being one.
-/

namespace MethodLowering

open MethodLowering.Expr

/-! ## Results of computations -/

/-- Where the computation succeeds, its value has the property. -/
def AlwaysGives {σ α : Type} (computation : EStateM Failure σ α) (property : α → Prop) : Prop :=
  ∀ state, Gives computation state fun value _ => property value

section

variable {σ α β : Type} {computation : EStateM Failure σ α} {property : α → Prop}

theorem AlwaysGives.any : AlwaysGives computation fun _ => True := fun _ _ _ _ => trivial

theorem AlwaysGives.bind {next : α → EStateM Failure σ β} {final : β → Prop}
    (yields : AlwaysGives computation property)
    (later : ∀ value, property value → AlwaysGives (next value) final) :
    AlwaysGives (computation >>= next) final :=
  fun state => (yields state).bind fun value between holds => later value holds between

theorem AlwaysGives.then {next : α → EStateM Failure σ β} {final : β → Prop}
    (later : ∀ value, AlwaysGives (next value) final) : AlwaysGives (computation >>= next) final :=
  AlwaysGives.any.bind fun value _ => later value

theorem AlwaysGives.pure {value : α} (holds : property value) :
    AlwaysGives (Pure.pure value : EStateM Failure σ α) property :=
  fun _ => .pure holds

theorem AlwaysGives.throw {failure : Failure} :
    AlwaysGives (MonadExcept.throw failure : EStateM Failure σ α) property :=
  fun _ => .throw

end

namespace Reduction

variable {α : Type} {property : α → Prop}

theorem reject_gives {error : SourceError} : AlwaysGives (reject error) property := .throw

theorem rejectBracket_gives {op : Op} {position : Nat} :
    AlwaysGives (rejectBracket op position) property :=
  .then fun _ => reject_gives

end Reduction

/-! ## Statements and clauses of a body -/

namespace Expr

/-- The expression lacks no required part, and knows its place in the text and what stands there. -/
structure IsSettled (text : List Char) (expr : Expr) : Prop where
  whole : expr.IsWhole
  place : ∃ node, expr.node? = some node ∧ node.span.start < node.span.stop ∧
    node.span.stop ≤ text.length ∧ node.text = String.ofList (node.span.slice text)

/-- The same place with other parts. -/
theorem IsSettled.rebuilt {text : List Char} {expr other : Expr} (settled : expr.IsSettled text)
    (same : other.node? = expr.node?) (whole : other.IsWhole) : other.IsSettled text :=
  ⟨whole, by rw [same]; exact settled.place⟩

/-- The property stays when names of a comma list become declarations. -/
structure Survives (property : Expr → Prop) : Prop where
  name : ∀ node declared, property (leaf node .identifier) →
    property (declaration node declared true)
  target : ∀ node op target other value, other.node? = target.node? →
    property (assignment node op target value) → property (assignment node op other value)
  comma : ∀ node left right otherLeft otherRight, otherLeft.node? = left.node? →
    otherRight.node? = right.node? → property (operation node .comma left right) →
    property (operation node .comma otherLeft otherRight)

theorem isPresent_congr {expr other : Expr} (same : other.node? = expr.node?) :
    other.isPresent = expr.isPresent := by
  have known (expr : Expr) : expr.isPresent = expr.node?.isSome := by cases expr <;> rfl
  rw [known, known, same]

theorem isSettled_survives (text : List Char) : Survives (IsSettled text) where
  name _ _ settled := settled.rebuilt rfl trivial
  target _ _ _ _ _ same settled := settled.rebuilt rfl ((isPresent_congr same).trans settled.whole)
  comma _ _ _ _ _ _ _ settled := settled.rebuilt rfl trivial

/-- Where a child is laid depends on its node alone. -/
theorem laid_child_congr {text : List Char} {start stop : Nat} {expr other : Expr}
    {rest : List Part} (same : other.node? = expr.node?) :
    Laid text start stop (.child other :: rest) ↔ Laid text start stop (.child expr :: rest) := by
  rw [Laid, Laid, same]

theorem faithful_survives (text : List Char) :
    Survives fun expr => ∃ node, expr.IsExact text node where
  name _ _ := by
    rintro ⟨node, isExact⟩
    obtain rfl := Option.some.inj isExact.node?
    exact ⟨_, rfl, isExact.inside, isExact.nonempty, isExact.text_eq, isExact.laid⟩
  target _ _ _ _ _ same := by
    rintro ⟨node, isExact⟩
    obtain rfl := Option.some.inj isExact.node?
    exact ⟨_, rfl, isExact.inside, isExact.nonempty, isExact.text_eq,
      (laid_child_congr same).2 isExact.laid⟩
  comma node left right otherLeft otherRight sameLeft sameRight := by
    rintro ⟨_, isExact⟩
    obtain rfl := Option.some.inj isExact.node?
    obtain ⟨middle, front, back⟩ := laid_append.1
      (show Laid text _ _ ([.child left, .token Op.comma.spelling] ++ [.child right])
        from isExact.laid)
    exact ⟨_, rfl, isExact.inside, isExact.nonempty, isExact.text_eq,
      Laid.append ((laid_child_congr sameLeft).2 front) ((laid_child_congr sameRight).2 back)⟩

end Expr

namespace Body

section

variable {scope : ParagraphId} {before after : Body} {text : List Char} {placed : Placed}
  {property : Expr → Prop}

theorem readExpression_settled (read : readExpression scope text before = .ok placed after) :
    placed.expr.Everywhere (IsSettled text) := by
  obtain ⟨expr, final, reduces, rfl, rfl⟩ := exists_statement read
  intro inner inside
  obtain ⟨node, isExact⟩ := (Reduction.statement_scan reduces).1 inner inside
  exact ⟨(readExpression_continues read).made.built.whole inner inside, node, isExact.node?,
    isExact.nonempty, isExact.inside, isExact.text_eq⟩

/-- The property holds everywhere in the tree, and the tree has its node. -/
def Carries (property : Expr → Prop) (expr result : Expr) : Prop :=
  result.node? = expr.node? ∧ result.Everywhere property

section

variable (survives : Survives property)
include survives

theorem continueName_carries
    (shared : SharedDeclaration) {expr : Expr} (all : expr.Everywhere property) :
    AlwaysGives (continueName shared expr) (Carries property expr) := by
  unfold continueName
  split
  · obtain ⟨own, -⟩ := (everywhere_iff rfl).1 all
    refine .then fun _ => .then fun _ => .pure ⟨rfl, (everywhere_iff rfl).2 ⟨?_, nofun⟩⟩
    exact survives.name _ _ own
  · exact .pure ⟨rfl, all⟩

theorem continueItem_carries
    (shared : SharedDeclaration) {expr : Expr} (all : expr.Everywhere property) :
    AlwaysGives (continueItem shared expr) (Carries property expr) := by
  unfold continueItem
  split
  · rename_i node op target value
    obtain ⟨own, inner⟩ := (everywhere_iff rfl).1 all
    have inTarget : target.Everywhere property := everywhere_of_mem inner (by simp)
    have inValue : value.Everywhere property := everywhere_of_mem inner (by simp)
    refine (continueName_carries survives shared inTarget).bind fun renamed carries =>
      .pure ⟨rfl, ?_⟩
    refine everywhere_of_parts [renamed, value] rfl rfl
      (survives.target _ _ _ _ _ carries.1 own) ?_
    simp [carries.2, inValue]
  · exact continueName_carries survives shared all

theorem continueItems_carries (shared : SharedDeclaration)
    (isFirst : Bool) {expr : Expr} (all : expr.Everywhere property) :
    AlwaysGives (continueItems shared isFirst expr) fun result =>
      Carries property expr result.1 := by
  induction isFirst, expr using continueItems.induct with
  | case1 isFirst =>
      rw [continueItems]
      exact .pure ⟨rfl, all⟩
  | case2 isFirst node left right leftInduction rightInduction =>
      obtain ⟨own, inner⟩ := (everywhere_iff rfl).1 all
      rw [continueItems]
      refine (leftInduction (everywhere_of_mem inner (by simp))).bind fun first carries => ?_
      refine (rightInduction first.2 (everywhere_of_mem inner (by simp))).bind
        fun second carriesLast => .pure ⟨rfl, ?_⟩
      refine everywhere_of_parts [first.1, second.1] rfl rfl
        (survives.comma _ _ _ _ _ carries.1 carriesLast.1 own) ?_
      simp [carries.2, carriesLast.2]
  | case3 item notAbsent notComma =>
      rw [continueItems]
      · exact .pure ⟨rfl, all⟩
      · exact notAbsent
      · exact notComma
  | case4 item notAbsent notComma =>
      rw [continueItems]
      · exact (continueItem_carries survives shared all).bind fun _ carries => .pure carries
      · exact notAbsent
      · exact notComma

theorem continueDeclaration_carries {root : Expr}
    (all : root.Everywhere property) :
    AlwaysGives (continueDeclaration root) (Carries property root) := by
  unfold continueDeclaration
  split
  · exact .pure ⟨rfl, all⟩
  · refine .then fun body => ?_
    split
    · exact .pure ⟨rfl, all⟩
    · exact (continueItems_carries survives _ true all).bind fun _ carries => .pure carries

/-- What holds of every expression that is read on its own, and stays with its names declared, holds
of every statement. -/
theorem readStatement_carries
    (reads : ∀ root body, readExpression scope text before = .ok root body →
      root.expr.Everywhere property) (read : readStatement scope text before = .ok placed after) :
    placed.expr.Everywhere property := by
  obtain ⟨root, body, first, behind⟩ := bind_eq_ok.1 read
  obtain ⟨expr, final, second, ended⟩ := bind_eq_ok.1 behind
  obtain ⟨rfl, rfl⟩ := EStateM.Result.ok.inj ended
  exact (continueDeclaration_carries survives (reads root body first) body expr final second).2

end

end
end Body

/-- A tree that was read is settled everywhere. -/
theorem Placed.IsRead.settled {placed : Placed} (isRead : placed.IsRead) :
    ∃ text, placed.expr.Everywhere (Expr.IsSettled text) := by
  obtain ⟨scope, text, before, after, asClause | asStatement⟩ := isRead
  · exact ⟨text, Body.readExpression_settled asClause⟩
  · exact ⟨text, Body.readStatement_carries (isSettled_survives text)
      (fun _ _ => Body.readExpression_settled) asStatement⟩

end MethodLowering
