import MethodLowering.Proofs.Body.Declaring
import MethodLowering.Reduction.Brackets
import MethodLowering.Reduction.Operators

/-!
# Renumbered trees

A text that is read again gives the same tree with other numbers of nodes and variables.  No
question that the reading asks of a tree depends on these numbers.
-/

namespace MethodLowering

/-- The node with a later number. -/
def Node.renumber (gap : Mark) (node : Node) : Node := { node with id := node.id + gap.nodes }

namespace Expr

mutual

/-- The tree with later numbers of its nodes and variables. -/
def renumber (gap : Mark) : Expr → Expr
  | absent => absent
  | leaf node form => leaf (node.renumber gap) form
  | declaration node declared continued =>
      declaration (node.renumber gap) (declared + gap.vars) continued
  | operation node op left right =>
      operation (node.renumber gap) op (renumber gap left) (renumber gap right)
  | assignment node op target value =>
      assignment (node.renumber gap) op (renumber gap target) (renumber gap value)
  | typeTest node operand typeName =>
      typeTest (node.renumber gap) (renumber gap operand) typeName
  | access node subject member =>
      access (node.renumber gap) (renumber gap subject) (renumber gap member)
  | group node brace items => group (node.renumber gap) brace (renumberAll gap items)
  | cast node typeName operand => cast (node.renumber gap) typeName (renumber gap operand)
  | call node callee arguments =>
      call (node.renumber gap) (renumber gap callee) (renumberAll gap arguments)
  | index node target indices initializer =>
      index (node.renumber gap) (renumber gap target) (renumberAll gap indices)
        (renumber gap initializer)

/-- The trees with later numbers. -/
def renumberAll (gap : Mark) : List Expr → List Expr
  | [] => []
  | expr :: rest => renumber gap expr :: renumberAll gap rest

end

section

variable (gap : Mark)

@[simp] theorem renumberAll_eq (items : List Expr) :
    renumberAll gap items = items.map (renumber gap) := by
  induction items with
  | nil => rfl
  | cons item rest induction => rw [renumberAll, induction, List.map_cons]

section

variable (expr : Expr)
include expr

@[simp] theorem node?_renumber :
    (expr.renumber gap).node? = expr.node?.map (Node.renumber gap) := by
  cases expr <;> rfl

@[simp] theorem isAbsent_renumber : (expr.renumber gap).isAbsent = expr.isAbsent := by
  cases expr <;> rfl

@[simp] theorem isPresent_renumber : (expr.renumber gap).isPresent = expr.isPresent := by
  rw [isPresent, isPresent, isAbsent_renumber]

@[simp] theorem text_renumber : (expr.renumber gap).text = expr.text := by
  cases expr <;> rfl

@[simp] theorem trimmedChars_renumber : (expr.renumber gap).trimmedChars = expr.trimmedChars := by
  rw [trimmedChars, trimmedChars, text_renumber]

@[simp] theorem trimmedText_renumber : (expr.renumber gap).trimmedText = expr.trimmedText := by
  rw [trimmedText, trimmedText, trimmedChars_renumber]

@[simp] theorem constructedType?_renumber :
    (expr.renumber gap).constructedType? = expr.constructedType? := by
  cases expr with
  | leaf node form => cases form <;> rfl
  | _ => rfl

@[simp] theorem isConstructorCall_renumber :
    (expr.renumber gap).isConstructorCall = expr.isConstructorCall := by
  cases expr with
  | call node callee arguments =>
      exact congrArg Option.isSome (constructedType?_renumber gap callee)
  | _ => rfl

theorem relocate_renumber (span : Span) (text : String) :
    (expr.renumber gap).relocate span text = (expr.relocate span text).renumber gap := by
  cases expr <;> rfl

end

theorem renumber_ne_absent {expr : Expr} (present : expr = absent → False) :
    expr.renumber gap = absent → False := by
  intro absent
  cases expr with
  | absent => exact present rfl
  | _ => exact Expr.noConfusion absent

theorem renumber_ne_comma {expr : Expr}
    (notComma : ∀ node left right, expr = operation node .comma left right → False) :
    ∀ node left right, expr.renumber gap = operation node .comma left right → False := by
  intro node left right comma
  cases expr with
  | operation node op left right =>
      rw [renumber, operation.injEq] at comma
      exact notComma node left right (by rw [comma.2.1])
  | _ => exact Expr.noConfusion comma

theorem commaItems_renumber (expr : Expr) :
    (expr.renumber gap).commaItems = expr.commaItems.map (renumber gap) := by
  induction expr using commaItems.induct with
  | case1 => rfl
  | case2 node left right leftInduction rightInduction =>
      simp only [renumber, commaItems, leftInduction, rightInduction, List.map_append]
  | case3 other notAbsent notComma =>
      rw [commaItems, commaItems]
      · rfl
      · exact notAbsent
      · exact notComma
      · exact renumber_ne_absent gap notAbsent
      · exact renumber_ne_comma gap notComma

theorem declaredVariable?_renumber (expr : Expr) :
    (expr.renumber gap).declaredVariable? = expr.declaredVariable?.map (· + gap.vars) := by
  cases expr with
  | assignment node op target value => cases target <;> rfl
  | _ => rfl

theorem castType?_renumber (expr : Expr) :
    Reduction.castType? (expr.renumber gap) = Reduction.castType? expr := by
  unfold Reduction.castType?
  rw [trimmedChars_renumber]
  cases expr with
  | leaf node form => cases form <;> rfl
  | _ => rfl

theorem absorbed?_renumber (expr : Expr) :
    Reduction.absorbed? (expr.renumber gap) = (Reduction.absorbed? expr).map fun parts =>
        (parts.1.map (renumber gap), parts.2.renumber gap) := by
  cases expr with
  | group node brace items => cases brace <;> simp [renumber, Reduction.absorbed?]
  | index node target indices initializer =>
      cases target <;> simp [renumber, Reduction.absorbed?]
  | _ => rfl

/-- The member with a name in place of its own, renumbered. -/
theorem memberName?_renumber (expr : Expr) :
    (Reduction.memberName? expr = none ∧ Reduction.memberName? (expr.renumber gap) = none) ∨
      ∃ name rebuild rebuilt, Reduction.memberName? expr = some (name, rebuild) ∧
        Reduction.memberName? (expr.renumber gap) = some (name.renumber gap, rebuilt) ∧
        ∀ inner : Expr, rebuilt (inner.renumber gap) = (rebuild inner).renumber gap := by
  cases expr with
  | leaf node form =>
      cases form with
      | identifier => exact .inr ⟨node, id, id, rfl, rfl, fun inner => rfl⟩
      | _ => exact .inl ⟨rfl, rfl⟩
  | call node callee arguments =>
      cases callee with
      | leaf name form =>
          cases form with
          | identifier => exact .inr ⟨_, _, _, rfl, rfl, fun inner => rfl⟩
          | _ => exact .inl ⟨rfl, rfl⟩
      | _ => exact .inl ⟨rfl, rfl⟩
  | index node target indices initializer =>
      cases target with
      | leaf name form =>
          cases form with
          | identifier => exact .inr ⟨_, _, _, rfl, rfl, fun inner => rfl⟩
          | _ => exact .inl ⟨rfl, rfl⟩
      | _ => exact .inl ⟨rfl, rfl⟩
  | _ => exact .inl ⟨rfl, rfl⟩

mutual

theorem preorder_renumber : (expr : Expr) →
    (expr.renumber gap).preorder = expr.preorder.map (renumber gap)
  | absent => rfl
  | leaf .. => rfl
  | declaration .. => rfl
  | operation node op left right => by
      simp [renumber, preorder, preorder_renumber left, preorder_renumber right]
  | assignment node op target value => by
      simp [renumber, preorder, preorder_renumber target, preorder_renumber value]
  | typeTest node operand typeName => by simp [renumber, preorder, preorder_renumber operand]
  | access node subject member => by
      simp [renumber, preorder, preorder_renumber subject, preorder_renumber member]
  | group node brace items => by simp [renumber, preorder, preorderAll_renumber items]
  | cast node typeName operand => by simp [renumber, preorder, preorder_renumber operand]
  | call node callee arguments => by
      simp [renumber, preorder, preorder_renumber callee, preorderAll_renumber arguments]
  | index node target indices initializer => by
      simp [renumber, preorder, preorder_renumber target, preorderAll_renumber indices,
        preorder_renumber initializer]

theorem preorderAll_renumber : (items : List Expr) →
    preorderAll (items.map (renumber gap)) = (preorderAll items).map (renumber gap)
  | [] => rfl
  | expr :: rest => by
      simp [preorderAll, preorder_renumber expr, preorderAll_renumber rest]

end

end
end Expr
end MethodLowering
