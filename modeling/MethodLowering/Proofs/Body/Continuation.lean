import MethodLowering.Lowering.TypeReport
import MethodLowering.Proofs.Body.Shape
import MethodLowering.Proofs.Body.Stability

/-!
# A body inside a longer one

A finished body of some statements and one of these statements and further ones.  The first is a
part of the second: its paragraphs other than the method body, its constructs, its variables and its
types made from class bodies are there, with the same numbers.  About the trees of the part, both
give the same answers.
-/

namespace MethodLowering

/-- Nothing has been numbered. -/
def Mark.zero : Mark := ⟨0, 0⟩

/-- The numbers of the tree are those of the body, and all it sees is in the body. -/
structure Placed.IsKnown (body : Body) (placed : Placed) : Prop where
  within : placed.expr.Within .zero body.mark
  fits : placed.sight.Fits body

/-- The bodies of a construct and blocks come behind the paragraph they stand in. -/
def Body.Follows (body : Body) (around id : ParagraphId) : Prop :=
  around < id ∧ id < body.paragraphs.size

/-- The statement of a paragraph refers to what the body knows. -/
def Item.IsKnown (body : Body) (around : ParagraphId) : Item → Prop
  | .empty => True
  | .expression placed => placed.IsKnown body
  | .block id => body.Follows around id
  | .construct id => ∃ construct, body.constructs[id]? = some construct ∧
      (∀ clause ∈ construct.detail.clauses, clause.IsKnown body) ∧
        ∀ slot ∈ construct.detail.bodies, body.Follows around slot

/-- The first body is a part of the second. -/
structure Body.IsPart (part whole : Body) : Prop where
  extended : part.Extends whole
  descends : part.Descends
  lifted : ∃ added : List Lifted, whole.lifted.toList = part.lifted.toList ++ added ∧
    ∀ type ∈ added, ∀ node, type.call.expr.node? = some node → part.nextNode ≤ node.id
  paragraphs : ∀ id, id ≠ Body.root → id < part.paragraphs.size →
    whole.paragraphs[id]? = part.paragraphs[id]?
  constructs : ∀ id < part.constructs.size, whole.constructs[id]? = part.constructs[id]?
  known : ∀ (id : ParagraphId) (paragraph : Paragraph), part.paragraphs[id]? = some paragraph →
    ∀ item ∈ paragraph.items, item.IsKnown part id

namespace Body.IsPart
section

variable {part whole : Body} {sight : Sight} {expr : Expr}

section

variable (isPart : part.IsPart whole)
include isPart

theorem options : whole.options = part.options :=
  isPart.extended.options

theorem lookupAt (fits : sight.Fits part) (name : String) :
    whole.lookupAt sight name = part.lookupAt sight name :=
  isPart.extended.lookupAt isPart.descends fits name

theorem category (fits : sight.Fits part)
    (within : expr.Within .zero part.mark) : whole.category sight expr = part.category sight expr :=
  isPart.extended.category isPart.descends fits within.declaresBelow

theorem declaredType (fits : sight.Fits part) (within : expr.Within .zero part.mark) :
    whole.declaredType sight expr = part.declaredType sight expr :=
  isPart.extended.declaredType isPart.descends fits within.declaresBelow

theorem getElem?_vars {node : Node} {declared : VariableId} {continued : Bool}
    (within : (Expr.declaration node declared continued).Within .zero part.mark) :
    whole.vars[declared]? = part.vars[declared]? :=
  isPart.extended.getElem?_vars (((Expr.everywhere_iff rfl).1 within).1.declared declared rfl).2

/-- The names a type mentions do not depend on the statements. -/
theorem mentionedFrom (nesting : Nat) (name : List Char) :
    whole.mentionedFrom nesting name = part.mentionedFrom nesting name := by
  have unseen (base : List Char) : whole.isUnseen base = part.isUnseen base := by
    rw [isUnseen, isUnseen, extraContainers, extraContainers, isPart.options,
      isPart.extended.context]
  induction nesting generalizing name with
  | zero => rfl
  | succ nesting induction =>
      have same : whole.mentionedFrom nesting = part.mentionedFrom nesting := funext induction
      rw [Body.mentionedFrom, Body.mentionedFrom, same, unseen]

end

/-! ## Types made from class bodies -/

/-- Later types are made from later class bodies. -/
theorem liftedAt? (isPart : part.IsPart whole) {node : Node} (old : node.id < part.nextNode) :
    whole.liftedAt? node = part.liftedAt? node := by
  obtain ⟨added, append, later⟩ := isPart.lifted
  have get (id : Nat) : whole.lifted[id]? = (part.lifted.toList ++ added)[id]? := by
    rw [← append, Array.getElem?_toList]
  have size : whole.lifted.size = part.lifted.size + added.length := by
    simpa using congrArg List.length append
  rw [Body.liftedAt?, Body.liftedAt?, size, List.range_eq_range', List.range_eq_range',
    ← List.range'_append_1, List.reverse_append, List.find?_append, Nat.zero_add]
  have none_ : (List.range' part.lifted.size added.length).reverse.find? (fun id =>
      (whole.lifted[id]?.bind fun lifted => lifted.call.expr.node?).any
        fun other => other.id == node.id) = none := by
    rw [List.find?_eq_none]
    intro id member
    obtain ⟨above, -⟩ := List.mem_range'_1.1 (List.mem_reverse.1 member)
    rw [get, List.getElem?_append_right (by simpa using above)]
    intro found
    obtain ⟨other, shown, same⟩ := (Option.any_eq_true _ _).1 found
    obtain ⟨type, listed, call⟩ := Option.bind_eq_some_iff.1 shown
    have fresh := later type (List.mem_of_getElem? listed) other call
    rw [eq_of_beq same] at fresh
    exact absurd old (Nat.not_lt.2 fresh)
  rw [none_, Option.none_or]
  rw [← List.head?_filter, ← List.head?_filter]
  refine congrArg List.head? (List.filter_congr fun id member => ?_)
  have below := (List.mem_range'_1.1 (List.mem_reverse.1 member)).2
  rw [get, List.getElem?_append_left (by simpa using below), Array.getElem?_toList]

/-- The type made from the class body behind a call of the part. -/
theorem lifted_bind (isPart : part.IsPart whole) {node : Node} (old : node.id < part.nextNode) :
    (whole.liftedAt? node).bind (whole.lifted[·]?) =
      (part.liftedAt? node).bind (part.lifted[·]?) := by
  rw [isPart.liftedAt? old]
  cases found : part.liftedAt? node with
  | none => rfl
  | some id =>
      obtain ⟨added, append, -⟩ := isPart.lifted
      have inside : id < part.lifted.size := by
        simpa using List.mem_of_find?_eq_some found
      simp only [Option.bind_some]
      rw [← Array.getElem?_toList, append, List.getElem?_append_left (by simpa using inside),
        Array.getElem?_toList]

end
end Body.IsPart
end MethodLowering
