import Mathlib.Data.List.Forall2
import Mathlib.Data.Option.Basic
import MethodLowering.Reduction.Brackets
import MethodLowering.Reduction.Operators

/-!
# Copies of trees

A text that stands inside another one is read as a copy of its tree: with the same forms and texts,
further on, and with other numbers of the nodes.  No question that the reading asks of a tree can
tell the copy from the tree.
-/

namespace MethodLowering

/-- The span further on. -/
def Span.shift (count : Nat) (span : Span) : Span := ⟨span.start + count, span.stop + count⟩

/-- The copy has the same text further on; the text of the node ends at `stop` at the latest. -/
structure Node.Copies (shift stop : Nat) (node copy : Node) : Prop where
  span : copy.span = node.span.shift shift
  text : copy.text = node.text
  within : node.span.stop ≤ stop

/-- The second tree is the first one further on in a text; all of the first one ends at `stop` at
the latest. -/
inductive Expr.Copies (shift stop : Nat) : Expr → Expr → Prop where
  | absent : Expr.Copies shift stop .absent .absent
  | leaf {node copy : Node} {form : LeafForm} (nodes : node.Copies shift stop copy) :
      Expr.Copies shift stop (.leaf node form) (.leaf copy form)
  | declaration {node copy : Node} {declared : VariableId} {continued : Bool}
      (nodes : node.Copies shift stop copy) :
      Expr.Copies shift stop (.declaration node declared continued)
        (.declaration copy declared continued)
  | operation {node copy : Node} {op : Op} {left left' right right' : Expr}
      (nodes : node.Copies shift stop copy) (first : Expr.Copies shift stop left left')
      (second : Expr.Copies shift stop right right') :
      Expr.Copies shift stop (.operation node op left right) (.operation copy op left' right')
  | assignment {node copy : Node} {op : Op} {target target' value value' : Expr}
      (nodes : node.Copies shift stop copy) (first : Expr.Copies shift stop target target')
      (second : Expr.Copies shift stop value value') :
      Expr.Copies shift stop (.assignment node op target value) (.assignment copy op target' value')
  | typeTest {node copy : Node} {operand operand' : Expr} {typeName : String}
      (nodes : node.Copies shift stop copy) (inner : Expr.Copies shift stop operand operand') :
      Expr.Copies shift stop (.typeTest node operand typeName) (.typeTest copy operand' typeName)
  | access {node copy : Node} {subject subject' member member' : Expr}
      (nodes : node.Copies shift stop copy) (first : Expr.Copies shift stop subject subject')
      (second : Expr.Copies shift stop member member') :
      Expr.Copies shift stop (.access node subject member) (.access copy subject' member')
  | group {node copy : Node} {brace : Bool} {items items' : List Expr}
      (nodes : node.Copies shift stop copy)
      (inner : List.Forall₂ (Expr.Copies shift stop) items items') :
      Expr.Copies shift stop (.group node brace items) (.group copy brace items')
  | cast {node copy : Node} {typeName : String} {operand operand' : Expr}
      (nodes : node.Copies shift stop copy) (inner : Expr.Copies shift stop operand operand') :
      Expr.Copies shift stop (.cast node typeName operand) (.cast copy typeName operand')
  | call {node copy : Node} {callee callee' : Expr} {arguments arguments' : List Expr}
      (nodes : node.Copies shift stop copy) (first : Expr.Copies shift stop callee callee')
      (second : List.Forall₂ (Expr.Copies shift stop) arguments arguments') :
      Expr.Copies shift stop (.call node callee arguments) (.call copy callee' arguments')
  | index {node copy : Node} {target target' initializer initializer' : Expr}
      {indices indices' : List Expr} (nodes : node.Copies shift stop copy)
      (first : Expr.Copies shift stop target target')
      (second : List.Forall₂ (Expr.Copies shift stop) indices indices')
      (third : Expr.Copies shift stop initializer initializer') :
      Expr.Copies shift stop (.index node target indices initializer)
        (.index copy target' indices' initializer')

section

variable {shift stop : Nat} {expr copy inner inner' : Expr}

namespace Expr

section

variable (copies : expr.Copies shift stop copy)
include copies

/-- A tree and its copy have nodes that are copies, or none. -/
theorem Copies.node? : Option.Rel (Node.Copies shift stop) expr.node? copy.node? := by
  cases copies with
  | absent => exact .none
  | leaf nodes | declaration nodes | operation nodes | assignment nodes | typeTest nodes
  | access nodes | group nodes | cast nodes | call nodes | index nodes => exact .some nodes

theorem Copies.isPresent : copy.isPresent = expr.isPresent := by
  cases copies <;> rfl

theorem Copies.text : copy.text = expr.text := by
  have nodes := copies.node?
  rw [Expr.text, Expr.text]
  revert nodes
  generalize expr.node? = first
  generalize copy.node? = second
  rintro (nodes | -)
  · exact nodes.text
  · rfl

theorem Copies.trimmedChars : copy.trimmedChars = expr.trimmedChars := by
  rw [Expr.trimmedChars, Expr.trimmedChars, copies.text]

theorem Copies.constructedType? : copy.constructedType? = expr.constructedType? := by
  cases copies with
  | @leaf node copy form => cases form <;> rfl
  | _ => rfl

theorem Copies.castType? : Reduction.castType? copy = Reduction.castType? expr := by
  unfold Reduction.castType?
  rw [copies.trimmedChars]
  cases copies with
  | @leaf node copy form => cases form <;> rfl
  | _ => rfl

theorem Copies.commaItems :
    List.Forall₂ (Expr.Copies shift stop) expr.commaItems copy.commaItems := by
  induction expr using Expr.commaItems.induct generalizing copy with
  | case1 =>
      cases copies
      exact .nil
  | case2 node left right leftInduction rightInduction =>
      cases copies with
      | operation nodes first second =>
          exact List.rel_append (leftInduction first) (rightInduction second)
  | case3 other notAbsent notComma =>
      have alone : other.commaItems = [other] := by
        rw [Expr.commaItems]
        · exact notAbsent
        · exact notComma
      have copyAlone : copy.commaItems = [copy] := by
        rw [Expr.commaItems]
        · rintro rfl
          cases copies
          exact notAbsent rfl
        · rintro node left right rfl
          cases copies with
          | operation => exact notComma _ _ _ rfl
      rw [alone, copyAlone]
      exact .cons copies .nil

end

/-- The items of a bracket's content. -/
theorem items_copies {content content' : Option Expr}
    (copies : Option.Rel (Expr.Copies shift stop) content content') :
    List.Forall₂ (Expr.Copies shift stop) (Reduction.items content) (Reduction.items content') := by
  cases copies with
  | none => exact .nil
  | some copies => exact copies.commaItems

theorem getD_copies {content content' : Option Expr}
    (copies : Option.Rel (Expr.Copies shift stop) content content') :
    (content.getD .absent).Copies shift stop (content'.getD .absent) := by
  cases copies with
  | none => exact .absent
  | some copies => exact copies

/-- What an index takes in. -/
theorem Copies.absorbed? (copies : expr.Copies shift stop copy) :
    Option.Rel (fun taken taken' => List.Forall₂ (Expr.Copies shift stop) taken.1 taken'.1 ∧
        taken.2.Copies shift stop taken'.2)
      (Reduction.absorbed? expr) (Reduction.absorbed? copy) := by
  cases copies with
  | @group node copy brace items items' nodes inner =>
      cases brace with
      | true => exact .some ⟨.nil, .group nodes inner⟩
      | false => exact .none
  | index nodes first second third =>
      cases first with
      | absent => exact .some ⟨second, third⟩
      | _ => exact .none
  | _ => exact .none

/-- The member with a name in place of its own. -/
theorem Copies.memberName? (copies : expr.Copies shift stop copy) :
    Option.Rel (fun named named' => named.1.Copies shift stop named'.1 ∧
        ∀ inner inner' : Expr, inner.Copies shift stop inner' →
          (named.2 inner).Copies shift stop (named'.2 inner'))
      (Reduction.memberName? expr) (Reduction.memberName? copy) := by
  cases copies with
  | @leaf node copy form nodes =>
      cases form with
      | identifier => exact .some ⟨nodes, fun _ _ inner => inner⟩
      | _ => exact .none
  | call nodes first second =>
      cases first with
      | @leaf name copy form names =>
          cases form with
          | identifier => exact .some ⟨names, fun _ _ inner => .call nodes inner second⟩
          | _ => exact .none
      | _ => exact .none
  | index nodes first second third =>
      cases first with
      | @leaf name copy form names =>
          cases form with
          | identifier => exact .some ⟨names, fun _ _ inner => .index nodes inner second third⟩
          | _ => exact .none
      | _ => exact .none
  | _ => exact .none

theorem Copies.relocate (copies : expr.Copies shift stop copy) {span : Span} {text : String}
    (within : span.stop ≤ stop) :
    (expr.relocate span text).Copies shift stop (copy.relocate (span.shift shift) text) := by
  have moved (node copy : Node) : Node.Copies shift stop { node with span, text }
      { copy with span := span.shift shift, text } := ⟨rfl, rfl, within⟩
  cases copies with
  | absent => exact .absent
  | leaf => exact .leaf (moved _ _)
  | declaration => exact .declaration (moved _ _)
  | operation _ first second => exact .operation (moved _ _) first second
  | assignment _ first second => exact .assignment (moved _ _) first second
  | typeTest _ inner => exact .typeTest (moved _ _) inner
  | access _ first second => exact .access (moved _ _) first second
  | group _ inner => exact .group (moved _ _) inner
  | cast _ inner => exact .cast (moved _ _) inner
  | call _ first second => exact .call (moved _ _) first second
  | index _ first second third => exact .index (moved _ _) first second third

end Expr

end
end MethodLowering
