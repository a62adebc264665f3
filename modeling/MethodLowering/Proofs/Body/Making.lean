import MethodLowering.Proofs.Body.Declaring
import MethodLowering.Proofs.Text.Unbroken

/-!
# What is made of a text

A tree that is read lacks no required part: an operator whose operands may be missing has absent
ones in their place, and everything else is rejected where a part is missing.  So every access has
its subject and its member, every call its callee, every conditional both its branches, and so on.

All that a tree keeps of its text is cut out of the text, and so are the names and types of
variables.  Where the text has no line break, neither have these.
-/

namespace MethodLowering

open Text

namespace Expr

/-- The parts that the expression cannot do without are there, and a receiver is spelled as one. -/
def IsWhole : Expr → Prop
  | leaf node .receiver => Text.trimmed node.text = "this" ∨ Text.trimmed node.text = "super"
  | operation _ .question _ right => ∃ node first second, right = operation node .colon first second
  | assignment _ _ target _ => target.isPresent = true
  | typeTest _ operand _ => operand.isPresent = true
  | access _ subject member => subject.isPresent = true ∧ member.isPresent = true
  | group _ _ items => ∀ item ∈ items, item.isPresent = true
  | cast _ _ operand => operand.isPresent = true
  | call _ callee arguments =>
      callee.isPresent = true ∧ ∀ argument ∈ arguments, argument.isPresent = true
  | _ => True

/-- The tree is whole everywhere. -/
def Whole (expr : Expr) : Prop := expr.Everywhere IsWhole

/-- The expression is whole, and where it indexes or constructs an array there is a pair of square
brackets, an empty one having an absent index. -/
def IsBuilt : Expr → Prop
  | index _ _ indices _ => indices ≠ []
  | expr => expr.IsWhole

/-- The tree is built everywhere. -/
def Built (expr : Expr) : Prop := expr.Everywhere IsBuilt

section

variable {expr : Expr}

theorem Whole.part (items : List Expr) {part : Expr} (whole : expr.Whole)
    (present : expr.isPresent = true) (parts : expr.children = items.filter isPresent)
    (member : part ∈ items) : part.Whole :=
  Everywhere.part items whole present parts member

theorem IsBuilt.whole (built : expr.IsBuilt) : expr.IsWhole := by
  cases expr with
  | index node target indices initializer => trivial
  | _ => exact built

theorem Built.whole (built : expr.Built) : expr.Whole :=
  Everywhere.mono built fun _ => IsBuilt.whole

/-- Absent items are left out of a comma list. -/
theorem isPresent_of_mem_commaItems {item : Expr} (member : item ∈ expr.commaItems) :
    item.isPresent = true := by
  induction expr using commaItems.induct with
  | case1 => simp [commaItems] at member
  | case2 node left right leftInduction rightInduction =>
      rw [commaItems, List.mem_append] at member
      rcases member with inLeft | inRight
      · exact leftInduction inLeft
      · exact rightInduction inRight
  | case3 other notAbsent notComma =>
      rw [commaItems] at member
      · obtain rfl := List.mem_singleton.1 member
        cases item with
        | absent => exact absurd rfl notAbsent
        | _ => rfl
      · exact notAbsent
      · exact notComma

end
end Expr

/-- The name and the type of the variable are unbroken. -/
structure Variable.IsUnbroken (entry : Variable) : Prop where
  name : Unbroken entry.name.toList
  typeName : Unbroken entry.typeName.toList

/-- The variables from a number on are unbroken. -/
def Body.UnbrokenFrom (base : VariableId) (body : Body) : Prop :=
  ∀ (id : VariableId) entry, base ≤ id → body.vars[id]? = some entry → entry.IsUnbroken

namespace Body

variable {base declared : VariableId} {body : Body} {entry : Variable}

theorem UnbrokenFrom.declare (unbroken : body.UnbrokenFrom base) (isUnbroken : entry.IsUnbroken) :
    (body.declare entry).UnbrokenFrom base := by
  intro id other above known
  rw [vars_declare, Array.getElem?_push] at known
  split at known
  · obtain rfl := Option.some.inj known
    exact isUnbroken
  · exact unbroken id other above known

theorem UnbrokenFrom.retype (unbroken : body.UnbrokenFrom base)
    (known : body.vars[declared]? = some entry) {qualifier : String}
    (solid : Unbroken qualifier.toList) :
    (body.retype declared (qualifier ++ "." ++ entry.typeName)).UnbrokenFrom base := by
  intro id other above found
  rw [Body.retype, Array.getElem?_modify] at found
  split at found
  · rename_i same
    obtain rfl := same
    rw [known] at found
    obtain rfl := Option.some.inj found
    have own := unbroken declared entry above known
    refine ⟨own.name, ?_⟩
    change Unbroken (qualifier ++ "." ++ entry.typeName).toList
    simp only [String.toList_append, unbroken_append]
    exact ⟨⟨solid, by decide⟩, own.typeName⟩
  · exact unbroken id other above found

end Body

namespace Expr

/-- The type that the expression names. -/
def ownType? : Expr → Option String
  | leaf _ (.construction typeName) | typeTest _ _ typeName | cast _ typeName _ => some typeName
  | _ => none

/-- The text of the expression and the type that it names are unbroken. -/
structure IsUnbroken (expr : Expr) : Prop where
  text : Unbroken expr.text.toList
  named : ∀ typeName, expr.ownType? = some typeName → Unbroken typeName.toList

/-- The tree is unbroken everywhere. -/
def Unbroken (expr : Expr) : Prop := expr.Everywhere IsUnbroken

variable {expr inner : Expr} {node : Node}

theorem unbroken_absent : absent.Unbroken := everywhere_absent

theorem Unbroken.part (items : List Expr) (unbroken : expr.Unbroken)
    (present : expr.isPresent = true)
    (parts : expr.children = items.filter isPresent) (member : inner ∈ items) : inner.Unbroken :=
  Everywhere.part items unbroken present parts member

theorem Unbroken.own (unbroken : expr.Unbroken) : Text.Unbroken expr.text.toList := by
  cases expr with
  | absent => exact unbroken_nil
  | _ => exact ((everywhere_iff rfl).1 unbroken).1.text

theorem Unbroken.named {typeName : String} (unbroken : expr.Unbroken)
    (names : expr.ownType? = some typeName) : Text.Unbroken typeName.toList := by
  cases expr with
  | absent => contradiction
  | _ => exact ((everywhere_iff rfl).1 unbroken).1.named typeName names

theorem Unbroken.constructed {typeName : String} (unbroken : expr.Unbroken)
    (names : expr.constructedType? = some typeName) : Text.Unbroken typeName.toList := by
  unfold constructedType? at names
  split at names
  · obtain rfl := Option.some.inj names
    exact unbroken.named rfl
  · contradiction

/-! ## Trees that are read -/

/-- The expression was made between two marks, of a text that is unbroken where `solid` holds. -/
structure IsMade (solid : Prop) (low high : Mark) (expr : Expr) : Prop where
  numbered : expr.IsNumbered low high
  built : expr.IsBuilt
  unbroken : solid → expr.IsUnbroken

/-- The tree was made between two marks. -/
def Made (solid : Prop) (low high : Mark) (expr : Expr) : Prop :=
  expr.Everywhere (IsMade solid low high)

end Expr

/-- The node was made between two marks, of a text that is unbroken where `solid` holds. -/
structure Node.IsMade (solid : Prop) (low high : Mark) (node : Node) : Prop where
  numbered : node.Within low high
  text : solid → Text.Unbroken node.text.toList

namespace Expr

section

variable {solid : Prop} {low high higher : Mark} {expr inner : Expr} {node : Node}

theorem made_absent : absent.Made solid low high := everywhere_absent

section

variable (made : expr.Made solid low high)
include made

theorem Made.within : expr.Within low high :=
  Everywhere.mono made fun _ => IsMade.numbered

theorem Made.built : expr.Built :=
  Everywhere.mono made fun _ => IsMade.built

theorem Made.unbroken (holds : solid) : expr.Unbroken :=
  Everywhere.mono made fun _ each => each.unbroken holds

theorem Made.mono (above : high ≤ higher) :
    expr.Made solid low higher :=
  fun inner inside => ⟨made.within.mono above inner inside, made.built inner inside,
    fun holds => made.unbroken holds inner inside⟩

end

theorem Made.part (items : List Expr) (made : expr.Made solid low high)
    (present : expr.isPresent = true) (parts : expr.children = items.filter isPresent)
    (member : inner ∈ items) : inner.Made solid low high :=
  Everywhere.part items made present parts member

theorem Made.ownNode (made : expr.Made solid low high) (known : expr.node? = some node) :
    node.IsMade solid low high := by
  refine ⟨made.within.ownNode known, fun holds => ?_⟩
  have own := (made.unbroken holds).own
  rwa [Expr.text, known] at own

/-- An expression that declares nothing itself. -/
theorem made_of_parts (items : List Expr) (known : expr.node? = some node)
    (silent : expr.ownVariable? = none) (parts : expr.children = items.filter isPresent)
    (own : node.IsMade solid low high)
    (named : solid → ∀ typeName, expr.ownType? = some typeName → Text.Unbroken typeName.toList)
    (built : expr.IsBuilt) (each : ∀ item ∈ items, item.Made solid low high) :
    expr.Made solid low high := by
  refine everywhere_of_parts items (isPresent_iff.2 ⟨node, known⟩) parts ⟨⟨?_, ?_⟩, built, ?_⟩ each
  · intro other same
    exact Option.some.inj (known.symm.trans same) ▸ own.numbered
  · intro id declares
    rw [silent] at declares
    contradiction
  · intro holds
    refine ⟨?_, named holds⟩
    rw [Expr.text, known]
    exact own.text holds

/-- An expression that neither declares nor names anything itself. -/
theorem made_of_children (items : List Expr) (known : expr.node? = some node)
    (silent : expr.ownVariable? = none) (unnamed : expr.ownType? = none)
    (parts : expr.children = items.filter isPresent) (own : node.IsMade solid low high)
    (built : expr.IsBuilt) (each : ∀ item ∈ items, item.Made solid low high) :
    expr.Made solid low high := by
  refine made_of_parts items known silent parts own (fun _ typeName names => ?_) built each
  rw [unnamed] at names
  contradiction

theorem made_leaf {form : LeafForm} (own : node.IsMade solid low high)
    (built : (leaf node form).IsBuilt)
    (named : solid → ∀ typeName, form = .construction typeName → Text.Unbroken typeName.toList) :
    (leaf node form).Made solid low high := by
  refine made_of_parts [] rfl rfl rfl own (fun holds typeName names =>
    named holds typeName ?_) built
    (List.forall_mem_nil _)
  cases form with
  | construction other =>
      obtain rfl := Option.some.inj names
      rfl
  | _ => contradiction

theorem made_declaration {declared : VariableId} {continued : Bool}
    (own : node.IsMade solid low high)
    (above : low.vars ≤ declared) (below : declared < high.vars) :
    (declaration node declared continued).Made solid low high := by
  have within := @within_declaration _ _ _ _ continued own.numbered above below
  refine everywhere_of_parts [] rfl rfl ⟨((everywhere_iff rfl).1 within).1, trivial,
    fun holds => ?_⟩
    (List.forall_mem_nil _)
  refine ⟨own.text holds, fun typeName names => ?_⟩
  contradiction

theorem isBuilt_operation {op : Op} (other : op ≠ .question) (left right : Expr) :
    (operation node op left right).IsBuilt := by
  cases op <;> first | contradiction | trivial

theorem made_operation {op : Op} {left right : Expr} (own : node.IsMade solid low high)
    (built : (operation node op left right).IsBuilt) (first : left.Made solid low high)
    (second : right.Made solid low high) : (operation node op left right).Made solid low high :=
  made_of_children [left, right] rfl rfl rfl rfl own built
    (List.forall_mem_cons.2 ⟨first, List.forall_mem_singleton.2 second⟩)

end
end Expr
end MethodLowering
