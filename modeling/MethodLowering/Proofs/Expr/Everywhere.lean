import MethodLowering.Expr.Basic

/-!
# Properties of all parts of a tree

A property holds everywhere in a tree when each expression of the tree has it.  It holds everywhere
exactly when the root has it and it holds everywhere in the children of the root.
-/

namespace MethodLowering
namespace Expr

section

variable {expr : Expr}

theorem node?_eq_none : expr.node? = none ↔ expr = absent := by
  cases expr <;> simp [Expr.node?]

theorem isPresent_iff : expr.isPresent = true ↔ ∃ node, expr.node? = some node := by
  cases expr <;> simp [isPresent, isAbsent, Expr.node?]

theorem mem_preorderAll {inner : Expr} {items : List Expr} :
    inner ∈ preorderAll items ↔ ∃ item ∈ items, inner ∈ item.preorder := by
  induction items with
  | nil => simp [preorderAll]
  | cons item rest induction => simp [preorderAll, induction]

theorem mem_preorder {inner : Expr} :
    inner ∈ expr.preorder ↔
      (expr.isPresent = true ∧ inner = expr) ∨ ∃ child ∈ expr.children, inner ∈ child.preorder := by
  have written (child : Expr) (member : inner ∈ child.preorder) : child.isPresent = true := by
    cases child with
    | absent => simp [preorder] at member
    | _ => rfl
  have kept {items : List Expr} : (∃ item ∈ items, inner ∈ item.preorder) ↔
      ∃ item ∈ items.filter isPresent, inner ∈ item.preorder := by
    constructor
    · rintro ⟨item, member, inside⟩
      exact ⟨item, List.mem_filter.2 ⟨member, written item inside⟩, inside⟩
    · rintro ⟨item, member, inside⟩
      exact ⟨item, (List.mem_filter.1 member).1, inside⟩
  cases expr with
  | absent => simp [preorder, children, isPresent, isAbsent]
  | leaf node form => simp [preorder, children, isPresent, isAbsent]
  | declaration node declared continued => simp [preorder, children, isPresent, isAbsent]
  | _ =>
      rw [children, ← kept]
      simp [preorder, mem_preorderAll, isPresent, isAbsent]

/-- Every expression of the tree has the property. -/
def Everywhere (property : Expr → Prop) (expr : Expr) : Prop :=
  ∀ inner ∈ expr.preorder, property inner

variable {property : Expr → Prop}

theorem everywhere_iff (present : expr.isPresent = true) :
    expr.Everywhere property ↔
      property expr ∧ ∀ child ∈ expr.children, child.Everywhere property := by
  constructor
  · intro all
    refine ⟨all expr (mem_preorder.2 (.inl ⟨present, rfl⟩)), fun child member inner inside => ?_⟩
    exact all inner (mem_preorder.2 (.inr ⟨child, member, inside⟩))
  · rintro ⟨own, children⟩ inner inside
    rcases mem_preorder.1 inside with ⟨-, rfl⟩ | ⟨child, member, deeper⟩
    · exact own
    · exact children child member inner deeper

theorem everywhere_absent : absent.Everywhere property := by
  intro inner inside
  simp [preorder] at inside

theorem everywhere_of_mem {items : List Expr}
    (written : ∀ child ∈ items.filter isPresent, child.Everywhere property)
    (member : expr ∈ items) : expr.Everywhere property := by
  by_cases present : expr.isPresent = true
  · exact written expr (List.mem_filter.2 ⟨member, present⟩)
  · have gone : expr = absent := by
      cases expr <;> simp_all [isPresent, isAbsent]
    rw [gone]
    exact everywhere_absent

/-- A property holds everywhere in an expression when it has it, and so do all its parts, written or
not. -/
theorem everywhere_of_parts (items : List Expr) (present : expr.isPresent = true)
    (parts : expr.children = items.filter isPresent) (own : property expr)
    (inner : ∀ item ∈ items, item.Everywhere property) : expr.Everywhere property := by
  refine (everywhere_iff present).2 ⟨own, fun child member => ?_⟩
  rw [parts] at member
  exact inner child (List.mem_filter.1 member).1

theorem Everywhere.part (items : List Expr) {part : Expr} (all : expr.Everywhere property)
    (present : expr.isPresent = true) (parts : expr.children = items.filter isPresent)
    (member : part ∈ items) : part.Everywhere property := by
  have inner := ((everywhere_iff present).1 all).2
  rw [parts] at inner
  exact everywhere_of_mem inner member

theorem Everywhere.mono {weaker : Expr → Prop} (all : expr.Everywhere property)
    (implied : ∀ inner, property inner → weaker inner) : expr.Everywhere weaker :=
  fun inner inside => implied inner (all inner inside)

/-- A property of all parts of a comma list holds of all parts of its items. -/
theorem Everywhere.commaItems (all : expr.Everywhere property) :
    ∀ item ∈ expr.commaItems, item.Everywhere property := by
  induction expr using commaItems.induct with
  | case1 => simp [Expr.commaItems]
  | case2 node left right leftInduction rightInduction =>
      have children := ((everywhere_iff rfl).1 all).2
      intro item member
      rw [Expr.commaItems, List.mem_append] at member
      rcases member with inLeft | inRight
      · exact leftInduction (everywhere_of_mem children (by simp)) item inLeft
      · exact rightInduction (everywhere_of_mem children (by simp)) item inRight
  | case3 other notAbsent notComma =>
      intro item member
      rw [Expr.commaItems] at member
      · rw [List.mem_singleton.1 member]
        exact all
      · exact notAbsent
      · exact notComma

theorem sizeOf_lt_of_mem_children {child : Expr} (member : child ∈ expr.children) :
    sizeOf child < sizeOf expr := by
  have smaller {items : List Expr} (listed : child ∈ items) : sizeOf child < sizeOf items :=
    List.sizeOf_lt_of_mem listed
  cases expr with
  | absent => contradiction
  | leaf node form => contradiction
  | declaration node declared continued => contradiction
  | group node brace items =>
      have bound := smaller (List.mem_filter.1 member).1
      simp only [Expr.group.sizeOf_spec]
      omega
  | call node callee arguments =>
      have bound := smaller (List.mem_filter.1 member).1
      simp only [List.cons.sizeOf_spec, Expr.call.sizeOf_spec] at bound ⊢
      omega
  | index node target indices initializer =>
      rcases List.mem_append.1 (List.mem_filter.1 member).1 with front | last
      · have bound := smaller front
        simp only [List.cons.sizeOf_spec, Expr.index.sizeOf_spec] at bound ⊢
        omega
      · rw [List.mem_singleton.1 last]
        simp only [Expr.index.sizeOf_spec]
        omega
  | typeTest node operand typeName =>
      rw [List.mem_singleton.1 (List.mem_filter.1 member).1]
      simp only [Expr.typeTest.sizeOf_spec]
      omega
  | cast node typeName operand =>
      rw [List.mem_singleton.1 (List.mem_filter.1 member).1]
      simp only [Expr.cast.sizeOf_spec]
      omega
  | operation | assignment | access =>
      have either := (List.mem_filter.1 member).1
      rw [List.mem_cons, List.mem_singleton] at either
      simp only [Expr.operation.sizeOf_spec, Expr.assignment.sizeOf_spec, Expr.access.sizeOf_spec]
      rcases either with rfl | rfl <;> omega

/-- The expressions inside an expression of a tree are expressions of the tree. -/
theorem mem_preorder_trans {inner deeper : Expr} (inside : inner ∈ expr.preorder)
    (within : deeper ∈ inner.preorder) : deeper ∈ expr.preorder := by
  induction size : sizeOf expr using Nat.strongRecOn generalizing expr with
  | ind size induction =>
      rcases mem_preorder.1 inside with ⟨-, rfl⟩ | ⟨child, member, below⟩
      · exact within
      · have smaller := size ▸ sizeOf_lt_of_mem_children member
        exact mem_preorder.2 (.inr ⟨child, member, induction _ smaller below rfl⟩)

/-- What has a part is written. -/
theorem isPresent_of_child {child : Expr} (member : child ∈ expr.children) :
    expr.isPresent = true := by
  cases expr with
  | absent => contradiction
  | _ => rfl

theorem isPresent_of_mem_children {child : Expr} (member : child ∈ expr.children) :
    child.isPresent = true := by
  cases expr with
  | absent => contradiction
  | leaf node form => contradiction
  | declaration node declared continued => contradiction
  | _ => exact (List.mem_filter.1 member).2

theorem isPresent_of_mem_preorder {inner : Expr}
    (inside : inner ∈ expr.preorder) : inner.isPresent = true := by
  induction size : sizeOf expr using Nat.strongRecOn generalizing expr with
  | ind size induction =>
      rcases mem_preorder.1 inside with ⟨present, rfl⟩ | ⟨child, member, below⟩
      · exact present
      · exact induction _ (size ▸ sizeOf_lt_of_mem_children member) below rfl

theorem mem_preorder_self (present : expr.isPresent = true) : expr ∈ expr.preorder :=
  mem_preorder.2 (.inl ⟨present, rfl⟩)

/-- A part of an expression of a tree is an expression of the tree. -/
theorem mem_preorder_of_child {inner child : Expr} (inside : inner ∈ expr.preorder)
    (member : child ∈ inner.children) : child ∈ expr.preorder :=
  mem_preorder_trans inside
    (mem_preorder.2 (.inr ⟨child, member, mem_preorder_self (isPresent_of_mem_children member)⟩))

/-- A property of all parts of a tree holds of all parts of its parts. -/
theorem Everywhere.inside {inner : Expr} (all : expr.Everywhere property)
    (inside : inner ∈ expr.preorder) : inner.Everywhere property :=
  fun deeper within => all deeper (mem_preorder_trans inside within)

end

end Expr
end MethodLowering
