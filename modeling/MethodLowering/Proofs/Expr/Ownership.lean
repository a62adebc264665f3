import Mathlib.Data.List.Flatten
import Mathlib.Data.List.Nodup
import MethodLowering.Proofs.Expr.Everywhere

/-!
# Trees built from trees

Every written expression has a number.  A list of trees is built from another one by giving numbers
that are new to new expressions and by taking every expression that was there into at most one tree.
Built trees number a part below the expression it is a part of, and use no number twice.
-/

namespace MethodLowering
namespace Expr

/-! ## Numbers -/

/-- The number of a written expression. -/
def number (expr : Expr) : Nat :=
  match expr.node? with
  | some node => node.id
  | none => 0

/-- The numbers of all expressions of a tree, each in front of those of its parts. -/
def numbers (expr : Expr) : List Nat := expr.preorder.map number

/-- The numbers of all expressions of several trees. -/
def numbersOf (trees : List Expr) : List Nat := trees.flatMap numbers

/-- Every part has a smaller number than the expression it is a part of. -/
def Descends (expr : Expr) : Prop :=
  expr.Everywhere fun inner => ∀ child ∈ inner.children, child.number < inner.number

section

variable {expr other : Expr} {node : Node} {items parts trees : List Expr} {id : Nat}

theorem number_of_node? (known : expr.node? = some node) : expr.number = node.id := by
  rw [number, known]

@[simp] theorem numbers_absent : absent.numbers = [] := by
  simp [numbers, preorder]

theorem preorderAll_eq (items : List Expr) : preorderAll items = items.flatMap preorder := by
  induction items with
  | nil => rfl
  | cons item rest induction => rw [preorderAll, induction, List.flatMap_cons]

theorem flatMap_preorder_filter (items : List Expr) :
    (items.filter isPresent).flatMap preorder = items.flatMap preorder := by
  induction items with
  | nil => rfl
  | cons item rest induction =>
      cases item with
      | absent => simpa [isPresent, isAbsent, preorder] using induction
      | _ => simp [isPresent, isAbsent, induction]

/-- A tree is its root in front of the trees of its parts. -/
theorem preorder_eq (present : expr.isPresent = true) :
    expr.preorder = expr :: expr.children.flatMap preorder := by
  cases expr with
  | absent => contradiction
  | leaf node form => rfl
  | declaration node declared continued => rfl
  | _ => simp [preorder, children, flatMap_preorder_filter, preorderAll_eq]

@[simp] theorem numbersOf_nil : numbersOf [] = [] := rfl

@[simp] theorem numbersOf_cons (tree : Expr) (rest : List Expr) :
    numbersOf (tree :: rest) = tree.numbers ++ numbersOf rest := rfl

@[simp] theorem numbersOf_append (left right : List Expr) :
    numbersOf (left ++ right) = numbersOf left ++ numbersOf right :=
  List.flatMap_append

theorem mem_numbersOf : id ∈ numbersOf trees ↔ ∃ tree ∈ trees, id ∈ tree.numbers :=
  List.mem_flatMap

theorem numbersOf_filter (items : List Expr) :
    numbersOf (items.filter isPresent) = numbersOf items := by
  have same := congrArg (List.map number) (flatMap_preorder_filter items)
  rw [List.map_flatMap, List.map_flatMap] at same
  exact same

theorem numbers_eq (known : expr.node? = some node)
    (parts : expr.children = items.filter isPresent) :
    expr.numbers = node.id :: numbersOf items := by
  rw [numbers, preorder_eq (isPresent_iff.2 ⟨node, known⟩), parts, flatMap_preorder_filter,
    List.map_cons, number_of_node? known, List.map_flatMap]
  rfl

theorem number_mem_numbers (present : expr.isPresent = true) : expr.number ∈ expr.numbers := by
  rw [numbers, preorder_eq present]
  exact List.mem_cons_self ..

theorem Descends.le_number (descends : expr.Descends) (member : id ∈ expr.numbers) :
    id ≤ expr.number := by
  induction size : sizeOf expr using Nat.strongRecOn generalizing expr with
  | ind size induction =>
      obtain ⟨inner, inside, rfl⟩ := List.mem_map.1 member
      rcases mem_preorder.1 inside with ⟨-, rfl⟩ | ⟨child, among, below⟩
      · exact Nat.le_refl _
      · obtain ⟨own, parts⟩ := (everywhere_iff (isPresent_of_child among)).1 descends
        have smaller := size ▸ sizeOf_lt_of_mem_children among
        have bound := induction _ smaller (parts child among) (List.mem_map_of_mem below) rfl
        exact Nat.le_trans bound (Nat.le_of_lt (own child among))

theorem descends_absent : absent.Descends := everywhere_absent

/-- An expression descends when its parts do and all numbers in them are smaller than its own. -/
theorem descends_iff (known : expr.node? = some node)
    (parts : expr.children = items.filter isPresent) :
    expr.Descends ↔ (∀ item ∈ items, item.Descends) ∧ ∀ id ∈ numbersOf items, id < node.id := by
  rw [Descends, everywhere_iff (isPresent_iff.2 ⟨node, known⟩), number_of_node? known, parts]
  constructor
  · rintro ⟨own, inner⟩
    refine ⟨fun item member => everywhere_of_mem inner member, fun id member => ?_⟩
    rw [← numbersOf_filter] at member
    obtain ⟨item, among, inside⟩ := mem_numbersOf.1 member
    exact Nat.lt_of_le_of_lt (Descends.le_number (inner item among) inside) (own item among)
  · rintro ⟨inner, below⟩
    refine ⟨fun item member => below _ ?_, fun item member =>
      inner item (List.mem_filter.1 member).1⟩
    rw [← numbersOf_filter]
    exact mem_numbersOf.2 ⟨item, member, number_mem_numbers (List.mem_filter.1 member).2⟩

end

/-! ## Building -/

/-- How often a number is among the new ones from `low` up to `high`. -/
def fresh (low high id : Nat) : Nat := if low ≤ id ∧ id < high then 1 else 0

/-- The trees are built from the sources with the new numbers from `low` up to `high`. -/
structure Builds (sources : List Expr) (low : Nat) (trees : List Expr) (high : Nat) : Prop where
  le : low ≤ high
  /-- A number is used as often as it is in the sources, and once more if it is new. -/
  spends : ∀ id, (numbersOf trees).count id ≤ (numbersOf sources).count id + fresh low high id
  /-- When the sources descend and their numbers are old, the trees descend. -/
  descends : (∀ source ∈ sources, source.Descends) → (∀ id ∈ numbersOf sources, id < low) →
    ∀ tree ∈ trees, tree.Descends

section

variable {expr other : Expr} {node : Node} {sources items parts trees further : List Expr}
  {low middle high id : Nat}

theorem fresh_self : fresh low low id = 0 := by
  rw [fresh, if_neg]
  omega

theorem fresh_add (first : low ≤ middle) (second : middle ≤ high) :
    fresh low middle id + fresh middle high id = fresh low high id := by
  unfold fresh
  split <;> split <;> split <;> omega

/-- Numbers that are used are old or new. -/
theorem Builds.lt_high (builds : Builds sources low trees high)
    (old : ∀ id ∈ numbersOf sources, id < low) : ∀ id ∈ numbersOf trees, id < high := by
  intro id member
  have used := List.count_pos_iff.2 member
  have spent := builds.spends id
  have le := builds.le
  by_cases known : id ∈ numbersOf sources
  · exact Nat.lt_of_lt_of_le (old id known) le
  · rw [List.count_eq_zero.2 known, fresh] at spent
    split at spent
    · omega
    · omega

theorem Builds.trans (first : Builds sources low trees middle)
    (second : Builds trees middle further high) : Builds sources low further high := by
  refine ⟨Nat.le_trans first.le second.le, fun id => ?_, fun descend old => ?_⟩
  · have used := first.spends id
    have later := second.spends id
    have split := @fresh_add low middle high id first.le second.le
    omega
  · exact second.descends (first.descends descend old) (first.lt_high old)

/-- Building goes on side by side. -/
theorem Builds.append {others further : List Expr} (first : Builds sources low trees middle)
    (second : Builds others middle further high) :
    Builds (sources ++ others) low (trees ++ further) high := by
  refine ⟨Nat.le_trans first.le second.le, fun id => ?_, fun descend old tree member => ?_⟩
  · have used := first.spends id
    have later := second.spends id
    have split := @fresh_add low middle high id first.le second.le
    simp only [numbersOf_append, List.count_append]
    omega
  · have le := first.le
    rcases List.mem_append.1 member with inFront | inBack
    · exact first.descends (fun source among => descend source (List.mem_append_left _ among))
        (fun id among => old id (by simp [among])) tree inFront
    · refine second.descends (fun source among => descend source (List.mem_append_right _ among))
        (fun id among => ?_) tree inBack
      exact Nat.lt_of_lt_of_le (old id (by simp [among])) le

theorem builds_refl (sources : List Expr) (low : Nat) : Builds sources low sources low :=
  ⟨Nat.le_refl _, fun _ => Nat.le_add_right .., fun descend _ => descend⟩

/-- Trees may be left out and their order does not matter. -/
theorem builds_of_count (among : trees ⊆ sources)
    (spends : ∀ id, (numbersOf trees).count id ≤ (numbersOf sources).count id) (low : Nat) :
    Builds sources low trees low :=
  ⟨Nat.le_refl _, fun id => Nat.le_add_right_of_le (spends id),
    fun descend _ tree member => descend tree (among member)⟩

theorem builds_of_sublist (among : trees.Sublist sources) (low : Nat) :
    Builds sources low trees low :=
  builds_of_count among.subset (fun id => (among.flatMap numbers).count_le id) low

theorem builds_of_perm (perm : sources.Perm trees) (low : Nat) : Builds sources low trees low :=
  builds_of_count (fun _ => perm.mem_iff.2)
    (fun id => Nat.le_of_eq ((perm.flatMap_right numbers).count_eq id).symm) low

/-- Absent trees use no number. -/
theorem builds_absent (sources : List Expr) (low : Nat) :
    Builds sources low (sources ++ [absent]) low := by
  refine ⟨Nat.le_refl _, fun id => ?_, fun descend _ tree member => ?_⟩
  · simp [fresh_self]
  · rcases List.mem_append.1 member with old | last
    · exact descend tree old
    · rw [List.mem_singleton.1 last]
      exact descends_absent

/-- A new expression around trees. -/
theorem builds_node (known : expr.node? = some node)
    (parts : expr.children = items.filter isPresent) :
    Builds items node.id [expr] (node.id + 1) := by
  refine ⟨Nat.le_succ _, fun id => ?_, fun descend old => ?_⟩
  · rw [numbersOf_cons, numbersOf_nil, List.append_nil, numbers_eq known parts,
      List.count_cons, fresh]
    have same : (node.id == id) = true → node.id ≤ id ∧ id < node.id + 1 := by
      intro equal
      have := eq_of_beq equal
      omega
    split
    · next equal =>
        simp only [if_pos (same equal), Nat.le_refl]
    · omega
  · exact List.forall_mem_singleton.2 ((descends_iff known parts).2 ⟨descend, old⟩)

/-- The parts of an expression without the expression. -/
theorem builds_parts (items : List Expr) (known : expr.node? = some node)
    (parts : expr.children = items.filter isPresent) (low : Nat) :
    Builds [expr] low items low := by
  refine ⟨Nat.le_refl _, fun id => ?_, fun descend old => ?_⟩
  · rw [numbersOf_cons, numbersOf_nil, List.append_nil, numbers_eq known parts, List.count_cons]
    omega
  · exact ((descends_iff known parts).1 (descend expr (List.mem_singleton_self _))).1

/-- The same expression around parts that are built from its parts. -/
theorem builds_again {node' : Node} (items parts : List Expr) (known : expr.node? = some node)
    (known' : other.node? = some node') (inside : expr.children = items.filter isPresent)
    (inside' : other.children = parts.filter isPresent) (same : node'.id = node.id)
    (builds : ∀ low, Builds items low parts low) (low : Nat) : Builds [expr] low [other] low := by
  have spends (id : Nat) : (numbersOf parts).count id ≤ (numbersOf items).count id := by
    simpa [fresh_self] using (builds low).spends id
  refine ⟨Nat.le_refl _, fun id => ?_, fun descend old => ?_⟩
  · have used := spends id
    simp only [numbersOf_cons, numbersOf_nil, List.append_nil, numbers_eq known inside,
      numbers_eq known' inside', List.count_cons, same]
    omega
  · obtain ⟨descendParts, below⟩ :=
      (descends_iff known inside).1 (descend expr (List.mem_singleton_self _))
    refine List.forall_mem_singleton.2 ((descends_iff known' inside').2 ⟨?_, ?_⟩)
    · exact (builds node.id).descends descendParts below
    · rw [same]
      exact (builds node.id).lt_high below

theorem builds_commaItems (expr : Expr) (low : Nat) : Builds [expr] low expr.commaItems low := by
  induction expr using commaItems.induct with
  | case1 =>
      rw [commaItems]
      exact builds_of_sublist (List.nil_sublist _) low
  | case2 node left right leftInduction rightInduction =>
      rw [commaItems]
      have opened : Builds [operation node .comma left right] low [left, right] low :=
        builds_parts [left, right] rfl rfl low
      exact opened.trans (leftInduction.append rightInduction)
  | case3 other notAbsent notComma =>
      rw [commaItems]
      · exact builds_refl _ low
      · exact notAbsent
      · exact notComma

/-- Trees built from nothing use no number twice. -/
theorem Builds.nodup (builds : Builds [] low trees high) : (numbersOf trees).Nodup := by
  rw [List.nodup_iff_count_le_one]
  intro id
  have spent := builds.spends id
  rw [numbersOf_nil, List.count_nil, fresh] at spent
  split at spent <;> omega

end

end Expr
end MethodLowering
