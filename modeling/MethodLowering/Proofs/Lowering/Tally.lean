import Mathlib.Data.List.Perm.Subperm
import MethodLowering.Proofs.Lowering.Log
import MethodLowering.Proofs.Reader.Forest

/-!
# The directives of whole trees

Lowering a tree enters each of its expressions once.  A tree that is lowered, be it a statement, a
clause or a thrown value, has at most one directive at each expression that decides its form, and
exactly one at each access.  A second statement is written for statements only.
-/

namespace MethodLowering

open MethodLowering.Expr Lowering

namespace Expr

/-! ## Levels -/

mutual

/-- Number of levels of a tree. -/
def levels : Expr → Nat
  | absent => 0
  | leaf .. | declaration .. => 1
  | operation _ _ left right => max left.levels right.levels + 1
  | assignment _ _ target value => max target.levels value.levels + 1
  | typeTest _ operand _ | cast _ _ operand => operand.levels + 1
  | access _ subject member => max subject.levels member.levels + 1
  | group _ _ items => levelsAll items + 1
  | call _ callee arguments => max callee.levels (levelsAll arguments) + 1
  | index _ target indices initializer =>
      max target.levels (max (levelsAll indices) initializer.levels) + 1

/-- Number of levels of the deepest one of several trees. -/
def levelsAll : List Expr → Nat
  | [] => 0
  | item :: rest => max item.levels (levelsAll rest)

end

variable {expr child : Expr}

theorem levels_le_levelsAll {items : List Expr} (member : child ∈ items) :
    child.levels ≤ levelsAll items := by
  induction items with
  | nil => contradiction
  | cons item rest induction =>
      rw [levelsAll]
      rcases List.mem_cons.1 member with rfl | later
      · exact Nat.le_max_left ..
      · exact Nat.le_trans (induction later) (Nat.le_max_right ..)

theorem levels_lt_of_mem_children (member : child ∈ expr.children) :
    child.levels < expr.levels := by
  cases expr with
  | absent => contradiction
  | leaf node form => contradiction
  | declaration node declared continued => contradiction
  | group node brace items =>
      have inside := levels_le_levelsAll (List.mem_filter.1 member).1
      simp only [levels]
      omega
  | call node callee arguments =>
      simp only [levels]
      rcases List.mem_cons.1 (List.mem_filter.1 member).1 with rfl | later
      · omega
      · have inside := levels_le_levelsAll later
        omega
  | index node target indices initializer =>
      have among := (List.mem_filter.1 member).1
      simp only [levels]
      rcases List.mem_append.1 among with front | last
      · rcases List.mem_cons.1 front with rfl | later
        · omega
        · have inside := levels_le_levelsAll later
          omega
      · obtain rfl := List.mem_singleton.1 last
        omega
  | _ =>
      have among := (List.mem_filter.1 member).1
      simp only [List.mem_cons, List.not_mem_nil, or_false] at among
      simp only [levels]
      rcases among with rfl | rfl <;> omega

theorem levels_pos (present : expr.isPresent = true) : 0 < expr.levels := by
  cases expr with
  | absent => contradiction
  | _ => simp [levels]

end Expr

/-! ## Tallies -/

/-- The expression is the tree of an expression statement. -/
def Body.IsStatement (body : Body) (expr : Expr) : Prop :=
  ∃ paragraph ∈ body.paragraphs, ∃ placed, Item.expression placed ∈ paragraph.items ∧
    placed.expr = expr

namespace Lowering

/-- What lowering trees of at most `depth` levels does.  The forms are decided of expressions with
the property `decided` only. -/
structure Log.Tallies (body : Body) (decided : Expr → Bool) (depth : Nat) (trees : List Expr)
    (log : Log) : Prop where
  fits : ∀ direction ∈ log.given, ∃ tree ∈ trees, direction.Fits body tree
  once : (log.deciding.map Direction.expr).Subperm ((trees.flatMap preorder).filter decided)
  splits : ∀ direction ∈ log.given, direction.directive.splits = true →
    body.IsStatement direction.expr
  entered : (∀ tree ∈ trees, tree.levels ≤ depth) → log.entered.Perm (numbersOf trees)
  accesses : (∀ tree ∈ trees, tree.levels ≤ depth) → ∀ inner ∈ trees.flatMap preorder,
    inner.isAccess = true → inner ∈ log.deciding.map Direction.expr

section

variable {body : Body} {decided : Expr → Bool} {depth : Nat} {trees others : List Expr}
  {log rest : Log} {expr : Expr} {parts : List Expr} {sight : Sight} {standing : Standing}

theorem tallies_nil : ({} : Log).Tallies body decided depth [] where
  fits := nofun
  once := List.Subperm.refl _
  splits := nofun
  entered _ := List.Perm.refl _
  accesses _ := nofun

theorem Log.Tallies.append (first : log.Tallies body decided depth trees)
    (second : rest.Tallies body decided depth others) :
    (log ++ rest).Tallies body decided depth (trees ++ others) where
  fits := by
    intro direction member
    rcases List.mem_append.1 member with early | late
    · obtain ⟨tree, among, fits⟩ := first.fits direction early
      exact ⟨tree, List.mem_append_left _ among, fits⟩
    · obtain ⟨tree, among, fits⟩ := second.fits direction late
      exact ⟨tree, List.mem_append_right _ among, fits⟩
  once := by
    rw [Log.deciding_append, List.map_append, List.flatMap_append, List.filter_append]
    exact first.once.append second.once
  splits := by
    intro direction member
    rcases List.mem_append.1 member with early | late
    · exact first.splits direction early
    · exact second.splits direction late
  entered shallow := by
    rw [numbersOf_append]
    exact (first.entered fun tree among => shallow tree (List.mem_append_left _ among)).append
      (second.entered fun tree among => shallow tree (List.mem_append_right _ among))
  accesses shallow inner member isAccess := by
    rw [List.flatMap_append] at member
    rw [Log.deciding_append, List.map_append]
    rcases List.mem_append.1 member with early | late
    · exact List.mem_append_left _ (first.accesses
        (fun tree among => shallow tree (List.mem_append_left _ among)) inner early isAccess)
    · exact List.mem_append_right _ (second.accesses
        (fun tree among => shallow tree (List.mem_append_right _ among)) inner late isAccess)

/-- The order of the trees does not matter. -/
theorem Log.Tallies.perm (tallies : log.Tallies body decided depth trees)
    (same : trees.Perm others) : log.Tallies body decided depth others where
  fits direction member := by
    obtain ⟨tree, among, fits⟩ := tallies.fits direction member
    exact ⟨tree, same.mem_iff.1 among, fits⟩
  once := tallies.once.trans ((same.flatMap_right _).filter _).subperm
  splits := tallies.splits
  entered shallow :=
    (tallies.entered fun tree among => shallow tree (same.mem_iff.1 among)).trans
      (same.flatMap_right _)
  accesses shallow inner member :=
    tallies.accesses (fun tree among => shallow tree (same.mem_iff.1 among)) inner
      ((same.flatMap_right _).mem_iff.2 member)

theorem logs_forM {β : Type} {items : List β} {act : β → LowerM Unit} {lowered : β → List Expr}
    (each : ∀ item ∈ items, Logs (act item) fun log _ =>
      log.Tallies body decided depth (lowered item)) :
    Logs (items.forM act) fun log _ => log.Tallies body decided depth (items.flatMap lowered) := by
  induction items with
  | nil => exact .pure tallies_nil
  | cons item rest induction =>
      have later := induction fun other member => each other (List.mem_cons_of_mem _ member)
      refine Logs.bind (each item (List.mem_cons_self ..)) fun log _ first => later.weaken ?_
      exact fun rest _ second => first.append second

/-! ## Trees -/

/-- What is entered and the parts behind it make up the tree. -/
theorem Log.IsOwn.tallies (own : log.IsOwn body expr) (present : expr.isPresent = true)
    (parted : parts.filter isPresent = expr.children)
    (inner : rest.Tallies body (fun expr => !expr.isOuter) depth parts) :
    (({ entered := [expr.number] } : Log) ++ (log ++ rest)).Tallies body
      (fun expr => !expr.isOuter) (depth + 1) [expr] := by
  have below : parts.flatMap preorder = expr.children.flatMap preorder := by
    rw [← parted, flatMap_preorder_filter]
  have whole : [expr].flatMap preorder = expr :: parts.flatMap preorder := by
    rw [List.flatMap_singleton, preorder_eq present, below]
  have deciding : (({ entered := [expr.number] } : Log) ++ (log ++ rest)).deciding =
      log.deciding ++ rest.deciding := by
    rw [Log.deciding_append, Log.deciding_append]
    rfl
  have shallower (shallow : ∀ tree ∈ [expr], tree.levels ≤ depth + 1) :
      ∀ part ∈ parts, part.levels ≤ depth := by
    intro part member
    by_cases written : part.isPresent = true
    · have child : part ∈ expr.children := parted ▸ List.mem_filter.2 ⟨member, written⟩
      have less := levels_lt_of_mem_children child
      have most := shallow expr (List.mem_singleton_self _)
      omega
    · cases part with
      | absent => exact Nat.zero_le _
      | _ => exact absurd rfl written
  constructor
  · intro direction member
    refine ⟨expr, List.mem_singleton_self _, ?_⟩
    rcases List.mem_append.1 (show direction ∈ log.given ++ rest.given from member)
      with early | late
    · exact own.fits direction early
    · obtain ⟨part, among, fits⟩ := inner.fits direction late
      have deeper : direction.expr ∈ expr.children.flatMap preorder :=
        below ▸ List.mem_flatMap.2 ⟨part, among, fits.inside⟩
      exact ⟨mem_preorder.2 (.inr (List.mem_flatMap.1 deeper)), fits.suits, fits.typed,
        fun _ => deeper⟩
  · rw [deciding, List.map_append, whole]
    rcases own.deciding with none | ⟨free, form, one⟩
    · rw [none]
      exact inner.once.trans ((List.sublist_cons_self _ _).filter _).subperm
    · rw [one, List.filter_cons_of_pos (by simp [free])]
      exact (List.subperm_cons expr).2 inner.once
  · intro direction member splits
    rcases List.mem_append.1 (show direction ∈ log.given ++ rest.given from member)
      with early | late
    · have decides : direction ∈ log.deciding :=
        List.mem_filter.2 ⟨early, Directive.decides_of_splits splits⟩
      have plain := Directive.isPlainAssignment_of_splits (own.fits direction early).suits splits
      rcases own.deciding with none | ⟨free, form, one⟩
      · exact absurd decides (by simp [none])
      · rw [one, List.mem_singleton] at decides
        rw [decides] at plain
        simp [isOuter, plain] at free
    · exact inner.splits direction late splits
  · intro shallow
    have entered : (({ entered := [expr.number] } : Log) ++ (log ++ rest)).entered =
        expr.number :: rest.entered := by
      simp [own.entered]
    have numbers : numbersOf [expr] = expr.number :: numbersOf parts := by
      rw [Body.numbersOf_eq_map, Body.numbersOf_eq_map, whole, List.map_cons]
    rw [entered, numbers]
    exact (inner.entered (shallower shallow)).cons _
  · intro shallow one member isAccess
    rw [deciding, List.map_append]
    rw [whole] at member
    rcases List.mem_cons.1 member with rfl | deeper
    · rcases own.deciding with none | ⟨-, form, one⟩
      · exact absurd none (own.access isAccess)
      · simp [one]
    · exact List.mem_append_right _ (inner.accesses (shallower shallow) one deeper isAccess)

/-- Nothing is to be done where nothing is written. -/
theorem tallies_absent (absent : ¬expr.isPresent = true) :
    ({} : Log).Tallies body decided depth [expr] := by
  cases expr with
  | absent => exact ⟨nofun, List.nil_subperm, nofun, fun _ => List.Perm.refl _, fun _ => nofun⟩
  | _ => exact absurd rfl absent

/-- Lowering a tree enters each of its expressions once. -/
theorem logs_visit : Logs (visit body sight depth (standing, expr)) fun log _ =>
    log.Tallies body (fun expr => !expr.isOuter) depth [expr] := by
  induction depth generalizing standing expr with
  | zero =>
      by_cases present : expr.isPresent = true
      · have deep (shallow : ∀ tree ∈ [expr], tree.levels ≤ 0) : False := by
          have none := shallow expr (List.mem_singleton_self _)
          have some := levels_pos present
          omega
        exact .pure ⟨List.forall_mem_nil _, List.nil_subperm, List.forall_mem_nil _,
          fun shallow => (deep shallow).elim, fun shallow => (deep shallow).elim⟩
      · exact .pure (tallies_absent present)
  | succ depth induction =>
      unfold visit
      split
      · rename_i absent
        exact .pure (tallies_absent (by simp [isPresent, absent]))
      · rename_i written
        have present : expr.isPresent = true := by simpa [isPresent] using written
        refine Logs.bind (logs_enter present) fun entered _ same => ?_
        subst same
        refine Logs.bind (logs_expr present) fun log parts holds => ?_
        obtain ⟨own, parted⟩ := holds
        have inner := @logs_forM body (fun expr => !expr.isOuter) depth _ parts
          (visit body sight depth) (fun part => [part.2]) fun part _ => induction
        refine inner.weaken fun rest _ tallies => own.tallies present parted ?_
        rwa [← List.map_eq_flatMap] at tallies

end
end Lowering
end MethodLowering
