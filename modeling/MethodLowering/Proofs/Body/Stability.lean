import Mathlib.Data.List.Basic
import MethodLowering.Body.Category
import MethodLowering.Body.Lifting
import MethodLowering.Proofs.Body.Declaring

/-!
# Answers that do not change

A body is extended by further variables and paragraphs.  What a tree sees stays the same: names are
looked up among the variables that were declared when the tree was read, and later ones are out of
sight.  So look-ups, categories, declared types and captures are the same in the extended body.
-/

namespace MethodLowering

/-- The later paragraph is the earlier one with further variables, numbered from `bound` on. -/
structure Paragraph.Widens (bound : Nat) (before after : Paragraph) : Prop where
  parent : after.parent = before.parent
  vars : ∃ added : List VariableId, after.vars.toList = before.vars.toList ++ added ∧
    ∀ declared ∈ added, bound ≤ declared

/-- The second body has all variables and paragraphs of the first, and further ones. -/
structure Body.Extends (before after : Body) : Prop where
  context : after.context = before.context
  options : after.options = before.options
  vars : before.vars.toList <+: after.vars.toList
  paragraphs : ∀ (id : ParagraphId) (paragraph : Paragraph),
    before.paragraphs[id]? = some paragraph →
      ∃ later, after.paragraphs[id]? = some later ∧ paragraph.Widens before.vars.size later

/-- The scope of the sight is a paragraph of the body, and all it sees is declared. -/
structure Sight.Fits (body : Body) (sight : Sight) : Prop where
  scope : sight.scope < body.paragraphs.size
  visible : sight.visible ≤ body.vars.size

/-- Parents have smaller numbers. -/
def Body.Descends (body : Body) : Prop :=
  ∀ (id : ParagraphId) (paragraph : Paragraph) (parent : ParagraphId),
    body.paragraphs[id]? = some paragraph → paragraph.parent = some parent → parent < id

/-- All variables that the tree declares are among the first `bound`. -/
def Expr.DeclaresBelow (bound : Nat) (expr : Expr) : Prop :=
  expr.Everywhere fun inner => ∀ declared, inner.ownVariable? = some declared → declared < bound

theorem Expr.Within.declaresBelow {low high : Mark} {expr : Expr} (within : expr.Within low high) :
    expr.DeclaresBelow high.vars :=
  fun inner inside declared own => ((within inner inside).declared declared own).2

namespace Body
section

variable {before between after : Body} {sight : Sight}

theorem Extends.refl (body : Body) : body.Extends body :=
  ⟨rfl, rfl, List.prefix_rfl, fun _ paragraph known =>
    ⟨paragraph, known, rfl, [], by simp, by simp⟩⟩

theorem Extends.vars_le (extended : before.Extends after) : before.vars.size ≤ after.vars.size := by
  simpa using extended.vars.length_le

theorem Extends.trans (first : before.Extends between) (second : between.Extends after) :
    before.Extends after := by
  refine ⟨second.context.trans first.context, second.options.trans first.options,
    first.vars.trans second.vars, fun id paragraph known => ?_⟩
  obtain ⟨middle, shown, parent, added, vars, above⟩ := first.paragraphs id paragraph known
  obtain ⟨later, found, parentLater, further, varsLater, aboveLater⟩ :=
    second.paragraphs id middle shown
  refine ⟨later, found, parentLater.trans parent, added ++ further, ?_, fun declared member => ?_⟩
  · rw [varsLater, vars, List.append_assoc]
  · rcases List.mem_append.1 member with early | late
    · exact above declared early
    · exact Nat.le_trans first.vars_le (aboveLater declared late)

theorem Extends.getElem?_vars (extended : before.Extends after) {declared : VariableId}
    (inside : declared < before.vars.size) : after.vars[declared]? = before.vars[declared]? := by
  obtain ⟨added, same⟩ := extended.vars
  rw [← Array.getElem?_toList, ← Array.getElem?_toList, ← same, List.getElem?_append_left]
  simpa using inside

/-! ## Look-up -/

theorem Extends.visibleVariables (extended : before.Extends after) {visible : Nat}
    (declared : visible ≤ before.vars.size) {paragraph later : Paragraph}
    (widens : paragraph.Widens before.vars.size later) :
    after.visibleVariables visible later = before.visibleVariables visible paragraph := by
  obtain ⟨-, added, vars, above⟩ := widens
  have hidden : added.reverse.filter (fun id => decide (id < visible)) = [] := by
    rw [List.filter_eq_nil_iff]
    intro id member
    have late := above id (List.mem_reverse.1 member)
    simpa using Nat.le_trans declared late
  rw [visibleVariables_eq, visibleVariables_eq, vars, List.reverse_append,
    List.filter_append, hidden,
    List.nil_append]
  refine List.filterMap_congr fun id member => extended.getElem?_vars ?_
  exact Nat.lt_of_lt_of_le (of_decide_eq_true (List.mem_filter.1 member).2) declared

/-- What is seen of a paragraph and of those around it depends on these paragraphs alone, however
many more there may be. -/
theorem map_chainFrom {α : Type} {see seeLater : Paragraph → α} (descends : before.Descends)
    {id count further : Nat} (enough : id < count) (more : id < further)
    (inside : id < before.paragraphs.size)
    (same : ∀ other ≤ id, ∀ paragraph, before.paragraphs[other]? = some paragraph →
      ∃ later, after.paragraphs[other]? = some later ∧ later.parent = paragraph.parent ∧
        seeLater later = see paragraph) :
    (after.chainFrom further (some id)).map seeLater =
      (before.chainFrom count (some id)).map see := by
  induction id using Nat.strongRecOn generalizing count further with
  | ind id induction =>
      obtain ⟨count, rfl⟩ := Nat.exists_eq_add_one_of_ne_zero (Nat.ne_zero_of_lt enough)
      obtain ⟨further, rfl⟩ := Nat.exists_eq_add_one_of_ne_zero (Nat.ne_zero_of_lt more)
      have known := Array.getElem?_eq_getElem inside
      generalize before.paragraphs[id] = paragraph at known
      obtain ⟨later, found, parent, seen⟩ := same id (Nat.le_refl id) paragraph known
      simp only [Body.chainFrom, known, found, List.map_cons, parent, seen,
        List.cons.injEq, true_and]
      cases around : paragraph.parent with
      | none => cases further <;> cases count <;> rfl
      | some outer =>
          have below : (outer : Nat) < id := descends id paragraph outer known around
          exact induction outer below (Nat.lt_of_lt_of_le below (Nat.le_of_lt_succ enough))
            (Nat.lt_of_lt_of_le below (Nat.le_of_lt_succ more)) (Nat.lt_trans below inside)
            fun other low => same other (Nat.le_trans low (Nat.le_of_lt below))

section

variable (extended : before.Extends after)
include extended

theorem Extends.size_le : before.paragraphs.size ≤ after.paragraphs.size := by
  rcases Nat.eq_zero_or_pos before.paragraphs.size with none | some_
  · omega
  · have inside : before.paragraphs.size - 1 < before.paragraphs.size := by omega
    obtain ⟨later, found, -⟩ := extended.paragraphs _ _ (Array.getElem?_eq_getElem inside)
    have bound := (Array.getElem?_eq_some_iff.1 found).1
    omega

theorem Extends.map_chain {α : Type} {see seeLater : Paragraph → α}
    (descends : before.Descends) {scope : ParagraphId} (inside : scope < before.paragraphs.size)
    (same : ∀ paragraph later : Paragraph, paragraph.Widens before.vars.size later →
      seeLater later = see paragraph) :
    (after.chain scope).map seeLater = (before.chain scope).map see := by
  refine map_chainFrom descends inside (Nat.lt_of_lt_of_le inside extended.size_le) inside
    fun other _ paragraph known => ?_
  obtain ⟨later, found, widens⟩ := extended.paragraphs other paragraph known
  exact ⟨later, found, widens.parent, same paragraph later widens⟩

/-- The paragraphs around a paragraph show the same variables. -/
theorem Extends.chain (descends : before.Descends) (fits : sight.Fits before) :
    (after.chain sight.scope).map (after.visibleVariables sight.visible) =
      (before.chain sight.scope).map (before.visibleVariables sight.visible) :=
  extended.map_chain descends fits.scope fun _ _ => extended.visibleVariables fits.visible

theorem Extends.field? (name : String) :
    after.field? name = before.field? name := by
  rw [Body.field?, Body.field?, extraContainers, extraContainers, extended.context,
    extended.options]

/-- A name stands for the same variable. -/
theorem Extends.lookupAt (descends : before.Descends) (fits : sight.Fits before) (name : String) :
    after.lookupAt sight name = before.lookupAt sight name := by
  have found (body : Body) : (body.chain sight.scope).findSome? (fun paragraph =>
      (body.visibleVariables sight.visible paragraph).find? fun entry => entry.name == name) =
      ((body.chain sight.scope).map (body.visibleVariables sight.visible)).findSome?
        fun entries => entries.find? fun entry => entry.name == name := by
    rw [List.findSome?_map]
    rfl
  rw [Body.lookupAt, Body.lookupAt, found, found, extended.chain descends fits, extended.field?]

/-- A class body reads the same variables. -/
theorem Extends.captures (descends : before.Descends)
    (fits : sight.Fits before) (text : List Char) :
    after.captures sight text = before.captures sight text := by
  rw [Body.captures, Body.captures, List.flatMap_def, List.flatMap_def,
    extended.chain descends fits]

end

/-! ## Categories and declared types -/

section

variable (extended : before.Extends after)
include extended

theorem Extends.classify (typeName : String) :
    after.classify typeName = before.classify typeName := by
  rw [Body.classify, Body.classify, extraContainers, extraContainers, extended.options]

theorem Extends.elementCategory (typeName : String)
    (count : Nat) : after.elementCategory typeName count =
      before.elementCategory typeName count := by
  rw [Body.elementCategory, Body.elementCategory, extended.classify]

theorem Extends.classScope? (descends : before.Descends) (fits : sight.Fits before) (expr : Expr) :
    after.classScope? sight expr = before.classScope? sight expr := by
  unfold Body.classScope?
  simp only [extended.lookupAt descends fits, extended.context]

theorem Extends.classAt (depth : Nat) :
    after.classAt depth = before.classAt depth := by
  rw [Body.classAt, Body.classAt, extended.context]

theorem Extends.classMemberCategory? (depth : Nat) (member : Member) :
    after.classMemberCategory? depth member = before.classMemberCategory? depth member := by
  have classify : after.classify = before.classify := funext extended.classify
  have element : after.elementCategory = before.elementCategory :=
    funext fun typeName => funext fun count => extended.elementCategory typeName count
  rw [Body.classMemberCategory?, Body.classMemberCategory?, extended.classAt, classify, element,
    extended.context]

theorem Extends.callCategory (callee : Expr) (arguments : Nat) :
    after.callCategory callee arguments = before.callCategory callee arguments := by
  have classify : after.classify = before.classify := funext extended.classify
  rw [Body.callCategory, Body.callCategory, classify, extended.context]

end

/-- What the parts of a tree declare. -/
theorem declaresBelow_of_mem {bound : Nat} {expr item : Expr} (items : List Expr)
    (below : expr.DeclaresBelow bound) (present : expr.isPresent = true)
    (parts : expr.children = items.filter Expr.isPresent) (member : item ∈ items) :
    item.DeclaresBelow bound :=
  Expr.everywhere_of_mem (parts ▸ ((Expr.everywhere_iff present).1 below).2) member

/-- A value has the same declared type. -/
theorem Extends.declaredType (extended : before.Extends after) (descends : before.Descends)
    (fits : sight.Fits before) {expr : Expr} (below : expr.DeclaresBelow before.vars.size) :
    after.declaredType sight expr = before.declaredType sight expr := by
  induction expr using Body.declaredType.induct before sight with
  | case1 node declared continued =>
      have known : declared < before.vars.size :=
        ((Expr.everywhere_iff rfl).1 below).1 declared rfl
      rw [Body.declaredType, Body.declaredType, extended.getElem?_vars known]
  | case2 node => rw [Body.declaredType, Body.declaredType, extended.lookupAt descends fits]
  | case3 node typeName => rfl
  | case4 node typeName operand => rfl
  | case5 node op target value induction =>
      rw [Body.declaredType, Body.declaredType]
      exact induction (declaresBelow_of_mem [target, value] below rfl rfl (by simp))
  | case6 node inner induction =>
      rw [Body.declaredType, Body.declaredType]
      exact induction (declaresBelow_of_mem [inner] below rfl rfl (by simp))
  | case7 node subject member depth place named found =>
      simp only [Body.declaredType, extended.classScope? descends fits, extended.classAt]
  | case8 node subject member other =>
      simp only [Body.declaredType, extended.classScope? descends fits]
  | case9 node target indices initializer induction =>
      rw [Body.declaredType, Body.declaredType,
        induction (declaresBelow_of_mem (target :: indices ++ [initializer]) below rfl
        rfl (by simp))]
  | case10 expr =>
      rw [Body.declaredType, Body.declaredType]
      all_goals assumption

/-- A value has the same category. -/
theorem Extends.category (extended : before.Extends after) (descends : before.Descends)
    (fits : sight.Fits before) {expr : Expr} (below : expr.DeclaresBelow before.vars.size) :
    after.category sight expr = before.category sight expr := by
  induction expr using Body.category.induct before sight with
  | case1 => rfl
  | case2 node form => simp only [Body.category, extended.lookupAt descends fits]
  | case3 node declared continued =>
      have known : declared < before.vars.size :=
        ((Expr.everywhere_iff rfl).1 below).1 declared rfl
      rw [Body.category, Body.category, extended.getElem?_vars known]
  | case4 node op left right predicate =>
      unfold Body.category
      rw [if_pos predicate, if_pos predicate]
  | case5 node left right _ leftInduction rightInduction =>
      simp only [Body.category,
        leftInduction (declaresBelow_of_mem [left, right] below rfl rfl (by simp)),
        rightInduction (declaresBelow_of_mem [left, right] below rfl rfl (by simp))]
  | case6 node left inner first right _ induction =>
      have branch := declaresBelow_of_mem [left, .operation inner .colon first right] below rfl rfl
        (List.mem_cons_of_mem _ (List.mem_singleton.2 rfl))
      have same := induction (declaresBelow_of_mem [first, right] branch rfl rfl (by simp))
      simp only [Body.category, same]
  | case7 node left right other _ =>
      unfold Body.category
      split
      · rfl
      · split <;> first | rfl | contradiction | exact absurd rfl (other _ _ _)
  | case8 node left right _ induction =>
      simp only [Body.category,
        induction (declaresBelow_of_mem [left, right] below rfl rfl (by simp))]
  | case9 node left right _ induction =>
      simp only [Body.category,
        induction (declaresBelow_of_mem [left, right] below rfl rfl (by simp))]
  | case10 node op left right plain notPlus notQuestion notColon notComma notChoice =>
      unfold Body.category
      rw [if_neg plain, if_neg plain]
      split <;> first | rfl | contradiction
  | case11 node op target value induction =>
      rw [Body.category, Body.category]
      exact induction (declaresBelow_of_mem [target, value] below rfl rfl (by simp))
  | case12 node operand typeName => rfl
  | case13 node subject member other induction =>
      simp only [Body.category, other]
      exact induction (declaresBelow_of_mem [subject, member] below rfl rfl (by simp))
  | case14 node subject member named found depth scope induction =>
      simp only [Body.category, found, extended.classScope? descends fits,
        extended.classMemberCategory?,
        induction (declaresBelow_of_mem [subject, member] below rfl rfl (by simp))]
  | case15 node subject member named found scope induction =>
      simp only [Body.category, found, extended.classScope? descends fits,
        extended.classMemberCategory?,
        induction (declaresBelow_of_mem [subject, member] below rfl rfl (by simp))]
  | case16 node inner induction =>
      rw [Body.category, Body.category]
      exact induction (declaresBelow_of_mem [inner] below rfl rfl (by simp))
  | case17 node brace items other =>
      rw [Body.category, Body.category]
      all_goals exact other
  | case18 node typeName operand => rw [Body.category, Body.category, extended.classify]
  | case19 node callee arguments => rw [Body.category, Body.category, extended.callCategory]
  | case20 node target indices initializer =>
      have element : after.elementCategory = before.elementCategory :=
        funext fun typeName => funext fun count => extended.elementCategory typeName count
      have same := extended.declaredType descends fits
        (declaresBelow_of_mem (target :: indices ++ [initializer]) below rfl rfl
          (List.mem_cons_self ..))
      rw [Body.category, Body.category, indexCategory, indexCategory, same, element]

end
end Body
end MethodLowering
