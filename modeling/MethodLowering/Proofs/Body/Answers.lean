import MethodLowering.Proofs.Reduction.Wholeness

/-!
# Questions without answer

The category and the declared type of an expression are always known, with one exception: a member
of `this` or `super` is asked for, and the method has no class, or no second one.
-/

namespace MethodLowering

open MethodLowering.Expr

theorem eq_ok_of_toOption {ε α : Type} {result : Except ε α} {value : α}
    (found : result.toOption = some value) : result = .ok value := by
  cases result with
  | error => contradiction
  | ok other => exact congrArg _ (Option.some.inj found)

/-! ## Faults -/

/-- A fault, where there is one, is of this kind. -/
def Blames {α : Type} (blamed : Fault → Prop) (answer : Except Fault α) : Prop :=
  ∀ fault, answer = .error fault → blamed fault

section

variable {α β : Type} {blamed : Fault → Prop} {answer : Except Fault α}

theorem Blames.ok {value : α} : Blames blamed (.ok value : Except Fault α) := nofun

theorem Blames.mono {others : Fault → Prop} (blames : Blames blamed answer)
    (weaker : ∀ fault, blamed fault → others fault) : Blames others answer :=
  fun fault fails => weaker fault (blames fault fails)

theorem Blames.bind {next : α → Except Fault β} (first : Blames blamed answer)
    (later : ∀ value, Blames blamed (next value)) : Blames blamed (answer >>= next) := by
  intro fault fails
  cases answer with
  | error other =>
      obtain rfl := Except.error.inj fails
      exact first other rfl
  | ok value => exact later value fault fails

end

namespace Expr

/-- A member of `this` is accessed although there is no class, or one of `super` although there are
fewer than two.  The class at this depth is missing. -/
def LacksClass (context : Context) (depth : Nat) : Expr → Prop
  | access _ (leaf node .receiver) _ =>
      Text.trimmed node.text = "this" ∧ depth = 0 ∧ context.classes = [] ∨
        Text.trimmed node.text = "super" ∧ depth = 1 ∧ context.classes.length < 2
  | _ => False

end Expr

namespace Body

/-- The category or the declared type is asked of an access to a member whose class is missing. -/
def Unanswered (body : Body) (sight : Sight) (expr : Expr) (fault : Fault) : Prop :=
  ∃ depth, fault = .noClass depth ∧ expr.LacksClass body.context depth ∧
    (body.category sight expr = .error fault ∨ body.declaredType sight expr = .error fault)

/-- Some part of the tree is such an access. -/
def Stumbles (body : Body) (sight : Sight) (tree : Expr) (fault : Fault) : Prop :=
  ∃ expr ∈ tree.preorder, body.Unanswered sight expr fault

section

variable {body : Body} {sight : Sight} {expr subject : Expr} {fault : Fault} {depth : Nat}

theorem Stumbles.whole (items : List Expr) {part : Expr} (stumbles : body.Stumbles sight part fault)
    (parts : expr.children = items.filter isPresent) (member : part ∈ items) :
    body.Stumbles sight expr fault := by
  obtain ⟨inner, inside, unanswered⟩ := stumbles
  refine ⟨inner, mem_preorder.2 (.inr ⟨part, ?_, inside⟩), unanswered⟩
  rw [parts]
  refine List.mem_filter.2 ⟨member, ?_⟩
  cases part with
  | absent => simp [preorder] at inside
  | _ => rfl

theorem classDepth?_lt {name : String} (found : body.context.classDepth? name = some depth) :
    depth < body.context.classes.length :=
  (List.findIdx?_eq_some_iff_findIdx_eq.1 found).1

/-- A subject whose class is missing is `this` or `super`. -/
theorem lacksClass_of_scope (whole : subject.Whole)
    (scope : body.classScope? sight subject = some depth)
    (lacking : body.context.classes[depth]? = none) (node : Node) (member : Expr) :
    LacksClass body.context depth (.access node subject member) := by
  have outside := List.getElem?_eq_none_iff.1 lacking
  have known {name : String} (found : body.context.classDepth? name = some depth) : False :=
    Nat.not_lt.2 outside (classDepth?_lt found)
  unfold classScope? at scope
  split at scope
  · rename_i place
    have spelled : Text.trimmed place.text = "this" ∨ Text.trimmed place.text = "super" :=
      ((everywhere_iff rfl).1 whole).1
    obtain rfl := Option.some.inj scope
    rcases spelled with this | super
    · refine .inl ⟨this, by simp [this], ?_⟩
      simpa [this] using outside
    · refine .inr ⟨super, by simp [super], ?_⟩
      have few : body.context.classes.length ≤ 1 := by simpa [super] using outside
      omega
  · dsimp only at scope
    split at scope
    · exact (known scope).elim
    · exact (known scope).elim
  · split at scope
    · exact (known scope).elim
    · contradiction
  · contradiction

theorem classAt_eq_error (fails : body.classAt depth = .error fault) :
    body.context.classes[depth]? = none ∧ fault = .noClass depth := by
  unfold classAt at fails
  split at fails
  · contradiction
  · next lacking => exact ⟨lacking, (Except.error.inj fails).symm⟩

theorem classMemberCategory?_eq_error {member : Member}
    (fails : body.classMemberCategory? depth member = .error fault) :
    body.context.classes[depth]? = none ∧ fault = .noClass depth := by
  refine classAt_eq_error ?_
  unfold classMemberCategory? at fails
  cases found : body.classAt depth with
  | error other =>
      rw [found] at fails
      exact congrArg _ (Except.error.inj fails)
  | ok type =>
      rw [found] at fails
      contradiction

/-- The declared type is known unless the tree accesses a member of a missing class. -/
theorem declaredType_blames (whole : expr.Whole) :
    Blames (body.Stumbles sight expr) (body.declaredType sight expr) := by
  induction expr using Body.declaredType.induct body sight with
  | case5 node op target value induction =>
      rw [declaredType]
      refine (induction (whole.part [target, value] rfl rfl (by simp))).mono
        fun fault stumbles => ?_
      exact stumbles.whole [target, value] rfl (by simp)
  | case6 node inner induction =>
      rw [declaredType]
      refine (induction (whole.part [inner] rfl rfl (by simp))).mono fun fault stumbles => ?_
      exact stumbles.whole [inner] rfl (by simp)
  | case7 node subject member depth place named found =>
      intro fault fails
      have inner : subject.Whole := whole.part [subject, member] rfl rfl (by simp)
      have asked := fails
      rw [declaredType] at fails
      simp only [found, named] at fails
      cases class_ : body.classAt depth with
      | ok type =>
          rw [class_] at fails
          contradiction
      | error other =>
          rw [class_] at fails
          obtain rfl : other = fault := Except.error.inj fails
          obtain ⟨lacking, rfl⟩ := classAt_eq_error class_
          exact ⟨_, mem_preorder.2 (.inl ⟨rfl, rfl⟩), depth, rfl,
            lacksClass_of_scope inner found lacking node member, .inr asked⟩
  | case9 node target indices initializer induction =>
      have parts : ∀ part ∈ target :: indices ++ [initializer], part.Whole :=
        fun part member => whole.part _ rfl rfl member
      rw [declaredType]
      refine Blames.bind ((induction (parts target (by simp))).mono fun fault stumbles => ?_)
        fun answer => ?_
      · exact stumbles.whole (target :: indices ++ [initializer]) rfl (by simp)
      · cases answer with
        | none => exact .ok
        | some typeName =>
            dsimp only
            split <;> exact .ok
  | case8 node subject member other =>
      rw [declaredType]
      split
      · next depth place found named => exact (other depth place found named).elim
      · exact .ok
  | case10 expr =>
      rw [declaredType]
      all_goals first | exact .ok | assumption
  | _ => exact .ok

/-- The category is known unless the tree accesses a member of a missing class. -/
theorem category_blames (whole : expr.Whole) :
    Blames (body.Stumbles sight expr) (body.category sight expr) := by
  have part {expr item : Expr} (items : List Expr) (present : expr.isPresent = true)
      (parts : expr.children = items.filter isPresent) (member : item ∈ items)
      (whole : expr.Whole)
      (induction : item.Whole → Blames (body.Stumbles sight item) (body.category sight item)) :
      Blames (body.Stumbles sight expr) (body.category sight item) :=
    (induction (whole.part items present parts member)).mono fun fault stumbles =>
      stumbles.whole items parts member
  induction expr using Body.category.induct body sight with
  | case4 node op left right predicate =>
      unfold category
      rw [if_pos predicate]
      exact .ok
  | case5 node left right other leftInduction rightInduction =>
      have ofLeft := part [left, right] rfl rfl (by simp) whole leftInduction
      have ofRight := part [left, right] rfl rfl (by simp) whole rightInduction
      unfold category
      rw [if_neg other]
      refine ofLeft.bind fun first => ?_
      split
      · exact .ok
      · refine ofRight.bind fun second => ?_
        split <;> exact .ok
  | case6 node left inner first right other induction =>
      have branch : Whole (.operation inner .colon first right) :=
        whole.part [left, .operation inner .colon first right] rfl rfl (by simp)
      have ofFirst := part [first, right] rfl rfl (by simp) branch induction
      unfold category
      rw [if_neg other]
      exact ofFirst.mono fun fault stumbles =>
        stumbles.whole [left, .operation inner .colon first right] rfl (by simp)
  | case7 node left right other plain =>
      unfold category
      rw [if_neg plain]
      split <;> first | exact .ok | contradiction | exact absurd rfl (other _ _ _)
  | case8 node left right other induction =>
      unfold category
      rw [if_neg other]
      exact part [left, right] rfl rfl (by simp) whole induction
  | case9 node left right other induction =>
      unfold category
      rw [if_neg other]
      exact part [left, right] rfl rfl (by simp) whole induction
  | case10 node op left right plain notPlus notQuestion notColon notComma notChoice =>
      unfold category
      rw [if_neg plain]
      split <;> first | exact .ok | contradiction
  | case11 node op target value induction =>
      rw [category]
      exact part [target, value] rfl rfl (by simp) whole induction
  | case13 node subject member other induction =>
      simp only [category, other]
      exact part [subject, member] rfl rfl (by simp) whole induction
  | case14 node subject member named found depth scope induction =>
      have ofSubject := part [subject, member] rfl rfl (by simp) whole induction
      have inner : subject.Whole := whole.part [subject, member] rfl rfl (by simp)
      intro fault fails
      cases declared : body.classMemberCategory? depth named with
      | error other =>
          obtain ⟨lacking, rfl⟩ := classMemberCategory?_eq_error declared
          have asked : body.category sight (.access node subject member) =
              .error (.noClass depth) := by
            simp only [category, found, scope, declared]
            rfl
          obtain rfl := Except.error.inj (asked.symm.trans fails)
          exact ⟨_, mem_preorder.2 (.inl ⟨rfl, rfl⟩), depth, rfl,
            lacksClass_of_scope inner scope lacking node member, .inl asked⟩
      | ok answer =>
          simp only [category, found, scope, declared] at fails
          cases answer with
          | some category => contradiction
          | none => exact ofSubject.bind (fun _ => .ok) fault fails
  | case15 node subject member named found scope induction =>
      have ofSubject := part [subject, member] rfl rfl (by simp) whole induction
      simp only [category, found, scope]
      exact ofSubject.bind fun _ => .ok
  | case16 node inner induction =>
      rw [category]
      exact part [inner] rfl rfl (by simp) whole induction
  | case17 node brace items other =>
      rw [category]
      · exact .ok
      · exact other
  | case20 node target indices initializer =>
      have inner : target.Whole :=
        whole.part (target :: indices ++ [initializer]) rfl rfl (List.mem_cons_self ..)
      rw [category, indexCategory]
      split
      · exact .ok
      · refine Blames.bind ((declaredType_blames inner).mono fun fault stumbles => ?_)
          fun answer => ?_
        · exact stumbles.whole (target :: indices ++ [initializer]) rfl (List.mem_cons_self ..)
        · cases answer <;> exact .ok
  | _ => exact .ok

end
end Body
end MethodLowering
