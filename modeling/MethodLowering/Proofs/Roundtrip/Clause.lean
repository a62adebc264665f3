import MethodLowering.Proofs.Roundtrip.Opening

/-!
# Clauses of statements

A clause of a statement is a written expression or nothing.  Reading it changes nothing of the body
but the numbering of nodes and the record of effort, and its category can always be told.
-/

namespace MethodLowering

open Text MethodLowering.Expr

/-! ## Reading clauses -/

namespace Body

/-- Only the numbering of nodes and the record of effort may differ. -/
def IsCounted (before after : Body) : Prop :=
  ∃ nextNode effort, after = { before with nextNode, effort }

/-- Nothing is read of an empty text. -/
theorem readExpression_nil (scope : ParagraphId) (body : Body) :
    ∃ after, readExpression scope [] body = .ok ⟨.absent, body.sightFrom scope⟩ after ∧
      body.IsCounted after :=
  ⟨_, rfl, _, _, rfl⟩

end Body

namespace Tree

section

variable {tree : Tree} {clause : Option Tree} {expr : Expr} {scope : ParagraphId} {body : Body}

/-- An expression has few enough operators to be read. -/
def isShort (tree : Tree) : Bool := tree.operatorCount < Limits.reductionRounds

theorem isPresent_of_pictures (pictures : tree.Pictures expr) : expr.isAbsent = false := by
  cases pictures <;> rfl

theorem reads_print (well : tree.isWellFormed = true) (short : tree.isShort = true) :
    ∃ placed after, Body.readExpression scope tree.print body = .ok placed after ∧
      body.IsCounted after ∧ tree.Pictures placed.expr := by
  obtain ⟨expr, nextNode, effort, reads, pictures⟩ :=
    Body.readExpression_print well (of_decide_eq_true short) scope body
  exact ⟨_, _, reads, ⟨_, _, rfl⟩, pictures⟩

theorem reads_clause (well : clause.all isWellFormed = true) (short : clause.all isShort = true) :
    ∃ placed after, Body.readExpression scope (Statement.clause clause) body = .ok placed after ∧
      body.IsCounted after ∧ PicturesAt clause placed := by
  cases clause with
  | none =>
      obtain ⟨after, reads, counted⟩ := Body.readExpression_nil scope body
      exact ⟨_, _, reads, counted, rfl⟩
  | some tree => exact reads_print well short

theorem reads_furtherClause (well : clause.all isWellFormed = true)
    (short : clause.all isShort = true) :
    ∃ placed after, Body.readExpression scope (Statement.furtherClause clause) body =
      .ok placed after ∧ body.IsCounted after ∧ PicturesAt clause placed := by
  cases clause with
  | none =>
      obtain ⟨after, reads, counted⟩ := Body.readExpression_nil scope body
      exact ⟨_, _, reads, counted, rfl⟩
  | some tree =>
      obtain ⟨expr, nextNode, effort, reads, pictures⟩ :=
        Body.readExpression_blank well (of_decide_eq_true short) scope body
      exact ⟨_, _, reads, ⟨_, _, rfl⟩, pictures⟩

/-- A written expression declares nothing, so nothing behind it is continued. -/
theorem continueDeclaration_pictures (well : tree.isWellFormed = true)
    (pictures : tree.Pictures expr) : Body.continueDeclaration expr body = .ok expr body := by
  have plain : expr.declaredVariable? = none := by
    cases pictures with
    | assignment first second => cases first <;> rfl
    | _ => rfl
  rw [Body.continueDeclaration, commaItems_of_pictures well pictures, List.head?_cons,
    Option.bind_some, plain]
  rfl

theorem readStatement_clause (well : clause.all isWellFormed = true)
    (short : clause.all isShort = true) :
    ∃ placed after, Body.readStatement scope (Statement.clause clause) body = .ok placed after ∧
      body.IsCounted after ∧ PicturesAt clause placed := by
  obtain ⟨placed, after, reads, counted, pictures⟩ := @reads_clause clause scope body well short
  have continued : Body.continueDeclaration placed.expr after = .ok placed.expr after := by
    cases clause with
    | none =>
        obtain ⟨expr, sight⟩ := placed
        obtain rfl : expr = .absent := pictures
        rfl
    | some tree => exact continueDeclaration_pictures well pictures
  refine ⟨⟨placed.expr, after.sightFrom scope⟩, after, ?_, counted, ?_⟩
  · simp only [Body.readStatement, bind, EStateM.bind, reads, continued, get_apply,
      pure, EStateM.pure]
  · cases clause <;> exact pictures

/-- The text of an expression is not empty. -/
theorem print_ne_nil (well : tree.isWellFormed = true) (short : tree.isShort = true) :
    tree.print ≠ [] := by
  intro empty
  obtain ⟨placed, after, reads, -, pictures⟩ :=
    @reads_print tree Body.root (Body.initial {} {}) well short
  rw [empty] at reads
  obtain ⟨final, absent, -⟩ := Body.readExpression_nil Body.root (Body.initial {} {})
  rw [absent] at reads
  obtain ⟨rfl, -⟩ := EStateM.Result.ok.inj reads
  exact not_pictures_absent pictures

end

/-! ## Categories -/

/-- No member of `this` or `super` is accessed at the root. -/
def Impersonal (expr : Expr) : Prop :=
  ∀ node place member, expr ≠ .access node (.leaf place .receiver) member

theorem impersonal_of_parts (items : List Expr) {expr : Expr} (present : expr.isPresent = true)
    (parts : expr.children = items.filter isPresent) (own : Impersonal expr)
    (inner : ∀ item ∈ items, item.Everywhere Impersonal) : expr.Everywhere Impersonal := by
  refine (everywhere_iff present).2 ⟨own, fun child member => ?_⟩
  rw [parts] at member
  exact inner child (List.mem_filter.1 member).1

theorem impersonal_of_both {expr left right : Expr} (present : expr.isPresent = true)
    (parts : expr.children = [left, right].filter isPresent) (own : Impersonal expr)
    (first : left.Everywhere Impersonal) (second : right.Everywhere Impersonal) :
    expr.Everywhere Impersonal := by
  refine impersonal_of_parts [left, right] present parts own fun item member => ?_
  rcases List.mem_pair.1 member with rfl | rfl
  · exact first
  · exact second

mutual

theorem impersonal_of_pictures : ∀ {tree : Tree} {expr : Expr}, tree.Pictures expr →
    expr.Everywhere Impersonal
  | .name _, _, .name _ => impersonal_of_parts [] rfl rfl nofun nofun
  | .group inner, _, .group first => by
      refine impersonal_of_parts [_] rfl rfl nofun fun item member => ?_
      rw [List.mem_singleton.1 member]
      exact impersonal_of_pictures first
  | .call _ _, _, @Pictures.call _ _ _ head items _ all => by
      refine impersonal_of_parts (.leaf head .identifier :: items) rfl rfl
        nofun fun item member => ?_
      rcases List.mem_cons.1 member with rfl | among
      · exact impersonal_of_parts [] rfl rfl nofun nofun
      · exact impersonal_of_forall₂ all item among
  | .index _ _, _, @Pictures.index _ _ _ target items first all => by
      refine impersonal_of_parts (target :: items ++ [.absent]) rfl rfl nofun fun item member => ?_
      rcases List.mem_append.1 member with early | last
      · rcases List.mem_cons.1 early with rfl | among
        · exact impersonal_of_pictures first
        · exact impersonal_of_forall₂ all item among
      · rw [List.mem_singleton.1 last]
        exact everywhere_absent
  | .member subject link, _, .member first second => by
      refine impersonal_of_both rfl rfl ?_ (impersonal_of_pictures first)
        (impersonal_of_pictures second)
      rintro node place member same
      obtain ⟨-, rfl, -⟩ := Expr.access.inj same
      nomatch first
  | .leading _ operand, _, .leading first =>
      impersonal_of_both rfl rfl nofun everywhere_absent (impersonal_of_pictures first)
  | .trailing operand _, _, .trailing first =>
      impersonal_of_both rfl rfl nofun (impersonal_of_pictures first) everywhere_absent
  | .binary _ left right, _, .binary one other =>
      impersonal_of_both rfl rfl nofun (impersonal_of_pictures one) (impersonal_of_pictures other)
  | .conditional condition first second, _, .conditional tested one other =>
      impersonal_of_both rfl rfl nofun (impersonal_of_pictures tested)
        (impersonal_of_both rfl rfl nofun (impersonal_of_pictures one)
          (impersonal_of_pictures other))
  | .assignment _ target value, _, .assignment first second =>
      impersonal_of_both rfl rfl nofun (impersonal_of_pictures first)
        (impersonal_of_pictures second)

theorem impersonal_of_forall₂ : ∀ {items : List Tree} {exprs : List Expr},
    List.Forall₂ Pictures items exprs → ∀ expr ∈ exprs, expr.Everywhere Impersonal
  | [], _, .nil => by simp
  | _ :: _, _, .cons first rest => by
      intro expr among
      rcases List.mem_cons.1 among with rfl | later
      · exact impersonal_of_pictures first
      · exact impersonal_of_forall₂ rest expr later

end

/-- The category of a written expression can be told. -/
theorem category_of_pictures {tree : Tree} {expr : Expr} (body : Body) (sight : Sight)
    (whole : expr.Whole) (pictures : tree.Pictures expr) :
    ∃ category, body.category sight expr = .ok category := by
  cases asked : body.category sight expr with
  | ok category => exact ⟨category, rfl⟩
  | error fault =>
      obtain ⟨inner, inside, depth, -, lacks, -⟩ := Body.category_blames whole fault asked
      have impersonal := impersonal_of_pictures pictures inner inside
      unfold Expr.LacksClass at lacks
      split at lacks
      · exact absurd rfl (impersonal _ _ _)
      · exact lacks.elim

end Tree
end MethodLowering
