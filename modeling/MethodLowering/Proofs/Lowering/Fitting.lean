import MethodLowering.Proofs.Lowering.Statements

/-!
# Directives fit their expressions

Lowering a finished body enters every expression once.  Behind it every directive is at an
expression of its sort, at most one directive decides the form of an expression, and exactly one
that of an access, so that rendering never meets a directive that it has to pass over.
-/

namespace MethodLowering

open MethodLowering.Expr Lowering

/-! ## Directives that were given -/

namespace Lowering

/-- Directives that decide a form differ from those that do not. -/
theorem decides_of_beq {first second : Directive} (same : (first == second) = true)
    (decides : first.decides = true) : second.decides = true := by
  cases second with
  | toText => cases first <;> contradiction
  | outerField => cases first <;> contradiction
  | smartHandleGet => cases first <;> contradiction
  | _ => rfl

section

variable {directives : Directives} {given : List Direction} {number : Nat} {directive : Directive}

/-- Give directives one after another. -/
abbrev follow (directives : Directives) (given : List Direction) : Directives := given.foldl
  (fun directives direction => directives.insert direction.expr.number direction.directive)
  directives

theorem get_empty (number : Nat) : ({} : Directives).get number = [] := by
  simp [Directives.get]

theorem mem_follow (member : directive ∈ (follow directives given).get number) :
    directive ∈ directives.get number ∨
      ∃ direction ∈ given, direction.expr.number = number ∧ direction.directive = directive := by
  induction given generalizing directives with
  | nil => exact .inl member
  | cons first rest induction =>
      rcases induction member with early | ⟨direction, among, same⟩
      · rw [Directives.get_insert] at early
        split at early
        · rename_i own
          split at early
          · exact .inl (own ▸ early)
          · rcases List.mem_append.1 early with old | new
            · exact .inl (own ▸ old)
            · exact .inr ⟨first, List.mem_cons_self .., own, (List.mem_singleton.1 new).symm⟩
        · exact .inl early
      · exact .inr ⟨direction, List.mem_cons_of_mem _ among, same⟩

/-- The directives of an expression that decide its form. -/
def decidersOf (directives : Directives) (number : Nat) : List Directive :=
  (directives.get number).filter Directive.decides

/-- An expression has at most as many deciding directives as it was given. -/
theorem length_decidersOf_le : (decidersOf (follow directives given) number).length ≤
    (decidersOf directives number).length +
      ((given.filter (·.directive.decides)).map (·.expr.number)).count number := by
  induction given generalizing directives with
  | nil => exact Nat.le_add_right ..
  | cons first rest induction =>
      have later := @induction (directives.insert first.expr.number first.directive)
      have own : (decidersOf (directives.insert first.expr.number first.directive) number).length ≤
          (decidersOf directives number).length +
            (([first].filter (·.directive.decides)).map (·.expr.number)).count number := by
        rw [decidersOf, decidersOf, Directives.get_insert]
        by_cases same : first.expr.number = number
        · rw [if_pos same, same]
          split
          · exact Nat.le_add_right ..
          · rw [List.filter_append, List.length_append]
            cases decides : first.directive.decides with
            | true => simp [decides, same]
            | false => simp [decides]
        · rw [if_neg same]
          exact Nat.le_add_right ..
      have split : ((first :: rest).filter (·.directive.decides)).map (·.expr.number) =
          ([first].filter (·.directive.decides)).map (·.expr.number) ++
            (rest.filter (·.directive.decides)).map (·.expr.number) := by
        rw [← List.map_append, ← List.filter_append, List.singleton_append]
      rw [split, List.count_append]
      exact Nat.le_trans later (by omega)

theorem decidersOf_insert_ne_nil {other : Nat} (some_ : decidersOf directives number ≠ []) :
    decidersOf (directives.insert other directive) number ≠ [] := by
  rw [decidersOf, Directives.get_insert]
  split
  · rename_i same
    subst same
    split
    · exact some_
    · rw [List.filter_append]
      exact List.append_ne_nil_of_left_ne_nil some_ _
  · exact some_

/-- An expression that is given a deciding directive has one. -/
theorem decidersOf_follow_ne_nil (told : decidersOf directives number ≠ [] ∨ ∃ direction ∈ given,
      direction.expr.number = number ∧ direction.directive.decides = true) :
    decidersOf (follow directives given) number ≠ [] := by
  induction given generalizing directives with
  | nil =>
      rcases told with already | ⟨_, none, -⟩
      · exact already
      · contradiction
  | cons first rest induction =>
      apply induction
      rcases told with already | ⟨direction, member, same, decides⟩
      · exact .inl (decidersOf_insert_ne_nil already)
      · rcases List.mem_cons.1 member with rfl | later
        · left
          subst same
          rw [decidersOf, Directives.get_insert, if_pos rfl]
          split
          · rename_i given
            obtain ⟨known, among, alike⟩ := List.contains_iff_exists_mem_beq.1 given
            exact List.ne_nil_of_mem (List.mem_filter.2 ⟨among, decides_of_beq alike decides⟩)
          · rw [List.filter_append]
            refine List.append_ne_nil_of_right_ne_nil _ ?_
            simp [decides]
        · exact .inr ⟨direction, later, same, decides⟩

end
end Lowering

/-! ## Fitting -/

/-- What is true of a lowering of a finished body. -/
structure Lowering.Fits (body : Body) (lowering : Lowering) : Prop where
  /-- The expressions entered are those of the statements and clauses. -/
  entered : lowering.entered.Perm (numbersOf body.trees)
  /-- None is entered twice. -/
  once : lowering.entered.Nodup
  /-- Only expressions of statements and clauses have directives. -/
  placed : ∀ number, lowering.directives.get number ≠ [] → number ∈ numbersOf body.trees
  /-- Every directive is at an expression of its sort. -/
  suits : ∀ tree ∈ body.trees, ∀ expr ∈ tree.preorder,
    ∀ directive ∈ lowering.directives.get expr.number, directive.Suits body expr
  /-- At most one directive decides the form of an expression. -/
  single : ∀ number, (decidersOf lowering.directives number).length ≤ 1
  /-- One directive decides the form of an access: its mark, or that it has no form. -/
  access : ∀ tree ∈ body.trees, ∀ expr ∈ tree.preorder, expr.isAccess = true →
    (∃ mark, decidersOf lowering.directives expr.number = [.memberAccess mark]) ∨
      decidersOf lowering.directives expr.number = [.unsupported]
  /-- A directive that replaces an expression has a text for it. -/
  printed : ∀ tree ∈ body.trees, ∀ expr ∈ tree.preorder,
    ∀ directive ∈ Rendering.directivesOf ⟨body, lowering.directives⟩ expr,
      directive.replaces = true → ∀ render,
        (Rendering.replacement? ⟨body, lowering.directives⟩ render expr directive).isSome = true

namespace Lowering

section

variable {body : Body} {lowering : Lowering} {types : TypeReport} {log : Log} {number : Nat}
  {directive : Directive} {tree expr : Expr}

/-- A directive that is there was given. -/
theorem Follows.given (follows : Follows { types } log lowering)
    (member : directive ∈ lowering.directives.get number) :
    ∃ direction ∈ log.given, direction.expr.number = number ∧ direction.directive = directive := by
  rw [follows.directives] at member
  rcases mem_follow member with early | found
  · exact absurd early (by rw [get_empty]; exact List.not_mem_nil)
  · exact found

variable (follows : Follows { types } log lowering)
  (tallies : log.Tallies body (fun _ => true) Limits.renderDepth body.trees)
include follows tallies

section

variable (distinct : (numbersOf body.trees).Nodup) (known : tree ∈ body.trees)
  (inside : expr ∈ tree.preorder) (member : directive ∈ lowering.directives.get expr.number)
include distinct known inside member

/-- What an expression is told was given to it. -/
theorem Follows.told :
    (⟨expr, directive⟩ : Direction) ∈ log.given ∧
      ∃ other ∈ body.trees, Direction.Fits body other ⟨expr, directive⟩ := by
  obtain ⟨⟨given, directive⟩, among, same, rfl⟩ := follows.given member
  obtain ⟨other, knownOther, fits⟩ := tallies.fits _ among
  obtain rfl := Body.eq_of_number distinct known inside knownOther fits.inside same
  exact ⟨among, other, knownOther, fits⟩

/-- Every directive is at an expression of its sort. -/
theorem Follows.suits : directive.Suits body expr := by
  obtain ⟨-, other, -, fits⟩ := follows.told tallies distinct known inside member
  exact fits.suits

end

/-- At most one directive decides the form of an expression. -/
theorem Follows.single (distinct : (numbersOf body.trees).Nodup) :
    (decidersOf lowering.directives number).length ≤ 1 := by
  obtain ⟨chosen, same, sublist⟩ := tallies.once
  rw [List.filter_true] at sublist
  rw [Body.numbersOf_eq_map] at distinct
  have once := (sublist.map Expr.number).nodup distinct
  have counted := List.nodup_iff_count_le_one.1 ((same.map Expr.number).nodup_iff.1 once) number
  rw [List.map_map] at counted
  have most := @length_decidersOf_le {} log.given number
  have nothing : decidersOf {} number = [] := by
    rw [decidersOf, get_empty]
    rfl
  rw [nothing, List.length_nil, Nat.zero_add] at most
  rw [follows.directives]
  exact Nat.le_trans most counted

/-- One directive decides the form of an access. -/
theorem Follows.access (distinct : (numbersOf body.trees).Nodup)
    (shallow : ∀ tree ∈ body.trees, tree.levels ≤ Limits.renderDepth) (known : tree ∈ body.trees)
    (inside : expr ∈ tree.preorder) (isAccess : expr.isAccess = true) :
    (∃ mark, decidersOf lowering.directives expr.number = [.memberAccess mark]) ∨
      decidersOf lowering.directives expr.number = [.unsupported] := by
  obtain ⟨direction, among, rfl⟩ := List.mem_map.1 (tallies.accesses shallow expr
    (List.mem_flatMap.2 ⟨tree, known, inside⟩) isAccess)
  obtain ⟨listed, decides⟩ := List.mem_filter.1 among
  have told : decidersOf lowering.directives direction.expr.number ≠ [] := by
    rw [follows.directives]
    exact decidersOf_follow_ne_nil (.inr ⟨direction, listed, rfl, decides⟩)
  obtain ⟨form, alone⟩ : ∃ form, decidersOf lowering.directives direction.expr.number = [form] := by
    have most :=
      @Follows.single body lowering types log direction.expr.number follows tallies distinct
    have least := List.length_pos_iff.2 told
    exact List.length_eq_one_iff.1 (by omega)
  obtain ⟨member, deciding⟩ : form ∈ lowering.directives.get direction.expr.number ∧
      form.decides = true :=
    List.mem_filter.1 (show form ∈ decidersOf .. from alone ▸ List.mem_singleton_self form)
  rw [alone]
  rcases Directive.eq_of_isAccess (follows.suits tallies distinct known inside member) isAccess
    deciding with ⟨mark, rfl⟩ | rfl
  · exact .inl ⟨mark, rfl⟩
  · exact .inr rfl

end
end Lowering

/-- **Fitting.**  The lowering of a body that is read successfully fits it. -/
theorem Body.lower_fits {context : Context} {options : Options} {lines : List String} {body : Body}
    {types : TypeReport} {lowering : Lowering}
    (read : Body.ofLines context options lines = .ok body)
    (shallow : ∀ tree ∈ body.trees, tree.levels ≤ Limits.renderDepth)
    (lowered : body.lower types = .ok lowering) : lowering.Fits body := by
  obtain ⟨log, follows, tallies⟩ := (Body.ofLines_wellFormed read).lower_follows lowered
  have distinct := (Body.ofLines_forest read).distinct
  have entered : lowering.entered = log.entered.reverse := by
    rw [follows.entered, List.append_nil]
  have all : lowering.entered.Perm (numbersOf body.trees) := by
    rw [entered]
    exact (List.reverse_perm _).trans (tallies.entered shallow)
  refine ⟨all, all.nodup_iff.2 distinct, ?_, ?_, ?_, ?_, ?_⟩
  · intro number some_
    obtain ⟨directive, member⟩ := List.exists_mem_of_ne_nil _ some_
    obtain ⟨direction, among, rfl, -⟩ := follows.given member
    obtain ⟨tree, known, fits⟩ := tallies.fits direction among
    exact mem_numbersOf.2 ⟨tree, known, List.mem_map_of_mem fits.inside⟩
  · exact fun tree known expr inside directive => follows.suits tallies distinct known inside
  · exact fun number => follows.single tallies distinct
  · exact fun tree known expr inside => follows.access tallies distinct shallow known inside
  · intro tree known expr inside directive member replaces render
    obtain ⟨node, own⟩ := isPresent_iff.1 (isPresent_of_mem_preorder inside)
    have given : directive ∈ lowering.directives.get expr.number := by
      rw [number_of_node? own]
      simpa only [Rendering.directivesOf, own] using member
    have suits := follows.suits tallies distinct known inside given
    exact suits.isSome_replacement? replaces

/-- A comparison with null in a loop, an outer receiver, a thrown construction, an array at its
place. -/
theorem Body.lower_fits_statements :
    ∃ body lowering, Body.ofLines {} {} ["int[] a = null; f(A.this.b, new int[c]);",
        "while (a != null) throw new E(d instanceof F);"] = .ok body ∧
      body.lower {} = .ok lowering ∧ lowering.entered.length = 20 ∧ lowering.Fits body := by
  have runs : ((Body.ofLines {} {} ["int[] a = null; f(A.this.b, new int[c]);",
      "while (a != null) throw new E(d instanceof F);"]).toOption.bind fun body =>
        if ∀ tree ∈ body.trees, tree.levels ≤ Limits.renderDepth then
          (body.lower {}).toOption.map fun lowering => lowering.entered.length
        else none) = some 20 := by decide +kernel
  revert runs
  cases read : Body.ofLines {} {} ["int[] a = null; f(A.this.b, new int[c]);",
      "while (a != null) throw new E(d instanceof F);"] with
  | error failure => exact nofun
  | ok body =>
      simp only [Except.toOption, Option.bind_some]
      split
      · rename_i shallow
        cases lowered : body.lower {} with
        | error fault => exact nofun
        | ok lowering =>
            intro count
            exact ⟨body, lowering, rfl, lowered, Option.some.inj count,
              Body.lower_fits read shallow lowered⟩
      · exact nofun

end MethodLowering
