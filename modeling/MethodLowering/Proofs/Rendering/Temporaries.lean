import MethodLowering.Proofs.Lowering.Fitting
import MethodLowering.Proofs.Rendering.Shown

/-!
# Temporaries

A temporary is given to an assignment that is an expression statement.  The statement is written as
two lines: the declaration of the temporary, and the assignment of the temporary to the target.
Temporaries are numbered through the whole body, so that no two have the same name.  The numbers are
not compared with the names of variables.
-/

namespace MethodLowering

open MethodLowering.Expr Lowering Rendering

/-! ## Names -/

namespace Lowering

theorem temporaryName_injective {first second : Nat}
    (same : temporaryName first = temporaryName second) : first = second := by
  have texts := congrArg String.toList same
  simp only [temporaryName, String.toList_append, List.append_cancel_left_eq] at texts
  exact Text.eq_of_toString texts

theorem eq_of_nodup_filterMap {α β : Type} {select : α → Option β} {items : List α}
    (distinct : (items.filterMap select).Nodup) {first second : α} {value : β}
    (known : first ∈ items) (knownSecond : second ∈ items) (found : select first = some value)
    (foundSecond : select second = some value) : first = second := by
  rw [List.filterMap_eq_flatMap_toList] at distinct
  exact eq_of_nodup_flatMap distinct known knownSecond
    (by rw [found]; exact List.mem_singleton_self _)
    (by rw [foundSecond]; exact List.mem_singleton_self _)

section

variable {body : Body} {lowering : Lowering} {types : TypeReport} {log : Log}

/-- The names of the temporaries are those of the numbers up to their count. -/
theorem Follows.names_eq (follows : Follows { types } log lowering) :
    log.names = (List.range' 1 lowering.temporaries).map temporaryName := by
  have count : lowering.temporaries = log.names.length :=
    follows.temporaries.trans (Nat.zero_add _)
  rw [count]
  exact follows.names

theorem Follows.names_nodup (follows : Follows { types } log lowering) : log.names.Nodup := by
  rw [follows.names_eq]
  exact List.Nodup.map (fun _ _ => temporaryName_injective) List.nodup_range'

end
end Lowering

/-! ## Statements -/

section

variable {body : Body} {lowering : Lowering} {types : TypeReport} {log : Log} {number : Nat}
  {root : Expr}

/-- The root of a tree stands below no other tree. -/
theorem not_mem_below (distinct : (numbersOf body.trees).Nodup) (known : root ∈ body.trees)
    {tree : Expr} (knownTree : tree ∈ body.trees) (present : root.isPresent = true) :
    root ∉ tree.children.flatMap preorder := by
  intro below
  have inside : root ∈ tree.preorder := mem_preorder.2 (.inr (List.mem_flatMap.1 below))
  rw [Body.numbersOf_eq_map] at distinct
  obtain rfl :=
    eq_of_nodup_flatMap distinct.of_map knownTree known inside (mem_preorder_self present)
  have once := (List.nodup_flatMap.1 distinct.of_map).1 tree known
  rw [preorder_eq present, List.nodup_cons] at once
  exact once.1 below

/-- The directive of a statement with a temporary is its only one. -/
theorem Lowering.Follows.get_eq_of_temporary (follows : Follows { types } log lowering)
    (tallies : log.Tallies body (fun _ => true) Limits.renderDepth body.trees)
    (distinct : (numbersOf body.trees).Nodup) (known : root ∈ body.trees)
    {name arrayType : String} {dimensions : List Expr} (present : root.isPresent = true)
    (outer : root.isPlainAssignment = true)
    (member : .arrayTemporary name arrayType dimensions ∈ lowering.directives.get root.number) :
    lowering.directives.get root.number = [.arrayTemporary name arrayType dimensions] := by
  have all : ∀ directive ∈ lowering.directives.get root.number, directive.decides = true := by
    intro directive among
    have suits := follows.suits tallies distinct known (mem_preorder_self present) among
    have notName : root.isIdentifier = false := by
      cases root with
      | assignment node op target value => rfl
      | _ => contradiction
    cases directive with
    | toText =>
        obtain ⟨-, tree, knownTree, fits⟩ :=
          follows.told tallies distinct known (mem_preorder_self present) among
        exact absurd (fits.below rfl) (not_mem_below distinct known knownTree present)
    | outerField => exact absurd suits (by simp [Directive.Suits, notName])
    | smartHandleGet => exact absurd suits (by simp [Directive.Suits, notName])
    | _ => rfl
  have whole : decidersOf lowering.directives root.number = lowering.directives.get root.number :=
    List.filter_eq_self.2 all
  have most := @Follows.single body lowering types log root.number follows tallies distinct
  rw [whole] at most
  obtain ⟨only, alone⟩ := List.length_eq_one_iff.1
    (Nat.le_antisymm most (List.length_pos_of_mem member))
  rw [alone, List.mem_singleton] at member
  rw [alone, member]

/-- The lines of a statement with a temporary: its declaration, and the assignment that uses it. -/
def Rendering.temporaryLines (rendering : Rendering) (target : Expr) (name arrayType : String)
    (dimensions : List Expr) : List Page.Step :=
  [.line ("/* auto generated */ " ++ applied (rendering.spellType arrayType ++ " " ++ name)
      (dimensions.map rendering.expression) ++ ";"),
    .line (rendering.expressionFrom (Limits.renderDepth - 1) target ++ " = " ++ name ++ ";")]

/-- A statement with a temporary is written as the declaration and the assignment. -/
theorem Rendering.expressionLines_temporary {rendering : Rendering} {node : Node}
    {target value : Expr} {name arrayType : String} {dimensions : List Expr}
    (only : rendering.directives.get node.id = [.arrayTemporary name arrayType dimensions]) :
    rendering.expressionLines (.assignment node .assign target value) =
      rendering.temporaryLines target name arrayType dimensions := by
  have own : rendering.directivesOf (.assignment node .assign target value) =
      [.arrayTemporary name arrayType dimensions] := only
  have text : rendering.expression (.assignment node .assign target value) =
      rendering.expressionFrom (Limits.renderDepth - 1) target ++ " = " ++ name := by
    rw [expression, show Limits.renderDepth = Limits.renderDepth - 1 + 1 from rfl,
      expressionFrom, own]
    rfl
  rw [expressionLines, preludeLines, own, text]
  rfl

end

/-! ## Hygiene -/

/-- The names of the parameters and locals of a body and of the fields of the classes around it. -/
def Body.sourceNames (body : Body) : List String :=
  body.vars.toList.map (·.name) ++ body.context.classes.flatMap fun type => type.fields.map (·.name)

/-- What is true of the temporaries of a lowering. -/
structure Lowering.Hygienic (body : Body) (lowering : Lowering) : Prop where
  /-- A temporary is given to the root of an expression statement.  Wherever the statement is
  written, it is the declaration of the temporary on a line directly in front of the line that uses
  it; the text of the body has these lines. -/
  rooted : ∀ number name arrayType dimensions,
    .arrayTemporary name arrayType dimensions ∈ lowering.directives.get number →
    ∃ paragraph ∈ body.paragraphs, ∃ node target value sight, node.id = number ∧
      Item.expression ⟨.assignment node .assign target value, sight⟩ ∈ paragraph.items ∧
      (∀ lines, Rendering.itemLines ⟨body, lowering.directives⟩ lines
          (.expression ⟨.assignment node .assign target value, sight⟩) =
        Rendering.temporaryLines ⟨body, lowering.directives⟩ target name arrayType dimensions) ∧
      Rendering.temporaryLines ⟨body, lowering.directives⟩ target name arrayType dimensions <:+:
        Rendering.paragraphLines ⟨body, lowering.directives⟩ Body.root
  /-- The temporaries of two expressions have different names. -/
  distinct : ∀ first second name firstType secondType firstDimensions secondDimensions,
    .arrayTemporary name firstType firstDimensions ∈ lowering.directives.get first →
    .arrayTemporary name secondType secondDimensions ∈ lowering.directives.get second →
    first = second
  /-- A temporary has its name in common with a parameter, local or field only where that is the
  stem of all temporaries with the number of one of them. -/
  apart : ∀ number name arrayType dimensions,
    .arrayTemporary name arrayType dimensions ∈ lowering.directives.get number →
    ∀ taken ∈ body.sourceNames, name = taken →
      ∃ count, 1 ≤ count ∧ count ≤ lowering.temporaries ∧ taken = "tempArray" ++ toString count

/-- **Temporaries.**  The temporaries of a body that is read successfully stand at statements, and
no two share a name. -/
theorem Body.lower_hygienic {context : Context} {options : Options} {lines : List String}
    {body : Body} {types : TypeReport} {lowering : Lowering}
    (read : Body.ofLines context options lines = .ok body)
    (lowered : body.lower types = .ok lowering) : lowering.Hygienic body := by
  have wellFormed := Body.ofLines_wellFormed read
  have distinct := (Body.ofLines_forest read).distinct
  obtain ⟨log, follows, tallies⟩ := wellFormed.lower_follows lowered
  have listed {number : Nat} {name arrayType : String} {dimensions : List Expr}
      (member : .arrayTemporary name arrayType dimensions ∈ lowering.directives.get number) :
      ∃ direction ∈ log.given, direction.expr.number = number ∧
        temporary? direction.directive = some name ∧
        direction.directive = .arrayTemporary name arrayType dimensions := by
    obtain ⟨direction, given, same, form⟩ := follows.given member
    exact ⟨direction, given, same, by rw [form]; rfl, form⟩
  refine ⟨?_, ?_, ?_⟩
  · intro number name arrayType dimensions member
    obtain ⟨direction, given, rfl, -, form⟩ := listed member
    obtain ⟨paragraph, known, placed, inside, same⟩ :=
      tallies.splits direction given (by rw [form]; rfl)
    obtain ⟨tree, knownTree, fits⟩ := tallies.fits direction given
    have suits := fits.suits
    rw [form] at suits
    obtain ⟨node, target, value, shape, -⟩ := suits
    obtain ⟨expr, sight⟩ := placed
    obtain rfl : expr = .assignment node .assign target value := same.trans shape
    have statement : Expr.assignment node .assign target value ∈ body.trees := by
      refine List.mem_append_left _ (List.mem_flatMap.2
        ⟨paragraph, Array.mem_toList_iff.2 known, ?_⟩)
      exact List.mem_flatMap.2 ⟨_, Array.mem_toList_iff.2 inside, List.mem_singleton_self _⟩
    rw [shape] at member
    have only := follows.get_eq_of_temporary tallies distinct statement rfl rfl member
    have written (lines : ParagraphId → List Page.Step) :
        Rendering.itemLines ⟨body, lowering.directives⟩ lines
          (.expression ⟨.assignment node .assign target value, sight⟩) =
        Rendering.temporaryLines ⟨body, lowering.directives⟩ target name arrayType dimensions :=
      Rendering.expressionLines_temporary only
    have shown : ∃ nesting, Rendering.itemLines ⟨body, lowering.directives⟩
        (Rendering.paragraphFrom ⟨body, lowering.directives⟩ nesting)
        (.expression ⟨.assignment node .assign target value, sight⟩) <:+:
        Rendering.paragraphLines ⟨body, lowering.directives⟩ Body.root :=
      Rendering.shown_root wellFormed known inside
    obtain ⟨nesting, shown⟩ := shown
    rw [written] at shown
    refine ⟨paragraph, known, node, target, value, sight, ?_, inside, written, shown⟩
    rw [shape]
    rfl
  · intro first second name firstType secondType firstDimensions secondDimensions one other
    obtain ⟨direction, given, rfl, named, -⟩ := listed one
    obtain ⟨direction', given', rfl, named', -⟩ := listed other
    rw [eq_of_nodup_filterMap follows.names_nodup given given' named named']
  · rintro number name arrayType dimensions member taken - rfl
    obtain ⟨direction, given, -, named, -⟩ := listed member
    have among : name ∈ log.names := List.mem_filterMap.2 ⟨direction, given, named⟩
    rw [follows.names_eq] at among
    obtain ⟨count, between, rfl⟩ := List.mem_map.1 among
    obtain ⟨least, most⟩ := List.mem_range'_1.1 between
    exact ⟨count, least, by omega, rfl⟩

/-- Two temporaries, one of them in a loop. -/
theorem Body.lower_hygienic_loop :
    ∃ body lowering, Body.ofLines {} {} ["int[] a = b;", "a = new int[2];",
        "while (c) a = new int[d];"] = .ok body ∧
      body.lower {} = .ok lowering ∧ lowering.temporaries = 2 ∧ lowering.Hygienic body := by
  have runs : ((Body.ofLines {} {} ["int[] a = b;", "a = new int[2];",
      "while (c) a = new int[d];"]).toOption.bind fun body =>
        (body.lower {}).toOption.map fun lowering => lowering.temporaries) = some 2 := by
    decide +kernel
  revert runs
  cases read : Body.ofLines {} {} ["int[] a = b;", "a = new int[2];", "while (c) a = new int[d];"]
    with
  | error failure =>
      intro impossible
      cases impossible
  | ok body =>
      simp only [Except.toOption, Option.bind_some]
      cases lowered : body.lower {} with
      | error fault =>
          intro impossible
          cases impossible
      | ok lowering =>
          intro count
          exact ⟨body, lowering, rfl, lowered, Option.some.inj count,
            Body.lower_hygienic read lowered⟩

/-- A local may have the name of a temporary. -/
theorem Body.lower_sourceName :
    ∃ body lowering, Body.ofLines {} {} ["int[] tempArray1 = b;", "tempArray1 = new int[2];"] =
        .ok body ∧ body.lower {} = .ok lowering ∧ ∃ number name arrayType dimensions,
        .arrayTemporary name arrayType dimensions ∈ lowering.directives.get number ∧
          name ∈ body.sourceNames := by
  have runs : ((Body.ofLines {} {} ["int[] tempArray1 = b;",
      "tempArray1 = new int[2];"]).toOption.bind fun body =>
        (body.lower {}).toOption.map fun lowering =>
          (lowering.directives.get 7).any fun directive =>
          (temporary? directive).any body.sourceNames.contains) = some true := by
    decide +kernel
  revert runs
  cases read : Body.ofLines {} {} ["int[] tempArray1 = b;", "tempArray1 = new int[2];"] with
  | error failure =>
      intro impossible
      cases impossible
  | ok body =>
      simp only [Except.toOption, Option.bind_some]
      cases lowered : body.lower {} with
      | error fault =>
          intro impossible
          cases impossible
      | ok lowering =>
          intro shared
          obtain ⟨directive, member, named⟩ := List.any_eq_true.1 (Option.some.inj shared)
          cases directive with
          | arrayTemporary name arrayType dimensions =>
              have known : name ∈ body.sourceNames := List.contains_iff_mem.1 named
              exact ⟨body, lowering, rfl, lowered, 7, name, arrayType, dimensions, member, known⟩
          | _ => exact absurd named Bool.false_ne_true

end MethodLowering
