import MethodLowering.Proofs.Output.Faults
import MethodLowering.Proofs.Text.Dimensions

/-!
# Declared types and categories

The declared type of an expression and its category are found by two recursions over the tree.
Where the first finds a type, the second gives the category of that type.  Only a construction is
told apart: what it yields is fresh, not yet held by anything.  A third way leads over the members
of a class.
-/

namespace MethodLowering

open MethodLowering.Expr Body Reader

/-! ## Results -/

namespace TypeName

open Text

/-- The type is nothing but blanks, or `void`. -/
def isValueless (name : List Char) : Bool :=
  (trim name).isEmpty || String.ofList (trim name) == "void"

theorem trim_trim (text : List Char) : trim (trim text) = trim text := by
  have noBlank (chars : List Char) : (trimStart chars).head?.any isBlank = false := by
    have first := List.head?_dropWhile_not isBlank chars
    rw [trimStart]
    cases head : (chars.dropWhile isBlank).head? with
    | none => rfl
    | some c => simpa [head] using first
  have front : trimStart (trim text) = trim text := by
    apply trimStart_eq_self
    have isPart : trim text <+: trimStart text := by
      rw [← List.reverse_suffix, trim_backwards]
      exact List.dropWhile_suffix isBlank
    cases whole : trim text with
    | nil => simp
    | cons c rest =>
        rw [whole] at isPart
        have first := noBlank text
        obtain ⟨more, same⟩ := isPart
        rw [← same] at first
        simpa using first
  have back : trimEnd (trim text) = trim text := by
    apply trimEnd_eq_self
    rw [← List.head?_reverse, trim_backwards, noBlank]
    exact Bool.false_ne_true
  conv_lhs => rw [trim, front, back]

theorem classifyResult_of_value {name : List Char} (value : isValueless name = false)
    (extra : List String) : classifyResult extra name = classify extra name := by
  have same : classify extra (trim name) = classify extra name := by
    rw [classify, strip, trim_trim]
    rfl
  rw [← same, classifyResult]
  exact if_neg (by rw [← isValueless, value]; exact Bool.false_ne_true)

theorem isValueless_addDimensions (element : List Char) (count : Nat) :
    isValueless (addDimensions (String.ofList element) (count + 1)).toList = false := by
  have turned := trim_append_pairs element count
  rw [isValueless, Bool.or_eq_false_iff]
  constructor
  · refine List.isEmpty_eq_false_iff.2 fun empty => ?_
    rw [empty] at turned
    contradiction
  · refine beq_eq_false_iff_ne.2 fun void => ?_
    rw [← String.toList_inj, String.toList_ofList] at void
    rw [void] at turned
    exact absurd (List.cons.inj turned).1 (by decide)

end TypeName

/-! ## Variables -/

/-- The category of every variable is that of its type. -/
def Body.Classifies (body : Body) : Prop :=
  ∀ entry ∈ body.vars, entry.category = TypeName.classify body.extraContainers entry.typeName.toList

section

variable {scope : ParagraphId} {base before after body : Body} {context : Context}
  {options : Options} {lines : List String} {sight : Sight}

theorem Body.Declares.classifies (declares : Declares scope before after)
    (classifies : before.Classifies) : after.Classifies := by
  obtain ⟨added, nextNode, effort, rfl, -, locals⟩ := declares
  intro entry member
  rcases Array.mem_append.1 member with old | new
  · exact classifies entry old
  · exact (locals entry (List.mem_toArray.1 new)).category

theorem Edit.classifies (edit : Edit base before after) (classifies : before.Classifies) :
    after.Classifies := by
  cases edit with
  | read reads own inside => exact reads.declares.classifies classifies
  | note new notes =>
      obtain ⟨added, rfl, -⟩ := notes
      exact classifies
  | _ => exact classifies

theorem Edits.classifies (edits : Edits base before after) (classifies : before.Classifies) :
    after.Classifies := by
  induction edits with
  | refl => exact classifies
  | tail _ edit induction => exact edit.classifies induction

/-- In a body that is read the category of every variable is that of its type. -/
theorem Body.ofLines_classifies (read : Body.ofLines context options lines = .ok body) :
    body.Classifies := by
  obtain ⟨reader, reached, -, rfl⟩ := Body.ofLines_reaches read
  have start : (Body.initial context options).Classifies :=
    (declares_initial context options).classifies (by simp [Classifies])
  exact (reached.since (since_initial context options)).edits.classifies start

/-- What a name stands for is a variable of the body or a field. -/
theorem Body.Classifies.lookupAt (classifies : body.Classifies) {name : String} {entry : Variable}
    (found : body.lookupAt sight name = some entry) :
    entry.category = TypeName.classify body.extraContainers entry.typeName.toList := by
  rw [Body.lookupAt, Option.or_eq_some_iff] at found
  rcases found with declared | ⟨-, field⟩
  · obtain ⟨paragraph, -, shown⟩ := List.exists_of_findSome?_eq_some declared
    have listed := List.mem_of_find?_eq_some shown
    rw [visibleVariables_eq, List.mem_filterMap] at listed
    obtain ⟨id, -, known⟩ := listed
    exact classifies entry (Array.mem_of_getElem? known)
  · obtain ⟨pair, -, rfl⟩ := Option.map_eq_some_iff.1 field
    rfl

/-- Every tree of a body that is read is built everywhere. -/
theorem Body.ofLines_built {placed : Placed} (read : Body.ofLines context options lines = .ok body)
    (has : body.HasTree placed) : placed.expr.Built := by
  obtain ⟨reader, reached, -, rfl⟩ := Body.ofLines_reaches read
  have grown := Edits.grown (reached.since (since_initial context options)).edits
  intro inner inside
  obtain ⟨root, isRead, within⟩ :=
    (grown.isNew_of_hasTree (show reader.body.HasTree placed from has)).origin inner inside
  exact isRead.built inner within

end

/-! ## Types and categories of expressions -/

/-- The expression indexes something or constructs an array. -/
def Expr.isIndex : Expr → Bool
  | .index .. => true
  | _ => false

/-- The expression whose value an assignment, and a pair of round brackets, hands on. -/
def Expr.bearer : Expr → Expr
  | .assignment _ _ target _ => target.bearer
  | .group _ false [inner] => inner.bearer
  | expr => expr

namespace Body

/-- An index follows a construction, or a value whose declared type has dimensions. -/
def IndexesArray (body : Body) (sight : Sight) : Expr → Prop
  | .index _ target _ _ => target.isConstruction = true ∨ ∃ typeName,
      body.declaredType sight target = .ok (some typeName) ∧ 0 < TypeName.dimensions typeName.toList
  | _ => True

section

variable {body : Body} {sight : Sight} {node place : Node} {target initializer expr : Expr}
  {indices : List Expr} {typeName : String}

theorem indexedType_eq (typeName : String) (count : Nat) :
    indexedType typeName count =
      TypeName.addDimensions (String.ofList (TypeName.element typeName.toList))
        (TypeName.dimensions typeName.toList - count) :=
  rfl

theorem declaredType_index (other : target.isConstruction = false)
    (typed : body.declaredType sight target = .ok (some typeName)) :
    body.declaredType sight (.index node target indices initializer) =
      .ok (some (indexedType typeName indices.length)) := by
  rw [declaredType, typed]
  simp [Bind.bind, Except.bind, other]
  rfl

theorem declaredType_arrayConstruction :
    body.declaredType sight (.index node (.leaf place (.construction typeName)) indices
      initializer) =
      .ok (some (TypeName.addDimensions (String.ofList (TypeName.element typeName.toList))
        (TypeName.dimensions typeName.toList + indices.length))) := by
  rw [declaredType, declaredType]
  rfl

theorem category_index (other : target.isConstruction = false)
    (typed : body.declaredType sight target = .ok (some typeName))
    (dimensioned : 0 < TypeName.dimensions typeName.toList) :
    body.category sight (.index node target indices initializer) =
      .ok (body.classify (indexedType typeName indices.length)) := by
  have present : target.isAbsent = false := by
    cases target with
    | absent => simp [declaredType] at typed
    | _ => rfl
  have positive : (TypeName.dimensions typeName.toList == 0) = false :=
    beq_eq_false_iff_ne.2 (Nat.ne_of_gt dimensioned)
  rw [category, indexCategory, present, other, typed]
  simp [Bind.bind, Except.bind, elementCategory, positive]
  rfl

theorem category_arrayConstruction :
    body.category sight (.index node (.leaf place (.construction typeName)) indices initializer) =
      .ok .array := by
  rw [category]
  rfl

theorem eq_construction (constructs : expr.isConstruction = true) :
    ∃ place constructed, expr = .leaf place (.construction constructed) := by
  obtain ⟨constructed, same⟩ := Option.isSome_iff_exists.1 constructs
  unfold constructedType? at same
  split at same
  · exact ⟨_, _, rfl⟩
  · contradiction

/-- The value of a declared type has the category of the type, unless it is a construction. -/
theorem Classifies.category_eq (classifies : body.Classifies) (built : expr.Built)
    (arrays : expr.Everywhere (body.IndexesArray sight)) (held : expr.bearer.isConstruction = false)
    (typed : body.declaredType sight expr = .ok (some typeName))
    (value : TypeName.isValueless typeName.toList = false) :
    body.category sight expr = .ok (TypeName.classify body.extraContainers typeName.toList) := by
  have result : body.classify typeName = TypeName.classify body.extraContainers typeName.toList :=
    TypeName.classifyResult_of_value value _
  induction expr using Body.declaredType.induct body sight with
  | case1 node declared continued =>
      simp only [declaredType, Except.ok.injEq, Option.map_eq_some_iff] at typed
      obtain ⟨entry, known, rfl⟩ := typed
      simp only [category, known]
      exact congrArg _ (classifies entry (Array.mem_of_getElem? known))
  | case2 node =>
      simp only [declaredType, Except.ok.injEq, Option.map_eq_some_iff] at typed
      obtain ⟨entry, found, rfl⟩ := typed
      simp only [category, found]
      exact congrArg _ (classifies.lookupAt found)
  | case3 node constructed => contradiction
  | case4 node castType operand =>
      rw [declaredType, Except.ok.injEq, Option.some.injEq] at typed
      subst typed
      rw [category, result]
  | case5 node op target assigned induction =>
      rw [declaredType] at typed
      rw [category]
      exact induction (built.part [target, assigned] rfl rfl (by simp))
        (Everywhere.part [target, assigned] arrays rfl rfl (by simp)) held typed
  | case6 node inner induction =>
      rw [declaredType] at typed
      rw [category]
      exact induction (built.part [inner] rfl rfl (by simp))
        (Everywhere.part [inner] arrays rfl rfl (by simp)) held typed
  | case7 node subject member depth place named found =>
      simp only [declaredType, found, named] at typed
      cases known : body.classAt depth with
      | error fault => simp [known, Bind.bind, Except.bind] at typed
      | ok type =>
          simp only [known, Bind.bind, Except.bind, Pure.pure, Except.pure, Except.ok.injEq,
            Option.map_eq_some_iff] at typed
          obtain ⟨field, declares, rfl⟩ := typed
          have member : body.classMemberCategory? depth (.field place) =
              .ok (some (body.classify field.typeName)) := by
            simp [classMemberCategory?, known, Bind.bind, Except.bind, Pure.pure,
              Except.pure, declares]
          simp only [category, found, named, member, result]
          rfl
  | case8 node subject member other =>
      rw [declaredType] at typed
      split at typed
      · next depth place found named => exact (other depth place found named).elim
      · cases typed
  | case9 node target indices initializer induction =>
      cases constructs : target.isConstruction with
      | true =>
          obtain ⟨place, constructed, rfl⟩ := eq_construction constructs
          obtain ⟨further, count⟩ := Nat.exists_eq_succ_of_ne_zero
            (mt List.length_eq_zero_iff.1 ((everywhere_iff rfl).1 built).1)
          rw [declaredType_arrayConstruction, count, Nat.add_succ] at typed
          obtain rfl := Option.some.inj (Except.ok.inj typed)
          rw [category_arrayConstruction, TypeName.classify_addDimensions]
      | false =>
          rcases ((everywhere_iff rfl).1 arrays).1
            with construction | ⟨container, known, dimensioned⟩
          · exact absurd construction (by simp [constructs])
          · rw [declaredType_index constructs known] at typed
            obtain rfl := Option.some.inj (Except.ok.inj typed)
            rw [category_index constructs known dimensioned, result]
  | case10 expr =>
      rw [declaredType] at typed
      · cases typed
      all_goals assumption

/-- What is known of the declared type of an expression and of its category. -/
structure IsTyped (body : Body) (sight : Sight) (expr : Expr) : Prop where
  /-- The category is that of the declared type, unless a construction is handed on. -/
  agrees : ∀ typeName, body.declaredType sight expr = .ok (some typeName) →
    expr.bearer.isConstruction = false → expr.Everywhere (body.IndexesArray sight) →
    TypeName.isValueless typeName.toList = false →
    body.category sight expr = .ok (TypeName.classify body.extraContainers typeName.toList)
  /-- Indices take dimensions off, down to none. -/
  removes : ∀ node target indices initializer typeName,
    expr = .index node target indices initializer → target.isConstruction = false →
    body.declaredType sight target = .ok (some typeName) →
    let element := TypeName.element typeName.toList
    let dimensions := TypeName.dimensions typeName.toList
    let rest := TypeName.addDimensions (String.ofList element)
      (dimensions - min indices.length dimensions)
    body.declaredType sight expr = .ok (some rest) ∧
      (0 < dimensions → body.category sight expr = .ok (body.classify rest)) ∧
      (TypeName.dimensions element = 0 →
        TypeName.dimensions rest.toList = dimensions - min indices.length dimensions)
  /-- The brackets of an array construction, of which there is a pair at least, add dimensions. -/
  adds : ∀ node place typeName indices initializer,
    expr = .index node (.leaf place (.construction typeName)) indices initializer →
    let element := TypeName.element typeName.toList
    let dimensions := TypeName.dimensions typeName.toList
    let whole := TypeName.addDimensions (String.ofList element) (dimensions + indices.length)
    body.declaredType sight expr = .ok (some whole) ∧ body.category sight expr = .ok .array ∧
      TypeName.classify body.extraContainers whole.toList = .array ∧
      (TypeName.dimensions element = 0 →
        TypeName.dimensions whole.toList = dimensions + indices.length)

theorem Classifies.isTyped (classifies : body.Classifies) (built : expr.Built) :
    body.IsTyped sight expr := by
  refine ⟨?_, ?_, ?_⟩
  · intro typeName typed held arrays value
    exact classifies.category_eq built arrays held typed value
  · rintro node target indices initializer typeName rfl other typed
    dsimp only
    rw [show ∀ high low, high - min low high = high - low by omega, ← indexedType_eq]
    refine ⟨declaredType_index other typed, category_index other typed, fun plain => ?_⟩
    exact TypeName.dimensions_addDimensions plain _
  · rintro node place typeName indices initializer rfl
    obtain ⟨further, count⟩ := Nat.exists_eq_succ_of_ne_zero
      (mt List.length_eq_zero_iff.1 ((everywhere_iff rfl).1 built).1)
    refine ⟨declaredType_arrayConstruction, category_arrayConstruction, ?_, fun plain => ?_⟩
    · rw [count]
      exact TypeName.classify_addDimensions _ _ _
    · exact TypeName.dimensions_addDimensions plain _

/-- **Types.**  In a body that is read, the declared type of an expression and its category agree:
the category is that of the type, unless a construction is handed on as it is, the type is `void` or
none, or something is indexed that has no dimensions.  An index takes one dimension off for each
pair of brackets, an array construction adds one for each. -/
theorem ofLines_isTyped {context : Context} {options : Options} {lines : List String}
    {placed : Placed}
    (read : Body.ofLines context options lines = .ok body) (has : body.HasTree placed)
    (inside : expr ∈ placed.expr.preorder) : body.IsTyped placed.sight expr :=
  (ofLines_classifies read).isTyped (Everywhere.inside (ofLines_built read has) inside)

/-- What is asked about the first statement of a body that is read. -/
theorem exists_of_leadingTree? {α : Type} (context : Context) (options : Options)
    (lines : List String) (ask : Body → Placed → α) {answer : α}
    (answers : ((Body.ofLines context options lines).toOption.bind fun body =>
      body.leadingTree?.map (ask body)) = some answer) :
    ∃ body placed, Body.ofLines context options lines = .ok body ∧ body.HasTree placed ∧
      placed.expr ∈ placed.expr.preorder ∧ ask body placed = answer := by
  obtain ⟨body, result, inner⟩ := Option.bind_eq_some_iff.1 answers
  obtain ⟨placed, leads, asked⟩ := Option.map_eq_some_iff.1 inner
  obtain ⟨has, inside⟩ := hasTree_of_leadingTree? leads
  refine ⟨body, placed, ?_, has, inside, asked⟩
  cases read : Body.ofLines context options lines with
  | error failure => simp [read, Except.toOption] at result
  | ok other => simpa [read, Except.toOption] using result

/-- A row of a table, in round brackets. -/
theorem ofLines_isTyped_row :
    ∃ body placed, Body.ofLines { parameters := [⟨"a", "int[][]", false⟩] } {}
    ["(a[0]);"] = .ok body ∧ body.HasTree placed ∧ body.IsTyped placed.sight placed.expr ∧
      body.declaredType placed.sight placed.expr = .ok (some "int[]") ∧
      body.category placed.sight placed.expr = .ok .array := by
  let ask (body : Body) (placed : Placed) :=
    (body.declaredType placed.sight placed.expr, body.category placed.sight placed.expr)
  obtain ⟨body, placed, read, has, inside, asked⟩ :=
    exists_of_leadingTree? { parameters := [⟨"a", "int[][]", false⟩] } {} ["(a[0]);"] ask
      (show _ = some (.ok (some "int[]"), .ok .array) by decide +kernel)
  simp only [ask, Prod.mk.injEq] at asked
  obtain ⟨typed, valued⟩ := asked
  exact ⟨body, placed, read, has, ofLines_isTyped read has inside, typed, valued⟩

/-- Round brackets hand a construction on: what they yield is fresh, whatever its type. -/
theorem category_fresh :
    ∃ body placed, Body.ofLines {} {} ["(new Foo);"] = .ok body ∧ body.HasTree placed ∧
      placed.expr ∈ placed.expr.preorder ∧ placed.expr.isConstruction = false ∧
      (∀ inner ∈ placed.expr.preorder, body.IndexesArray placed.sight inner) ∧
      body.declaredType placed.sight placed.expr = .ok (some "Foo") ∧
      TypeName.isValueless "Foo".toList = false ∧
      body.category placed.sight placed.expr = .ok .rawPointer ∧
      TypeName.classify body.extraContainers "Foo".toList = .ownedValue := by
  let ask (body : Body) (placed : Placed) :=
    ((placed.expr.isConstruction, placed.expr.preorder.any Expr.isIndex),
      (body.declaredType placed.sight placed.expr, body.category placed.sight placed.expr),
      TypeName.classify body.extraContainers "Foo".toList)
  obtain ⟨body, placed, read, has, inside, asked⟩ :=
    exists_of_leadingTree? {} {} ["(new Foo);"] ask
      (show _ = some ((false, false), (.ok (some "Foo"), .ok .rawPointer), .ownedValue) by
        decide +kernel)
  simp only [ask, Prod.mk.injEq] at asked
  obtain ⟨⟨bare, plain⟩, ⟨typed, fresh⟩, owned⟩ := asked
  refine ⟨body, placed, read, has, inside, bare, fun inner member => ?_, typed,
    by decide, fresh, owned⟩
  cases inner with
  | index node target indices initializer => exact absurd rfl (List.any_eq_false.1 plain _ member)
  | _ => trivial

/-! ## Members of the receiver -/

section

variable {name : String} {type : Class} {others : List Class} {field : Field} {access spot : Node}

section

variable (classes : body.context.classes = type :: others)
include classes

/-- A field of the innermost class that no variable hides is found as such. -/
theorem lookupAt_field (declares : type.field? name = some field)
    (unhidden : body.lookupAt sight name = body.field? name) :
    body.lookupAt sight name = some (Variable.ofType body.extraContainers field.name field.typeName
      field.isFinal field.isStatic (.field false) none) := by
  rw [unhidden, Body.field?, Context.field?, classes, Context.fieldFrom?, declares]
  rfl

theorem classAt_zero : body.classAt 0 = .ok type := by
  rw [classAt, classes]
  rfl

section

variable (declares : type.field? (Text.trimmed spot.text) = some field)
include declares

/-- A field has one category, whether it is named on its own or behind `this`. -/
theorem category_thisField
    (unhidden : body.lookupAt sight (Text.trimmed spot.text) = body.field? (Text.trimmed spot.text))
    (this : Text.trimmed place.text = "this")
    (value : TypeName.isValueless field.typeName.toList = false) :
    body.category sight (.access access (.leaf place .receiver) (.leaf spot .identifier)) =
      body.category sight (.leaf spot .identifier) := by
  have depth : body.classScope? sight (.leaf place .receiver) = some 0 := by
    rw [classScope?, this]
    rfl
  have member : body.classMemberCategory? 0 (.field spot) =
      .ok (some (body.classify field.typeName)) := by
    rw [classMemberCategory?, classAt_zero classes]
    simp [Bind.bind, Except.bind, Pure.pure, Except.pure, Member.name, declares]
  rw [category, category, Member.ofExpr?]
  simp only [depth, member, lookupAt_field classes declares unhidden]
  exact congrArg Except.ok (TypeName.classifyResult_of_value value _)

/-- A field that is indexed, on its own. -/
theorem category_fieldElement (unhidden : body.lookupAt sight (Text.trimmed spot.text) =
      body.field? (Text.trimmed spot.text)) :
    body.category sight (.index node (.leaf spot .identifier) indices initializer) =
      .ok (body.elementCategory field.typeName indices.length) := by
  have typed : body.declaredType sight (.leaf spot .identifier) = .ok (some field.typeName) := by
    rw [declaredType, lookupAt_field classes declares unhidden]
    rfl
  rw [category, indexCategory, typed]
  rfl

/-- Behind `this`, however many indices follow a field, only one of them counts. -/
theorem category_thisElement (this : Text.trimmed place.text = "this") :
    body.category sight (.access access (.leaf place .receiver)
        (.index node (.leaf spot .identifier) indices initializer)) =
      .ok (body.elementCategory field.typeName 1) := by
  have depth : body.classScope? sight (.leaf place .receiver) = some 0 := by
    rw [classScope?, this]
    rfl
  have member : body.classMemberCategory? 0 (.indexed spot) =
      .ok (some (body.elementCategory field.typeName 1)) := by
    rw [classMemberCategory?, classAt_zero classes]
    simp [Bind.bind, Except.bind, Pure.pure, Except.pure, Member.name, declares]
  rw [category, Member.ofExpr?]
  simp only [depth, member]
  rfl

end

end

/-- With dimensions left over, what is indexed yields an array. -/
theorem classify_indexedType {count : Nat} (left : count < TypeName.dimensions typeName.toList) :
    body.classify (indexedType typeName count) = .array := by
  obtain ⟨further, same⟩ := Nat.exists_eq_add_of_lt left
  rw [indexedType_eq, show TypeName.dimensions typeName.toList - count =
    further + 1 by omega, classify,
    TypeName.classifyResult_of_value (TypeName.isValueless_addDimensions _ _),
    TypeName.classify_addDimensions]

theorem indexedType_of_le {count : Nat} (all : TypeName.dimensions typeName.toList ≤ count) :
    indexedType typeName count = String.ofList (TypeName.element typeName.toList) := by
  rw [indexedType_eq, Nat.sub_eq_zero_of_le all, TypeName.addDimensions]

/-- One index counts as much as several where there is one dimension at most, where dimensions are
left over behind all of them, and where the elements are arrays themselves. -/
theorem elementCategory_one_iff {count : Nat} (positive : 0 < count) :
    body.elementCategory typeName 1 = body.elementCategory typeName count ↔
      count = 1 ∨ TypeName.dimensions typeName.toList ≤ 1 ∨
        count < TypeName.dimensions typeName.toList ∨
        body.classify (String.ofList (TypeName.element typeName.toList)) = .array := by
  rcases Nat.lt_or_ge 1 (TypeName.dimensions typeName.toList) with several | few
  · have dimensioned : (TypeName.dimensions typeName.toList == 0) = false :=
      beq_eq_false_iff_ne.2 (by omega)
    rw [elementCategory, elementCategory, dimensioned, if_neg Bool.false_ne_true,
      if_neg Bool.false_ne_true, classify_indexedType several]
    rcases Nat.lt_or_ge count (TypeName.dimensions typeName.toList) with left | all
    · simp only [classify_indexedType left, left, true_or, or_true]
    · have more : count ≠ 1 := by omega
      rw [indexedType_of_le all, eq_comm]
      simp only [more, Nat.not_le.2 several, Nat.not_lt.2 all, false_or]
  · have same : indexedType typeName 1 = indexedType typeName count := by
      rw [indexedType_of_le few, indexedType_of_le (by omega)]
    rw [elementCategory, elementCategory, same]
    simp only [few, true_or, or_true]

/-- A name with indices behind it, or without any. -/
def indexed (node spot : Node) : List Expr → Expr
  | [] => .leaf spot .identifier
  | indices => .index node (.leaf spot .identifier) indices .absent

/-- **Fields.**  A field of the innermost class that no variable hides has the same category with
`this` in front and without exactly where one index counts as much as all of them. -/
theorem category_this_iff (classes : body.context.classes = type :: others)
    (declares : type.field? (Text.trimmed spot.text) = some field)
    (unhidden : body.lookupAt sight (Text.trimmed spot.text) = body.field? (Text.trimmed spot.text))
    (this : Text.trimmed place.text = "this")
    (value : TypeName.isValueless field.typeName.toList = false) :
    body.category sight (.access access (.leaf place .receiver) (indexed node spot indices)) =
        body.category sight (indexed node spot indices) ↔
      indices.length ≤ 1 ∨ TypeName.dimensions field.typeName.toList ≤ 1 ∨
        indices.length < TypeName.dimensions field.typeName.toList ∨
        body.classify (String.ofList (TypeName.element field.typeName.toList)) = .array := by
  cases indices with
  | nil =>
      simp only [indexed, category_thisField classes declares unhidden this value, List.length_nil,
        Nat.zero_le, true_or]
  | cons first rest =>
      have positive : 0 < (first :: rest).length := Nat.succ_pos _
      have single : (first :: rest).length = 1 ↔ (first :: rest).length ≤ 1 := by omega
      rw [indexed, category_thisElement classes declares this,
        category_fieldElement classes declares unhidden, Except.ok.injEq,
        elementCategory_one_iff positive, single]
      exact nofun

/-- A row of a cube is an array, and so is the table that one index gives. -/
theorem category_this_row :
    let type : Class := { name := "A", fields := [⟨"f", "int[][][]", false, false⟩] }
    let body := Body.initial { classes := [type] } {}
    let row := indexed ⟨4, ⟨5, 12⟩, "f[1][2]"⟩ ⟨1, ⟨5, 6⟩, "f"⟩
      [.leaf ⟨2, ⟨7, 8⟩, "1"⟩ .literal, .leaf ⟨3, ⟨10, 11⟩, "2"⟩ .literal]
    body.category ⟨Body.root, 0⟩ (.access ⟨5, ⟨0, 12⟩, "this.f[1][2]"⟩
        (.leaf ⟨0, ⟨0, 4⟩, "this"⟩ .receiver) row) = body.category ⟨Body.root, 0⟩ row := by
  intro type body row
  have declares : type.field? (Text.trimmed "f") = some ⟨"f", "int[][][]", false, false⟩ := by
    decide +kernel
  have unhidden : body.lookupAt ⟨Body.root, 0⟩ (Text.trimmed "f") =
      body.field? (Text.trimmed "f") := by
    decide +kernel
  have this : Text.trimmed "this" = "this" := by decide +kernel
  have value : TypeName.isValueless "int[][][]".toList = false := by decide +kernel
  have few : 2 < TypeName.dimensions "int[][][]".toList := by decide +kernel
  exact (@category_this_iff body ⟨Body.root, 0⟩ ⟨4, ⟨5, 12⟩, "f[1][2]"⟩ ⟨0, ⟨0, 4⟩, "this"⟩
    [.leaf ⟨2, ⟨7, 8⟩, "1"⟩ .literal, .leaf ⟨3, ⟨10, 11⟩, "2"⟩ .literal] type []
    ⟨"f", "int[][][]", false, false⟩ ⟨5, ⟨0, 12⟩, "this.f[1][2]"⟩ ⟨1, ⟨5, 6⟩, "f"⟩ rfl
      declares unhidden
    this value).2 (.inr (.inr (.inl few)))

/-- A cell of a table of numbers is an array with `this` in front and a primitive without. -/
theorem category_this_cell :
    let body := Body.initial
      { classes := [{ name := "A", fields := [⟨"f", "int[][]", false, false⟩] }] } {}
    let cell := indexed ⟨4, ⟨5, 12⟩, "f[1][2]"⟩ ⟨1, ⟨5, 6⟩, "f"⟩
      [.leaf ⟨2, ⟨7, 8⟩, "1"⟩ .literal, .leaf ⟨3, ⟨10, 11⟩, "2"⟩ .literal]
    body.category ⟨Body.root, 0⟩ (.access ⟨5, ⟨0, 12⟩, "this.f[1][2]"⟩
        (.leaf ⟨0, ⟨0, 4⟩, "this"⟩ .receiver) cell) = .ok .array ∧
      body.category ⟨Body.root, 0⟩ cell = .ok .primitive := by
  decide +kernel

end
end
end Body
end MethodLowering
