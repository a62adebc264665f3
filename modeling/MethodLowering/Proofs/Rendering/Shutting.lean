import MethodLowering.Proofs.Lowering.Sorts
import MethodLowering.Proofs.Reduction.Tightness

/-!
# The target text of shut expressions

Where the text of an expression is shut, so is its target text: what is written in place of the
source closes what it opens, and parts that stood in brackets stay in brackets.
-/

namespace MethodLowering

open Text MethodLowering.Expr

/-- The texts of the options that are written in expressions. -/
def Options.expressionTexts (options : Options) : List String :=
  [options.nullLiteral, options.toTextHelper, options.pointerTypeTest, options.objectTypeTest]

/-- The texts of the options that are written in expressions close the brackets and literals that
they open, and have no semicolon. -/
def Options.AreClosed (options : Options) : Prop :=
  ∀ text ∈ options.expressionTexts, isBalanced text.toList = true ∧ ';' ∉ text.toList

instance (options : Options) : Decidable options.AreClosed :=
  inferInstanceAs (Decidable (∀ text ∈ _, _))

/-- The texts of the options that are written in expressions are shut. -/
structure Options.AreShut (options : Options) : Prop where
  nullLiteral : Shut noSemicolon options.nullLiteral.toList
  toTextHelper : Shut noSemicolon options.toTextHelper.toList
  pointerTypeTest : Shut noSemicolon options.pointerTypeTest.toList
  objectTypeTest : Shut noSemicolon options.objectTypeTest.toList

theorem Options.AreClosed.areShut {options : Options} (closed : options.AreClosed) :
    options.AreShut := by
  have shut {text : String} (member : text ∈ options.expressionTexts) :
      Shut noSemicolon text.toList :=
    shut_of_isBalanced (closed text member).1 lenient_noSemicolon (closed text member).2
  exact ⟨shut (by simp [expressionTexts]), shut (by simp [expressionTexts]),
    shut (by simp [expressionTexts]), shut (by simp [expressionTexts])⟩

namespace Rendering

/-- The expression is written as one piece: its directives are for it and write no second statement,
it has no class body, and what it declares is tight. -/
structure IsPlain (rendering : Rendering) (expr : Expr) : Prop where
  suits : ∀ directive ∈ rendering.directivesOf expr, directive.Suits rendering.body expr
  typed : ∀ directive ∈ rendering.directivesOf expr, directive.IsTyped rendering.body expr
  single : ∀ directive ∈ rendering.directivesOf expr, directive.splits = false
  declared : ∀ id, expr.ownVariable? = some id →
    ∃ entry, rendering.body.vars[id]? = some entry ∧ entry.IsTight
  unlifted : ∀ node, expr.node? = some node → rendering.body.liftedAt? node = none

/-- A tree that reads the text, tight and plain everywhere. -/
structure Admits (rendering : Rendering) (text : List Char) (expr : Expr) : Prop where
  formed : expr.Formed text
  plain : expr.Everywhere rendering.IsPlain

section

variable {rendering : Rendering} {text : List Char} {expr inner left right target value : Expr}
  {node : Node} {op : Op} {bare : Char → Bool} {render : Expr → String}

theorem Admits.part (items : List Expr) (admits : rendering.Admits text expr)
    (present : expr.isPresent = true) (parts : expr.children = items.filter isPresent)
    (member : inner ∈ items) : rendering.Admits text inner :=
  ⟨admits.formed.part items present parts member,
    Everywhere.part items admits.plain present parts member⟩

theorem Admits.own (admits : rendering.Admits text expr) (present : expr.isPresent = true) :
    expr.IsTight ∧ rendering.IsPlain expr :=
  ⟨((everywhere_iff present).1 admits.formed.tight).1, ((everywhere_iff present).1 admits.plain).1⟩

/-! ## Pieces of text -/

/-- A fixed text that closes what it opens. -/
theorem shut_fixed {word : String} (lenient : Lenient bare)
    (fixed : isBalanced word.toList = true ∧ ';' ∉ word.toList) : Shut bare word.toList :=
  shut_of_isBalanced fixed.1 lenient fixed.2

theorem shut_commaSeparated {parts : List String}
    (each : ∀ part ∈ parts, Shut anyChar part.toList) :
    Shut anyChar (commaSeparated parts).toList := by
  induction parts with
  | nil => exact shut_nil
  | cons first rest induction =>
      cases rest with
      | nil => simpa [commaSeparated, String.intercalate_singleton] using each first
      | cons second rest =>
          have later := induction fun part member => each part (List.mem_cons_of_mem _ member)
          have whole : (commaSeparated (first :: second :: rest)).toList =
              first.toList ++ (", ".toList ++ (commaSeparated (second :: rest)).toList) := by
            simp [commaSeparated, String.toList_intercalate]
          rw [whole]
          exact (each first List.mem_cons_self).append (Shut.append rfl later)

/-- A call closes its brackets, whatever its arguments are. -/
theorem shut_applied {callee : String} {arguments : List String} (shut : Shut bare callee.toList)
    (each : ∀ argument ∈ arguments, Shut anyChar argument.toList) :
    Shut bare (applied callee arguments).toList := by
  have split : (applied callee arguments).toList =
      callee.toList ++ '(' :: ((commaSeparated arguments).toList ++ [')']) := by
    simp [applied, List.append_assoc]
  rw [split]
  exact shut.append ((shut_commaSeparated each).enclosed rfl rfl)

/-! ## Plain forms -/

theorem shut_op (lenient : Lenient bare) (plain : op.isBracket = false) :
    Shut bare op.text.toList :=
  lenient.shut fun _ among => isPlain_of_mem_spelling plain among

theorem shut_accessMark (lenient : Lenient bare) (mark : AccessMark) :
    Shut bare mark.text.toList := by
  cases mark <;> exact shut_fixed lenient (by decide)

theorem shut_operationText (lenient : Lenient bare) (plain : op.isBracket = false)
    (first : Shut bare (render left).toList) (second : Shut bare (render right).toList) :
    Shut bare (operationText render op left right).toList := by
  have sign := shut_op lenient plain
  unfold operationText
  split_ifs
  · rw [String.toList_append]
    exact sign.append second
  · rw [String.toList_append]
    exact first.append sign
  · rw [String.toList_append, String.toList_append]
    exact (first.append (shut_fixed lenient (by decide))).append second
  · simp only [String.toList_append]
    exact (((first.append (shut_fixed lenient (by decide))).append sign).append
      (shut_fixed lenient (by decide))).append second

theorem shelters_leafText {form : LeafForm} (options : rendering.body.options.AreShut)
    (tight : (leaf node form).IsTight) :
    Shelters node.text.toList (rendering.leafText node.text form).toList := by
  intro bare lenient shut
  have trimmed : Shut bare (Text.trimmed node.text).toList := by
    rw [trimmed_eq, String.toList_ofList]
    exact shut.trim
  cases form with
  | null => exact options.nullLiteral.lenient lenient
  | construction typeName =>
      rw [leafText, String.toList_append]
      have named := tight.2 typeName rfl bare lenient shut
      exact (shut_fixed lenient (by decide)).append (named.spellPlain lenient)
  | _ => exact trimmed

theorem shut_declarationText (lenient : Lenient bare) {declared : VariableId} {continued : Bool}
    (known : ∃ entry, rendering.body.vars[declared]? = some entry ∧ entry.IsTight) :
    Shut bare (rendering.declarationText declared continued).toList := by
  obtain ⟨entry, known, tight⟩ := known
  have name := tight.name.lenient lenient
  rw [declarationText, known]
  dsimp only
  split
  · exact name
  · simp only [String.toList_append]
    exact (((tight.typeName.lenient lenient).spell lenient _).append
      (shut_fixed lenient (by decide))).append name

section

variable (renders : ∀ part, rendering.Admits text part →
  Shelters part.text.toList (render part).toList)
include renders

theorem shut_inside (admits : rendering.Admits text inner) : Shut anyChar (render inner).toList :=
  renders inner admits anyChar lenient_anyChar admits.formed.shut

/-- A part that stands outside brackets. -/
theorem shut_exposed {front back : List Part} (lenient : Lenient bare)
    (admits : rendering.Admits text expr) (shut : Shut bare expr.text.toList)
    (split : expr.parts = front ++ .child inner :: back) (tokens : Framed (skeleton front))
    (part : rendering.Admits text inner) : Shut bare (render inner).toList :=
  renders inner part bare lenient (admits.formed.exposed split tokens bare lenient shut)

theorem shut_indices {indices : List Expr} (each : ∀ index ∈ indices, rendering.Admits text index) :
    Shut bare (String.join (indices.map fun index => "[" ++ render index ++ "]")).toList := by
  induction indices with
  | nil => exact shut_nil
  | cons index rest induction =>
      have later := induction fun other member => each other (List.mem_cons_of_mem _ member)
      have own := shut_inside renders (each index List.mem_cons_self)
      rw [List.map_cons, String.join_cons, String.toList_append]
      refine Shut.append ?_ later
      have split : ("[" ++ render index ++ "]").toList =
          '[' :: ((render index).toList ++ [']']) := by
        simp
      rw [split]
      exact own.enclosed rfl rfl

/-- The plain form of an expression closes what it opens. -/
theorem shelters_plain (options : rendering.body.options.AreShut)
    (admits : rendering.Admits text expr) :
    Shelters expr.text.toList (rendering.plain render expr).toList := by
  intro bare lenient shut
  have exposed {part : Expr} {back : List Part} (front : List Part) :=
    @shut_exposed rendering text expr part bare render renders front back lenient admits shut
  have all {items : List Expr} (each : ∀ item ∈ items, rendering.Admits text item) :
      ∀ shown ∈ items.map render, Shut anyChar shown.toList :=
    List.forall_mem_map.2 fun item member => shut_inside renders (each item member)
  cases expr with
  | absent => exact shut_nil
  | leaf node form => exact shelters_leafText options (admits.own rfl).1 bare lenient shut
  | declaration node declared continued =>
      exact shut_declarationText lenient ((admits.own rfl).2.declared declared rfl)
  | operation node op left right =>
      have part {inner : Expr} := @Admits.part rendering text _ inner [left, right] admits rfl rfl
      have plain : op.isBracket = false := (admits.own rfl).1
      refine shut_operationText lenient plain
        (exposed [] rfl framed_nil (part (by simp)))
        (exposed [.child left, .token op.spelling] rfl ?_ (part (by simp)))
      simpa [skeleton] using framed_spelling plain
  | assignment node op target value =>
      have part {inner : Expr} := @Admits.part rendering text _ inner [target, value] admits rfl rfl
      have plain : op.isBracket = false := (admits.own rfl).1
      have first := exposed [] rfl framed_nil (part (by simp))
      have tokens : Framed (skeleton [.child target, .token op.spelling]) := by
        simpa [skeleton] using framed_spelling plain
      have second := exposed [.child target, .token op.spelling] rfl tokens (part (by simp))
      rw [Rendering.plain]
      simp only [String.toList_append]
      exact (((first.append (shut_fixed lenient (by decide))).append (shut_op lenient plain)).append
        (shut_fixed lenient (by decide))).append second
  | typeTest node operand typeName =>
      have part := admits.part [operand] rfl rfl (List.mem_singleton_self operand)
      have named := (admits.own rfl).1.2 bare lenient shut
      rw [Rendering.plain, String.toList_append, String.toList_append]
      exact ((exposed [] rfl framed_nil part).append (shut_fixed lenient (by decide))).append named
  | access node subject member =>
      have part {inner : Expr} :=
        @Admits.part rendering text _ inner [subject, member] admits rfl rfl
      have first := exposed [] rfl framed_nil (part (by simp))
      have second := exposed [.child subject, .token Op.dot.spelling] rfl
        (framed_spelling (show Op.dot.isBracket = false from rfl)) (part (by simp))
      rw [Rendering.plain, String.toList_append, String.toList_append]
      exact (first.append (shut_accessMark lenient _)).append second
  | group node brace items =>
      have listed := shut_commaSeparated (all fun item => admits.part items rfl rfl)
      cases brace with
      | true =>
          have braced :
              Shut bare ('\x7b' :: ((commaSeparated (items.map render)).toList ++ ['\x7d'])) :=
            listed.enclosed rfl rfl
          simpa [Rendering.plain] using braced
      | false =>
          have round : Shut bare ('(' :: ((commaSeparated (items.map render)).toList ++ [')'])) :=
            listed.enclosed rfl rfl
          simpa [Rendering.plain] using round
  | cast node typeName operand =>
      have named := (admits.own rfl).1.1.lenient lenient
      have part := admits.part [operand] rfl rfl (List.mem_singleton_self operand)
      rw [Rendering.plain]
      refine shut_applied ?_ (List.forall_mem_singleton.2 (shut_inside renders part))
      rw [String.toList_append, String.toList_append]
      refine Shut.append (Shut.append (shut_fixed lenient (by decide)) ?_)
        (shut_fixed lenient (by decide))
      split
      · exact named.spellPlain lenient
      · exact named.spell lenient _
  | call node callee arguments =>
      have part {inner : Expr} :=
        @Admits.part rendering text _ inner (callee :: arguments) admits rfl rfl
      rw [Rendering.plain, callText, (admits.own rfl).2.unlifted node rfl, Option.bind_none]
      exact shut_applied (exposed [] rfl framed_nil (part List.mem_cons_self))
        (all fun argument member => part (List.mem_cons_of_mem callee member))
  | index node target indices initializer =>
      have part {inner : Expr} :=
        @Admits.part rendering text _ inner (target :: indices ++ [initializer]) admits rfl rfl
      have first := exposed [] rfl framed_nil (part List.mem_cons_self)
      have middle :
          Shut bare (String.join (indices.map fun index => "[" ++ render index ++ "]")).toList :=
        shut_indices renders fun index member => part (by simp [member])
      have last : Shut bare (render initializer).toList :=
        exposed (.child target :: indexParts indices) rfl (framed_indexParts indices)
          (part (by simp))
      rw [Rendering.plain, String.toList_append, String.toList_append]
      refine (first.append middle).append ?_
      split
      · rw [String.toList_append]
        exact Shut.append (shut_fixed lenient (by decide)) last
      · exact shut_nil

/-! ## Directives -/

omit renders in
/-- The type that a construction names. -/
theorem shelters_constructedType? {callee : Expr} {typeName : String} (tight : callee.IsTight)
    (named : callee.constructedType? = some typeName) :
    Shelters callee.text.toList typeName.toList := by
  unfold constructedType? at named
  split at named
  · obtain rfl := Option.some.inj named
    exact tight.2 _ rfl
  · contradiction

omit renders in
theorem isPresent_of_constructedType? {callee : Expr} {typeName : String}
    (named : callee.constructedType? = some typeName) : callee.isPresent = true := by
  unfold constructedType? at named
  split at named
  · rfl
  · contradiction

omit renders in
/-- The type that a call constructs is shut where the call is. -/
theorem shelters_constructed {callee : Expr} {arguments : List Expr} {typeName : String}
    (admits : rendering.Admits text (.call node callee arguments))
    (named : callee.constructedType? = some typeName) :
    Shelters node.text.toList typeName.toList := by
  intro bare lenient shut
  have inCallee : Shut bare callee.text.toList :=
    admits.formed.exposed
      (show _ = [] ++ Part.child callee :: .token Op.openParen.spelling ::
        (listParts arguments ++ [.token Op.closeParen.spelling]) from rfl)
      framed_nil bare lenient shut
  have isCallee := admits.part (callee :: arguments) rfl rfl List.mem_cons_self
  exact shelters_constructedType? (isCallee.own (isPresent_of_constructedType? named)).1 named bare
    lenient inCallee

/-- An assignment that is rewritten to one statement closes what it opens. -/
theorem shelters_assignmentText? {directive : Directive} {shown : String}
    (admits : rendering.Admits text (.assignment node .assign target value))
    (rewrites : directive.Rewrites rendering.body target value) (single : directive.splits = false)
    (given : rendering.assignmentText? render target directive = some shown) :
    Shelters node.text.toList shown.toList := by
  intro bare lenient shut
  have part {inner : Expr} := @Admits.part rendering text _ inner [target, value] admits rfl rfl
  have isTarget : rendering.Admits text target := part (by simp)
  have isValue : rendering.Admits text value := part (by simp)
  have first : Shut bare (render target).toList :=
    shut_exposed renders lenient admits shut
      (show _ = [] ++ Part.child target :: [.token Op.assign.spelling, .child value] from rfl)
      framed_nil isTarget
  have second : Shut bare value.text.toList :=
    admits.formed.exposed
      (show _ = [.child target, .token Op.assign.spelling] ++ Part.child value :: [] from rfl)
      (framed_spelling (show Op.assign.isBracket = false from rfl)) bare lenient shut
  have fixed {word : String} := @shut_fixed bare word lenient
  cases directive with
  | initEmpty =>
      obtain rfl := Option.some.inj given
      exact first
  | clearValue isText =>
      cases isText with
      | true =>
          obtain rfl := Option.some.inj given
          rw [String.toList_append]
          exact first.append (fixed (by decide))
      | false =>
          obtain rfl := Option.some.inj given
          rw [String.toList_append]
          exact first.append (fixed (by decide))
  | bulkCopy source method declare checked => contradiction
  | arrayTemporary name arrayType dimensions => contradiction
  | constructFrom call declare =>
      obtain ⟨-, rfl, construction⟩ := rewrites
      cases call with
      | call inner callee arguments =>
          have item {inner : Expr} :=
            @Admits.part rendering text _ inner (callee :: arguments) isValue rfl rfl
          have listed : ∀ shown ∈ arguments.map render, Shut anyChar shown.toList :=
            List.forall_mem_map.2 fun argument member =>
              shut_inside renders (item (List.mem_cons_of_mem callee member))
          rw [assignmentText?] at given
          split at given
          · obtain rfl := Option.some.inj given
            exact shut_applied first listed
          · obtain ⟨typeName, named, rfl⟩ := Option.map_eq_some_iff.1 given
            have shutType := shelters_constructed isValue named bare lenient second
            rw [String.toList_append, String.toList_append]
            exact (first.append (fixed (by decide))).append
              (shut_applied (shutType.spellPlain lenient) listed)
      | _ => contradiction
  | arrayConstructor dimensions initializer =>
      obtain ⟨-, inner, array, indices, rfl, -, rfl⟩ := rewrites
      have item {inner : Expr} :=
        @Admits.part rendering text _ inner (array :: indices ++ [initializer]) isValue rfl rfl
      rw [assignmentText?] at given
      obtain rfl := Option.some.inj given
      split
      · have last : Shut bare (render initializer).toList :=
          shut_exposed renders lenient isValue second
            (show _ = (.child array :: indexParts indices) ++ Part.child initializer :: [] from rfl)
            (framed_indexParts indices) (item (by simp))
        rw [String.toList_append, String.toList_append]
        exact (first.append (fixed (by decide))).append last
      · refine shut_applied first (List.forall_mem_map.2 fun index member => ?_)
        exact shut_inside renders (item (by simp [(List.mem_filter.1 member).1]))
  | _ => contradiction

omit renders in
/-- The type of a fresh array is shut where the array is. -/
theorem shelters_arrayType {indices : List Expr} {initializer : Expr} {arrayType : String}
    {body : Body} {sight : Sight} (construction : target.isConstruction = true)
    (tight : target.IsTight)
    (declared : body.declaredType sight (.index node target indices initializer) =
      .ok (some arrayType)) :
    Shelters target.text.toList arrayType.toList := by
  cases target with
  | leaf place form =>
      cases form with
      | construction typeName =>
          rw [Body.declaredType, Body.declaredType] at declared
          obtain rfl := Option.some.inj (Except.ok.inj declared)
          intro bare lenient shut
          have shutType := (tight.2 typeName rfl bare lenient shut).element
          refine Shut.addDimensions ?_ _
          rw [String.toList_ofList]
          exact shutType
      | _ => contradiction
  | _ => contradiction

/-- What a directive writes in place of an expression closes what it opens. -/
theorem shelters_replacement? {directive : Directive} {shown : String}
    (options : rendering.body.options.AreShut) (admits : rendering.Admits text expr)
    (suits : directive.Suits rendering.body expr) (typed : directive.IsTyped rendering.body expr)
    (single : directive.splits = false)
    (given : rendering.replacement? render expr directive = some shown) :
    Shelters expr.text.toList shown.toList := by
  intro bare lenient shut
  have fixed {word : String} := @shut_fixed bare word lenient
  have exposed {part : Expr} {back : List Part} (front : List Part) :=
    @shut_exposed rendering text expr part bare render renders front back lenient admits shut
  cases directive with
  | unsupported =>
      obtain rfl := Option.some.inj given
      have mark : Shut bare (reviewMark ++ " ").toList := fixed (by decide)
      rw [marked, String.toList_append, trimmedText, String.toList_ofList]
      exact mark.append shut.trim
  | nullLiteral =>
      obtain rfl := Option.some.inj given
      exact options.nullLiteral.lenient lenient
  | emptinessTest subject negated =>
      obtain ⟨node, left, right, rfl, across⟩ := suits
      obtain rfl := Option.some.inj given
      have part {inner : Expr} := @Admits.part rendering text _ inner [left, right] admits rfl rfl
      have sign : (if negated then Op.notEqual else Op.equal).isBracket = false := by
        cases negated <;> rfl
      have inSubject : Shut bare (render subject).toList := by
        rcases across with ⟨-, rfl⟩ | ⟨-, rfl⟩
        · exact exposed [] rfl framed_nil (part (by simp))
        · refine exposed [.child left, .token (if negated then Op.notEqual else Op.equal).spelling]
            rfl
            ?_ (part (by simp))
          simpa [skeleton] using framed_spelling sign
      rw [String.toList_append, String.toList_append]
      refine (inSubject.append (fixed (by decide))).append ?_
      cases negated <;> exact fixed (by decide)
  | typeTest pointer =>
      obtain ⟨node, operand, typeName, rfl⟩ := suits
      obtain rfl := Option.some.inj given
      have part := admits.part [operand] rfl rfl (List.mem_singleton_self operand)
      have named := (admits.own rfl).1.2 bare lenient shut
      have helper : Shut bare (if pointer then rendering.body.options.pointerTypeTest
          else rendering.body.options.objectTypeTest).toList := by
        cases pointer
        · exact options.objectTypeTest.lenient lenient
        · exact options.pointerTypeTest.lenient lenient
      refine shut_applied ?_ (List.forall_mem_singleton.2 (shut_inside renders part))
      simp only [String.toList_append]
      exact ((helper.append (fixed (by decide))).append (named.spellPlain lenient)).append
        (fixed (by decide))
  | throwByValue =>
      obtain ⟨node, callee, arguments, rfl, -, -⟩ := suits
      obtain ⟨typeName, named, rfl⟩ := Option.map_eq_some_iff.1 given
      have item {inner : Expr} :=
        @Admits.part rendering text _ inner (callee :: arguments) admits rfl rfl
      have shutType := shelters_constructed admits named bare lenient shut
      refine shut_applied (shutType.spellPlain lenient)
        (List.forall_mem_map.2 fun argument member => ?_)
      exact shut_inside renders (item (List.mem_cons_of_mem callee member))
  | arrayValue arrayType =>
      obtain ⟨node, target, indices, initializer, rfl, construction⟩ := suits
      obtain ⟨sight, declared⟩ := typed
      obtain rfl := Option.some.inj given
      have item {inner : Expr} :=
        @Admits.part rendering text _ inner (target :: indices ++ [initializer]) admits rfl rfl
      obtain ⟨typeName, named⟩ := Option.isSome_iff_exists.1 construction
      have inTarget : Shut bare target.text.toList :=
        admits.formed.exposed
          (show _ = [] ++ Part.child target ::
            (indexParts indices ++ [.child initializer]) from rfl)
          framed_nil bare lenient shut
      have shutType := shelters_arrayType construction
        ((item List.mem_cons_self).own (isPresent_of_constructedType? named)).1
          declared bare lenient
        inTarget
      refine shut_applied (shutType.spell lenient _) (List.forall_mem_map.2 fun part member => ?_)
      refine shut_inside renders (item ?_)
      split at member
      · simp [List.mem_singleton.1 member]
      · simp [(List.mem_filter.1 member).1]
  | toText => exact absurd given (by cases expr <;> simp [replacement?, assignmentText?])
  | outerField => exact absurd given (by cases expr <;> simp [replacement?, assignmentText?])
  | smartHandleGet => exact absurd given (by cases expr <;> simp [replacement?, assignmentText?])
  | memberAccess mark => exact absurd given (by cases expr <;> simp [replacement?, assignmentText?])
  | _ =>
      obtain ⟨node, target, value, rfl, rewrites⟩ := suits
      exact shelters_assignmentText? renders admits rewrites single given bare lenient shut

omit renders in
/-- Marks around a text close what they open. -/
theorem shut_wrap (options : rendering.body.options.AreShut) (lenient : Lenient bare)
    (directive : Directive) {shown : String} (shut : Shut bare shown.toList) :
    Shut bare (rendering.wrap shown directive).toList := by
  cases directive with
  | outerField =>
      rw [wrap, String.toList_append]
      exact (shut_fixed lenient (by decide)).append shut
  | smartHandleGet =>
      rw [wrap, String.toList_append]
      exact shut.append (shut_fixed lenient (by decide))
  | toText =>
      exact shut_applied (options.toTextHelper.lenient lenient)
        (List.forall_mem_singleton.2 shut.loose)
  | _ => exact shut

end

/-- **Rendering.**  Where the text of an expression closes its brackets and literals and has no
semicolon outside them, so does its target text. -/
theorem shelters_expressionFrom (options : rendering.body.options.AreShut) (depth : Nat)
    (admits : rendering.Admits text expr) :
    Shelters expr.text.toList (rendering.expressionFrom depth expr).toList := by
  induction depth generalizing expr with
  | zero =>
      intro bare lenient shut
      rw [expressionFrom, trimmedText, String.toList_ofList]
      exact shut.trim
  | succ depth induction =>
      intro bare lenient shut
      have renders (part : Expr) (admitted : rendering.Admits text part) := induction admitted
      have wrapped (marks : List Directive) {shown : String} (shutShown : Shut bare shown.toList) :
          Shut bare (marks.foldl rendering.wrap shown).toList := by
        induction marks generalizing shown with
        | nil => exact shutShown
        | cons mark rest later => exact later (shut_wrap options lenient mark shutShown)
      refine wrapped _ ?_
      cases replaced : (rendering.directivesOf expr).findSome?
          (rendering.replacement? (rendering.expressionFrom depth) expr) with
      | none =>
          rw [Option.getD_none]
          exact shelters_plain renders options admits bare lenient shut
      | some shown =>
          obtain ⟨directive, member, given⟩ := List.exists_of_findSome?_eq_some replaced
          have present : expr.isPresent = true := by
            cases expr with
            | absent => contradiction
            | _ => rfl
          have own := (admits.own present).2
          rw [Option.getD_some]
          exact shelters_replacement? renders options admits (own.suits directive member)
            (own.typed directive member) (own.single directive member) given bare lenient shut

end
end Rendering
end MethodLowering
