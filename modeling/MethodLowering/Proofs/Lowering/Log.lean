import MethodLowering.Proofs.Expr.Ownership
import MethodLowering.Proofs.Lowering.Footprint
import MethodLowering.Proofs.Lowering.Sorts

/-!
# What lowering does, in order

A log lists the expressions that a computation enters and the directives that it gives.  The
lowering behind a computation is determined by the one before it and the log.  Entering an
expression gives the expression at most one directive that decides its form, and marks to parts of
it.
-/

namespace MethodLowering
namespace Lowering

open MethodLowering.Expr

/-! ## Logs -/

/-- A directive given to an expression. -/
structure Direction where
  expr : Expr
  directive : Directive

/-- The numbers of the expressions entered and the directives given, in order. -/
structure Log where
  entered : List Nat := []
  given : List Direction := []

/-- The name of a temporary by its number. -/
def temporaryName (count : Nat) : String := "tempArray" ++ toString count

/-- The name of the temporary that a directive writes. -/
def temporary? : Directive → Option String
  | .arrayTemporary name _ _ => some name
  | _ => none

namespace Log

instance : Append Log where
  append first second := ⟨first.entered ++ second.entered, first.given ++ second.given⟩

/-- The names of the temporaries, in order. -/
def names (log : Log) : List String := log.given.filterMap fun direction =>
  temporary? direction.directive

/-- The directives that decide the form of an expression. -/
def deciding (log : Log) : List Direction := log.given.filter fun direction =>
  direction.directive.decides

section

variable (first second : Log)

@[simp] theorem entered_append : (first ++ second).entered = first.entered ++ second.entered := rfl

@[simp] theorem given_append : (first ++ second).given = first.given ++ second.given := rfl

@[simp] theorem names_append : (first ++ second).names = first.names ++ second.names :=
  List.filterMap_append

@[simp] theorem deciding_append : (first ++ second).deciding = first.deciding ++ second.deciding :=
  List.filter_append ..

@[simp] theorem nil_append : ({} : Log) ++ second = second := rfl

@[simp] theorem append_nil : first ++ ({} : Log) = first :=
  congrArg₂ Log.mk (List.append_nil _) (List.append_nil _)

end
end Log

/-- The second lowering comes from the first one by what the log lists. -/
structure Follows (before : Lowering) (log : Log) (after : Lowering) : Prop where
  directives : after.directives = log.given.foldl
    (fun directives direction => directives.insert direction.expr.number direction.directive)
    before.directives
  entered : after.entered = log.entered.reverse ++ before.entered
  temporaries : after.temporaries = before.temporaries + log.names.length
  /-- Temporaries are numbered on. -/
  names : log.names = (List.range' (before.temporaries + 1) log.names.length).map temporaryName

/-- Where the computation succeeds, some log with the property lists what it does. -/
def Logs {α : Type} (computation : LowerM α) (property : Log → α → Prop) : Prop :=
  ∀ before result after, computation before = .ok (result, after) →
    ∃ log, Follows before log after ∧ property log result

section

variable {before between after : Lowering} {first second : Log}

theorem Follows.refl (lowering : Lowering) : Follows lowering {} lowering where
  directives := rfl
  entered := rfl
  temporaries := rfl
  names := rfl

theorem Follows.append (early : Follows before first between)
    (late : Follows between second after) : Follows before (first ++ second) after where
  directives := by
    rw [late.directives, early.directives, Log.given_append, List.foldl_append]
  entered := by
    rw [late.entered, early.entered, Log.entered_append, List.reverse_append, List.append_assoc]
  temporaries := by
    rw [late.temporaries, early.temporaries, Log.names_append, List.length_append, Nat.add_assoc]
  names := by
    have behind := late.names
    rw [early.temporaries, Nat.add_right_comm] at behind
    rw [Log.names_append, List.length_append, ← List.range'_append_1, List.map_append, ← behind,
      ← early.names]

variable {α β : Type} {computation : LowerM α} {next : α → LowerM β} {property : Log → α → Prop}
  {further : Log → β → Prop}

theorem Logs.pure {result : α} (holds : property {} result) : Logs (pure result) property := by
  intro before value after ran
  obtain ⟨rfl, rfl⟩ := Prod.mk.inj (Except.ok.inj ran)
  exact ⟨{}, .refl before, holds⟩

theorem Logs.bind (early : Logs computation property) (late : ∀ log result, property log result →
      Logs (next result) fun rest value => further (log ++ rest) value) :
    Logs (computation >>= next) further := by
  intro before value after ran
  obtain ⟨result, between, ranEarly, ranLate⟩ := exists_of_bind ran
  obtain ⟨log, follows, holds⟩ := early before result between ranEarly
  obtain ⟨rest, behind, holdsLate⟩ := late log result holds between value after ranLate
  exact ⟨log ++ rest, follows.append behind, holdsLate⟩

theorem Logs.weaken {weaker : Log → α → Prop} (logs : Logs computation property)
    (implied : ∀ log result, property log result → weaker log result) :
    Logs computation weaker := by
  intro before result after ran
  obtain ⟨log, follows, holds⟩ := logs before result after ran
  exact ⟨log, follows, implied log result holds⟩

/-- The computation does nothing that a log lists, and its result has the property. -/
def Quiet (computation : LowerM α) (property : α → Prop) : Prop :=
  Logs computation fun log result => log = {} ∧ property result

theorem Quiet.bind {answers : α → Prop} (early : Quiet computation answers)
    (late : ∀ result, answers result → Logs (next result) further) :
    Logs (computation >>= next) further := by
  refine Logs.bind early fun log result holds => ?_
  obtain ⟨rfl, answered⟩ := holds
  exact late result answered

theorem quiet_lift (answer : Except Fault α) :
    Quiet (liftM answer : LowerM α) fun result => answer = .ok result := by
  intro before result after ran
  cases answer with
  | error fault => contradiction
  | ok value =>
      obtain ⟨rfl, rfl⟩ := Prod.mk.inj (Except.ok.inj ran)
      exact ⟨{}, .refl before, rfl, rfl⟩

theorem quiet_get : Quiet (get : LowerM Lowering) fun _ => True := by
  intro before result after ran
  obtain ⟨-, rfl⟩ := Prod.mk.inj (Except.ok.inj ran)
  exact ⟨{}, .refl before, rfl, trivial⟩

theorem logs_modify {change : Lowering → Lowering} {log : Log}
    (follows : ∀ lowering, Follows lowering log (change lowering)) :
    Logs (modify change : LowerM Unit) fun found _ => found = log := by
  intro before result after ran
  obtain ⟨-, rfl⟩ := Prod.mk.inj (Except.ok.inj ran)
  exact ⟨log, follows before, rfl⟩

variable {body : Body} {sight : Sight} {expr : Expr} {directive : Directive}

theorem quiet_categoryOf :
    Quiet (categoryOf body sight expr) fun category => body.category sight expr = .ok category :=
  quiet_lift _

theorem quiet_reportType (typeName : String) :
    Quiet (reportType body typeName) fun _ => True := by
  intro before result after ran
  obtain ⟨-, rfl⟩ := Prod.mk.inj (Except.ok.inj ran)
  exact ⟨{}, ⟨rfl, rfl, rfl, rfl⟩, rfl, trivial⟩

theorem logs_enter (present : expr.isPresent = true) :
    Logs (enter expr) fun log _ => log = { entered := [expr.number] } := by
  obtain ⟨node, known⟩ := isPresent_iff.1 present
  unfold enter
  rw [known, number_of_node? known]
  exact logs_modify fun lowering => ⟨rfl, rfl, rfl, rfl⟩

theorem logs_direct (present : expr.isPresent = true) (lasting : temporary? directive = none) :
    Logs (direct expr directive) fun log _ => log = { given := [⟨expr, directive⟩] } := by
  obtain ⟨node, known⟩ := isPresent_iff.1 present
  have names : ({ given := [⟨expr, directive⟩] } : Log).names = [] := by
    simp [Log.names, lasting]
  unfold direct
  rw [known]
  refine logs_modify fun lowering => ⟨?_, rfl, ?_, ?_⟩
  · rw [List.foldl_cons, List.foldl_nil, number_of_node? known]
  · rw [names]
    rfl
  · rw [names]
    rfl

/-- A directive given to an operand, which may be missing. -/
theorem logs_mark (lasting : temporary? directive = none) :
    Logs (direct expr directive) fun log _ => log.entered = [] ∧
      ∀ direction ∈ log.given, direction = ⟨expr, directive⟩ ∧ expr.isPresent = true := by
  by_cases present : expr.isPresent = true
  · refine (logs_direct present lasting).weaken fun log result same => ?_
    subst same
    exact ⟨rfl, fun direction member => ⟨List.mem_singleton.1 member, present⟩⟩
  · have missing : expr.node? = none := by
      cases known : expr.node? with
      | none => rfl
      | some node => exact absurd (isPresent_iff.2 ⟨node, known⟩) present
    unfold direct
    rw [missing]
    exact .pure ⟨rfl, nofun⟩

/-- The next temporary takes the next number. -/
theorem logs_temporary (present : expr.isPresent = true) (arrayType : String)
    (dimensions : List Expr) :
    Logs (do
        modify fun state : Lowering => { state with temporaries := state.temporaries + 1 }
        let name := "tempArray" ++ toString (← get).temporaries
        direct expr (.arrayTemporary name arrayType dimensions)) fun log _ =>
      ∃ name, log = { given := [⟨expr, .arrayTemporary name arrayType dimensions⟩] } := by
  obtain ⟨node, known⟩ := isPresent_iff.1 present
  intro before result after ran
  unfold direct at ran
  rw [known] at ran
  obtain ⟨-, rfl⟩ := Prod.mk.inj (Except.ok.inj ran)
  refine ⟨_, ⟨?_, rfl, rfl, rfl⟩, temporaryName (before.temporaries + 1), rfl⟩
  rw [List.foldl_cons, List.foldl_nil, number_of_node? known]
  rfl

end

/-! ## Entering an expression -/

/-- The expression is one of the tree and of the sort that the directive is for.  Text conversion is
marked on parts of the tree only. -/
structure Direction.Fits (body : Body) (tree : Expr) (direction : Direction) : Prop where
  inside : direction.expr ∈ tree.preorder
  suits : direction.directive.Suits body direction.expr
  typed : direction.directive.IsTyped body direction.expr
  below : direction.directive = .toText → direction.expr ∈ tree.children.flatMap preorder

/-- What entering an expression does: it gives the expression at most one directive that decides its
form, and an access exactly one. -/
structure Log.IsOwn (body : Body) (expr : Expr) (log : Log) : Prop where
  entered : log.entered = []
  fits : ∀ direction ∈ log.given, direction.Fits body expr
  deciding : log.deciding = [] ∨ expr.isOuter = false ∧ ∃ form, log.deciding = [⟨expr, form⟩]
  access : expr.isAccess = true → log.deciding ≠ []

section

variable {body : Body} {sight : Sight} {standing : Standing} {expr left right target value : Expr}
  {node : Node} {form : LeafForm} {op : Op} {directive : Directive} {log : Log}

theorem isOwn_nil (other : expr.isAccess = false) : ({} : Log).IsOwn body expr where
  entered := rfl
  fits := nofun
  deciding := .inl rfl
  access isAccess := absurd isAccess (by simp [other])

theorem isOwn_decides (present : expr.isPresent = true) (inner : expr.isOuter = false)
    (suits : directive.Suits body expr) (typed : directive.IsTyped body expr)
    (decides : directive.decides = true) :
    ({ given := [⟨expr, directive⟩] } : Log).IsOwn body expr := by
  have alone : ({ given := [⟨expr, directive⟩] } : Log).deciding = [⟨expr, directive⟩] := by
    simp [Log.deciding, decides]
  refine ⟨rfl, fun direction member => ?_, .inr ⟨inner, directive, alone⟩, fun _ => by simp [alone]⟩
  rw [List.mem_singleton.1 member]
  refine ⟨mem_preorder_self present, suits, typed, fun marks => ?_⟩
  rw [show directive = .toText from marks] at decides
  contradiction

theorem isOwn_marks (other : expr.isAccess = false) (entered : log.entered = [])
    (marks : ∀ direction ∈ log.given, direction.directive.decides = false)
    (fits : ∀ direction ∈ log.given, direction.Fits body expr) : log.IsOwn body expr where
  entered := entered
  fits := fits
  deciding := by
    left
    rw [Log.deciding, List.filter_eq_nil_iff]
    intro direction member decides
    rw [marks direction member] at decides
    contradiction
  access isAccess := absurd isAccess (by simp [other])

/-- The expression is told its form. -/
theorem logs_form (known : expr.node? = some node) (inner : expr.isOuter = false)
    (lasting : temporary? directive = none) (suits : directive.Suits body expr)
    (typed : directive.IsTyped body expr) (decides : directive.decides = true) :
    Logs (direct expr directive) fun log _ => log.IsOwn body expr := by
  have present : expr.isPresent = true := isPresent_iff.2 ⟨node, known⟩
  refine (logs_direct present lasting).weaken fun log _ same => ?_
  subst same
  exact isOwn_decides present inner suits typed decides

theorem logs_none (other : expr.isAccess = false) :
    Logs (pure () : LowerM Unit) fun log _ => log.IsOwn body expr :=
  .pure (isOwn_nil other)

/-- Parts below the expression are marked. -/
theorem logs_below {parts : List Expr} {computation : LowerM Unit} (other : expr.isAccess = false)
    (below : ∀ part ∈ parts, part.isPresent = true → part ∈ expr.children.flatMap preorder)
    (logs : Logs computation fun log _ => log.entered = [] ∧ ∀ direction ∈ log.given,
      direction.directive.decides = false ∧ direction.directive.Suits body direction.expr ∧
        direction.expr ∈ parts ∧ direction.expr.isPresent = true) :
    Logs computation fun log _ => log.IsOwn body expr := by
  refine logs.weaken fun log _ ⟨entered, all⟩ => ?_
  refine isOwn_marks other entered (fun direction member => (all direction member).1) ?_
  intro direction member
  obtain ⟨marks, suits, among, present⟩ := all direction member
  have deeper := below direction.expr among present
  refine ⟨mem_preorder.2 (.inr ?_), suits, Directive.isTyped_of_not_decides marks, fun _ => deeper⟩
  exact List.mem_flatMap.1 deeper

theorem logs_joinText : Logs (joinText body sight left right) fun log _ =>
    log.entered = [] ∧ ∀ direction ∈ log.given,
      direction.directive.decides = false ∧ direction.directive.Suits body direction.expr ∧
        direction.expr ∈ [left, right] ∧ direction.expr.isPresent = true := by
  have marked {part : Expr} (among : part ∈ [left, right]) :
      Logs (direct part .toText) fun log _ => log.entered = [] ∧ ∀ direction ∈ log.given,
        direction.directive.decides = false ∧ direction.directive.Suits body direction.expr ∧
          direction.expr ∈ [left, right] ∧ direction.expr.isPresent = true := by
    refine (logs_mark rfl).weaken fun log _ ⟨entered, all⟩ => ⟨entered, fun direction member => ?_⟩
    obtain ⟨rfl, present⟩ := all direction member
    exact ⟨rfl, trivial, among, present⟩
  refine quiet_categoryOf.bind fun leftCategory _ => quiet_categoryOf.bind fun rightCategory _ => ?_
  split
  · exact marked (by simp)
  · split
    · exact marked (by simp)
    · exact .pure ⟨rfl, nofun⟩

theorem logs_arguments (arguments : List Expr) :
    Logs (lowerArguments body sight arguments) fun log _ =>
      log.entered = [] ∧ ∀ direction ∈ log.given,
        direction.directive.decides = false ∧ direction.directive.Suits body direction.expr ∧
          direction.expr ∈ arguments ∧ direction.expr.isPresent = true := by
  induction arguments with
  | nil => exact .pure ⟨rfl, List.forall_mem_nil _⟩
  | cons argument rest induction =>
      have others : Logs (lowerArguments body sight rest) fun log _ =>
          log.entered = [] ∧ ∀ direction ∈ log.given,
            direction.directive.decides = false ∧ direction.directive.Suits body direction.expr ∧
              direction.expr ∈ argument :: rest ∧ direction.expr.isPresent = true := by
        refine induction.weaken fun log _ holds => ⟨holds.1, fun direction member => ?_⟩
        obtain ⟨marks, suits, among, present⟩ := holds.2 direction member
        exact ⟨marks, suits, List.mem_cons_of_mem argument among, present⟩
      unfold lowerArguments
      split
      · rename_i name
        refine quiet_categoryOf.bind fun category _ => ?_
        split
        · refine Logs.bind (logs_mark rfl) fun log _ first => others.weaken fun later _ second => ?_
          refine ⟨by simp [first.1, second.1], fun direction member => ?_⟩
          rcases List.mem_append.1 member with early | late
          · obtain ⟨rfl, present⟩ := first.2 direction early
            exact ⟨rfl, name, List.mem_cons_self .., present⟩
          · exact second.2 direction late
        · exact others
      · exact others

/-- The parts of an expression are below it. -/
theorem mem_below {items : List Expr} (parts : expr.children = items.filter isPresent) {part : Expr}
    (member : part ∈ items) (present : part.isPresent = true) :
    part ∈ expr.children.flatMap preorder := by
  rw [parts]
  exact List.mem_flatMap.2
    ⟨part, List.mem_filter.2 ⟨member, present⟩, mem_preorder_self present⟩

theorem logs_leaf : Logs (lowerLeaf body sight standing (.leaf node form) form) fun log _ =>
    log.IsOwn body (.leaf node form) := by
  cases form with
  | null =>
      have suits : Directive.nullLiteral.Suits body (.leaf node .null) := rfl
      exact logs_form rfl rfl rfl suits trivial rfl
  | verbatim =>
      have suits : Directive.unsupported.Suits body (.leaf node .verbatim) := rfl
      exact logs_form rfl rfl rfl suits trivial rfl
  | construction typeName =>
      exact (quiet_reportType typeName).weaken fun log _ holds => holds.1 ▸ isOwn_nil rfl
  | identifier =>
      unfold lowerLeaf lowerName
      dsimp only
      split
      · refine (logs_direct rfl rfl).weaken fun log _ same => ?_
        subst same
        refine isOwn_marks rfl rfl (fun direction member => ?_) fun direction member => ?_
        · rw [List.mem_singleton.1 member]
          rfl
        · rw [List.mem_singleton.1 member]
          exact ⟨mem_preorder_self rfl, rfl, trivial, nofun⟩
      · exact logs_none rfl
  | literal => exact logs_none rfl
  | receiver => exact logs_none rfl

theorem logs_declaration {declared : VariableId} {continued : Bool} :
    Logs (lowerDeclaration body declared) fun log _ =>
      log.IsOwn body (.declaration node declared continued) := by
  unfold lowerDeclaration
  split
  · exact (quiet_reportType _).weaken fun log _ holds => holds.1 ▸ isOwn_nil rfl
  · exact logs_none rfl

/-- What is compared with null stands across from it. -/
theorem comparedWithNull_across {subject : Expr}
    (compared : comparedWithNull op left right = .ok (some subject)) :
    right.isNull = true ∧ subject = left ∨ left.isNull = true ∧ subject = right := by
  unfold comparedWithNull at compared
  repeat' split at compared
  · contradiction
  · rename_i null
    exact .inl ⟨null, (Option.some.inj (Except.ok.inj compared)).symm⟩
  · contradiction
  · rename_i null
    exact .inr ⟨null, (Option.some.inj (Except.ok.inj compared)).symm⟩
  · simp at compared

theorem logs_operation :
    Logs (lowerOperation body sight (.operation node op left right) op left right) fun log _ =>
      log.IsOwn body (.operation node op left right) := by
  have parts : (Expr.operation node op left right).children = [left, right].filter isPresent := rfl
  have compares (negated : Bool) (comparison : op = if negated then .notEqual else .equal) :
      Logs (lowerOperation body sight (.operation node op left right) op left right) fun log _ =>
        log.IsOwn body (.operation node op left right) := by
    have either : op = .equal ∨ op = .notEqual := by
      cases negated with
      | true => exact .inr comparison
      | false => exact .inl comparison
    rw [lowerOperation_comparison either]
    refine (quiet_lift _).bind fun compared answered => ?_
    cases compared with
    | none => exact logs_none rfl
    | some subject =>
        refine quiet_categoryOf.bind fun category _ => ?_
        split
        · refine logs_form rfl rfl rfl ?_ trivial rfl
          refine ⟨node, left, right, ?_, comparedWithNull_across answered⟩
          subst comparison
          cases negated <;> rfl
        · exact logs_none rfl
  unfold lowerOperation
  split
  · split
    · exact logs_below rfl (fun part member => mem_below parts member) logs_joinText
    · exact logs_none rfl
  · exact compares false rfl
  · exact compares true rfl
  · exact logs_form rfl rfl rfl rfl trivial rfl
  · split
    · rename_i choice first second
      refine logs_below rfl (fun part member present => ?_) logs_joinText
      have inside : part ∈ (Expr.operation choice .colon first second).children.flatMap preorder :=
        mem_below rfl member present
      refine List.mem_flatMap.2 ⟨.operation choice .colon first second, by simp [parts, isPresent,
        isAbsent], ?_⟩
      exact mem_preorder.2 (.inr (List.mem_flatMap.1 inside))
    · exact logs_none rfl
  · exact logs_none rfl

theorem logs_compound :
    Logs (lowerCompound body sight (.assignment node op target value) op target value) fun log _ =>
      log.IsOwn body (.assignment node op target value) := by
  have parts : (Expr.assignment node op target value).children = [target, value].filter isPresent :=
    rfl
  unfold lowerCompound
  split
  · rename_i shift
    obtain rfl := eq_of_beq shift
    exact logs_form rfl rfl rfl (.inl rfl) trivial rfl
  · split
    · refine quiet_categoryOf.bind fun category _ => ?_
      split
      · refine quiet_categoryOf.bind fun other _ => ?_
        split
        · have below : ∀ part ∈ [value], part.isPresent = true →
              part ∈ (Expr.assignment node op target value).children.flatMap preorder :=
            fun part member => mem_below parts (List.mem_cons_of_mem _ member)
          refine logs_below rfl below ((logs_mark rfl).weaken ?_)
          refine fun log _ ⟨entered, all⟩ => ⟨entered, fun direction member => ?_⟩
          obtain ⟨rfl, present⟩ := all direction member
          exact ⟨rfl, trivial, List.mem_singleton_self _, present⟩
        · exact logs_none rfl
      · exact logs_none rfl
    · exact logs_none rfl

theorem logs_typeTest {operand : Expr} {typeName : String} :
    Logs (lowerTypeTest body sight (.typeTest node operand typeName) operand typeName) fun log _ =>
      log.IsOwn body (.typeTest node operand typeName) :=
  (quiet_reportType typeName).bind fun _ _ => quiet_categoryOf.bind fun _ _ =>
    logs_form rfl rfl rfl ⟨node, operand, typeName, rfl⟩ trivial rfl

theorem quiet_accessMark (subject : Expr) (category : Category) :
    Quiet (accessMark body subject category) fun _ => True := by
  unfold accessMark
  split
  · exact .pure ⟨rfl, trivial⟩
  · exact .pure ⟨rfl, trivial⟩
  · exact .pure ⟨rfl, trivial⟩
  · split
    · exact (quiet_reportType _).bind fun _ _ => .pure ⟨rfl, trivial⟩
    · exact .pure ⟨rfl, trivial⟩
  · exact .pure ⟨rfl, trivial⟩

theorem logs_access {subject member : Expr} :
    Logs (lowerAccess body sight (.access node subject member) subject member) fun log _ =>
      log.IsOwn body (.access node subject member) := by
  have told (form : Directive) (next : Standing) (lasting : temporary? form = none)
      (decides : form.decides = true) (suits : form.Suits body (.access node subject member))
      (typed : form.IsTyped body (.access node subject member)) :
      Logs (do direct (.access node subject member) form; return next) fun log _ =>
        log.IsOwn body (.access node subject member) := by
    refine Logs.bind (logs_form rfl rfl lasting suits typed decides) fun log _ own => .pure ?_
    rwa [Log.append_nil]
  unfold lowerAccess
  split
  · rename_i receiver
    exact told .unsupported _ rfl rfl receiver trivial
  · rename_i other
    have named : member.isReceiver = false := Bool.eq_false_iff.2 other
    refine quiet_categoryOf.bind fun category _ => (quiet_accessMark subject category).bind
      fun mark _ => ?_
    exact told (.memberAccess mark) _ rfl rfl ⟨node, subject, member, rfl, named⟩ trivial

theorem logs_index {indices : List Expr} {initializer : Expr} :
    Logs (lowerIndex body sight standing (.index node target indices initializer) target)
      fun log _ => log.IsOwn body (.index node target indices initializer) := by
  unfold lowerIndex
  split
  · rename_i fresh
    have construction := (Bool.and_eq_true_iff.1 fresh).1
    refine (quiet_lift _).bind fun declared answered => ?_
    split
    · exact logs_form rfl rfl rfl ⟨node, target, indices, initializer, rfl, construction⟩
        ⟨sight, answered⟩ rfl
    · exact logs_form rfl rfl rfl construction trivial rfl
  · exact logs_none rfl

/-- Entering an expression goes on with its parts. -/
theorem logs_expr (present : expr.isPresent = true) :
    Logs (lowerExpr body sight standing expr) fun log parts =>
      log.IsOwn body expr ∧ (parts.map Prod.snd).filter isPresent = expr.children := by
  have parts {α : Type} {computation : LowerM α} {next : α → List (Standing × Expr)}
      (logs : Logs computation fun log _ => log.IsOwn body expr)
      (parts : ∀ result, ((next result).map Prod.snd).filter isPresent = expr.children) :
      Logs (do let result ← computation; return next result) fun log parts =>
        log.IsOwn body expr ∧ (parts.map Prod.snd).filter isPresent = expr.children := by
    refine Logs.bind logs fun log result own => .pure ⟨?_, parts result⟩
    rwa [Log.append_nil]
  cases expr with
  | absent => contradiction
  | leaf node form => exact parts logs_leaf fun _ => rfl
  | declaration node declared continued => exact parts logs_declaration fun _ => rfl
  | operation node op left right => exact parts logs_operation fun _ => rfl
  | assignment node op target value =>
      refine Logs.bind logs_compound fun log _ own => quiet_get.bind fun state _ => .pure ⟨?_, rfl⟩
      rwa [Log.append_nil]
  | typeTest node operand typeName => exact parts logs_typeTest fun _ => rfl
  | access node subject member => exact parts logs_access fun _ => rfl
  | group node brace items => exact .pure ⟨isOwn_nil rfl, by simp [children, Function.comp_def]⟩
  | cast node typeName operand =>
      exact (quiet_reportType typeName).bind fun _ _ => .pure ⟨isOwn_nil rfl, rfl⟩
  | call node callee arguments =>
      have whole : (Expr.call node callee arguments).children =
          (callee :: arguments).filter isPresent := rfl
      have own : Logs (lowerArguments body sight arguments) fun log _ =>
          log.IsOwn body (.call node callee arguments) :=
        logs_below rfl (fun part member => mem_below whole (List.mem_cons_of_mem _ member))
          (logs_arguments arguments)
      unfold lowerExpr
      dsimp only
      split
      · exact parts own fun _ => by simp [children, Function.comp_def]
      · exact .pure ⟨isOwn_nil rfl, by simp [children, Function.comp_def]⟩
  | index node target indices initializer =>
      exact parts logs_index fun _ => by simp [children, Function.comp_def]

end
end Lowering
end MethodLowering
