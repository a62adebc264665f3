import MethodLowering.Lowering.Statement
import MethodLowering.Rendering.Expression

/-!
# The expressions that directives are for

Every directive is for one sort of expression.  On an expression of its sort a directive that
replaces the text of an expression has a text to give.
-/

namespace MethodLowering

namespace Expr

/-- The expression has no target form: verbatim text, a shift that fills with zeros, the receiver of
an outer class, a fresh array of unknown type, or a container that is filled from itself. -/
def IsFormless : Expr → Prop
  | leaf _ form => form = .verbatim
  | operation _ op _ _ => op = .shiftRightZero
  | assignment _ op target value =>
      op = .shiftRightZeroAssign ∨
        op = .assign ∧ ∃ node callee source, value = .call node callee [source] ∧
          callee.isConstruction = true ∧ Lowering.sameSpelling target source = true
  | access _ _ member => member.isReceiver = true
  | index _ target _ _ => target.isConstruction = true
  | _ => False

/-- A plain assignment. -/
def isPlainAssignment : Expr → Bool
  | assignment _ op _ _ => op == .assign
  | _ => false

/-- An access to a member. -/
def isAccess : Expr → Bool
  | access .. => true
  | _ => false

/-- The form of the expression is decided where it stands as a statement or is thrown: a plain
assignment or the call of a constructor.  The form of all others is decided when they are
entered. -/
def isOuter (expr : Expr) : Bool := expr.isPlainAssignment || expr.isConstructorCall

end Expr

namespace Directive

open Lowering

/-- The directive decides the form of its expression; the others put marks around its text. -/
def decides : Directive → Bool
  | toText | outerField | smartHandleGet => false
  | _ => true

/-- The directive gives the whole text of its expression. -/
def replaces : Directive → Bool
  | memberAccess _ => false
  | directive => directive.decides

/-- The directive writes a second statement. -/
def splits : Directive → Bool
  | bulkCopy .. | arrayTemporary .. => true
  | _ => false

/-- The directive rewrites a plain assignment of the value to the target. -/
def Rewrites (body : Body) (target value : Expr) : Directive → Prop
  | initEmpty => declares target = true
  | clearValue _ => declares target = false
  | bulkCopy source _ declare _ =>
      declare = declares target ∧
        (∃ node callee, value = .call node callee [source] ∧ callee.isConstruction = true) ∧
        (declare = true → (target.declaredVariable?.bind (body.vars[·]?)).isSome = true)
  | constructFrom call declare =>
      declare = declares target ∧ call = value ∧ value.isConstructorCall = true
  | arrayConstructor dimensions initializer =>
      declares target = true ∧ ∃ node array indices,
        value = .index node array indices initializer ∧ array.isConstruction = true ∧
          dimensions = indices.filter Expr.isPresent
  | arrayTemporary _ _ dimensions =>
      declares target = false ∧ ∃ node array indices initializer,
        value = .index node array indices initializer ∧ array.isConstruction = true ∧
          initializer.isAbsent = true ∧ dimensions = indices.filter Expr.isPresent
  | _ => False

/-- The expression is of the sort that the directive is for. -/
def Suits (body : Body) (expr : Expr) : Directive → Prop
  | toText => True
  | outerField | smartHandleGet => expr.isIdentifier = true
  | nullLiteral => expr.isNull = true
  | unsupported => expr.IsFormless
  | emptinessTest subject negated =>
      ∃ node left right, expr = .operation node (if negated then .notEqual else .equal) left right ∧
        (right.isNull = true ∧ subject = left ∨ left.isNull = true ∧ subject = right)
  | typeTest _ => ∃ node operand typeName, expr = .typeTest node operand typeName
  | throwByValue =>
      ∃ node callee arguments, expr = .call node callee arguments ∧
        callee.isConstruction = true ∧ body.liftedAt? node = none
  | arrayValue _ =>
      ∃ node target indices initializer, expr = .index node target indices initializer ∧
        target.isConstruction = true
  | memberAccess _ =>
      ∃ node subject member, expr = .access node subject member ∧ member.isReceiver = false
  | rewrite =>
      ∃ node target value, expr = .assignment node .assign target value ∧
        rewrite.Rewrites body target value

/-- A directive that names a type names the one that its expression has. -/
def IsTyped (body : Body) (expr : Expr) : Directive → Prop
  | arrayValue arrayType => ∃ sight, body.declaredType sight expr = .ok (some arrayType)
  | _ => True

section

variable {body : Body} {expr target value : Expr} {directive : Directive}

theorem isTyped_of_not_decides (marks : directive.decides = false) :
    directive.IsTyped body expr := by
  cases directive with
  | arrayValue arrayType => contradiction
  | _ => trivial

/-- What rewrites an assignment names no type of it. -/
theorem isTyped_of_isOuter (outer : expr.isOuter = true) (suits : directive.Suits body expr) :
    directive.IsTyped body expr := by
  cases directive with
  | arrayValue arrayType =>
      obtain ⟨_, _, _, _, rfl, -⟩ := suits
      contradiction
  | _ => trivial

theorem decides_of_splits (splits : directive.splits = true) : directive.decides = true := by
  cases directive with
  | bulkCopy source method declare checked => rfl
  | arrayTemporary name arrayType dimensions => rfl
  | _ => contradiction

/-- A second statement is written for plain assignments only. -/
theorem isPlainAssignment_of_splits (suits : directive.Suits body expr)
    (splits : directive.splits = true) : expr.isPlainAssignment = true := by
  cases directive with
  | bulkCopy source method declare checked =>
      obtain ⟨node, target, value, rfl, -⟩ := suits
      rfl
  | arrayTemporary name arrayType dimensions =>
      obtain ⟨node, target, value, rfl, -⟩ := suits
      rfl
  | _ => contradiction

/-- What decides the form of an access is the form of the access, or that it has none. -/
theorem eq_of_isAccess (suits : directive.Suits body expr) (isAccess : expr.isAccess = true)
    (decides : directive.decides = true) :
    (∃ mark, directive = memberAccess mark) ∨ directive = unsupported := by
  cases expr with
  | access node subject member =>
      cases directive with
      | memberAccess mark => exact .inl ⟨mark, rfl⟩
      | unsupported => exact .inr rfl
      | toText => contradiction
      | outerField => contradiction
      | smartHandleGet => contradiction
      | nullLiteral => contradiction
      | emptinessTest subject negated =>
          obtain ⟨_, _, _, same, -⟩ := suits
          contradiction
      | typeTest pointer =>
          obtain ⟨_, _, _, same⟩ := suits
          contradiction
      | throwByValue =>
          obtain ⟨_, _, _, same, -⟩ := suits
          contradiction
      | arrayValue arrayType =>
          obtain ⟨_, _, _, _, same, -⟩ := suits
          contradiction
      | _ =>
          obtain ⟨_, _, _, same, -⟩ := suits
          contradiction
  | _ => contradiction

theorem exists_constructedType? (construction : expr.isConstruction = true) :
    ∃ typeName, expr.constructedType? = some typeName :=
  Option.isSome_iff_exists.1 construction

/-- On an assignment of its sort a rewrite has a text. -/
theorem Rewrites.isSome_assignmentText? {rendering : Rendering} {render : Expr → String}
    (rewrites : directive.Rewrites rendering.body target value) :
    (rendering.assignmentText? render target directive).isSome = true := by
  cases directive with
  | initEmpty => rfl
  | clearValue text => cases text <;> rfl
  | bulkCopy source method declare checked =>
      obtain ⟨-, -, declared⟩ := rewrites
      cases declare with
      | true =>
          simp only [Rendering.assignmentText?, if_true, Option.isSome_map]
          exact declared rfl
      | false => rfl
  | constructFrom call declare =>
      obtain ⟨-, rfl, construction⟩ := rewrites
      cases call with
      | call node callee arguments =>
          obtain ⟨typeName, constructed⟩ := exists_constructedType? construction
          cases declare with
          | true => rfl
          | false => simp [Rendering.assignmentText?, constructed]
      | _ => contradiction
  | arrayConstructor dimensions initializer => rfl
  | arrayTemporary name arrayType dimensions => rfl
  | _ => contradiction

/-- On an expression of its sort a directive that replaces has a text. -/
theorem Suits.isSome_replacement? {rendering : Rendering} {render : Expr → String}
    (suits : directive.Suits rendering.body expr) (replaces : directive.replaces = true) :
    (rendering.replacement? render expr directive).isSome = true := by
  have rewritten {node : Node} {target value : Expr} {rewrite : Directive}
      (same : rendering.replacement? render (.assignment node .assign target value) rewrite =
        rendering.assignmentText? render target rewrite)
      (rewrites : rewrite.Rewrites rendering.body target value) :
      (rendering.replacement? render (.assignment node .assign target value) rewrite).isSome =
        true :=
    same ▸ rewrites.isSome_assignmentText?
  cases directive with
  | toText => contradiction
  | outerField => contradiction
  | smartHandleGet => contradiction
  | memberAccess mark => contradiction
  | unsupported => rfl
  | nullLiteral => rfl
  | emptinessTest subject negated => rfl
  | typeTest pointer =>
      obtain ⟨node, operand, typeName, rfl⟩ := suits
      rfl
  | throwByValue =>
      obtain ⟨node, callee, arguments, rfl, construction, -⟩ := suits
      obtain ⟨typeName, constructed⟩ := exists_constructedType? construction
      simp [Rendering.replacement?, constructed]
  | arrayValue arrayType =>
      obtain ⟨node, target, indices, initializer, rfl, -⟩ := suits
      rfl
  | _ =>
      obtain ⟨node, target, value, rfl, rewrites⟩ := suits
      exact rewritten rfl rewrites

end
end Directive
end MethodLowering
