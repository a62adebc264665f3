import Mathlib.Data.List.Pairwise
import MethodLowering.Proofs.Reduction.Wholeness

/-!
# Constructor calls in a tree that was read

A constructor call ends with a bracket of its own.  So no two of a tree end at the same position,
and a call can be found again by the position at which it ends.  Declaring the further variables of
a comma list leaves every constructor call as it is.
-/

namespace MethodLowering
namespace Expr

open Text

/-- The constructor calls of a tree, in order. -/
def constructions (expr : Expr) : List Expr := expr.preorder.filter isConstructorCall

/-- The expression ends at the position. -/
def EndsAt (expr : Expr) (position : Nat) : Prop :=
  ∃ node, expr.node? = some node ∧ node.span.stop = position

section

variable {text : List Char} {expr inner other child : Expr} {node : Node} {position : Nat}

theorem mem_constructions :
    inner ∈ expr.constructions ↔ inner ∈ expr.preorder ∧ inner.isConstructorCall = true :=
  List.mem_filter

/-! ## Where the parts of a tree end -/

/-- The first expression ends where the second one starts, or in front of it. -/
def Precedes (first second : Expr) : Prop :=
  ∀ left right, first.node? = some left → second.node? = some right →
    left.span.stop ≤ right.span.start

/-- The children of an expression lie inside it, one behind the other. -/
theorem IsExact.children (isExact : expr.IsExact text node) :
    (∀ child ∈ expr.children, ∀ part, child.node? = some part →
      node.span.start ≤ part.span.start ∧ part.span.stop ≤ node.span.stop) ∧
    expr.children.Pairwise Precedes := by
  obtain ⟨inside, ordered⟩ := isExact.laid.spans
  rw [writtenIn_parts] at inside ordered
  constructor
  · intro child member part known
    have bounds := inside part.span (List.mem_filterMap.2 ⟨child, member, by rw [known]; rfl⟩)
    exact ⟨bounds.1, bounds.2.2⟩
  · rw [spansOf, List.pairwise_filterMap] at ordered
    refine ordered.imp fun separate left right knownLeft knownRight => ?_
    exact separate _ (by rw [knownLeft]; rfl) _ (by rw [knownRight]; rfl)

/-- Of two children, one precedes the other. -/
theorem IsExact.apart (isExact : expr.IsExact text node) (isChild : child ∈ expr.children)
    (alsoChild : other ∈ expr.children) :
    child = other ∨ Precedes child other ∨ Precedes other child := by
  have symmetric : Std.Symm fun first second : Expr =>
      Precedes first second ∨ Precedes second first := ⟨fun _ _ => Or.symm⟩
  have pairs : expr.children.Pairwise fun first second =>
      Precedes first second ∨ Precedes second first := isExact.children.2.imp Or.inl
  by_cases same : child = other
  · exact .inl same
  · exact .inr (pairs.forall isChild alsoChild same)

/-- Every part of a faithful tree lies inside the tree. -/
theorem Faithful.inside {expr inner : Expr} {node : Node} (faithful : expr.Faithful text)
    (known : expr.node? = some node) (member : inner ∈ expr.preorder) :
    ∃ part, inner.node? = some part ∧ node.span.start ≤ part.span.start ∧
      part.span.start < part.span.stop ∧ part.span.stop ≤ node.span.stop := by
  obtain ⟨⟨_, isExact⟩, children⟩ := (faithful_iff (isPresent_iff.2 ⟨node, known⟩)).1 faithful
  obtain rfl := Option.some.inj (known.symm.trans isExact.node?)
  rcases mem_preorder.1 member with ⟨-, rfl⟩ | ⟨child, isChild, deeper⟩
  · exact ⟨node, known, Nat.le_refl _, isExact.nonempty, Nat.le_refl _⟩
  · have smaller := sizeOf_lt_of_mem_children isChild
    obtain ⟨childNode, childKnown⟩ := isPresent_iff.1 (isPresent_of_mem_children isChild)
    obtain ⟨part, here, low, nonempty, high⟩ :=
      Faithful.inside (children child isChild) childKnown deeper
    obtain ⟨after, before⟩ := isExact.children.1 child isChild childNode childKnown
    exact ⟨part, here, Nat.le_trans after low, nonempty, Nat.le_trans high before⟩
termination_by sizeOf expr

/-- A call ends behind all its parts: its closing bracket is its own. -/
theorem IsExact.child_lt_of_call (isExact : expr.IsExact text node)
    (calls : expr.isConstructorCall = true) (member : child ∈ expr.children) {part : Node}
    (known : child.node? = some part) : part.span.stop < node.span.stop := by
  cases expr with
  | call own callee arguments =>
      have laid := isExact.laid
      rw [parts, laid_append] at laid
      obtain ⟨middle, front, closing⟩ := laid
      have closes := closing.read_token
      have above : middle < node.span.stop := by
        refine Nat.lt_of_le_of_ne closing.le fun same => ?_
        rw [← same, between_self] at closes
        exact absurd closes.symm (by decide)
      have written : (call own callee arguments).children = writtenIn
          (.child callee :: .token Op.openParen.spelling :: listParts arguments) := by
        rw [← writtenIn_parts]
        simp [parts, writtenIn, writtenIn_append]
      rw [written] at member
      have bounds := front.spans.1 part.span
        (List.mem_filterMap.2 ⟨child, member, by rw [known]; rfl⟩)
      exact Nat.lt_of_le_of_lt bounds.2.2 above
  | _ => simp [isConstructorCall] at calls

/-- No two constructor calls of a faithful tree end at the same position. -/
theorem Faithful.eq_of_endsAt {expr inner other : Expr} (faithful : expr.Faithful text)
    (first : inner ∈ expr.constructions) (second : other ∈ expr.constructions)
    (ends : inner.EndsAt position) (alsoEnds : other.EndsAt position) : inner = other := by
  obtain ⟨inside, calls⟩ := mem_constructions.1 first
  obtain ⟨alsoInside, alsoCalls⟩ := mem_constructions.1 second
  obtain ⟨left, leftKnown, leftEnds⟩ := ends
  obtain ⟨right, rightKnown, rightEnds⟩ := alsoEnds
  have present : expr.isPresent = true := by
    cases expr with
    | absent => simp [preorder] at inside
    | _ => rfl
  obtain ⟨⟨node, isExact⟩, children⟩ := (faithful_iff present).1 faithful
  -- a part of a call ends in front of the call
  have below {part : Expr} {call partNode : Node} (isCall : expr.isConstructorCall = true)
      (isRoot : expr.node? = some call) (deeper : ∃ child ∈ expr.children, part ∈ child.preorder)
      (known : part.node? = some partNode) : partNode.span.stop < call.span.stop := by
    obtain rfl := Option.some.inj (isExact.node?.symm.trans isRoot)
    obtain ⟨child, isChild, deeper⟩ := deeper
    obtain ⟨childNode, childKnown⟩ := isPresent_iff.1 (isPresent_of_mem_children isChild)
    obtain ⟨_, here, -, -, high⟩ := (children child isChild).inside childKnown deeper
    obtain rfl := Option.some.inj (known.symm.trans here)
    exact Nat.lt_of_le_of_lt high (isExact.child_lt_of_call isCall isChild childKnown)
  rcases mem_preorder.1 inside with ⟨-, rfl⟩ | ⟨child, isChild, deeper⟩
  · rcases mem_preorder.1 alsoInside with ⟨-, rfl⟩ | alsoDeeper
    · rfl
    · have before := below calls leftKnown alsoDeeper rightKnown
      omega
  · rcases mem_preorder.1 alsoInside with ⟨-, rfl⟩ | ⟨sibling, isSibling, alsoDeeper⟩
    · have before := below alsoCalls rightKnown ⟨child, isChild, deeper⟩ leftKnown
      omega
    · rcases isExact.apart isChild isSibling with rfl | separate
      · have smaller := sizeOf_lt_of_mem_children isChild
        exact Faithful.eq_of_endsAt (children child isChild)
          (mem_constructions.2 ⟨deeper, calls⟩) (mem_constructions.2 ⟨alsoDeeper, alsoCalls⟩)
          ⟨left, leftKnown, leftEnds⟩ ⟨right, rightKnown, rightEnds⟩
      · -- siblings do not overlap, so their parts do not end together
        obtain ⟨childNode, childKnown⟩ := isPresent_iff.1 (isPresent_of_mem_children isChild)
        obtain ⟨siblingNode, siblingKnown⟩ := isPresent_iff.1 (isPresent_of_mem_children isSibling)
        obtain ⟨_, here, low, nonempty, high⟩ := (children child isChild).inside childKnown deeper
        obtain rfl := Option.some.inj (leftKnown.symm.trans here)
        obtain ⟨_, there, alsoLow, alsoNonempty, alsoHigh⟩ :=
          (children sibling isSibling).inside siblingKnown alsoDeeper
        obtain rfl := Option.some.inj (rightKnown.symm.trans there)
        rcases separate with before | behind
        · have order := before childNode siblingNode childKnown siblingKnown
          omega
        · have order := behind siblingNode childNode siblingKnown childKnown
          omega
termination_by sizeOf expr

end
end Expr

/-! ## Statements and clauses -/

/-- The tree was read from the text, as a clause or as a statement. -/
def Placed.IsReadFrom (text : List Char) (placed : Placed) : Prop :=
  ∃ scope before after, Body.readExpression scope text before = .ok placed after ∨
    Body.readStatement scope text before = .ok placed after

namespace Body

open MethodLowering.Expr

section

variable {scope : ParagraphId} {before after : Body} {text : List Char} {placed : Placed}
  {expr : Expr}

/-- The constructor calls stay, and the tree is still there. -/
def KeepsConstructions (expr result : Expr) : Prop :=
  result.constructions = expr.constructions ∧ result.isPresent = expr.isPresent

theorem continueName_constructions (shared : SharedDeclaration) (expr : Expr) :
    AlwaysGives (continueName shared expr) (KeepsConstructions expr) := by
  unfold continueName
  split
  · exact .then fun _ => .then fun _ => .pure ⟨rfl, rfl⟩
  · exact .pure ⟨rfl, rfl⟩

theorem continueItem_constructions (shared : SharedDeclaration) (expr : Expr) :
    AlwaysGives (continueItem shared expr) (KeepsConstructions expr) := by
  unfold continueItem
  split
  · rename_i node op target value
    refine (continueName_constructions shared target).bind fun renamed keeps => .pure ⟨?_, rfl⟩
    have same := keeps.1
    simp only [constructions] at same
    simp only [constructions, preorder, List.filter_cons, List.filter_append, same,
      isConstructorCall, Bool.false_eq_true, if_false]
  · exact continueName_constructions shared expr

theorem continueItems_constructions (shared : SharedDeclaration) (isFirst : Bool) (expr : Expr) :
    AlwaysGives (continueItems shared isFirst expr) fun result =>
      KeepsConstructions expr result.1 := by
  induction isFirst, expr using continueItems.induct with
  | case1 isFirst =>
      rw [continueItems]
      exact .pure ⟨rfl, rfl⟩
  | case2 isFirst node left right leftInduction rightInduction =>
      rw [continueItems]
      refine leftInduction.bind fun first keeps => ?_
      refine (rightInduction first.2).bind fun second keepsLast => .pure ⟨?_, rfl⟩
      have sameLeft := keeps.1
      have sameRight := keepsLast.1
      simp only [constructions] at sameLeft sameRight
      simp only [constructions, preorder, List.filter_cons, List.filter_append, sameLeft, sameRight,
        isConstructorCall, Bool.false_eq_true, if_false]
  | case3 item notAbsent notComma =>
      rw [continueItems]
      · exact .pure ⟨rfl, rfl⟩
      · exact notAbsent
      · exact notComma
  | case4 item notAbsent notComma =>
      rw [continueItems]
      · exact (continueItem_constructions shared item).bind fun _ keeps => .pure keeps
      · exact notAbsent
      · exact notComma

theorem continueDeclaration_constructions (root : Expr) :
    AlwaysGives (continueDeclaration root) (KeepsConstructions root) := by
  unfold continueDeclaration
  split
  · exact .pure ⟨rfl, rfl⟩
  · refine .then fun body => ?_
    split
    · exact .pure ⟨rfl, rfl⟩
    · exact (continueItems_constructions _ true root).bind fun _ keeps => .pure keeps

/-- A statement has the constructor calls of the expression it is read as. -/
theorem exists_expression (isRead : placed.IsReadFrom text) :
    ∃ scope before root after, readExpression scope text before = .ok root after ∧
      KeepsConstructions root.expr placed.expr := by
  obtain ⟨scope, before, after, asClause | asStatement⟩ := isRead
  · exact ⟨scope, before, placed, after, asClause, rfl, rfl⟩
  · obtain ⟨root, between, first, behind⟩ := bind_eq_ok.1 asStatement
    obtain ⟨expr, final, second, ended⟩ := bind_eq_ok.1 behind
    obtain ⟨rfl, -⟩ := EStateM.Result.ok.inj ended
    exact ⟨scope, before, root, between, first,
      continueDeclaration_constructions root.expr between expr final second⟩

end
end Body

section

variable {text : List Char} {placed : Placed} {inner other : Expr} {position : Nat}

/-- No two constructor calls of a tree that was read end at the same position. -/
theorem Placed.IsReadFrom.eq_of_endsAt (isRead : placed.IsReadFrom text)
    (first : inner ∈ placed.expr.constructions) (second : other ∈ placed.expr.constructions)
    (ends : inner.EndsAt position) (alsoEnds : other.EndsAt position) : inner = other := by
  obtain ⟨scope, before, root, after, read, keeps⟩ := Body.exists_expression isRead
  rw [keeps.1] at first second
  obtain ⟨expr, final, reduces, rfl, -⟩ := Body.exists_statement read
  exact (Reduction.statement_scan reduces).1.eq_of_endsAt first second ends alsoEnds

/-- A text with more than blanks gives a tree. -/
theorem Placed.IsReadFrom.isPresent (isRead : placed.IsReadFrom text)
    (solid : ∃ c ∈ text, Text.isBlank c = false) : placed.expr.isPresent = true := by
  obtain ⟨scope, before, root, after, read, keeps⟩ := Body.exists_expression isRead
  rw [keeps.2]
  obtain ⟨expr, final, reduces, rfl, -⟩ := Body.exists_statement read
  obtain ⟨c, member, visible⟩ := solid
  by_contra absent
  have blank := (Reduction.statement_scan reduces).2.1 (Bool.eq_false_iff.2 absent) c member
  simp [visible] at blank

/-- A written part of a tree that was read has the text at its span. -/
theorem Placed.IsReadFrom.text_eq (isRead : placed.IsReadFrom text)
    (member : inner ∈ placed.expr.preorder) :
    ∃ node, inner.node? = some node ∧ node.span.stop ≤ text.length ∧
      node.text = String.ofList (node.span.slice text) := by
  have settled : placed.expr.Everywhere (Expr.IsSettled text) := by
    obtain ⟨scope, before, after, asClause | asStatement⟩ := isRead
    · exact Body.readExpression_settled asClause
    · exact Body.readStatement_carries (Expr.isSettled_survives text)
        (fun _ _ => Body.readExpression_settled) asStatement
  obtain ⟨node, known, -, inside, same⟩ := (settled inner member).place
  exact ⟨node, known, inside, same⟩

end
end MethodLowering
