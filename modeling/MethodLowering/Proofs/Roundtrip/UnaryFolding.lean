import MethodLowering.Proofs.Roundtrip.BracketFolding

/-!
# Folding unary operators of spelled trees

An increment or decrement stands in front of its operand or behind it; a sign and a negation stand
in front.  Once brackets, chains and steps are gone, only operators of the looser levels are left.
-/

namespace MethodLowering
namespace Tree

open Reduction

section

variable {text : List Char} {items : List Tree} {tree : Tree} {expr : Expr}
  {before after segments front middle back : List Segment} {segment : Segment} {op : Op}
  {bound count : Nat} {operands : OnSegments.Operands} {other : Reduction} {form : Form}

/-! ## Unary operators -/

/-- Increment and decrement stand in front of a chain or behind it. -/
theorem Owns.of_step {front back : List Part} (owns : Owns form front op back)
    (step : op.isStep = true) (holds : form.AtLeast 0) :
    ∃ operand, operand.isWellFormed = true ∧ 22 ≤ operand.rank ∧
      (form = .tree (.leading op operand) ∧ front = [] ∧ back = [.form (.tree operand)] ∨
        form = .tree (.trailing operand op) ∧ front = [.form (.tree operand)] ∧ back = []) := by
  have steps : op = .increment ∨ op = .decrement := by
    simpa [Op.isStep] using step
  cases owns with
  | @leading op operand =>
      have well := holds.1
      simp only [isWellFormed, Bool.and_eq_true, Bool.or_eq_true, decide_eq_true_eq] at well
      refine ⟨operand, well.2, ?_, .inl ⟨rfl, rfl, rfl⟩⟩
      rcases well.1 with ⟨mark, -⟩ | ⟨-, high⟩
      · rcases steps with rfl | rfl <;> contradiction
      · exact high
  | @trailing op operand =>
      have well := holds.1
      simp only [isWellFormed, Bool.and_eq_true, decide_eq_true_eq] at well
      exact ⟨operand, well.2, well.1.2, .inr ⟨rfl, rfl, rfl⟩⟩
  | binary =>
      have well := holds.1
      simp only [isWellFormed, Bool.and_eq_true] at well
      rcases steps with rfl | rfl <;> exact absurd well.1.1.1.1 (by decide)
  | assignment =>
      have well := holds.1
      simp only [isWellFormed, Bool.and_eq_true] at well
      rcases steps with rfl | rfl <;> exact absurd well.1.1.1 (by decide)
  | closing closes => rcases steps with rfl | rfl <;> simp at closes
  | _ => simp at steps

/-- An operator in front of an operand that is a single segment. -/
theorem leading_yields (reads : ReadsTo text bound operands) {last : Segment}
    (written : Written text items (front ++ segment :: ([last] ++ back)))
    (isOp : segment.op? = some op) (well : tree.isWellFormed = true)
    (spelled : Spelled text [.form (.tree tree)] [last]) (isLast : last.isOperand = true)
    (inFront : ((op == .increment || op == .decrement) &&
      !(OnSegments.lastOperands front).isEmpty) = false) (none : OnSegments.firstOperands back = [])
    (refold : ∀ segment expr, segment.piece = .tree expr →
      (Form.tree (.leading op tree)).Pictures expr →
      Spelled text (listParts items) (front ++ segment :: back)) (chars : other.ledger.chars = text)
    (short : (front ++ segment :: ([last] ++ back)).length ≤ bound) :
    Yields other (Advances text items (front ++ segment :: ([last] ++ back)))
      (OnSegments.unary operands op segment.span.start front ([last] ++ back) other) := by
  have fewer : (headsOf front).length + (headsOf back).length <
      (headsOf (front ++ segment :: ([last] ++ back))).length := by
    simp only [headsOf_append, headsOf_op isOp, List.length_append, List.length_cons]
    omega
  have long : [last].length < bound := by
    simp only [List.length_append, List.length_cons] at short ⊢
    omega
  have written' : Written text items (front ++ [segment] ++ [last] ++ back) := by
    simpa using written
  obtain ⟨firstLast, rest⟩ := firstOperands_cons none isLast
  unfold OnSegments.unary
  rw [inFront, if_neg Bool.false_ne_true, List.singleton_append, firstLast, rest]
  refine required_yields reads written' well spelled chars long fun right _ _ pictured => ?_
  refine Yields.bind (newNodeAround_yields _ _) fun node _ _ _ => ?_
  exact Yields.pure (.inr ⟨fun span => refold _ _ rfl (.leading pictured), fewer⟩)

theorem step_yields (reads : ReadsTo text bound operands)
    (written : Written text items (before ++ segment :: after)) (isOp : segment.op? = some op)
    (step : op.isStep = true) (noParen : ¬ Occurs .openParen (before ++ segment :: after))
    (noBracket : ¬ Occurs .openBracket (before ++ segment :: after))
    (noDot : ¬ Occurs .dot (before ++ segment :: after))
    (chars : other.ledger.chars = text) (short : (before ++ segment :: after).length ≤ bound) :
    Yields other (Advances text items (before ++ segment :: after))
      (OnSegments.unary operands op segment.span.start before after other) := by
  rcases written.spelled.belongs inherits_wellFormed written.forms (fun _ _ =>
    trivial) rfl isOp with
    ⟨front, back, own, -, -⟩ | @⟨form, front, back, outerLeft, left, right, outerRight, holds, own,
      spelledLeft, spelledRight, refold⟩
  · have among : .op op ∈ listParts items := by simp [own]
    rw [op_mem_listParts among] at step
    contradiction
  · obtain ⟨noneLeft, noneRight⟩ := neighbours_of_refold items refold
    obtain ⟨operand, well, chain, ⟨rfl, rfl, rfl⟩ | ⟨rfl, rfl, rfl⟩⟩ :=
      (owns_of_parts own).of_step step holds
    · obtain rfl := spelled_nil.1 spelledLeft
      obtain ⟨last, rfl, isLast⟩ := spelledRight.single_chain well chain
        (fun occurs => noParen (Occurs.append_right (Occurs.cons occurs.append_left)))
        (fun occurs => noBracket (Occurs.append_right (Occurs.cons occurs.append_left)))
        (fun occurs => noDot (Occurs.append_right (Occurs.cons occurs.append_left)))
      rw [List.append_nil] at written short ⊢
      refine leading_yields reads written isOp well spelledRight isLast ?_ noneRight
        refold chars short
      rw [noneLeft]
      exact Bool.and_false _
    · obtain rfl := spelled_nil.1 spelledRight
      obtain ⟨head, rfl, isHead⟩ := spelledLeft.single_chain well chain
        (fun occurs => noParen (Occurs.append_left occurs.append_right))
        (fun occurs => noBracket (Occurs.append_left occurs.append_right))
        (fun occurs => noDot (Occurs.append_left occurs.append_right))
      obtain ⟨lastHead, front⟩ := lastOperands_concat noneLeft isHead
      have fewer : (headsOf outerLeft).length + (headsOf outerRight).length <
          (headsOf (outerLeft ++ [head] ++ segment :: ([] ++ outerRight))).length := by
        simp only [headsOf_append, headsOf_op isOp, List.length_append, List.length_cons]
        omega
      have long : [head].length < bound := by
        simp only [List.length_append, List.length_cons] at short ⊢
        omega
      have behind : ((op == .increment || op == .decrement) && !List.isEmpty [head]) = true := by
        rw [show (op == .increment || op == .decrement) = true from step]
        rfl
      unfold OnSegments.unary
      rw [lastHead, front, behind, if_pos rfl]
      refine required_yields reads written well spelledLeft chars long fun left _ _ pictured => ?_
      refine Yields.bind (newNodeAround_yields _ _) fun node _ _ _ => ?_
      exact Yields.pure (.inr ⟨fun span => refold _ _ rfl (.trailing pictured), fewer⟩)

/-! ## Operators that are left -/

/-- No operator below a level is left, closing brackets aside. -/
def Floor (least : Nat) (segments : List Segment) : Prop :=
  ∀ op, Occurs op segments → op.isClosing = false → least ≤ op.row.level

theorem Floor.gone {least : Nat} (floor : Floor least segments) (op : Op)
    (plain : op.isClosing = false) (lower : op.row.level < least) : ¬ Occurs op segments := by
  intro occurs
  have bound := floor op occurs plain
  omega

theorem Written.endsOperand (written : Written text items segments) (floor : Floor 10 segments)
    (op : Op) (occurs : Occurs op segments) : op.endsOperand = false := by
  have leads {leader follower : Op} (pair : (leader, follower) ∈ followers)
      (other : follower ≠ .comma)
      (occurs : Occurs follower segments) : Occurs leader segments :=
    written.spelled.occurs_leader pair written.forms (fun among =>
      other (op_mem_listParts among)) occurs
  cases op with
  | closeParen =>
      refine absurd (leads ?_ (by decide) occurs) (floor.gone .openParen rfl (by decide))
      decide
  | closeBracket =>
      refine absurd (leads ?_ (by decide) occurs) (floor.gone .openBracket rfl (by decide))
      decide
  | increment => exact absurd occurs (floor.gone _ rfl (by decide))
  | decrement => exact absurd occurs (floor.gone _ rfl (by decide))
  | _ => rfl

/-- Without commas, at most one tree is spelled. -/
theorem Written.exists_one (written : Written text items segments)
    (noComma : ¬ Occurs .comma segments) (present : segments ≠ []) : ∃ tree, items = [tree] := by
  match items, written.spelled with
  | [], spelled => exact absurd (spelled_nil.1 spelled) present
  | [only], _ => exact ⟨only, rfl⟩
  | first :: next :: rest, spelled =>
      exact absurd (spelled.occurs (by simp [listParts])) noComma

/-- A place in a list, compared with another one. -/
theorem place_cases {α : Type} {left right before after : List α} {own found : α}
    (split : left ++ own :: right = before ++ found :: after) :
    (left = before ∧ own = found ∧ right = after) ∨
      (∃ middle, before = left ++ own :: middle ∧ right = middle ++ found :: after) ∨
      ∃ middle, left = before ++ found :: middle ∧ after = middle ++ own :: right := by
  rcases append_eq_split split with ⟨earlier, rfl, later⟩ | ⟨later, rfl, rfl⟩
  · rcases List.cons_eq_append_iff.1 later with ⟨rfl, same⟩ | ⟨middle, rfl, same⟩
    · obtain ⟨rfl, rfl⟩ := List.cons.inj same
      exact .inl ⟨(List.append_nil _).symm, rfl, rfl⟩
    · exact .inr (.inl ⟨middle, rfl, same⟩)
  · exact .inr (.inr ⟨later, rfl, rfl⟩)

/-! ## Signs and negation -/

theorem isSignBehind_of_none (none : OnSegments.lastOperands front = [])
    (ends : ∀ op, Occurs op front → op.endsOperand = false) :
    OnSegments.isSignBehind front.getLast? = true := by
  rcases List.eq_nil_or_concat' front with rfl | ⟨rest, last, rfl⟩
  · rfl
  · rw [List.getLast?_concat, OnSegments.isSignBehind]
    cases isOp : last.op? with
    | none =>
        have operand : last.isOperand = true := by
          rw [Segment.isOperand, isOp]
          rfl
        rw [OnSegments.lastOperands, List.rtakeWhile_concat_pos _ _ _ operand] at none
        simp at none
    | some op =>
        rw [Option.any_some, ends op ⟨last, by simp, isOp⟩]
        rfl

theorem Owns.of_mark {front back : List Part} (owns : Owns form front op back)
    (mark : op.isMark = true) (holds : form.AtLeast 0) :
    (∃ operand, form = .tree (.leading op operand) ∧ front = [] ∧
      back = [.form (.tree operand)] ∧ operand.isWellFormed = true ∧ 21 ≤ operand.rank) ∨
    ∃ left right, form = .tree (.binary op left right) ∧ front = [.form (.tree left)] ∧
    op ≠ .not := by
  have marks : op = .plus ∨ op = .minus ∨ op = .not := by
    simpa [Op.isMark, or_assoc] using mark
  cases owns with
  | @leading op operand =>
      have well := holds.1
      simp only [isWellFormed, Bool.and_eq_true, Bool.or_eq_true, decide_eq_true_eq] at well
      exact .inl ⟨operand, rfl, rfl, rfl, well.2, by omega⟩
  | @binary op left right =>
      have well := holds.1
      simp only [isWellFormed, Bool.and_eq_true] at well
      refine .inr ⟨left, right, rfl, rfl, ?_⟩
      rintro rfl
      exact absurd well.1.1.1.1 (by decide)
  | trailing =>
      have well := holds.1
      simp only [isWellFormed, Bool.and_eq_true] at well
      rcases marks with rfl | rfl | rfl <;> exact absurd well.1.1 (by decide)
  | assignment =>
      have well := holds.1
      simp only [isWellFormed, Bool.and_eq_true] at well
      rcases marks with rfl | rfl | rfl <;> exact absurd well.1.1.1 (by decide)
  | closing closes => rcases marks with rfl | rfl | rfl <;> simp at closes
  | _ => simp at marks

/-- The operand of the last sign or negation is a single segment. -/
theorem single_behind_mark (spelled : Spelled text [.form (.tree tree)] middle)
    (well : tree.isWellFormed = true) (high : 21 ≤ tree.rank) (isOp : segment.op? = some op)
    (mark : op.isMark = true) (floor : Floor 16 (middle ++ back))
    (later : ∀ candidate ∈ OnSegments.candidatesFrom (some segment) (middle ++ back),
      16 < candidate.level) :
    ∃ last, middle = [last] ∧ last.isOperand = true := by
  have gone {op : Op} (plain : op.isClosing = false) (lower : op.row.level < 16) :
      ¬ Occurs op middle := fun occurs => floor.gone op plain lower occurs.append_left
  cases tree with
  | name chars => exact spelled.single (.inl ⟨chars, rfl⟩)
  | group inner =>
      exact spelled.single (.inr ⟨.openParen, by simp [Form.parts], gone rfl (by decide)⟩)
  | call callee arguments =>
      exact spelled.single (.inr ⟨.openParen, by simp [Form.parts], gone rfl (by decide)⟩)
  | index target indices =>
      cases indices with
      | nil => simp [isWellFormed] at well
      | cons first further =>
          exact spelled.single
            (.inr ⟨.openBracket, by simp [Form.parts, indexParts], gone rfl (by decide)⟩)
  | member subject link =>
      exact spelled.single (.inr ⟨.dot, by simp [Form.parts], gone rfl (by decide)⟩)
  | trailing operand found =>
      simp only [isWellFormed, Bool.and_eq_true, Op.isStep, Bool.or_eq_true, beq_iff_eq] at well
      refine spelled.single (.inr ⟨found, by simp [Form.parts], ?_⟩)
      rcases well.1.1 with rfl | rfl <;> exact gone rfl (by decide)
  | leading found operand =>
      rcases spelled.form_cases with ⟨last, expr, rfl, isTree, -⟩ | inner
      · exact ⟨last, rfl, isOperand_of_tree isTree⟩
      · -- the operator in front would itself be a later sign or negation
        obtain ⟨next, rest, rfl, isNext, -⟩ := spelled_op.1 inner
        exfalso
        simp only [isWellFormed, Bool.and_eq_true, Bool.or_eq_true, decide_eq_true_eq] at well
        have signs : OnSegments.isSignBehind (some segment) = true := by
          rw [OnSegments.isSignBehind, isOp, Option.any_some]
          have marks : op = .plus ∨ op = .minus ∨ op = .not := by
            simpa [Op.isMark, or_assoc] using mark
          rcases marks with rfl | rfl | rfl <;> rfl
        have kinds : found = .plus ∨ found = .minus ∨ found = .not ∨ found = .increment ∨
            found = .decrement := by
          rcases well.1 with ⟨mark, -⟩ | ⟨step, -⟩
          · revert mark
            cases found <;> decide
          · revert step
            cases found <;> decide
        have candidate : OnSegments.candidateOf (some segment) next found ∈
            OnSegments.candidatesFrom (some segment) ([] ++ next :: (rest ++ back)) :=
          OnSegments.mem_candidatesFrom isNext
            (by rcases kinds with rfl | rfl | rfl | rfl | rfl <;> rfl)
        have above := later _ candidate
        rcases kinds with rfl | rfl | rfl | rfl | rfl <;>
          simp [OnSegments.candidateOf, Candidate.level, signs, Op.signLevel, Op.row] at above
  | binary found left right =>
      have level : found.row.level ≤ 20 := by cases found <;> decide
      rw [rank] at high
      omega
  | _ => simp [rank] at high

theorem mark_yields (reads : ReadsTo text bound operands)
    (written : Written text items (before ++ segment :: after)) (isOp : segment.op? = some op)
    (mark : op.isMark = true) (sign : op = .not ∨ OnSegments.isSignBehind before.getLast? = true)
    (floor : Floor 16 (before ++ segment :: after))
    (later : ∀ candidate ∈ OnSegments.candidatesFrom (some segment) after, 16 < candidate.level)
    (chars : other.ledger.chars = text) (short : (before ++ segment :: after).length ≤ bound) :
    Yields other (Advances text items (before ++ segment :: after))
      (OnSegments.unary operands op segment.span.start before after other) := by
  have ends := written.endsOperand fun op occurs plain =>
    Nat.le_trans (by decide) (floor op occurs plain)
  rcases written.spelled.belongs inherits_wellFormed written.forms (fun _ _ =>
    trivial) rfl isOp with
    ⟨front, back, own, -, -⟩ | @⟨form, front, back, outerLeft, left, right, outerRight, holds, own,
      spelledLeft, spelledRight, refold⟩
  · have among : .op op ∈ listParts items := by simp [own]
    rw [op_mem_listParts among] at mark
    contradiction
  · obtain ⟨noneLeft, noneRight⟩ := neighbours_of_refold items refold
    rcases (owns_of_parts own).of_mark mark holds with
      ⟨operand, rfl, rfl, rfl, well, high⟩ | ⟨one, two, rfl, rfl, notNot⟩
    · obtain rfl := spelled_nil.1 spelledLeft
      have behind : Floor 16 (right ++ outerRight) :=
        fun op occurs plain => floor op (Occurs.append_right occurs.cons) plain
      obtain ⟨last, rfl, isLast⟩ := single_behind_mark spelledRight well high isOp mark behind later
      rw [List.append_nil] at written short ⊢
      refine leading_yields reads written isOp well spelledRight isLast ?_ noneRight
        refold chars short
      rw [noneLeft]
      exact Bool.and_false _
    · -- between two operands the operator is no sign
      exfalso
      obtain ⟨earlier, last, rfl, isLast⟩ := spelledLeft.exists_last
        (fun form among => (holds.inner (by rw [own]; simp_all)).1) (.inr ⟨one, rfl⟩)
        fun op occurs => ends op (Occurs.append_left occurs.append_right)
      rcases sign with rfl | sign
      · exact notNot rfl
      · rw [← List.append_assoc, List.getLast?_concat, OnSegments.isSignBehind] at sign
        rw [Segment.isOperand, Option.isNone_iff_eq_none] at isLast
        rw [isLast] at sign
        contradiction

end

end Tree
end MethodLowering
