import MethodLowering.Proofs.Roundtrip.UnaryFolding

/-!
# Folding spelled trees

When segments spell a list of trees, folding the operator between operands that is next joins the
expressions of smaller spellings to that of the whole.
-/

namespace MethodLowering
namespace Tree

open Reduction

section

variable {text : List Char} {items : List Tree} {tree : Tree} {expr : Expr}
  {before after segments front middle back : List Segment} {segment : Segment} {op : Op}
  {bound count : Nat} {operands : OnSegments.Operands} {other : Reduction} {form : Form}

/-! ## Operators between operands -/

theorem Spelled.unfolded (spelled : Spelled text [.form form] (before ++ segment :: after))
    (isOp : segment.op? = some op) : Spelled text form.parts (before ++ segment :: after) := by
  refine spelled.form_cases.resolve_left ?_
  rintro ⟨only, expr, same, isTree, -⟩
  obtain rfl : segment = only := by
    have among : segment ∈ [only] := by
      rw [← same]
      simp
    exact List.mem_singleton.1 among
  rw [piece_of_op? isOp] at isTree
  contradiction

/-- No bracket is left above their levels. -/
theorem Floor.noBrackets {least : Nat} (floor : Floor least segments) (high : 3 ≤ least) (op : Op)
    (occurs : Occurs op segments) : op ≠ .openParen ∧ op ≠ .openBracket := by
  constructor
  · rintro rfl
    exact floor.gone _ rfl (Nat.lt_of_lt_of_le (by decide) high) occurs
  · rintro rfl
    exact floor.gone _ rfl (Nat.lt_of_lt_of_le (by decide) high) occurs

section

variable (spelled : Spelled text [.form (.tree tree)] (before ++ segment :: after))
  (well : tree.isWellFormed = true) (isOp : segment.op? = some op)
include spelled well isOp

/-- Whoever owns an operator of a tree has at least the rank of the tree. -/
theorem Spelled.owner {least : Nat}
    (floor : Floor least (before ++ segment :: after)) (high : 3 ≤ least) :
    ∃ form front back outerLeft left, form.AtLeast tree.rank ∧ Owns form front op back ∧
      before = outerLeft ++ left ∧ Spelled text front left ∧
      OnSegments.lastOperands outerLeft = [] := by
  have holdsAll (form : Form) (among : .form form ∈ [Part.form (.tree tree)]) :
      form.AtLeast tree.rank := by
    obtain rfl : form = .tree tree := by simpa using among
    exact ⟨well, Nat.le_refl _⟩
  rcases spelled.belongs (inherits_atLeast tree.rank) holdsAll (floor.noBrackets high) rfl isOp with
    ⟨front, back, own, -, -⟩ | @⟨form, front, back, outerLeft, left, right, outerRight, holds, own,
      spelledLeft, spelledRight, refold⟩
  · have among : .op op ∈ listParts [tree] := by
      rw [listParts, own]
      simp
    simp [listParts] at among
  · exact ⟨form, front, back, outerLeft, left, holds, owns_of_parts own, rfl, spelledLeft,
      (neighbours_of_refold [tree] refold).1⟩

/-- An operator between operands is not looser than the tree it stands in. -/
theorem Spelled.rank_le_binary (binary : op.isBinary = true)
    (floor : Floor 10 (before ++ segment :: after))
    (ends : ∀ op, Occurs op before → op.endsOperand = false)
    (noSign : op.isMark = true → OnSegments.isSignBehind before.getLast? = false) :
    tree.rank ≤ op.row.level := by
  obtain ⟨form, front, back, outerLeft, left, holds, owns, rfl, spelledLeft, none⟩ :=
    spelled.owner well isOp floor (by decide)
  have level := Op.ten_le_level binary
  cases owns with
  | binary => exact holds.2
  | leading =>
      have wellForm := holds.1
      simp only [isWellFormed, Bool.and_eq_true, Bool.or_eq_true, decide_eq_true_eq] at wellForm
      rcases wellForm.1 with ⟨mark, -⟩ | ⟨step, -⟩
      · -- without an operand in front it would be a sign
        obtain rfl := spelled_nil.1 spelledLeft
        rw [List.append_nil] at noSign ends
        rw [isSignBehind_of_none none ends] at noSign
        exact absurd (noSign mark) (by decide)
      · have stepLevel := Op.level_of_isStep step
        omega
  | trailing =>
      have wellForm := holds.1
      simp only [isWellFormed, Bool.and_eq_true] at wellForm
      have stepLevel := Op.level_of_isStep wellForm.1.1
      omega
  | assignment =>
      have wellForm := holds.1
      simp only [isWellFormed, Bool.and_eq_true] at wellForm
      have assignLevel := Op.level_of_isAssignment wellForm.1.1.1
      omega
  | closing closes =>
      have lower : op.row.level < 10 := by
        simp only [List.mem_cons, List.not_mem_nil, or_false] at closes
        rcases closes with rfl | rfl | rfl | rfl <;> decide
      omega
  | _ => contradiction

end

theorem binary_yields (reads : ReadsTo text bound operands)
    (written : Written text items (before ++ segment :: after)) (isOp : segment.op? = some op)
    (binary : op.isBinary = true)
    (noSign : op.isMark = true → OnSegments.isSignBehind before.getLast? = false)
    (floor : Floor op.row.level (before ++ segment :: after))
    (later : ∀ candidate ∈ OnSegments.candidatesFrom (some segment) after,
      op.row.level < candidate.level)
    (chars : other.ledger.chars = text) (short : (before ++ segment :: after).length ≤ bound) :
    Yields other (Advances text items (before ++ segment :: after))
      (OnSegments.binary operands op segment.span.start before after other) := by
  have level := Op.ten_le_level binary
  have floor₁₀ : Floor 10 (before ++ segment :: after) :=
    fun op occurs plain => Nat.le_trans level (floor op occurs plain)
  have ends := written.endsOperand floor₁₀
  obtain ⟨tree, rfl⟩ := written.exists_one (floor₁₀.gone _ rfl (by decide)) (by simp)
  have well : tree.isWellFormed = true := isWellFormed_of_mem written.well (by simp)
  have spelled : Spelled text [.form (.tree tree)] (before ++ segment :: after) := written.spelled
  have loose := spelled.rank_le_binary well isOp binary floor₁₀
    (fun op occurs => ends op occurs.append_left) noSign
  have level_le := op.level_le
  have inner := spelled.unfolded isOp
  have level_le := op.level_le
  -- the tree is an operation of exactly this level
  obtain ⟨own, left, right, rfl⟩ : ∃ own left right, tree = .binary own left right := by
    cases tree with
    | binary own left right => exact ⟨own, left, right, rfl⟩
    | conditional condition first second =>
        exact absurd (inner.occurs (by simp [Form.parts])) (floor₁₀.gone .question rfl (by decide))
    | assignment own target value =>
        simp only [isWellFormed, Bool.and_eq_true] at well
        refine absurd (inner.occurs (by simp [Form.parts])) (floor₁₀.gone own ?_ ?_)
        · exact Op.not_isClosing_of_isAssignment well.1.1.1
        · rw [Op.level_of_isAssignment well.1.1.1]
          decide
    | _ =>
        simp only [rank] at loose
        omega
  simp only [isWellFormed, Bool.and_eq_true, decide_eq_true_eq] at well
  obtain ⟨⟨⟨⟨ownBinary, lowLeft⟩, lowRight⟩, wellLeft⟩, wellRight⟩ := well
  obtain ⟨leftSegments, rest, split, spelledLeft, spelledRest⟩ := spelled_form_cons.1 inner
  obtain ⟨found, rightSegments, rfl, isOwn, spelledRight⟩ := spelled_op.1 spelledRest
  have same : op.row.level = own.row.level := by
    refine Nat.le_antisymm (floor own (inner.occurs (by simp [Form.parts])) ?_) loose
    exact Op.not_isClosing_of_isBinary ownBinary
  rcases place_cases split.symm with ⟨rfl, rfl, rfl⟩ | ⟨middle, rfl, rfl⟩ | ⟨middle, rfl, rfl⟩
  · obtain rfl : own = op := Option.some.inj (isOwn.symm.trans isOp)
    have shortLeft : leftSegments.length < bound := by
      simp only [List.length_append, List.length_cons] at short
      omega
    have shortRight : rightSegments.length < bound := by
      simp only [List.length_append, List.length_cons] at short
      omega
    have inFront :
        Written text [.binary own left right] ([] ++ leftSegments ++ found :: rightSegments) :=
      written
    have behind : Written text [.binary own left right]
        (leftSegments ++ [found] ++ rightSegments ++ []) := by
      simpa using written
    unfold OnSegments.binary
    refine Yields.bind (operand_yields reads inFront wellLeft spelledLeft chars shortLeft)
      fun result after₁ quiet₁ yielded => ?_
    obtain ⟨one, rfl, pictured⟩ := yielded
    have chars₁ : after₁.ledger.chars = text := by rw [quiet₁.ledger, chars]
    refine Yields.bind (operand_yields reads behind wellRight spelledRight chars₁ shortRight)
      fun result after₂ quiet₂ yielded => ?_
    obtain ⟨two, rfl, pictured'⟩ := yielded
    refine Yields.bind (newNodeAround_yields _ _) fun node _ _ _ => ?_
    exact Yields.pure (.inl ⟨rfl, rfl, .one (.binary pictured pictured')⟩)
  · -- an operator of this level inside the right operand
    exfalso
    have noSign' (mark : op.isMark = true) : OnSegments.isSignBehind middle.getLast? = false := by
      have sign := noSign mark
      rcases List.eq_nil_or_concat' middle with rfl | ⟨earlier, last, rfl⟩
      · rw [List.getLast?_concat, OnSegments.isSignBehind, isOwn, Option.any_some,
          ends own ⟨found, by simp, isOwn⟩] at sign
        contradiction
      · rw [← List.cons_append, ← List.append_assoc, List.getLast?_concat] at sign
        rw [List.getLast?_concat]
        exact sign
    have tight := spelledRight.rank_le_binary wellRight isOp binary
      (fun op occurs plain => floor₁₀ op
        (by rw [List.append_assoc]; exact Occurs.append_right occurs.cons) plain)
      (fun op occurs => ends op (Occurs.append_left (Occurs.append_right occurs.cons))) noSign'
    omega
  · -- the operator of the tree would be a later one of this level
    exfalso
    have candidate : OnSegments.candidateOf (middle.getLast?.or (some segment)) found own ∈
        OnSegments.candidatesFrom (some segment) (middle ++ found :: rightSegments) :=
      OnSegments.mem_candidatesFrom isOwn (Op.not_isClosing_of_isBinary ownBinary)
    have above := later _ candidate
    have below := OnSegments.level_candidateOf_le (middle.getLast?.or (some segment)) found own
    omega

/-! ## Assignments and conditionals -/

/-- An assignment or a conditional is not looser than the tree it stands in. -/
theorem Spelled.rank_le_loose {least : Nat}
    (spelled : Spelled text [.form (.tree tree)] (before ++ segment :: after))
    (well : tree.isWellFormed = true) (isOp : segment.op? = some op)
    (loose : op.isAssignment = true ∨ op = .question)
    (floor : Floor least (before ++ segment :: after)) (high : 3 ≤ least) :
    tree.rank ≤ op.row.level := by
  obtain ⟨form, front, back, outerLeft, left, holds, owns, -, -, -⟩ :=
    spelled.owner well isOp floor high
  have level : op.row.level = 4 ∨ op.row.level = 5 := by
    rcases loose with assigns | rfl
    · exact .inl (Op.level_of_isAssignment assigns)
    · exact .inr rfl
  cases owns with
  | assignment =>
      have wellForm := holds.1
      simp only [isWellFormed, Bool.and_eq_true] at wellForm
      rw [Op.level_of_isAssignment wellForm.1.1.1]
      exact holds.2
  | conditional => exact holds.2
  | leading =>
      have wellForm := holds.1
      simp only [isWellFormed, Bool.and_eq_true, Bool.or_eq_true] at wellForm
      rcases wellForm.1 with ⟨mark, -⟩ | ⟨step, -⟩
      · have markLevel := Op.sixteen_le_level mark
        omega
      · have stepLevel := Op.level_of_isStep step
        omega
  | trailing =>
      have wellForm := holds.1
      simp only [isWellFormed, Bool.and_eq_true] at wellForm
      have stepLevel := Op.level_of_isStep wellForm.1.1
      omega
  | binary =>
      have wellForm := holds.1
      simp only [isWellFormed, Bool.and_eq_true] at wellForm
      have binaryLevel := Op.ten_le_level wellForm.1.1.1.1
      omega
  | closing closes =>
      simp only [List.mem_cons, List.not_mem_nil, or_false] at closes
      rcases closes with rfl | rfl | rfl | rfl <;> simp [Op.row] at level
  | _ => simp [Op.row] at level

theorem assignment_yields (reads : ReadsTo text bound operands)
    (written : Written text items (before ++ segment :: after)) (isOp : segment.op? = some op)
    (assigns : op.isAssignment = true) (floor : Floor 4 (before ++ segment :: after))
    (first : ∀ candidate ∈ OnSegments.candidatesFrom none before, 4 < candidate.level)
    (chars : other.ledger.chars = text) (short : (before ++ segment :: after).length ≤ bound) :
    Yields other (Advances text items (before ++ segment :: after))
      (OnSegments.assignment operands op segment.span.start before after other) := by
  obtain ⟨tree, rfl⟩ := written.exists_one (floor.gone _ rfl (by decide)) (by simp)
  have well : tree.isWellFormed = true := isWellFormed_of_mem written.well (by simp)
  have spelled : Spelled text [.form (.tree tree)] (before ++ segment :: after) := written.spelled
  have loose := spelled.rank_le_loose well isOp (.inl assigns) floor (by decide)
  have level := Op.level_of_isAssignment assigns
  have inner := spelled.unfolded isOp
  obtain ⟨own, target, value, rfl⟩ : ∃ own target value, tree = .assignment own target value := by
    cases tree with
    | assignment own target value => exact ⟨own, target, value, rfl⟩
    | binary own left right =>
        simp only [isWellFormed, Bool.and_eq_true] at well
        have binaryLevel := Op.ten_le_level well.1.1.1.1
        simp only [rank] at loose
        omega
    | _ =>
        simp only [rank] at loose
        omega
  simp only [isWellFormed, Bool.and_eq_true, decide_eq_true_eq] at well
  obtain ⟨⟨⟨ownAssigns, chain⟩, wellTarget⟩, wellValue⟩ := well
  obtain ⟨leftSegments, rest, split, spelledLeft, spelledRest⟩ := spelled_form_cons.1 inner
  obtain ⟨found, rightSegments, rfl, isOwn, spelledRight⟩ := spelled_op.1 spelledRest
  rcases place_cases split.symm with ⟨rfl, rfl, rfl⟩ | ⟨middle, rfl, rfl⟩ | ⟨middle, rfl, rfl⟩
  · obtain rfl : own = op := Option.some.inj (isOwn.symm.trans isOp)
    have shortLeft : leftSegments.length < bound := by
      simp only [List.length_append, List.length_cons] at short
      omega
    have shortRight : rightSegments.length < bound := by
      simp only [List.length_append, List.length_cons] at short
      omega
    have inFront : Written text [.assignment own target value]
        ([] ++ leftSegments ++ found :: rightSegments) := written
    have behind : Written text [.assignment own target value]
        (leftSegments ++ [found] ++ rightSegments ++ []) := by
      simpa using written
    unfold OnSegments.assignment
    refine required_yields reads inFront wellTarget spelledLeft chars shortLeft
      fun one after₁ quiet₁ pictured => ?_
    have chars₁ : after₁.ledger.chars = text := by rw [quiet₁.ledger, chars]
    refine Yields.bind (operand_yields reads behind wellValue spelledRight chars₁ shortRight)
      fun result after₂ quiet₂ yielded => ?_
    obtain ⟨two, rfl, pictured'⟩ := yielded
    refine Yields.bind (newNodeAround_yields _ _) fun node _ _ _ => ?_
    exact Yields.pure (.inl ⟨rfl, rfl, .one (.assignment pictured pictured')⟩)
  · -- the assignment of the tree would be an earlier one
    exfalso
    have candidate : OnSegments.candidateOf (leftSegments.getLast?.or none) found own ∈
        OnSegments.candidatesFrom none (leftSegments ++ found :: middle) :=
      OnSegments.mem_candidatesFrom isOwn (Op.not_isClosing_of_isAssignment ownAssigns)
    have above := first _ candidate
    have below := OnSegments.level_candidateOf_le (leftSegments.getLast?.or none) found own
    rw [Op.level_of_isAssignment ownAssigns] at below
    omega
  · -- a chain holds no assignment
    exfalso
    have tight := spelledLeft.rank_le_loose wellTarget isOp (.inl assigns)
      (fun op occurs plain => floor op
        (by rw [← List.cons_append, ← List.append_assoc]; exact occurs.append_left) plain)
      (by decide)
    omega

theorem conditional_yields (reads : ReadsTo text bound operands)
    (written : Written text items (before ++ segment :: after))
    (isOp : segment.op? = some .question) (floor : Floor 5 (before ++ segment :: after))
    (first : ∀ candidate ∈ OnSegments.candidatesFrom none before, 5 < candidate.level)
    (chars : other.ledger.chars = text) (short : (before ++ segment :: after).length ≤ bound) :
    Yields other (Advances text items (before ++ segment :: after))
      (OnSegments.conditional operands segment.span.start before after other) := by
  obtain ⟨tree, rfl⟩ := written.exists_one (floor.gone _ rfl (by decide)) (by simp)
  have well : tree.isWellFormed = true := isWellFormed_of_mem written.well (by simp)
  have spelled : Spelled text [.form (.tree tree)] (before ++ segment :: after) := written.spelled
  have loose : tree.rank ≤ 5 := spelled.rank_le_loose well isOp (.inr rfl) floor (by decide)
  have inner := spelled.unfolded isOp
  obtain ⟨condition, one, two, rfl⟩ : ∃ condition one two, tree =
    .conditional condition one two := by
    cases tree with
    | conditional condition one two => exact ⟨condition, one, two, rfl⟩
    | assignment own target value =>
        simp only [isWellFormed, Bool.and_eq_true] at well
        refine absurd (inner.occurs (by simp [Form.parts])) (floor.gone own ?_ ?_)
        · exact Op.not_isClosing_of_isAssignment well.1.1.1
        · rw [Op.level_of_isAssignment well.1.1.1]
          decide
    | binary own left right =>
        simp only [isWellFormed, Bool.and_eq_true] at well
        have binaryLevel := Op.ten_le_level well.1.1.1.1
        simp only [rank] at loose
        omega
    | _ =>
        simp only [rank] at loose
        omega
  simp only [isWellFormed, Bool.and_eq_true, decide_eq_true_eq] at well
  obtain ⟨⟨⟨⟨⟨high, -⟩, -⟩, wellCondition⟩, wellOne⟩, wellTwo⟩ := well
  obtain ⟨testSegments, rest, split, spelledTest, spelledRest⟩ := spelled_form_cons.1 inner
  obtain ⟨found, behind, rfl, isOwn, spelledBehind⟩ := spelled_op.1 spelledRest
  rcases place_cases split.symm with ⟨rfl, rfl, rfl⟩ | ⟨middle, rfl, rfl⟩ | ⟨middle, rfl, rfl⟩
  · obtain ⟨oneSegments, rest, rfl, spelledOne, spelledRest⟩ := spelled_form_cons.1 spelledBehind
    obtain ⟨colon, twoSegments, rfl, isColon, spelledTwo⟩ := spelled_op.1 spelledRest
    have paired : pairedColon? 0 (headsOf (oneSegments ++ colon :: twoSegments)) =
        some colon.span.start := by
      have wellForm (form : Form) (among : .form form ∈ [Part.form (.tree one)]) :
          form.AtLeast 0 := by
        obtain rfl : form = .tree one := by simpa using among
        exact ⟨wellOne, Nat.zero_le _⟩
      have opens : openBehind 0 [Part.form (.tree one)] = some 0 := rfl
      rw [headsOf_append, spelledOne.pairedColon? wellForm opens, headsOf_op isColon]
      rfl
    obtain ⟨state, start, stop, depicts⟩ := written.shown
    obtain ⟨-, -, -, depictsBehind⟩ := depicts.split
    have atColon := splitAt_eq depictsBehind.shown
    simp only [List.length_append, List.length_cons] at short
    have shortTest : testSegments.length < bound := by omega
    have shortOne : oneSegments.length < bound := by omega
    have shortTwo : twoSegments.length < bound := by omega
    have inFront : Written text [.conditional condition one two]
        ([] ++ testSegments ++ found :: (oneSegments ++ colon :: twoSegments)) := written
    have between : Written text [.conditional condition one two]
        (testSegments ++ [found] ++ oneSegments ++ colon :: twoSegments) := by
      simpa using written
    have behind : Written text [.conditional condition one two]
        (testSegments ++ found :: oneSegments ++ [colon] ++ twoSegments ++ []) := by
      simpa using written
    unfold OnSegments.conditional
    rw [paired]
    dsimp only
    rw [atColon]
    refine Yields.bind (operand_yields reads inFront wellCondition spelledTest chars shortTest)
      fun result after₁ quiet₁ yielded => ?_
    obtain ⟨test, rfl, pictured⟩ := yielded
    have chars₁ : after₁.ledger.chars = text := by rw [quiet₁.ledger, chars]
    refine Yields.bind (operand_yields reads between wellOne spelledOne chars₁ shortOne)
      fun result after₂ quiet₂ yielded => ?_
    obtain ⟨left, rfl, picturedLeft⟩ := yielded
    have chars₂ : after₂.ledger.chars = text := by rw [quiet₂.ledger, chars₁]
    refine Yields.bind (operand_yields reads behind wellTwo spelledTwo chars₂ shortTwo)
      fun result after₃ quiet₃ yielded => ?_
    obtain ⟨right, rfl, picturedRight⟩ := yielded
    refine Yields.bind (newNodeAround_yields _ _) fun branches _ _ _ => ?_
    refine Yields.bind (newNodeAround_yields _ _) fun node _ _ _ => ?_
    exact Yields.pure (.inl ⟨rfl, rfl, .one (.conditional pictured picturedLeft picturedRight)⟩)
  · -- the conditional of the tree would be an earlier one
    exfalso
    have candidate : OnSegments.candidateOf (testSegments.getLast?.or none) found .question ∈
        OnSegments.candidatesFrom none (testSegments ++ found :: middle) :=
      OnSegments.mem_candidatesFrom isOwn rfl
    have above := first _ candidate
    rw [OnSegments.level_candidateOf _ _ (by decide) (by decide)] at above
    exact absurd above (by decide)
  · -- a condition holds no conditional
    exfalso
    have tight : condition.rank ≤ 5 := spelledTest.rank_le_loose wellCondition isOp (.inr rfl)
      (fun op occurs plain => floor op
        (by rw [← List.cons_append, ← List.append_assoc]; exact occurs.append_left) plain)
      (by decide)
    omega

/-! ## Commas -/

/-- A comma between arguments. -/
theorem exists_of_listParts_eq {front back : List Part}
    (own : listParts items = front ++ .op .comma :: back) :
    ∃ left right, items = left ++ right ∧ left ≠ [] ∧ right ≠ [] ∧ front = listParts left ∧
      back = listParts right := by
  induction items using listParts.induct generalizing front with
  | case1 => simp [listParts] at own
  | case2 only =>
      rcases front with _ | ⟨one, rest⟩ <;> simp [listParts] at own
  | case3 first next rest induction =>
      rw [listParts] at own
      rcases front with _ | ⟨one, _ | ⟨two, front⟩⟩
      · simp at own
      · simp only [List.cons_append, List.nil_append, List.cons.injEq] at own
        obtain ⟨rfl, -, rfl⟩ := own
        exact ⟨[first], next :: rest, rfl, by simp, by simp, rfl, rfl⟩
      · simp only [List.cons_append, List.cons.injEq] at own
        obtain ⟨rfl, rfl, own⟩ := own
        obtain ⟨left, right, same, some, some', rfl, rfl⟩ := induction own
        obtain ⟨head, left, rfl⟩ := List.exists_cons_of_ne_nil some
        exact ⟨first :: head :: left, right, by rw [same]; rfl, by simp, some', rfl, rfl⟩

theorem comma_yields (reads : ReadsTo text bound operands)
    (written : Written text items (before ++ segment :: after)) (isOp : segment.op? = some .comma)
    (floor : Floor 3 (before ++ segment :: after))
    (chars : other.ledger.chars = text) (short : (before ++ segment :: after).length ≤ bound) :
    Yields other (Advances text items (before ++ segment :: after))
      (OnSegments.binary operands .comma segment.span.start before after other) := by
  rcases written.spelled.belongs inherits_wellFormed written.forms (fun _ _ =>
    trivial) rfl isOp with
    ⟨front, back, own, spelledLeft, spelledRight⟩ | @⟨form, front, back, outerLeft, left, right,
      outerRight, holds, own, spelledLeft, spelledRight, refold⟩
  · obtain ⟨one, two, rfl, someOne, someTwo, rfl, rfl⟩ := exists_of_listParts_eq own
    have well := written.well
    rw [areWellFormed_append, Bool.and_eq_true] at well
    simp only [List.length_append, List.length_cons] at short
    have shortLeft : before.length < bound := by omega
    have shortRight : after.length < bound := by omega
    have inFront : Written text one before := by
      have whole : Written text (one ++ two) ([] ++ before ++ segment :: after) := written
      exact whole.inner well.1 spelledLeft
    have behind : Written text two after := by
      have whole : Written text (one ++ two) (before ++ [segment] ++ after ++ []) := by
        simpa using written
      exact whole.inner well.2 spelledRight
    unfold OnSegments.binary
    refine Yields.bind (reads _ _ _ inFront chars shortLeft) fun result after₁ quiet₁ listed => ?_
    have chars₁ : after₁.ledger.chars = text := by rw [quiet₁.ledger, chars]
    refine Yields.bind (reads _ _ _ behind chars₁ shortRight)
      fun result' after₂ quiet₂ listed' => ?_
    obtain ⟨left, rfl, lists⟩ := listed.exists_lists someOne
    obtain ⟨right, rfl, lists'⟩ := listed'.exists_lists someTwo
    refine Yields.bind (newNodeAround_yields _ _) fun node _ _ _ => ?_
    exact Yields.pure (.inl ⟨rfl, rfl, .join lists lists'⟩)
  · -- a comma inside a form stands in round brackets
    exfalso
    have whole := spelledLeft.append (.op (piece_of_op? isOp) spelledRight)
    rw [← own] at whole
    have pair : (Op.openParen, Op.comma) ∈ followers := by decide
    have round := whole.occurs (holds.leader pair (by simp [own]))
    refine floor.gone .openParen rfl (by decide) ?_
    rw [List.append_assoc]
    refine Occurs.append_right ?_
    rw [← List.cons_append, ← List.append_assoc]
    exact round.append_left

end

end Tree
end MethodLowering
