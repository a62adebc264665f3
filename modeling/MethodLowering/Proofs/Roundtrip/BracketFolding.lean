import MethodLowering.Proofs.Roundtrip.Yielding

/-!
# Folding brackets and chains of spelled trees

The bracket that is folded next belongs to a group, a call, an array or an index, and the dot that
is folded next to an access whose subject has been folded before.
-/

namespace MethodLowering
namespace Tree

open Reduction

section

variable {text : List Char} {items : List Tree} {tree : Tree} {expr : Expr}
  {before after segments front middle back : List Segment} {segment : Segment} {op : Op}
  {bound count : Nat} {operands : OnSegments.Operands} {other : Reduction} {form : Form}

/-! ## Round brackets -/

/-- An opening round bracket belongs to a group or to a call. -/
theorem Owns.of_openParen {front back : List Part} (owns : Owns form front .openParen back)
    (holds : form.AtLeast 0) :
    ∃ arguments, back = listParts arguments ++ [.op .closeParen] ∧ areWellFormed arguments = true ∧
      ((∃ inner, form = .tree (.group inner) ∧ front = [] ∧ arguments = [inner]) ∨
        ∃ callee, form = .tree (.call callee arguments) ∧ front = [.word callee] ∧
          isName callee = true) := by
  cases owns with
  | @group inner =>
      refine ⟨[inner], rfl, ?_, .inl ⟨inner, rfl, rfl, rfl⟩⟩
      rw [areWellFormed, show inner.isWellFormed = true from holds.1]
      rfl
  | @call callee arguments =>
      have well := holds.1
      rw [isWellFormed, Bool.and_eq_true] at well
      exact ⟨arguments, rfl, well.2, .inr ⟨callee, rfl, rfl, well.1⟩⟩
  | leading | trailing | binary | assignment =>
      have well := holds.1
      simp [isWellFormed, Op.isMark, Op.isStep, Op.isBinary, Op.isAssignment, Op.row] at well
  | closing closes => simp at closes

theorem castFrom_of_none (none : OnSegments.firstOperands back = []) (count : Nat) :
    (OnSegments.castFrom count [] back).1 = [] := by
  cases count with
  | zero => rw [OnSegments.castFrom, none, List.nil_append]
  | succ count =>
      rw [OnSegments.castFrom, none, List.nil_append]
      split
      · rfl
      · rfl

/-- Brackets with spelled content are read up to their partner. -/
theorem bracket_yields {opening closing : Op}
    (pair : (opening, closing) = (.openParen, .closeParen) ∨
      (opening, closing) = (.openBracket, .closeBracket))
    (reads : ReadsTo text bound operands) {inside : List Tree} {close : Segment}
    (written : Written text items (before ++ segment :: (middle ++ close :: back)))
    (last : ¬ Occurs opening middle) (well : areWellFormed inside = true)
    (spelled : Spelled text (listParts inside) middle) (isClose : close.op? = some closing)
    (chars : other.ledger.chars = text)
    (short : (before ++ segment :: (middle ++ close :: back)).length ≤ bound)
    {property : OnSegments.Folded → Prop}
    (next : ∀ inner after, Quiet other after → Listed inside inner →
      Yields after property
        (if opening = .openParen then
          OnSegments.paren operands segment.span.start close.span.start count inner
            before back after
        else
          OnSegments.index operands segment.span.start close.span.start count inner before back
            after)) :
    Yields other property (OnSegments.bracket operands opening segment.span.start count before
      (middle ++ close :: back) other) := by
  obtain ⟨state, start, stop, depicts⟩ := written.shown
  obtain ⟨-, -, -, behind⟩ := depicts.split
  have content : Written text inside middle := by
    rw [show before ++ segment :: (middle ++ close :: back) =
      (before ++ [segment]) ++ middle ++ close :: back by simp] at written
    exact written.inner well spelled
  have absent : ¬ Occurs closing middle := by
    intro occurs
    refine last (spelled.occurs_leader ?_ content.forms (fun among => ?_) occurs)
    · rcases pair with pair | pair <;> rw [pair] <;> decide
    · rcases pair with pair | pair <;> obtain ⟨rfl, rfl⟩ := Prod.mk.inj pair <;>
        cases op_mem_listParts among
  have shorter : middle.length < bound := by
    simp only [List.length_append, List.length_cons] at short
    omega
  have closes : opening.closing? = some closing := by
    rcases pair with pair | pair <;> obtain ⟨rfl, rfl⟩ := Prod.mk.inj pair <;> rfl
  unfold OnSegments.bracket
  rw [closes]
  dsimp only
  rw [find?_closing isClose absent]
  dsimp only
  rw [splitAt_eq behind.shown]
  have recorded : Yields other (fun _ => True)
      (recordPair segment.span.start close.span.start other) :=
    ⟨⟨rfl, rfl, _, _, rfl⟩, trivial⟩
  refine Yields.bind recorded fun _ noted quiet₀ _ => ?_
  refine Yields.bind (reads _ _ _ content ((congrArg Ledger.chars quiet₀.ledger).trans chars)
    shorter)
    fun inner after quiet listed => ?_
  have rest := next inner after (quiet₀.trans quiet) listed
  rcases pair with pair | pair <;> obtain ⟨rfl, rfl⟩ := Prod.mk.inj pair <;> exact rest

theorem paren_yields (reads : ReadsTo text bound operands)
    (written : Written text items (before ++ segment :: after))
    (isOp : segment.op? = some .openParen) (last : ¬ Occurs .openParen after)
    (chars : other.ledger.chars = text) (short : (before ++ segment :: after).length ≤ bound) :
    Yields other (Advances text items (before ++ segment :: after))
      (OnSegments.bracket operands .openParen segment.span.start count before after other) := by
  rcases written.spelled.belongs inherits_wellFormed written.forms (fun _ _ =>
    trivial) rfl isOp with
    ⟨front, back, own, -, -⟩ | @⟨form, front, back, outerLeft, left, right, outerRight, holds, own,
      spelledLeft, spelledRight, refold⟩
  · have among : .op .openParen ∈ listParts items := by simp [own]
    cases op_mem_listParts among
  · obtain ⟨noneLeft, noneRight⟩ := neighbours_of_refold items refold
    obtain ⟨arguments, rfl, well, kind⟩ := (owns_of_parts own).of_openParen holds
    obtain ⟨middle, close, rfl, spelled, isClose⟩ := spelled_concat_op.1 spelledRight
    have behind : middle ++ [close] ++ outerRight = middle ++ close :: outerRight := by simp
    rw [behind] at written last short ⊢
    refine bracket_yields (.inl rfl) reads written (fun occurs => last occurs.append_left) well
      spelled isClose chars short fun content after quiet listed => ?_
    rw [if_pos rfl]
    have fewer : (headsOf outerLeft).length + (headsOf outerRight).length <
        (headsOf (outerLeft ++ left ++ segment :: (middle ++ close :: outerRight))).length := by
      simp only [headsOf_append, headsOf_op isOp, headsOf_op isClose, List.length_append,
        List.length_cons]
      omega
    unfold OnSegments.paren
    rcases kind with ⟨inner, rfl, rfl, rfl⟩ | ⟨callee, rfl, rfl, isName⟩
    · -- no operand stands in front of the group, and none behind it
      obtain rfl := spelled_nil.1 spelledLeft
      obtain ⟨item, rfl, pictures⟩ := listed.pictures
      rw [List.append_nil] at fewer ⊢
      rw [noneLeft]
      have none := castFrom_of_none noneRight count
      generalize OnSegments.castFrom count [] outerRight = cast at none
      obtain ⟨operand, rest⟩ := cast
      obtain rfl : operand = [] := none
      dsimp only
      refine Yields.bind (newNode_yields _) fun node _ _ _ => ?_
      refine Yields.pure (.inr ⟨fun span => refold _ _ rfl ?_, fewer⟩)
      have wellInner : inner.isWellFormed = true := holds.1
      rw [Reduction.items, commaItems_of_pictures wellInner pictures]
      exact .group pictures
    · obtain ⟨head, rfl, isHead, spelledHead⟩ : ∃ head, left = [head] ∧ head.isOperand = true ∧
          Spelled text (listParts [.name callee]) [head] := by
        cases spelledLeft with
        | word isWord spells behind =>
            rw [spelled_nil.1 behind]
            have whole : Spelled text (Form.tree (.name callee)).parts [_] :=
              .word isWord spells .nil
            exact ⟨_, rfl, isOperand_of_word isWord, whole.asForm⟩
      obtain ⟨lastHead, front⟩ := lastOperands_concat noneLeft isHead
      rw [lastHead, front]
      dsimp only
      have inside : Written text [.name callee] [head] := by
        refine written.inner ?_ spelledHead
        rw [areWellFormed, isWellFormed, isName]
        rfl
      have shorter : [head].length < bound := by
        simp only [List.length_append, List.length_cons] at short ⊢
        omega
      have chars' : after.ledger.chars = text := by rw [quiet.ledger, chars]
      refine Yields.bind (reads _ _ _ inside chars' shorter) fun result _ _ listedHead => ?_
      obtain ⟨found, rfl, pictured⟩ := listedHead.pictures
      cases pictured with
      | name read =>
          refine Yields.bind (newNodeAround_yields _ _) fun node _ _ _ => ?_
          exact Yields.pure (.inr ⟨fun span =>
            refold _ _ rfl (.call read (listed.forall₂ well)), fewer⟩)

/-! ## Square brackets -/

/-- An opening square bracket belongs to the first index of a tree, or to a further one. -/
theorem Owns.of_openBracket {front back : List Part} (owns : Owns form front .openBracket back)
    (holds : form.AtLeast 0) :
    ∃ first further,
      back = [.form (.tree first), .op .closeBracket, .form (.indices further)] ∧
      first.isWellFormed = true ∧ areWellFormed further = true ∧
      ((∃ target, form = .tree (.index target (first :: further)) ∧ front = [.form (.tree target)] ∧
          target.takesIndices = true ∧ target.isWellFormed = true) ∨
        form = .indices (first :: further) ∧ front = []) := by
  cases owns with
  | @index target first further =>
      have well := holds.1
      simp only [isWellFormed, areWellFormed, Bool.and_eq_true] at well
      exact ⟨first, further, rfl, well.2.1, well.2.2,
        .inl ⟨target, rfl, rfl, well.1.1.1, well.1.1.2⟩⟩
  | @indices first further =>
      have well : (first.isWellFormed && areWellFormed further) = true := holds
      rw [Bool.and_eq_true] at well
      exact ⟨first, further, rfl, well.1, well.2, .inr ⟨rfl, rfl⟩⟩
  | leading | trailing | binary | assignment =>
      have well := holds.1
      simp [isWellFormed, Op.isMark, Op.isStep, Op.isBinary, Op.isAssignment, Op.row] at well
  | closing closes => simp at closes

theorem absorb_of_none (none : OnSegments.firstOperands back = []) (count : Nat)
    (indices : List Expr) (stop : Nat) :
    OnSegments.absorb count indices stop back = ((indices, .absent, stop), back) := by
  cases count with
  | zero => rfl
  | succ count =>
      cases back with
      | nil => rfl
      | cons segment rest =>
          have isOp : segment.tree? = Option.none := by
            rw [OnSegments.firstOperands] at none
            cases piece : segment.piece with
            | op op => rw [Segment.tree?, piece]
            | word =>
                rw [List.takeWhile_cons_of_pos (isOperand_of_word piece)] at none; contradiction
            | tree expr =>
                rw [List.takeWhile_cons_of_pos (isOperand_of_tree piece)] at none
                contradiction
          rw [OnSegments.absorb, isOp]
          rfl

/-- An index takes in the indices behind it. -/
theorem absorb_indices {further : List Tree}
    (spelled : Spelled text [.form (.indices further)] middle)
    (gone : ¬ Occurs .openBracket middle) (none : OnSegments.firstOperands back = [])
    (positive : 0 < count) (indices : List Expr) (stop : Nat) :
    ∃ exprs final, OnSegments.absorb count indices stop (middle ++ back) =
      ((indices ++ exprs, .absent, final), back) ∧ List.Forall₂ Pictures further exprs := by
  rcases spelled.form_cases with ⟨segment, expr, rfl, isTree, pictures⟩ | inner
  · obtain ⟨node, exprs, rfl, all⟩ := pictures
    obtain ⟨count, rfl⟩ := Nat.exists_eq_succ_of_ne_zero (Nat.ne_of_gt positive)
    refine ⟨exprs, segment.span.stop, ?_, all⟩
    rw [List.singleton_append, OnSegments.absorb, Segment.tree?, isTree]
    exact absorb_of_none none ..
  · cases further with
    | nil =>
        rw [spelled_nil.1 inner, List.nil_append]
        refine ⟨[], stop, ?_, .nil⟩
        rw [List.append_nil]
        exact absorb_of_none none ..
    | cons first further =>
        exact absurd (inner.occurs (by simp [Form.parts, indexParts])) gone

/-- Nothing is read from no segments. -/
theorem reads_nil (reads : ReadsTo text bound operands)
    (written : Written text items (front ++ [] ++ back)) (chars : other.ledger.chars = text)
    (positive : 0 < bound) : Yields other (fun result => result = none) (operands [] other) := by
  have empty : Written text [] [] := written.inner rfl .nil
  refine (reads _ _ _ empty chars positive).imp fun result listed => ?_
  cases result with
  | none => rfl
  | some expr => exact absurd rfl (Lists.ne_nil listed)

theorem index_yields (reads : ReadsTo text bound operands)
    (written : Written text items (before ++ segment :: after))
    (isOp : segment.op? = some .openBracket)
    (noParen : ¬ Occurs .openParen (before ++ segment :: after))
    (last : ¬ Occurs .openBracket after) (positive : 0 < count)
    (chars : other.ledger.chars = text) (short : (before ++ segment :: after).length ≤ bound) :
    Yields other (Advances text items (before ++ segment :: after))
      (OnSegments.bracket operands .openBracket segment.span.start count before after other) := by
  rcases written.spelled.belongs inherits_wellFormed written.forms (fun _ _ =>
    trivial) rfl isOp with
    ⟨front, back, own, -, -⟩ | @⟨form, front, back, outerLeft, left, right, outerRight, holds, own,
      spelledLeft, spelledRight, refold⟩
  · have among : .op .openBracket ∈ listParts items := by simp [own]
    cases op_mem_listParts among
  · obtain ⟨noneLeft, noneRight⟩ := neighbours_of_refold items refold
    obtain ⟨first, further, rfl, wellFirst, wellFurther, kind⟩ :=
      (owns_of_parts own).of_openBracket holds
    obtain ⟨middle, rest, rfl, spelled, spelledRest⟩ := spelled_form_cons.1 spelledRight
    obtain ⟨close, tail, rfl, isClose, spelledTail⟩ := spelled_op.1 spelledRest
    have behind : middle ++ close :: tail ++ outerRight =
        middle ++ close :: (tail ++ outerRight) := by
      simp
    rw [behind] at written noParen last short ⊢
    have well : areWellFormed [first] = true := by
      rw [areWellFormed, wellFirst]
      rfl
    refine bracket_yields (.inr rfl) reads written (fun occurs => last occurs.append_left) well
      spelled isClose chars short fun content after quiet listed => ?_
    rw [if_neg (by decide)]
    obtain ⟨item, rfl, pictures⟩ := listed.pictures
    have chars' : after.ledger.chars = text := by rw [quiet.ledger, chars]
    have fewer : (headsOf outerLeft).length + (headsOf outerRight).length <
        (headsOf (outerLeft ++ left ++ segment ::
          (middle ++ close :: (tail ++ outerRight)))).length := by
      simp only [headsOf_append, headsOf_op isOp, headsOf_op isClose, List.length_append,
        List.length_cons]
      omega
    obtain ⟨exprs, final, absorbs, all⟩ := absorb_indices spelledTail
      (fun occurs => last (Occurs.append_right occurs.append_left.cons)) noneRight positive [item]
      (close.span.start + 1)
    unfold OnSegments.index
    rcases kind with ⟨target, rfl, rfl, takes, wellTarget⟩ | ⟨rfl, rfl⟩
    · -- without round brackets, what the indices follow is a single segment
      obtain ⟨head, rfl, isHead⟩ := spelledLeft.single (by
        cases target with
        | name chars => exact .inl ⟨chars, rfl⟩
        | group inner =>
            exact .inr ⟨.openParen, by simp [Form.parts],
              fun occurs => noParen (Occurs.append_left occurs.append_right)⟩
        | call callee arguments =>
            exact .inr ⟨.openParen, by simp [Form.parts],
              fun occurs => noParen (Occurs.append_left occurs.append_right)⟩
        | _ => contradiction)
      obtain ⟨lastHead, front⟩ := lastOperands_concat noneLeft isHead
      rw [lastHead, front]
      have inside : Written text [target] [head] := written.one wellTarget spelledLeft
      have shorter : [head].length < bound := by
        simp only [List.length_append, List.length_cons] at short ⊢
        omega
      refine Yields.bind (reads _ _ _ inside chars' shorter) fun result _ _ listedHead => ?_
      obtain ⟨found, rfl, pictured⟩ := listedHead.pictures
      rw [Option.getD_some, Option.getD_some, absorbs]
      dsimp only
      refine Yields.bind (newNode_yields _) fun node _ _ _ => ?_
      exact Yields.pure (.inr ⟨fun span =>
        refold _ _ rfl (.index pictured (.cons pictures all)), fewer⟩)
    · obtain rfl := spelled_nil.1 spelledLeft
      rw [List.append_nil] at fewer ⊢
      have none := dropOperands_append outerLeft
      rw [noneLeft, List.append_nil] at none
      rw [noneLeft, none]
      have nothing : Yields after (fun result => result = Option.none) (operands [] after) := by
        have nowhere : Written text items (outerLeft ++ [] ++ segment :: _) := written
        refine reads_nil reads nowhere chars' ?_
        simp only [List.length_append, List.length_cons] at short
        omega
      refine Yields.bind nothing fun result _ _ isNone => ?_
      subst isNone
      rw [Option.getD_none, Option.getD_some, absorbs]
      dsimp only
      refine Yields.bind (newNode_yields _) fun node _ _ _ => ?_
      exact Yields.pure (.inr ⟨fun span =>
        refold _ _ rfl ⟨node, _, rfl, .cons pictures all⟩, fewer⟩)

/-! ## Chains -/

theorem Owns.of_dot {front back : List Part} (owns : Owns form front .dot back)
    (holds : form.AtLeast 0) :
    ∃ subject link, form = .tree (.member subject link) ∧ front = [.form (.tree subject)] ∧
      back = [.form (.tree link)] := by
  cases owns with
  | @member subject link => exact ⟨subject, link, rfl, rfl, rfl⟩
  | leading | trailing | binary | assignment =>
      have well := holds.1
      simp [isWellFormed, Op.isMark, Op.isStep, Op.isBinary, Op.isAssignment, Op.row] at well
  | closing closes => simp at closes

/-- Without brackets and dots, a chain is a single segment. -/
theorem Spelled.single_chain (spelled : Spelled text [.form (.tree tree)] middle)
    (well : tree.isWellFormed = true) (chain : 22 ≤ tree.rank)
    (noParen : ¬ Occurs .openParen middle)
    (noBracket : ¬ Occurs .openBracket middle) (noDot : ¬ Occurs .dot middle) :
    ∃ segment, middle = [segment] ∧ segment.isOperand = true := by
  refine spelled.single ?_
  cases tree with
  | name chars => exact .inl ⟨chars, rfl⟩
  | group inner => exact .inr ⟨.openParen, by simp [Form.parts], noParen⟩
  | call callee arguments => exact .inr ⟨.openParen, by simp [Form.parts], noParen⟩
  | index target indices =>
      cases indices with
      | nil => simp [isWellFormed] at well
      | cons first further =>
          exact .inr ⟨.openBracket, by simp [Form.parts, indexParts], noBracket⟩
  | member subject link => exact .inr ⟨.dot, by simp [Form.parts], noDot⟩
  | binary op left right =>
      have level : op.row.level ≤ 20 := by cases op <;> decide
      rw [rank] at chain
      omega
  | _ => simp [rank] at chain

theorem qualifyConstruction?_yields {subject member : Expr} (pictures : tree.Pictures subject) :
    Yields other (fun result => result = none) (qualifyConstruction? subject member other) := by
  have plain : subject.constructedType? = none := by
    cases pictures <;> rfl
  unfold qualifyConstruction?
  rw [plain]
  exact Yields.pure rfl

theorem qualifyDeclaration?_yields {subject member : Expr} (pictures : tree.Pictures member) :
    Yields other (fun result => result = none) (qualifyDeclaration? subject member other) := by
  unfold qualifyDeclaration?
  cases subject.node? with
  | none => exact Yields.pure rfl
  | some node => cases pictures <;> exact Yields.pure rfl

section

variable (reads : ReadsTo text bound operands)
  (written : Written text items (front ++ middle ++ back)) (well : tree.isWellFormed = true)
  (spelled : Spelled text [.form (.tree tree)] middle) (chars : other.ledger.chars = text)
  (short : middle.length < bound)
include reads written well spelled chars short

/-- Reading the operand of an operator. -/
theorem operand_yields :
    Yields other (fun result => ∃ expr, result = some expr ∧ tree.Pictures expr)
      (operands middle other) :=
  (reads _ _ _ (written.one well spelled) chars short).imp fun _ listed => listed.pictures

/-- Reading an operand that must be there. -/
theorem required_yields {context : String} {α : Type} {property : α → Prop}
    {next : Expr → ReduceM α} (later : ∀ expr after, Quiet other after → tree.Pictures expr →
      Yields after property (next expr after)) :
    Yields other property
      ((do let expr ← required (← operands middle) op context; next expr : ReduceM α) other) := by
  refine Yields.bind (operand_yields reads written well spelled chars short)
    fun result after quiet found => ?_
  obtain ⟨expr, rfl, pictures⟩ := found
  exact later expr after quiet pictures

end

theorem access_yields (reads : ReadsTo text bound operands)
    (written : Written text items (before ++ segment :: after)) (isOp : segment.op? = some .dot)
    (noParen : ¬ Occurs .openParen (before ++ segment :: after))
    (noBracket : ¬ Occurs .openBracket (before ++ segment :: after)) (first : ¬ Occurs .dot before)
    (chars : other.ledger.chars = text) (short : (before ++ segment :: after).length ≤ bound) :
    Yields other (Advances text items (before ++ segment :: after))
      (OnSegments.access operands segment.span.start before after other) := by
  rcases written.spelled.belongs inherits_wellFormed written.forms (fun _ _ =>
    trivial) rfl isOp with
    ⟨front, back, own, -, -⟩ | @⟨form, front, back, outerLeft, left, right, outerRight, holds, own,
      spelledLeft, spelledRight, refold⟩
  · have among : .op .dot ∈ listParts items := by simp [own]
    cases op_mem_listParts among
  · obtain ⟨noneLeft, noneRight⟩ := neighbours_of_refold items refold
    obtain ⟨subject, link, rfl, rfl, rfl⟩ := (owns_of_parts own).of_dot holds
    have well := holds.1
    simp only [isWellFormed, Bool.and_eq_true, decide_eq_true_eq] at well
    obtain ⟨⟨⟨chain, wellSubject⟩, isLink⟩, wellLink⟩ := well
    obtain ⟨head, rfl, isHead⟩ := spelledLeft.single_chain wellSubject chain
      (fun occurs => noParen (Occurs.append_left occurs.append_right))
      (fun occurs => noBracket (Occurs.append_left occurs.append_right))
      (fun occurs => first occurs.append_right)
    obtain ⟨last, rfl, isLast⟩ := spelledRight.single (by
      cases link with
      | name chars => exact .inl ⟨chars, rfl⟩
      | call callee arguments =>
          exact .inr ⟨.openParen, by simp [Form.parts],
            fun occurs => noParen (Occurs.append_right (Occurs.cons occurs.append_left))⟩
      | index target indices =>
          cases indices with
          | nil => simp [isWellFormed] at wellLink
          | cons first further =>
              exact .inr ⟨.openBracket, by simp [Form.parts, indexParts],
                fun occurs => noBracket (Occurs.append_right (Occurs.cons occurs.append_left))⟩
      | _ => contradiction)
    have fewer : (headsOf outerLeft).length + (headsOf outerRight).length <
        (headsOf (outerLeft ++ [head] ++ segment :: ([last] ++ outerRight))).length := by
      simp only [headsOf_append, headsOf_op isOp, List.length_append, List.length_cons]
      omega
    obtain ⟨lastHead, front⟩ := lastOperands_concat noneLeft isHead
    obtain ⟨firstLast, back⟩ := firstOperands_cons noneRight isLast
    have long : 1 < bound := by
      simp only [List.length_append, List.length_cons] at short
      omega
    unfold OnSegments.access
    rw [lastHead, front, List.singleton_append, firstLast, back]
    refine required_yields reads written wellSubject spelledLeft chars long
      fun left after₁ quiet₁ pictured => ?_
    have written' :
        Written text items (outerLeft ++ [head] ++ [segment] ++ [last] ++ outerRight) := by
      simpa using written
    have chars₁ : after₁.ledger.chars = text := by rw [quiet₁.ledger, chars]
    refine required_yields reads written' wellLink spelledRight chars₁ long
      fun right after₂ quiet₂ pictured' => ?_
    refine Yields.bind (qualifyConstruction?_yields pictured) fun result _ _ isNone => ?_
    subst isNone
    refine Yields.bind (qualifyDeclaration?_yields pictured') fun result _ _ isNone => ?_
    subst isNone
    refine Yields.bind (newNodeAround_yields _ _) fun node _ _ _ => ?_
    exact Yields.pure (.inr ⟨fun span => refold _ _ rfl (.member pictured pictured'), fewer⟩)

end

end Tree
end MethodLowering
