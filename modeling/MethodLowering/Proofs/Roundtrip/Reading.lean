import MethodLowering.Proofs.Roundtrip.Folding

/-!
# Spelled trees are read

Round by round, segments that spell trees are reduced to the expressions of the trees.
-/

namespace MethodLowering

namespace Tree

open Reduction

section

variable {text : List Char} {items : List Tree} {tree : Tree} {segments before after : List Segment}
  {segment : Segment} {op : Op} {bound count : Nat} {operands : OnSegments.Operands}
  {other : Reduction}

/-! ## Choosing a fold -/

theorem floor_of_isChosen {chosen : Candidate} {level : Nat} (isOp : segment.op? = some chosen.op)
    (isChosen : IsChosen chosen (OnSegments.candidatesFrom none before)
      (OnSegments.candidatesFrom (some segment) after)) (same : chosen.level = level)
    (low : level ≤ chosen.op.row.level) : Floor level (before ++ segment :: after) := by
  subst same
  rintro op ⟨found, among, isFound⟩ plain
  rcases List.mem_append.1 among with inFront | behind
  · exact OnSegments.le_level_of_mem isChosen.front_le inFront isFound plain
  · rcases List.mem_cons.1 behind with rfl | inBack
    · obtain rfl : op = chosen.op := Option.some.inj (isFound.symm.trans isOp)
      exact low
    · exact OnSegments.le_level_of_mem isChosen.back_le inBack isFound plain

theorem gone_of_above {level : Nat} {last : Option Segment}
    (above : ∀ candidate ∈ OnSegments.candidatesFrom last segments, level < candidate.level)
    (op : Op)
    (plain : op.isClosing = false) (low : op.row.level ≤ level) : ¬ Occurs op segments := by
  rintro ⟨found, among, isFound⟩
  have bound := OnSegments.le_level_of_mem above among isFound plain
  omega

/-- Curly brackets and type tests are not written. -/
theorem Written.known (written : Written text items segments) (occurs : Occurs op segments) :
    op ≠ .openBrace ∧ op ≠ .closeBrace ∧ op ≠ .instanceOf := by
  obtain ⟨segment, among, isOp⟩ := occurs
  obtain ⟨before, after, rfl⟩ := List.append_of_mem among
  rcases written.spelled.belongs inherits_wellFormed written.forms (fun _ _ =>
    trivial) rfl isOp with
    ⟨front, back, own, -, -⟩ | ⟨holds, own, -, -, -⟩
  · rw [op_mem_listParts (show .op op ∈ listParts items by simp [own])]
    decide
  · have carried (kind : op.isMark = true ∨ op.isStep = true ∨ op.isBinary = true ∨
        op.isAssignment = true) : op ≠ .openBrace ∧ op ≠ .closeBrace ∧ op ≠ .instanceOf := by
      revert kind
      cases op <;> decide
    cases owns_of_parts own with
    | leading =>
        have well := holds.1
        simp only [isWellFormed, Bool.and_eq_true, Bool.or_eq_true, decide_eq_true_eq] at well
        exact carried (by tauto)
    | trailing =>
        have well := holds.1
        simp only [isWellFormed, Bool.and_eq_true] at well
        exact carried (.inr (.inl well.1.1))
    | binary =>
        have well := holds.1
        simp only [isWellFormed, Bool.and_eq_true] at well
        exact carried (.inr (.inr (.inl well.1.1.1.1)))
    | assignment =>
        have well := holds.1
        simp only [isWellFormed, Bool.and_eq_true] at well
        exact carried (.inr (.inr (.inr well.1.1.1)))
    | closing closes =>
        simp only [List.mem_cons, List.not_mem_nil, or_false] at closes
        rcases closes with rfl | rfl | rfl | rfl <;> decide
    | _ => decide

/-- The operators that are written, by the way in which they are folded. -/
theorem op_cases (open_ : op.isClosing = false)
    (known : op ≠ .openBrace ∧ op ≠ .closeBrace ∧ op ≠ .instanceOf) :
    op = .openParen ∨ op = .openBracket ∨ op = .comma ∨ op.isAssignment = true ∨ op = .question ∨
      op = .colon ∨ op = .dot ∨ op.isStep = true ∨ op = .not ∨ op.isBinary = true := by
  revert open_ known
  cases op <;> decide

theorem fold_assignment {position : Nat} (assigns : op.isAssignment = true) :
    OnSegments.fold operands ⟨position, op, false⟩ count before after =
      OnSegments.assignment operands op position before after := by
  cases op <;> first | rfl | contradiction

theorem fold_step {position : Nat} {isSign : Bool} (step : op.isStep = true) :
    OnSegments.fold operands ⟨position, op, isSign⟩ count before after =
      OnSegments.unary operands op position before after := by
  cases op <;> first | rfl | contradiction

theorem fold_binary {position : Nat} (binary : op.isBinary = true) :
    OnSegments.fold operands ⟨position, op, false⟩ count before after =
      OnSegments.binary operands op position before after := by
  cases op <;> first | rfl | contradiction

/-- Folding the chosen operator makes progress. -/
theorem fold_yields {chosen : Candidate} (reads : ReadsTo text bound operands)
    (written : Written text items (before ++ segment :: after))
    (isOp : segment.op? = some chosen.op) (open_ : chosen.op.isClosing = false)
    (same : chosen = OnSegments.candidateOf before.getLast? segment chosen.op)
    (isChosen : IsChosen chosen (OnSegments.candidatesFrom none before)
      (OnSegments.candidatesFrom (some segment) after)) (positive : 0 < count)
    (chars : other.ledger.chars = text) (short : (before ++ segment :: after).length ≤ bound) :
    Yields other (Advances text items (before ++ segment :: after))
      (OnSegments.fold operands chosen count before after other) := by
  have known := written.known ⟨segment, by simp, isOp⟩
  obtain ⟨position, op, isSign⟩ := chosen
  dsimp only at isOp open_ same known
  have here : position = segment.span.start := congrArg Candidate.position same
  subst here
  have signs : isSign = ((op == .plus || op == .minus) &&
      OnSegments.isSignBehind before.getLast?) := congrArg Candidate.isSign same
  have plain (plus : op ≠ .plus) (minus : op ≠ .minus) : isSign = false := by
    rw [signs, beq_eq_false_iff_ne.2 plus, beq_eq_false_iff_ne.2 minus]
    rfl
  rcases op_cases open_ known with rfl | rfl | rfl | assigns | rfl | rfl | rfl | step | rfl | binary
  · obtain rfl : isSign = false := signs
    have later := isChosen.later (show _ = 0 from rfl) (.inl (by decide))
    exact paren_yields reads written isOp (gone_of_above later _ rfl (by decide)) chars short
  · obtain rfl : isSign = false := signs
    have floor := floor_of_isChosen isOp isChosen (show _ = 2 from rfl) (Nat.le_refl _)
    have later := isChosen.later (show _ = 2 from rfl) (.inl (by decide))
    exact index_yields reads written isOp (floor.gone _ rfl (by decide))
      (gone_of_above later _ rfl (by decide)) positive chars short
  · obtain rfl : isSign = false := signs
    have floor := floor_of_isChosen isOp isChosen (show _ = 3 from rfl) (Nat.le_refl _)
    exact comma_yields reads written isOp floor chars short
  · obtain rfl : isSign = false :=
      plain (by rintro rfl; contradiction) (by rintro rfl; contradiction)
    have level : (Candidate.mk segment.span.start op false).level = 4 :=
      Op.level_of_isAssignment assigns
    have floor := floor_of_isChosen isOp isChosen level (Nat.le_of_eq level.symm)
    rw [fold_assignment assigns]
    exact assignment_yields reads written isOp assigns floor
      (isChosen.earlier level (by decide)) chars short
  · obtain rfl : isSign = false := signs
    have floor := floor_of_isChosen isOp isChosen (show _ = 5 from rfl) (Nat.le_refl _)
    exact conditional_yields reads written isOp floor
      (isChosen.earlier (show _ = 5 from rfl) (by decide)) chars short
  · -- a colon comes with its question mark, which would be folded first
    exfalso
    obtain rfl : isSign = false := signs
    have floor := floor_of_isChosen isOp isChosen (show _ = 6 from rfl) (Nat.le_refl _)
    refine floor.gone .question rfl (by decide) ?_
    have pair : (Op.question, Op.colon) ∈ followers := by decide
    exact written.spelled.occurs_leader pair written.forms
      (fun among => by cases op_mem_listParts among) ⟨segment, by simp, isOp⟩
  · obtain rfl : isSign = false := signs
    have floor := floor_of_isChosen isOp isChosen (show _ = 7 from rfl) (Nat.le_refl _)
    exact access_yields reads written isOp (floor.gone _ rfl (by decide))
      (floor.gone _ rfl (by decide))
      (gone_of_above (isChosen.earlier (show _ = 7 from rfl) (by decide)) _ rfl (by decide)) chars
        short
  · obtain rfl : isSign = false :=
      plain (by rintro rfl; contradiction) (by rintro rfl; contradiction)
    have level : (Candidate.mk segment.span.start op false).level = 9 := Op.level_of_isStep step
    have floor := floor_of_isChosen isOp isChosen level (Nat.le_of_eq level.symm)
    rw [fold_step step]
    exact step_yields reads written isOp step (floor.gone _ rfl (by decide))
      (floor.gone _ rfl (by decide)) (floor.gone _ rfl (by decide)) chars short
  · obtain rfl : isSign = false := signs
    have floor := floor_of_isChosen isOp isChosen (show _ = 16 from rfl) (Nat.le_refl _)
    exact mark_yields reads written isOp rfl (.inl rfl) floor
      (isChosen.later (show _ = 16 from rfl) (.inr (by decide))) chars short
  · cases isSign with
    | false =>
        have level : (Candidate.mk segment.span.start op false).level = op.row.level := rfl
        have high := Op.ten_le_level binary
        have floor := floor_of_isChosen isOp isChosen level (Nat.le_refl _)
        rw [fold_binary binary]
        refine binary_yields reads written isOp binary ?_ floor
          (isChosen.later level (.inr (by omega))) chars short
        intro mark
        have sign : (op == .plus || op == .minus) = true := by
          revert mark binary
          cases op <;> decide
        rw [sign, Bool.true_and] at signs
        exact signs.symm
    | true =>
        have sign := signs.symm
        rw [Bool.and_eq_true] at sign
        have mark : op.isMark = true := by
          rw [Op.isMark, sign.1]
          rfl
        have level : (Candidate.mk segment.span.start op true).level = 16 := rfl
        have floor := floor_of_isChosen isOp isChosen level (Op.sixteen_le_level mark)
        have unary : OnSegments.fold operands ⟨segment.span.start, op, true⟩ count before after =
            OnSegments.unary operands op segment.span.start before after := by
          have signOp := sign.1
          rw [Bool.or_eq_true, beq_iff_eq, beq_iff_eq] at signOp
          rcases signOp with rfl | rfl <;> rfl
        rw [unary]
        exact mark_yields reads written isOp mark (.inr sign.2) floor
          (isChosen.later level (.inr (by decide))) chars short

/-! ## Lists without operators -/

/-- A well-formed tree is a name or has an operator of its own. -/
theorem exists_op_mem_parts (well : tree.isWellFormed = true) :
    (∃ chars, tree = .name chars) ∨ ∃ op, .op op ∈ (Form.tree tree).parts := by
  cases tree with
  | name chars => exact .inl ⟨chars, rfl⟩
  | group inner => exact .inr ⟨.openParen, by simp [Form.parts]⟩
  | call callee arguments => exact .inr ⟨.openParen, by simp [Form.parts]⟩
  | index target indices =>
      cases indices with
      | nil => simp [isWellFormed] at well
      | cons first further => exact .inr ⟨.openBracket, by simp [Form.parts, indexParts]⟩
  | member subject link => exact .inr ⟨.dot, by simp [Form.parts]⟩
  | leading op operand => exact .inr ⟨op, by simp [Form.parts]⟩
  | trailing operand op => exact .inr ⟨op, by simp [Form.parts]⟩
  | binary op left right => exact .inr ⟨op, by simp [Form.parts]⟩
  | conditional condition first second => exact .inr ⟨.question, by simp [Form.parts]⟩
  | assignment op target value => exact .inr ⟨op, by simp [Form.parts]⟩

section

variable (written : Written text items segments)
include written

/-- Where no operator is left, a list has at most one tree: one that is folded or a name. -/
theorem Written.bare (none : ∀ op, ¬ Occurs op segments) :
    (items = [] ∧ segments = []) ∨ ∃ segment, segments = [segment] ∧
        ((∃ expr, segment.piece = .tree expr ∧ Lists items expr) ∨
          ∃ chars, segment.piece = .word ∧ segment.span.slice text = chars ∧
            isName chars = true ∧ items = [.name chars]) := by
  have well := written.well
  have spelled := written.spelled
  match items with
  | [] => exact .inl ⟨rfl, spelled_nil.1 spelled⟩
  | first :: next :: rest => exact absurd (spelled.occurs (by simp [listParts])) (none .comma)
  | [only] =>
      rw [areWellFormed, Bool.and_eq_true] at well
      refine .inr ?_
      rcases Spelled.form_cases spelled with ⟨segment, expr, rfl, isTree, pictures⟩ | inner
      · exact ⟨segment, rfl, .inl ⟨expr, isTree, .one pictures⟩⟩
      · rcases exists_op_mem_parts well.1 with ⟨chars, rfl⟩ | ⟨op, own⟩
        · cases inner with
          | word isWord spells behind =>
              rw [spelled_nil.1 behind]
              exact ⟨_, rfl, .inr ⟨chars, isWord, spells, well.1, rfl⟩⟩
        · exact absurd (inner.occurs own) (none op)

theorem Written.of_whole? {expr : Expr}
    (whole : OnSegments.whole? segments = some expr) : Lists items expr := by
  unfold OnSegments.whole? at whole
  split at whole
  · next segment =>
      have isTree : segment.piece = .tree expr := by
        rw [Segment.tree?] at whole
        split at whole
        · next found => rw [found, Option.some.inj whole]
        · contradiction
        · contradiction
      have none (op : Op) : ¬ Occurs op [segment] := by
        rintro ⟨found, among, isOp⟩
        obtain rfl := List.mem_singleton.1 among
        rw [piece_of_op? isOp] at isTree
        contradiction
      rcases written.bare none with ⟨-, absent⟩ | ⟨found, same, kind⟩
      · contradiction
      · obtain rfl := List.singleton_inj.1 same
        rcases kind with ⟨other, isOther, lists⟩ | ⟨chars, isWord, -, -, -⟩
        · obtain rfl := Piece.tree.inj (isTree.symm.trans isOther)
          exact lists
        · rw [isWord] at isTree
          contradiction
  · contradiction

/-- Closing brackets come with their partners, so without candidates there are no operators. -/
theorem Written.none_of_best?
    (best : OnSegments.best? segments = none) (op : Op) : ¬ Occurs op segments := by
  have closes {op : Op} (occurs : Occurs op segments) : op.isClosing = true := by
    obtain ⟨segment, among, isOp⟩ := occurs
    obtain ⟨before, after, rfl⟩ := List.append_of_mem among
    exact OnSegments.isClosing_of_best?_eq_none best rfl isOp
  have paired {leader follower : Op} (pair : (leader, follower) ∈ followers)
      (own : follower ≠ .comma) (open_ : leader.isClosing = false) :
        ¬ Occurs follower segments := by
    intro occurs
    have before := written.spelled.occurs_leader pair written.forms
      (fun among => own (op_mem_listParts among)) occurs
    rw [closes before] at open_
    contradiction
  intro occurs
  have known := written.known occurs
  have closing := closes occurs
  have cases_ : op = .closeParen ∨ op = .closeBracket := by
    revert known closing
    cases op <;> decide
  rcases cases_ with rfl | rfl
  · exact @paired .openParen _ (by decide) (by decide) rfl occurs
  · exact @paired .openBracket _ (by decide) (by decide) rfl occurs

theorem leaf_yields (whole : OnSegments.whole? segments = none) (none : ∀ op, ¬ Occurs op segments)
    (present : segments ≠ []) (chars : other.ledger.chars = text) :
    Yields other (Lists items) (OnSegments.leaf segments other) := by
  rcases written.bare none with ⟨-, absent⟩ | ⟨segment, rfl, kind⟩
  · contradiction
  · rcases kind with ⟨expr, isTree, -⟩ | ⟨word, isWord, spells, name, rfl⟩
    · rw [OnSegments.whole?, Segment.tree?, isTree] at whole
      contradiction
    · have plain : [segment].any (·.tree?.isSome) = false := by
        rw [List.any_cons, Segment.tree?, isWord]
        rfl
      have read : other.ledger.slice (hull [segment]) = word := by
        rw [Ledger.slice_eq, chars]
        exact spells
      unfold OnSegments.leaf
      rw [plain, if_neg Bool.false_ne_true]
      refine Yields.bind (show Yields other (· = other.ledger) _ from Yields.pure rfl)
        fun ledger after quiet same => ?_
      subst same
      rw [read, classify, leafForm?_of_isName name]
      refine Yields.bind (newNode_yields _) fun node final _ text => Yields.pure ?_
      refine .one (.name ?_)
      rw [text, Ledger.textAt_eq, ← Ledger.slice_eq, quiet.ledger, read]

end

/-! ## Rounds -/

theorem Yields.and_ensures {α : Type} {first second : α → Prop}
    {result : EStateM.Result Failure Reduction α} (yields : Yields other first result)
    (ensures : Ensures text second result) :
    Yields other (fun value => first value ∧ second value) result := by
  cases result with
  | ok value after => exact ⟨yields.1, yields.2, ensures.2⟩
  | error failure after => exact yields

theorem next_yields (written : Written text items segments) :
    Yields other (· = OnSegments.best? segments) (OnSegments.next segments other) := by
  unfold OnSegments.next
  cases best : OnSegments.best? segments with
  | some candidate => exact Yields.pure rfl
  | none =>
      have absent : headsOf segments = [] := by
        rw [List.eq_nil_iff_forall_not_mem]
        rintro ⟨position, op⟩ among
        obtain ⟨front, segment, back, rfl, isOp, -⟩ := exists_of_mem_headsOf among
        exact written.none_of_best? best op ⟨segment, by simp, isOp⟩
      rw [absent]
      exact Yields.pure rfl

/-- The list behind a fold that fits is shown, and no longer than before. -/
theorem FoldFits.depicts {folded : OnSegments.Folded} {state : Reduction} {start stop : Nat}
    (fits : FoldFits text segments folded) (depicts : Depicts text state start stop segments) :
    ∃ span final, folded.expr.node?.map (·.span) = some span ∧
      Depicts text final start stop (folded.front ++ ⟨span, .tree folded.expr⟩ :: folded.back) ∧
      (folded.front ++ ⟨span, .tree folded.expr⟩ :: folded.back).length ≤ segments.length := by
  obtain ⟨faithful, middle, split, present, span⟩ := fits
  rw [split] at depicts
  have placed : Depicts text state (Span.mk start stop).start (Span.mk start stop).stop _ := depicts
  obtain ⟨final, depicts', -⟩ := placed.folded present span faithful
  refine ⟨hull middle, final, span, depicts', ?_⟩
  have positive := List.length_pos_iff.2 present
  rw [split]
  simp only [List.length_append, List.length_cons]
  omega

/-- The list behind a fold still spells the trees. -/
theorem Written.folded {folded : OnSegments.Folded} (written : Written text items segments)
    (spelled : ∀ span, Spelled text (listParts items)
      (folded.front ++ ⟨span, .tree folded.expr⟩ :: folded.back))
    (fewer : (headsOf folded.front).length + (headsOf folded.back).length <
      (headsOf segments).length) (fits : FoldFits text segments folded) :
    ∃ span, folded.expr.node?.map (·.span) = some span ∧
      Written text items (folded.front ++ ⟨span, .tree folded.expr⟩ :: folded.back) ∧
      (folded.front ++ ⟨span, .tree folded.expr⟩ :: folded.back).length ≤ segments.length := by
  obtain ⟨state, start, stop, depicts⟩ := written.shown
  obtain ⟨span, final, known, depicts', shorter⟩ := FoldFits.depicts fits depicts
  have few := written.few
  refine ⟨span, known, ⟨written.well, spelled _, ⟨final, _, _, depicts'⟩, ?_⟩, shorter⟩
  rw [headsOf_append, List.length_append, headsOf_operand (isOperand_of_tree rfl)]
  omega

/-- Lists with fewer operators than rounds are read as their trees. -/
theorem rounds_yields (reads : ReadsTo text bound operands) (fit : FitOperands text operands)
    (written : Written text items segments) (enough : (headsOf segments).length < count)
    (present : segments ≠ []) (chars : other.ledger.chars = text)
    (short : segments.length ≤ bound) :
    Yields other (Lists items) (OnSegments.rounds operands count segments other) := by
  induction count generalizing segments other with
  | zero => contradiction
  | succ count induction =>
      unfold OnSegments.rounds
      refine Yields.bind (show Yields other (fun _ => True) _ from ⟨⟨rfl, rfl, _, _, rfl⟩, trivial⟩)
        fun _ state₁ quiet₁ _ => ?_
      cases whole : OnSegments.whole? segments with
      | some expr => exact Yields.pure (written.of_whole? whole)
      | none =>
          dsimp only
          refine Yields.bind (next_yields written) fun candidate state₂ quiet₂ best => ?_
          have chars₂ : state₂.ledger.chars = text := by
            rw [quiet₂.ledger, quiet₁.ledger, chars]
          cases candidate with
          | none =>
              exact leaf_yields written whole (written.none_of_best? best.symm) present chars₂
          | some candidate =>
              obtain ⟨before, segment, after, rfl, isOp, open_, same, isChosen⟩ :=
                OnSegments.exists_of_best?_eq_some best.symm
              obtain ⟨state, start, stop, depicts⟩ := written.shown
              have position : candidate.position = segment.span.start :=
                congrArg Candidate.position same
              have positive : 0 < (hull (before ++ segment :: after)).length := by
                obtain ⟨-, -, -, nonempty⟩ := depicts.shown.hull present
                rw [Span.length]
                omega
              dsimp only
              rw [position, splitAt_eq depicts.shown]
              refine Yields.bind ((fold_yields reads written isOp open_ same isChosen
                positive chars₂
                short).and_ensures (fold_ensures fit depicts isOp position chars₂))
                fun folded state₃ quiet₃ outcome => ?_
              obtain ⟨advances, fits⟩ := outcome
              rcases advances with ⟨front, back, lists⟩ | ⟨spelled, fewer⟩
              · rw [front, back]
                exact Yields.pure lists
              · split
                · next empty =>
                    rw [Bool.and_eq_true, List.isEmpty_iff, List.isEmpty_iff] at empty
                    obtain ⟨front, expr, back⟩ := folded
                    obtain ⟨rfl, rfl⟩ := empty
                    obtain ⟨span, -, written', -⟩ := written.folded spelled fewer fits
                    exact Yields.pure (written'.of_whole? rfl)
                · obtain ⟨span, known, written', shorter⟩ := written.folded spelled fewer fits
                  rw [known, Option.getD_some]
                  refine induction written' ?_ (by simp) ?_ (Nat.le_trans shorter short)
                  · rw [headsOf_append, List.length_append, headsOf_operand (isOperand_of_tree rfl)]
                    omega
                  · rw [quiet₃.ledger, chars₂]

/-- Spelled lists are read as their trees. -/
theorem reduce_reads (nesting depth : Nat) :
    ReadsTo text nesting (OnSegments.reduce nesting depth) := by
  induction nesting generalizing depth with
  | zero =>
      intro items segments other written chars short
      contradiction
  | succ nesting induction =>
      intro items segments other written chars short
      unfold OnSegments.reduce
      refine Yields.bind (show Yields other (fun _ => True) _ from ⟨⟨rfl, rfl, _, _, rfl⟩, trivial⟩)
        fun _ state₁ quiet₁ _ => ?_
      have chars₁ : state₁.ledger.chars = text := by rw [quiet₁.ledger, chars]
      by_cases present : segments = []
      · subst present
        refine Yields.pure ?_
        rcases written.bare (by rintro op ⟨segment, among, -⟩; contradiction) with
          ⟨rfl, -⟩ | ⟨segment, absent, -⟩
        · rfl
        · contradiction
      · rw [if_neg (by rwa [List.isEmpty_iff])]
        refine Yields.bind (rounds_yields (induction (depth + 1)) (reduce_fit nesting (depth + 1))
          written written.few present chars₁ (Nat.le_of_lt_succ short))
          fun expr state₂ quiet₂ lists => Yields.pure lists

/-- A spelled tree is read as itself. -/
theorem statement_yields (written : Written text [tree] segments)
    (chars : other.ledger.chars = text) {nesting : Nat} (short : segments.length < nesting) :
    Yields other tree.Pictures (OnSegments.statement nesting segments other) := by
  unfold OnSegments.statement
  refine Yields.bind (show Yields other (fun _ => True) _ from ⟨⟨rfl, rfl, _, _, rfl⟩, trivial⟩)
    fun _ state₁ quiet₁ _ => ?_
  have chars₁ : state₁.ledger.chars = text := by rw [quiet₁.ledger, chars]
  refine Yields.bind (reduce_reads nesting 1 [tree] segments state₁ written chars₁ short)
    fun result state₂ quiet₂ listed => ?_
  obtain ⟨expr, rfl, pictures⟩ := listed.pictures
  exact ⟨⟨rfl, rfl, _, _, rfl⟩, pictures⟩

end

end Tree
end MethodLowering
