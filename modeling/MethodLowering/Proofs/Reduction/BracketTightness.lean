import MethodLowering.Proofs.Reduction.Tightness
import MethodLowering.Proofs.Reduction.Wholeness

/-!
# Statements of shut texts

Folds of brackets and text without operators make tight expressions too.  Each round takes whole
pairs of brackets out of its range, so what is left is still shut between its operators, and the
tree of a statement whose literals are closed is tight.
-/

namespace MethodLowering
namespace Reduction

open Text MethodLowering.Expr

section

variable {text : List Char} {base : VariableId} {other state : Reduction}
  {start stop position close : Nat} {before after segments : List Segment} {segment : Segment}
  {op : Op} {onSegments : OnSegments.Operands} {content : Option Expr} {expr : Expr} {range : Span}

/-! ## Brackets -/

/-- The operand of a cast ends in front of an operator. -/
theorem isOperand_of_head?_castFrom (count : Nat) (taken segments : List Segment)
    (isFirst : segment ∈ (OnSegments.castFrom count taken segments).2.head?) :
    segment.isOperand = false := by
  induction count generalizing taken segments with
  | zero => exact isOperand_of_head?_skipOperands isFirst
  | succ count induction =>
      rw [OnSegments.castFrom] at isFirst
      have ends {next : Segment} {behind : List Segment}
          (rest : OnSegments.skipOperands segments = next :: behind)
          (same : segment ∈ (next :: behind).head?) : segment.isOperand = false := by
        rw [← rest] at same
        exact isOperand_of_head?_skipOperands same
      split at isFirst
      · contradiction
      · rename_i next behind rest
        split at isFirst
        · exact ends rest isFirst
        · split at isFirst
          · exact induction _ _ isFirst
          · split at isFirst
            · exact induction _ _ isFirst
            · exact ends rest isFirst

/-- The type of a cast is shut, as the expression between the brackets is. -/
theorem castType?_tight {node : Node} {typeName : String} {operand : Expr}
    (typed : castType? expr = some typeName) (shut : Shut anyChar expr.text.toList) :
    (Expr.cast node typeName operand).IsTight := by
  obtain ⟨named, same⟩ := Option.ite_none_right_eq_some.1 typed
  obtain rfl := Option.some.inj same
  simp only [Bool.and_eq_true, List.all_eq_true] at named
  have letters := named.1.2
  refine ⟨?_, ?_⟩
  · rw [String.toList_ofList]
    refine shut.trim.strict fun c among => ?_
    exact bne_iff_ne.2 (beq_eq_false_iff_ne.1 (beq_eq_false_of_kind (letters c among) (by decide)))
  · rw [String.toList_ofList]
    intro c among
    rw [isQuoteMark, beq_eq_false_of_kind (letters c among) (by decide),
      beq_eq_false_of_kind (letters c among) (by decide)]
    rfl

theorem paren_secures (count : Nat) (tight : TightOperands text base onSegments)
    (left : Arranged text state start position before)
    (right : Arranged text state (close + 1) stop after)
    (tightContent : (content.getD .absent).Tight)
    (shut : ∀ expr ∈ content, Shut anyChar expr.text.toList) (ready : Ready text base other) :
    Secures text base (fun folded => folded.expr.Tight)
      (OnSegments.paren onSegments position close count content before after other) := by
  unfold OnSegments.paren
  dsimp only
  split
  · obtain ⟨low, last⟩ := left.lastOperands
    refine Secures.bind (tight _ _ _ _ other last ready) fun result state₁ ready₁ made => ?_
    cases result with
    | none => trivial
    | some callee =>
        refine Secures.bind (newNodeAround_secures _ _ ready₁) fun node state₂ ready₂ _ => ?_
        refine ⟨ready₂, tight_of_parts (callee :: items content) rfl rfl trivial ?_⟩
        exact List.forall_mem_cons.2 ⟨made.2, items_everywhere tightContent⟩
  · have found : ∃ operand back, OnSegments.castFrom count [] after = (operand, back) :=
      ⟨_, _, rfl⟩
    obtain ⟨operand, back, cast⟩ := found
    rw [cast]
    dsimp only
    cases typing : (if operand.isEmpty = true then none else content.bind castType?) with
    | none =>
        refine Secures.bind (newNode_secures _ ready) fun node state₁ ready₁ _ => ?_
        exact ⟨ready₁, tight_of_parts (items content) rfl rfl trivial
          (items_everywhere tightContent)⟩
    | some typeName =>
        have typed : content.bind castType? = some typeName := by
          split at typing
          · contradiction
          · exact typing
        obtain ⟨expr, inside, typed⟩ := Option.bind_eq_some_iff.1 typed
        have all := castFrom_append count [] after
        rw [cast, List.nil_append] at all
        rw [← all] at right
        obtain ⟨high, first⟩ := right.leading fun segment isFirst =>
          isOperand_of_head?_castFrom count [] after (by rw [cast]; exact isFirst)
        refine Secures.bind (tight _ _ _ _ other first ready) fun result state₁ ready₁ made => ?_
        cases result with
        | none => trivial
        | some target =>
            refine Secures.bind (newNodeAround_secures _ _ ready₁) fun node state₂ ready₂ _ => ?_
            exact ⟨ready₂, tight_of_parts [target] rfl rfl
              (castType?_tight typed (shut expr inside))
              (List.forall_mem_singleton.2 made.2)⟩

theorem absorb_tight (count : Nat) {indices : List Expr} (stop : Nat)
    (tight : ∀ item ∈ indices, item.Tight) (trees : ∀ expr ∈ treesIn segments, expr.Tight) :
    (∀ item ∈ (OnSegments.absorb count indices stop segments).1.1, item.Tight) ∧
      (OnSegments.absorb count indices stop segments).1.2.1.Tight := by
  induction count generalizing indices stop segments with
  | zero => exact ⟨tight, tight_absent⟩
  | succ count induction =>
      cases segments with
      | nil => exact ⟨tight, tight_absent⟩
      | cons segment rest =>
          rw [OnSegments.absorb]
          cases taken : segment.tree?.bind absorbed? with
          | none => exact ⟨tight, tight_absent⟩
          | some both =>
              obtain ⟨further, initializer⟩ := both
              obtain ⟨expr, isTree, absorbs⟩ := Option.bind_eq_some_iff.1 taken
              have known : expr ∈ treesIn (segment :: rest) :=
                List.mem_filterMap.2 ⟨segment, List.mem_cons_self, isTree⟩
              obtain ⟨tightFurther, tightLast⟩ := absorbed?_everywhere absorbs (trees expr known)
              have longer : ∀ item ∈ indices ++ further, item.Tight := by
                intro item member
                exact (List.mem_append.1 member).elim (tight item) (tightFurther item)
              dsimp only
              split
              · exact ⟨longer, tightLast⟩
              · exact induction _ longer fun expr member =>
                  trees expr ((List.sublist_cons_self segment rest).filterMap _ |>.subset member)

theorem index_secures (count : Nat) (tight : TightOperands text base onSegments)
    (left : Arranged text state start position before)
    (right : Arranged text state (close + 1) stop after)
    (tightContent : (content.getD .absent).Tight) (ready : Ready text base other) :
    Secures text base (fun folded => folded.expr.Tight)
      (OnSegments.index onSegments position close count content before after other) := by
  obtain ⟨low, last⟩ := left.lastOperands
  unfold OnSegments.index
  refine Secures.bind (tight _ _ _ _ other last ready) fun result state₁ ready₁ made => ?_
  obtain ⟨tightIndices, tightLast⟩ := absorb_tight count (close + 1)
    (List.forall_mem_singleton.2 tightContent) right.tight
  generalize OnSegments.absorb count [content.getD .absent] (close + 1) after = absorbed
    at tightIndices tightLast ⊢
  obtain ⟨⟨indices, initializer, final⟩, back⟩ := absorbed
  dsimp only at tightIndices tightLast ⊢
  refine Secures.bind (newNode_secures _ ready₁) fun node state₂ ready₂ _ => ?_
  refine ⟨ready₂, tight_of_parts (result.getD .absent :: indices ++ [initializer]) rfl
    rfl trivial ?_⟩
  refine List.forall_mem_append.2 ⟨List.forall_mem_cons.2 ⟨made.2, tightIndices⟩, ?_⟩
  exact List.forall_mem_singleton.2 tightLast

theorem bracket_secures (count : Nat) (tight : TightOperands text base onSegments)
    (arranged : Arranged text state start stop (before ++ segment :: after))
    (isOp : segment.op? = some op) (opens : op.isOpening = true) (ready : Ready text base other) :
    Secures text base (fun folded => folded.expr.Tight)
      (OnSegments.bracket onSegments op segment.span.start count before after other) := by
  obtain ⟨left, -, -, right⟩ := arranged.split isOp
  unfold OnSegments.bracket
  cases closes : op.closing? with
  | none => trivial
  | some closing =>
      dsimp only
      cases found : (headsOf after).find? (·.2 == closing) with
      | none => trivial
      | some head =>
          obtain ⟨close, found'⟩ := head
          have same := List.find?_some found
          obtain rfl : found' = closing := eq_of_beq same
          obtain ⟨inner, last, rest, rfl, isClosing, rfl⟩ :=
            exists_of_mem_headsOf (List.mem_of_find?_eq_some found)
          obtain ⟨arrangedInner, standsLast, -, arrangedRest⟩ := right.split isClosing
          have width : last.span.start + 1 = last.span.stop := by
            rw [standsLast.span_eq isClosing, opSpan, closing?_width closes]
          rw [← width] at arrangedRest
          dsimp only
          rw [splitAt_eq right.depicts.shown]
          refine Secures.bind (show Secures text base (fun _ => True) _ from
            ⟨⟨ready.chars, ready.vars⟩, trivial⟩) fun _ state₀ ready₀ _ => ?_
          refine Secures.bind (tight _ _ _ inner state₀ arrangedInner ready₀)
            fun content state₁ ready₁ made => ?_
          dsimp only
          cases op with
          | openParen =>
              refine paren_secures count tight left arrangedRest made.2
                (fun expr inside => ?_) ready₁
              obtain rfl : content = some expr := inside
              obtain ⟨node, known, -⟩ := Option.map_eq_some_iff.1 made.1.1.2
              have shut := Tight.shut expr made.2 made.1.2 node known
              rw [Expr.text, known]
              exact shut
          | openBracket => exact index_secures count tight left arrangedRest made.2 ready₁
          | openBrace =>
              refine Secures.bind (newNode_secures _ ready₁) fun node state₂ ready₂ _ => ?_
              exact ⟨ready₂, tight_of_parts (items content) rfl rfl trivial
                (items_everywhere made.2)⟩
          | _ => contradiction

/-! ## Text without operators -/

theorem leafForm?_shelters {chars : List Char} {typeName : String}
    (read : leafForm? chars = some (.construction typeName)) : Shelters chars typeName.toList := by
  unfold leafForm? at read
  split at read
  · cases read
  · cases read
  · cases read
  · split at read
    · cases read
    · split at read
      · cases read
      · split at read
        · next starts =>
            obtain rfl := LeafForm.construction.inj (Option.some.inj read)
            obtain ⟨rest, rfl⟩ := List.isPrefixOf_iff_prefix.1 starts
            intro bare lenient shut
            rw [String.toList_ofList]
            exact (shut.behind (shut_plain (by decide))).2.trim
        · contradiction

theorem leaf_tight {node : Node} {form : LeafForm} {chars : List Char}
    (read : node.text = String.ofList chars) (shut : Shut anyChar chars)
    (shelters : ∀ typeName, form = .construction typeName → Shelters chars typeName.toList) :
    (Expr.leaf node form).Tight := by
  refine tight_of_parts [] rfl rfl ⟨?_, ?_⟩ (List.forall_mem_nil _)
  · rw [read, String.toList_ofList]
    exact shut
  · rw [read, String.toList_ofList]
    exact shelters

theorem classify_secures (shut : Shut anyChar (range.slice text)) (ready : Ready text base other) :
    Secures text base (fun expr => expr.Tight) (classify range (range.slice text) other) := by
  have verbatim (typeName : String) (same : LeafForm.verbatim = .construction typeName) :
      Shelters (range.slice text) typeName.toList := by cases same
  unfold classify
  cases form : leafForm? (range.slice text) with
  | some form' =>
      refine Secures.bind (newNode_secures range ready) fun node state₁ ready₁ made => ?_
      refine ⟨ready₁, leaf_tight made.2 shut fun typeName same => ?_⟩
      subst same
      exact leafForm?_shelters form
  | none =>
      cases declares : declared? (Text.words (range.slice text)) with
      | none => trivial
      | some declared =>
          cases declared with
          | nothing =>
              refine Secures.bind (newNode_secures range ready) fun node state₁ ready₁ made => ?_
              exact ⟨ready₁, leaf_tight made.2 shut verbatim⟩
          | «variable» name typeName isFinal isStatic =>
              obtain ⟨shutName, shutType⟩ := shut.declared declares
              refine get_secures (modifyBody_secures ?_)
              refine Secures.bind (newNode_secures range ⟨ready.chars, ready.vars.declare ?_⟩)
                fun node state₁ ready₁ made => ⟨ready₁, tight_of_parts [] rfl rfl ?_ ?_⟩
              · exact ⟨shutName, shutType⟩
              · change Shut anyChar node.text.toList
                rw [made.2, String.toList_ofList]
                exact shut
              · exact List.forall_mem_nil _

theorem leaf_secures (arranged : Arranged text state start stop segments)
    (plain : headsOf segments = []) (present : segments ≠ []) (ready : Ready text base other) :
    Secures text base (fun expr => expr.Tight) (OnSegments.leaf segments other) := by
  have shut := arranged.shut_hull plain present
  unfold OnSegments.leaf
  split
  · refine Secures.bind (newNode_secures _ ready) fun node state₁ ready₁ made => ?_
    exact ⟨ready₁, leaf_tight made.2 shut fun typeName same => by cases same⟩
  · have read : other.ledger.slice (hull segments) = (hull segments).slice text := by
      rw [Ledger.slice_eq, ready.chars]
    have classified := classify_secures shut ready
    rw [← read] at classified
    exact classified

/-! ## Rounds -/

theorem fold_secures {candidate : Candidate} (count : Nat)
    (tight : TightOperands text base onSegments)
    (arranged : Arranged text state start stop (before ++ segment :: after))
    (isOp : segment.op? = some candidate.op) (closes : candidate.op.isClosing = false)
    (position : candidate.position = segment.span.start) (ready : Ready text base other) :
    Secures text base (fun folded => folded.expr.Tight)
      (OnSegments.fold onSegments candidate count before after other) := by
  obtain ⟨place, op, isSign⟩ := candidate
  dsimp only at isOp position closes
  subst position
  have plain (own : op.isOpening = false) : op.isBracket = false := by
    rw [Op.isBracket, own, closes]
    rfl
  refine OnSegments.fold_cases (motive := fun folds =>
    Secures text base (fun folded => folded.expr.Tight) (folds other)) ?_ ?_ ?_ ?_ ?_ ?_ ?_ ?_
  · exact fun opens => bracket_secures count tight arranged isOp opens ready
  · exact fun same => conditional_secures tight arranged (same ▸ isOp) ready
  · exact fun same => access_secures tight arranged (same ▸ isOp) ready
  · exact fun same => typeTest_secures tight arranged (same ▸ isOp) ready
  · exact fun own => unary_secures tight (plain own) arranged isOp ready
  · exact fun own => assignment_secures tight (plain own) arranged isOp ready
  · exact fun closing => absurd (closing.symm.trans closes) Bool.true_eq_false.mp
  · exact fun own => binary_secures tight (plain own) arranged isOp ready

/-- The segments of a fold are replaced by its expression. -/
theorem Arranged.folded {front middle back : List Segment}
    (arranged : Arranged text state start stop (front ++ middle ++ back)) (present : middle ≠ [])
    (span : HasSpan expr (hull middle)) (faithful : expr.Faithful text) (tight : expr.Tight)
    (nested : IsNested (headsOf middle)) :
    ∃ final, Arranged text final start stop (front ++ ⟨hull middle, .tree expr⟩ :: back) := by
  have depicts : Depicts text state (Span.mk start stop).start (Span.mk start stop).stop
      (front ++ middle ++ back) := arranged.depicts
  obtain ⟨final, depicted, -⟩ := depicts.folded present span faithful
  refine ⟨final, depicted, ?_, fun inner member => ?_⟩
  · have spaced := arranged.spaced
    rw [headsOf_append, headsOf_append] at spaced
    rw [headsOf_append, headsOf_operand rfl]
    exact spaced.erase nested
  · rw [treesIn_append, treesIn_cons_tree, List.mem_append, List.mem_cons] at member
    rcases member with inFront | rfl | inBack
    · exact arranged.tight inner (by simp [inFront])
    · exact tight
    · exact arranged.tight inner (by simp [inBack])

theorem rounds_secures (tight : TightOperands text base onSegments)
    (paired : PairedOperands text onSegments) (fit : FitOperands text onSegments) (count : Nat)
    (arranged : Arranged text state start stop segments) (present : segments ≠ [])
    (ready : Ready text base other) :
    Secures text base (fun expr => expr.Tight)
    (OnSegments.rounds onSegments count segments other) := by
  induction count generalizing state other segments with
  | zero => exact (textAt_secures _ ready).bind fun _ _ _ _ => trivial
  | succ count induction =>
      unfold OnSegments.rounds
      refine modifyBody_secures ?_
      have ready₁ : Ready text base { other with body :=
          { other.body with
            effort := { other.body.effort with rounds := other.body.effort.rounds + 1 } } } :=
        ⟨ready.chars, ready.vars⟩
      cases whole : OnSegments.whole? segments with
      | some expr =>
          refine ⟨ready₁, arranged.tight expr ?_⟩
          rw [treesIn_whole whole]
          exact List.mem_singleton_self expr
      | none =>
          dsimp only
          unfold OnSegments.next
          cases best : OnSegments.best? segments with
          | none =>
              dsimp only
              cases heads : headsOf segments with
              | nil => exact leaf_secures arranged heads present ready₁
              | cons head rest => trivial
          | some candidate =>
              obtain ⟨before, segment, after, rfl, isOp, closes, same, isChosen⟩ :=
                OnSegments.exists_of_best?_eq_some best
              have position : candidate.position = segment.span.start := by rw [same]; rfl
              dsimp only
              rw [pure_bind]
              dsimp only
              rw [position, splitAt_eq arranged.depicts.shown]
              have depicts := arranged.depicts
              have secures :=
                ((fold_secures (hull (before ++ segment :: after)).length tight arranged
                isOp closes position ready₁).and_ensures
                (fold_ensures fit depicts isOp position ready₁.chars)).and_balances
                (fold_balances _ paired depicts isOp closes same isChosen ready₁.chars)
              refine Secures.bind secures fun folded state₂ ready₂ holds => ?_
              obtain ⟨front, expr, back⟩ := folded
              obtain ⟨⟨added, ⟨middle, split, found⟩, -⟩, ⟨faithful, middle', split', solid, span⟩,
                tightExpr⟩ := holds
              dsimp only at split faithful split' span tightExpr ⊢
              obtain rfl : middle = middle' := by
                rw [split'] at split
                exact (List.append_cancel_left (List.append_cancel_right split)).symm
              obtain ⟨pairs, nested, -⟩ := found
              split
              · exact ⟨ready₂, tightExpr⟩
              · rw [split'] at arranged
                obtain ⟨final, arranged'⟩ :=
                  arranged.folded solid span faithful tightExpr ⟨pairs, nested⟩
                rw [show expr.node?.map (·.span) = some (hull middle) from span, Option.getD_some]
                exact induction arranged' (by simp) ready₂

theorem reduce_tight (nesting depth : Nat) :
    TightOperands text base (OnSegments.reduce nesting depth) := by
  induction nesting generalizing depth with
  | zero =>
      intro state start stop segments other arranged ready
      exact (textAt_secures _ ready).bind fun _ _ _ _ => trivial
  | succ nesting induction =>
      intro state start stop segments other arranged ready
      have fits := reduce_fit (nesting + 1) depth state start stop segments other arranged.depicts
        ready.chars
      refine Secures.and_ensures ?_ fits
      unfold OnSegments.reduce
      refine Secures.bind (show Secures text base (fun _ => True) _ from
        ⟨⟨ready.chars, ready.vars⟩, trivial⟩) fun _ state₁ ready₁ _ => ?_
      split
      · exact ⟨ready₁, tight_absent⟩
      · next some =>
          rw [List.isEmpty_iff] at some
          refine Secures.bind (rounds_secures (induction (depth + 1))
            (reduce_paired nesting (depth + 1))
            (reduce_fit nesting (depth + 1)) Limits.reductionRounds arranged some ready₁)
            fun expr state₂ ready₂ tight => ?_
          exact ⟨ready₂, tight⟩

theorem statement_secures (nesting : Nat) (arranged : Arranged text state start stop segments)
    (ready : Ready text base other) :
    Secures text base (fun expr => expr.Tight) (OnSegments.statement nesting segments other) := by
  unfold OnSegments.statement
  refine modifyBody_secures ?_
  refine Secures.bind (reduce_tight nesting 1 _ _ _ segments _ arranged ⟨ready.chars, ready.vars⟩)
    fun result state₂ ready₂ made => ?_
  exact ⟨⟨ready₂.chars, ready₂.vars⟩, made.2⟩

/-- Reducing a text whose literals are closed gives a tight tree, and the text is shut. -/
theorem statement_tight {scope : ParagraphId} {body : Body} {after : Reduction}
    (reduces : statement { ledger := Ledger.scan text, scope, body } = .ok expr after)
    (ends : Quote.outside.after text = .outside) :
    expr.Tight ∧ Shut anyChar text ∧ after.body.TightFrom body.vars.size := by
  have chars := (Ledger.scan_sound text).1.chars
  obtain ⟨segments, last, depicts, result, agrees⟩ := exists_onSegments reduces
  have balances := statement_balances (text.length + 2) depicts
    (show (Reduction.ledger { ledger := Ledger.scan text, scope, body }).chars = text from chars)
  rw [result] at balances
  obtain ⟨-, added, -, pairs, nested, -⟩ := balances
  have spaced := spaced_scan rfl ends depicts.shown ⟨pairs, nested⟩
  have arranged : Arranged text _ 0 text.length segments :=
    ⟨depicts, spaced, by rw [treesIn_eq_nil rfl depicts.shown]; exact List.forall_mem_nil _⟩
  have ready : Ready text body.vars.size { ledger := Ledger.scan text, scope, body } := by
    refine ⟨chars, fun id entry above known => ?_⟩
    rw [Array.getElem?_eq_none above] at known
    contradiction
  have secures := statement_secures (text.length + 2) arranged ready
  rw [result] at secures
  have whole := spaced.shut ⟨pairs, nested⟩
  rw [Span.slice, Span.length, Nat.sub_zero, List.drop_zero, List.take_length] at whole
  exact ⟨secures.2, whole, by rw [agrees.body]; exact secures.1.vars⟩

end
end Reduction

/-! ## Statements and clauses of a body -/

namespace Body

open Text MethodLowering.Expr

section

variable {scope : ParagraphId} {text : List Char} {before after : Body} {placed : Placed}

/-- The tree is faithful to the text and tight, and its root has the text without the blanks around
it. -/
structure IsSecured (text : List Char) (expr : Expr) : Prop where
  faithful : expr.Faithful text
  tight : expr.Tight
  root : ∀ node, expr.node? = some node → node.text = String.ofList (trim text)

theorem readExpression_secures (read : readExpression scope text before = .ok placed after)
    (ends : Quote.outside.after text = .outside) :
    IsSecured text placed.expr ∧ Shut anyChar text ∧ after.TightFrom before.vars.size := by
  obtain ⟨expr, final, reduces, rfl, rfl⟩ := exists_statement read
  obtain ⟨tight, shut, vars⟩ := Reduction.statement_tight reduces ends
  obtain ⟨faithful, covers⟩ := Reduction.statement_scan reduces
  refine ⟨⟨faithful, tight, fun node known => ?_⟩, shut, vars⟩
  have present := isPresent_iff.2 ⟨node, known⟩
  obtain ⟨span, has, -, -, trims⟩ := covers.2 present
  obtain ⟨⟨_, isExact⟩, -⟩ := (faithful_iff present).1 faithful
  obtain rfl := Option.some.inj (known.symm.trans isExact.node?)
  rw [Reduction.HasSpan, known] at has
  obtain rfl := Option.some.inj has
  rw [isExact.text_eq, trims (by rw [ends]; rfl)]

theorem isTight_survives : Survives IsTight where
  name _ _ tight := tight.1
  target _ _ _ _ _ _ tight := tight
  comma _ _ _ _ _ _ _ tight := tight

end
end Body
end MethodLowering
