import MethodLowering.Proofs.Roundtrip.Declaration

/-!
# Declarations and loop headers are read

A type and a name are read as the declaration of a variable.  In the header of a loop the brackets
of the chain are folded first and the colon next, so the declaration and the chain are its two
operands.
-/

namespace MethodLowering

open Text Reduction

/-- The variable that a type and a name declare in a paragraph. -/
def Body.written (body : Body) (scope : ParagraphId) (type name : List Char) : Variable :=
  Variable.ofType body.extraContainers (String.ofList name) (String.ofList type) false false .body
    (some scope)

namespace Tree

/-! ## Computations that declare a variable -/

/-- The variable is declared, and beyond it only the numbering of nodes and the record of effort may
differ. -/
structure Gains (entry : Variable) (before after : Reduction) : Prop where
  ledger : after.ledger = before.ledger
  scope : after.scope = before.scope
  body : ∃ nextNode effort, after.body = { before.body.declare entry with nextNode, effort }

/-- A variable of the type and with the name is declared. -/
def Declaring (type name : List Char) (before after : Reduction) : Prop :=
  Gains (before.body.written before.scope type name) before after

/-- The computation succeeds with a value of the property and declares the variable, unless it
strays from the text. -/
def Introduces {α : Type} (type name : List Char) (state : Reduction) (property : α → Prop) :
    EStateM.Result Failure Reduction α → Prop
  | .ok value after => Declaring type name state after ∧ property value
  | .error failure _ => failure = .undefined .badRange

section

variable {α β : Type} {type name : List Char} {entry : Variable} {state : Reduction}
  {first second third : Reduction}

theorem Quiet.gains (left : Quiet first second) (right : Gains entry second third) :
    Gains entry first third := by
  obtain ⟨_, _, body⟩ := left.body
  obtain ⟨nextNode, effort, body'⟩ := right.body
  refine ⟨right.ledger.trans left.ledger, right.scope.trans left.scope, nextNode, effort, ?_⟩
  rw [body', body, Body.declare_with]

theorem Gains.quiet (left : Gains entry first second) (right : Quiet second third) :
    Gains entry first third := by
  obtain ⟨_, _, body⟩ := left.body
  obtain ⟨nextNode, effort, body'⟩ := right.body
  refine ⟨right.ledger.trans left.ledger, right.scope.trans left.scope, nextNode, effort, ?_⟩
  rw [body', body]

theorem Quiet.written (quiet : Quiet first second) (type name : List Char) :
    second.body.written second.scope type name = first.body.written first.scope type name := by
  obtain ⟨_, _, body⟩ := quiet.body
  rw [body, quiet.scope]
  rfl

theorem Quiet.declaring (left : Quiet first second) (right : Declaring type name second third) :
    Declaring type name first third := by
  have gains := left.gains right
  rwa [left.written] at gains

theorem Declaring.quiet (left : Declaring type name first second) (right : Quiet second third) :
    Declaring type name first third :=
  Gains.quiet left right

theorem Introduces.cases {property : α → Prop} {result : EStateM.Result Failure Reduction α}
    (introduces : Introduces type name state property result) :
    Strays result ∨ ∃ value after, result = .ok value after ∧ Declaring type name state after ∧
      property value := by
  cases result with
  | ok value after => exact .inr ⟨value, after, rfl, introduces⟩
  | error failure after => exact .inl ⟨after, by rw [show failure = _ from introduces]⟩

theorem Strays.introduces {property : α → Prop} {result : EStateM.Result Failure Reduction α}
    (strays : Strays result) : Introduces type name state property result := by
  obtain ⟨after, rfl⟩ := strays
  rfl

theorem Yields.introduces {property : α → Prop} {property' : β → Prop} {computation : ReduceM α}
    {next : α → ReduceM β} (yields : Yields state property (computation state))
    (later : ∀ value after, Quiet state after → property value →
      Introduces type name after property' (next value after)) :
    Introduces type name state property' ((computation >>= next) state) := by
  rcases yields.cases with strays | ⟨value, after, ran, quiet, holds⟩
  · exact (strays.bind next).introduces
  rw [bind_of_ok ran]
  rcases (later value after quiet holds).cases with
    strays | ⟨value', final, ran', declaring, holds'⟩
  · exact strays.introduces
  · rw [ran']
    exact ⟨quiet.declaring declaring, holds'⟩

theorem Introduces.bind {property : α → Prop} {property' : β → Prop} {computation : ReduceM α}
    {next : α → ReduceM β} (introduces : Introduces type name state property (computation state))
    (later : ∀ value after, Declaring type name state after → property value →
      Yields after property' (next value after)) :
    Introduces type name state property' ((computation >>= next) state) := by
  rcases introduces.cases with strays | ⟨value, after, ran, declaring, holds⟩
  · exact (strays.bind next).introduces
  rw [bind_of_ok ran]
  rcases (later value after declaring holds).cases with
    strays | ⟨value', final, ran', quiet, holds'⟩
  · exact strays.introduces
  · rw [ran']
    exact ⟨declaring.quiet quiet, holds'⟩

end

/-! ## Declarations -/

/-- The expression declares the variable with the next number. -/
def Declaration (body : Body) (expr : Expr) : Prop :=
  ∃ node, expr = .declaration node body.vars.size false

theorem Quiet.declaration {before after : Reduction} (quiet : Quiet before after) :
    Declaration after.body = Declaration before.body := by
  obtain ⟨_, _, body⟩ := quiet.body
  funext expr
  rw [Declaration, Declaration, body]

section

variable {text type name : List Char} {tree : Tree} {left right colon : Segment}
  {segment : Segment} {segments before after : List Segment} {operands : OnSegments.Operands}
    {other : Reduction} {bound count : Nat} {op : Op}

/-- Two words that are a type and a name. -/
structure DeclaresAt (text type name : List Char) (left right : Segment) : Prop where
  isType : TypeWord type
  isVar : isName name = true
  leftWord : left.piece = .word
  rightWord : right.piece = .word
  spells : (hull [left, right]).slice text = type ++ ' ' :: name

theorem DeclaresAt.op?_eq (declares : DeclaresAt text type name left right) :
    left.op? = none ∧ right.op? = none := by
  constructor
  · rw [Segment.op?, declares.leftWord]
  · rw [Segment.op?, declares.rightWord]

theorem classify_introduces (isType : TypeWord type) (isVar : isName name = true) (span : Span) :
    Introduces type name other (Declaration other.body)
    (classify span (type ++ ' ' :: name) other) := by
  rw [classify, leafForm?_declaration isType isVar]
  dsimp only
  rw [words_declaration isType isVar, declared?_words isType isVar]
  let entry := other.body.written other.scope type name
  have declares : Introduces type name other (fun _ => True)
      (modifyBody (fun body => body.declare entry) other) := ⟨⟨rfl, rfl, _, _, rfl⟩, trivial⟩
  change Introduces type name other _ ((modifyBody (fun body => body.declare entry) >>= fun _ =>
    newNode span >>= fun node => pure (Expr.declaration node other.body.vars.size false)) other)
  exact declares.bind fun _ _ _ _ =>
    Yields.bind (newNode_yields span) fun node _ _ _ => Yields.pure ⟨node, rfl⟩

section

variable (declares : DeclaresAt text type name left right) (chars : other.ledger.chars = text)
include declares chars

theorem leaf_introduces :
    Introduces type name other (Declaration other.body) (OnSegments.leaf [left, right] other) := by
  have plain : [left, right].any (·.tree?.isSome) = false := by
    rw [List.any_cons, List.any_cons, List.any_nil, Segment.tree?, declares.leftWord, Segment.tree?,
      declares.rightWord]
    rfl
  unfold OnSegments.leaf
  rw [plain, if_neg Bool.false_ne_true]
  refine Yields.introduces (show Yields other (· = other.ledger) _ from Yields.pure rfl)
    fun ledger state quiet same => ?_
  subst same
  rw [Ledger.slice_eq, chars, declares.spells]
  have introduces := @classify_introduces type name state declares.isType declares.isVar
    (hull [left, right])
  rwa [quiet.declaration] at introduces

/-- Two words are read as a declaration. -/
theorem rounds_introduces :
    Introduces type name other (Declaration other.body)
      (OnSegments.rounds operands (count + 1) [left, right] other) := by
  obtain ⟨noOp, noOp'⟩ := declares.op?_eq
  have noCandidate : OnSegments.best? [left, right] = none := by
    rw [OnSegments.best?, OnSegments.candidatesFrom, noOp]
    dsimp only
    rw [OnSegments.candidatesFrom, noOp']
    rfl
  have noHead : headsOf [left, right] = [] := by
    rw [headsOf, List.filterMap_cons, noOp, Option.map_none]
    dsimp only
    rw [List.filterMap_cons, noOp']
    rfl
  unfold OnSegments.rounds
  refine Yields.introduces (show Yields other (fun _ =>
    True) _ from ⟨⟨rfl, rfl, _, _, rfl⟩, trivial⟩)
    fun _ state quiet _ => ?_
  have noExpr : OnSegments.whole? [left, right] = none := rfl
  have chars' : state.ledger.chars = text := by rw [quiet.ledger, chars]
  rw [noExpr, OnSegments.next, noCandidate, noHead]
  dsimp only [List.head?_nil]
  refine Yields.introduces (show Yields state (· = none) _ from Yields.pure rfl)
    fun candidate state' quiet' none => ?_
  subst none
  dsimp only
  rw [← quiet.declaration, ← quiet'.declaration]
  exact leaf_introduces declares (by rw [quiet'.ledger, chars'])

theorem reduce_introduces (nesting depth : Nat) :
    Introduces type name other
      (fun result => ∃ expr, result = some expr ∧ Declaration other.body expr)
      (OnSegments.reduce (nesting + 1) depth [left, right] other) := by
  unfold OnSegments.reduce
  refine Yields.introduces (show Yields other (fun _ =>
    True) _ from ⟨⟨rfl, rfl, _, _, rfl⟩, trivial⟩)
    fun _ state quiet _ => ?_
  rw [if_neg (by simp), ← quiet.declaration]
  refine Introduces.bind (rounds_introduces declares (by rw [quiet.ledger, chars]))
    fun expr _ _ isDeclaration => Yields.pure ⟨expr, rfl, isDeclaration⟩

end

/-! ## Brackets behind the colon -/

theorem lastOperands_behind (isOp : colon.isOperand = false) :
    OnSegments.lastOperands (left :: right :: colon :: before) =
      OnSegments.lastOperands before := by
  rw [OnSegments.lastOperands, OnSegments.lastOperands, List.rtakeWhile, List.rtakeWhile]
  have reversed : (left :: right :: colon :: before).reverse =
      before.reverse ++ colon :: [right, left] := by simp
  rw [reversed, Text.takeWhile_append_stop isOp]

theorem dropOperands_behind (isOp : colon.isOperand = false) :
    OnSegments.dropOperands (left :: right :: colon :: before) =
      left :: right :: colon :: OnSegments.dropOperands before := by
  have whole := dropOperands_append (left :: right :: colon :: before)
  rw [lastOperands_behind isOp] at whole
  apply List.append_cancel_right (whole.trans _)
  rw [List.cons_append, List.cons_append, List.cons_append, dropOperands_append]

/-- What is left in front of a fold, with a declaration and a colon in front of it. -/
def behindColon (left right colon : Segment) (folded : OnSegments.Folded) : OnSegments.Folded :=
  { folded with front := left :: right :: colon :: folded.front }

/-- Folding a bracket does not look beyond the colon. -/
theorem bracket_behind (isOp : colon.isOperand = false) (position : Nat) :
    OnSegments.bracket operands op position count (left :: right :: colon :: before) after =
      behindColon left right colon <$> OnSegments.bracket operands op position count
        before after := by
  have reject (position : Nat) : (rejectBracket op position : ReduceM OnSegments.Folded) =
      behindColon left right colon <$> rejectBracket op position := rfl
  have reject' (position : Nat) : (rejectBracket .openParen position : ReduceM OnSegments.Folded) =
      behindColon left right colon <$> rejectBracket .openParen position := rfl
  unfold OnSegments.bracket
  split
  · exact reject position
  · split
    · exact reject position
    · simp only [map_bind]
      refine congrArg _ (funext fun _ => congrArg _ (funext fun inner => ?_))
      split
      · unfold OnSegments.paren
        rw [lastOperands_behind isOp, dropOperands_behind isOp]
        split
        · simp only [map_bind]
          refine congrArg _ (funext fun callee => ?_)
          cases callee with
          | none => exact reject' position
          | some callee => simp only [map_bind, map_pure, behindColon]
        · dsimp only
          split
          · simp only [map_bind]
            refine congrArg _ (funext fun operand => ?_)
            cases operand with
            | none => exact reject' position
            | some operand => simp only [map_bind, map_pure, behindColon]
          · simp only [map_bind, map_pure, behindColon]
      · unfold OnSegments.index
        rw [lastOperands_behind isOp, dropOperands_behind isOp]
        simp only [map_bind, map_pure, behindColon]
      · simp only [map_bind, map_pure, behindColon]

/-! ## The header of a loop -/

/-- Without brackets, the operators of a chain are dots. -/
theorem level_of_chain (spelled : Spelled text [.form (.tree tree)] (before ++ segment :: after))
    (well : tree.isWellFormed = true) (rank : 22 ≤ tree.rank) (isOp : segment.op? = some op)
    (open_ : op.isClosing = false) (floor : Floor op.row.level (before ++ segment :: after))
    (high : 3 ≤ op.row.level) : 6 < op.row.level := by
  have holds (form : Form) (among : .form form ∈ [Part.form (.tree tree)]) : form.AtLeast 0 := by
    obtain rfl : form = .tree tree := by simpa using among
    exact ⟨well, Nat.zero_le _⟩
  have occurs : Occurs op (before ++ segment :: after) := ⟨segment, by simp, isOp⟩
  have led {leader : Op} (pair : (leader, op) ∈ followers) (plain : leader.isClosing = false) :
      op.row.level ≤ leader.row.level :=
    floor leader (spelled.occurs_leader pair holds (by simp) occurs) plain
  have loose (kind : op.isAssignment = true ∨ op = .question) : tree.rank ≤ op.row.level :=
    spelled.rank_le_loose well isOp kind floor high
  by_contra low
  have kind : op = .comma ∨ op = .colon ∨ op.isAssignment = true ∨ op = .question := by
    revert open_ high low
    cases op <;> simp [Op.row, Op.isClosing, Op.isAssignment]
  rcases kind with rfl | rfl | kind
  · exact absurd (@led .openParen (by decide) rfl) (by decide)
  · exact absurd (@led .question (by decide) rfl) (by decide)
  · have bound := loose kind
    omega

/-- Segments of a text that are a declaration, a colon and a spelled chain. -/
structure Headed (text type name : List Char) (tree : Tree) (left right colon : Segment)
    (segments : List Segment) : Prop where
  declares : DeclaresAt text type name left right
  isColon : colon.op? = some .colon
  rank : 22 ≤ tree.rank
  well : tree.isWellFormed = true
  spelled : Spelled text [.form (.tree tree)] segments
  shown : ∃ state start stop, Depicts text state start stop (left :: right :: colon :: segments)
  few : (headsOf segments).length < Limits.reductionRounds

section

variable (headed : Headed text type name tree left right colon segments)
include headed

theorem Headed.colon_isOperand : colon.isOperand = false := isOperand_of_op headed.isColon

theorem Headed.written : Written text [tree] segments := by
  obtain ⟨state, start, stop, depicts⟩ := headed.shown
  have parts : left :: right :: colon :: segments = [left, right, colon] ++ segments := rfl
  rw [parts] at depicts
  obtain ⟨middle, -, inner⟩ := depicts.parts
  refine ⟨?_, headed.spelled, ⟨state, _, _, inner⟩, headed.few⟩
  rw [areWellFormed, headed.well]
  rfl

/-- The operator that is chosen is the colon or a bracket behind it. -/
theorem Headed.chosen {chosen : Candidate}
    (best : OnSegments.best? (left :: right :: colon :: segments) = some chosen) :
    (chosen = ⟨colon.span.start, .colon, false⟩) ∨
      ∃ before segment after, segments = before ++ segment :: after ∧
        segment.op? = some chosen.op ∧ chosen.position = segment.span.start ∧
        (chosen.op = .openParen ∧ ¬ Occurs .openParen after ∨
          chosen.op = .openBracket ∧ ¬ Occurs .openParen segments ∧
          ¬ Occurs .openBracket after) := by
  obtain ⟨before, segment, after, split, isOp, open_, same, isChosen⟩ :=
    OnSegments.exists_of_best?_eq_some best
  obtain ⟨noOp, noOp'⟩ := headed.declares.op?_eq
  rcases before with _ | ⟨one, _ | ⟨two, _ | ⟨three, before⟩⟩⟩
  · obtain ⟨rfl, -⟩ := List.cons.inj split
    rw [noOp] at isOp
    contradiction
  · obtain ⟨-, rest⟩ := List.cons.inj split
    obtain ⟨rfl, -⟩ := List.cons.inj rest
    rw [noOp'] at isOp
    contradiction
  · simp only [List.cons_append, List.nil_append, List.cons.injEq] at split
    obtain ⟨rfl, rfl, rfl, rfl⟩ := split
    have isColon : chosen.op = .colon := Option.some.inj (isOp.symm.trans headed.isColon)
    rw [isColon] at same
    exact .inl same
  · simp only [List.cons_append, List.cons.injEq] at split
    obtain ⟨rfl, rfl, rfl, rfl⟩ := split
    obtain ⟨position, op, isSign⟩ := chosen
    have place : position = segment.span.start := congrArg Candidate.position same
    dsimp only at isOp open_
    refine .inr ⟨before, segment, after, rfl, isOp, place, ?_⟩
    have known := headed.written.known ⟨segment, by simp, isOp⟩
    -- the colon in front is a candidate of level six
    have listed : OnSegments.candidateOf (some right) colon .colon ∈
        OnSegments.candidatesFrom none (left :: right :: colon :: before) :=
      @OnSegments.mem_candidatesFrom [left, right] before colon .colon none headed.isColon rfl
    have low : (Candidate.mk position op isSign).level ≤ 6 := isChosen.front_le _ listed
    obtain rfl : isSign = false := by
      cases isSign with
      | false => rfl
      | true => exact absurd (show 16 ≤ 6 from low) (by decide)
    have level : (Candidate.mk position op false).level = op.row.level := rfl
    rw [level] at low
    have floorBehind : Floor op.row.level (before ++ segment :: after) := by
      have whole := floor_of_isChosen isOp isChosen level (Nat.le_refl _)
      intro other occurs plain
      obtain ⟨found, among, isFound⟩ := occurs
      exact whole other ⟨found, by simp only [List.cons_append, List.mem_cons]; tauto, isFound⟩
        plain
    by_cases high : 3 ≤ op.row.level
    · have above :=
        level_of_chain headed.spelled headed.well headed.rank isOp open_ floorBehind high
      omega
    · have bracket : op = .openParen ∨ op = .openBracket := by
        revert open_ known high
        cases op <;> simp [Op.row, Op.isClosing]
      rcases bracket with rfl | rfl
      · have later := isChosen.later (show _ = 0 from rfl) (.inl (by decide))
        exact .inl ⟨rfl, gone_of_above later _ rfl (by decide)⟩
      · have later := isChosen.later (show _ = 2 from rfl) (.inl (by decide))
        exact .inr ⟨rfl, floorBehind.gone _ rfl (by decide), gone_of_above later _ rfl (by decide)⟩

end

/-- Folding a bracket of the chain leaves the chain spelled behind the colon. -/
theorem Headed.bracket_yields
    (headed : Headed text type name tree left right colon (before ++ segment :: after))
    (reads : ReadsTo text bound operands) (isOp : segment.op? = some op)
    (kind : op = .openParen ∧ ¬ Occurs .openParen after ∨
      op = .openBracket ∧ ¬ Occurs .openParen (before ++ segment :: after) ∧
      ¬ Occurs .openBracket after) (positive : 0 < count) (chars : other.ledger.chars = text)
    (short : (before ++ segment :: after).length ≤ bound) :
    Yields other (fun folded => ∃ inner, folded = behindColon left right colon inner ∧
        Advances text [tree] (before ++ segment :: after) inner)
      (OnSegments.bracket operands op segment.span.start count (left :: right :: colon :: before)
        after other) := by
  have advances : Yields other (Advances text [tree] (before ++ segment :: after))
      (OnSegments.bracket operands op segment.span.start count before after other) := by
    rcases kind with ⟨rfl, last⟩ | ⟨rfl, noParen, last⟩
    · exact paren_yields reads headed.written isOp last chars short
    · exact index_yields reads headed.written isOp noParen last positive chars short
  rw [bracket_behind headed.colon_isOperand, map_eq_pure_bind]
  exact advances.bind fun inner _ _ advances => Yields.pure ⟨inner, rfl, advances⟩

/-- Folding a bracket of the chain gives an expression for neighbouring segments of the header. -/
theorem Headed.bracket_fits
    (headed : Headed text type name tree left right colon (before ++ segment :: after))
    (fit : FitOperands text operands) (isOp : segment.op? = some op)
    (kind : op = .openParen ∨ op = .openBracket) (chars : other.ledger.chars = text) :
    Ensures text (FoldFits text (left :: right :: colon :: (before ++ segment :: after)))
      (OnSegments.bracket operands op segment.span.start count (left :: right :: colon :: before)
        after other) := by
  obtain ⟨state, start, stop, depicts⟩ := headed.shown
  have fits : Ensures text
      (FoldFits text ((left :: right :: colon :: before) ++ segment :: after))
      (OnSegments.fold operands ⟨segment.span.start, op, false⟩ count
        (left :: right :: colon :: before) after other) :=
    fold_ensures fit depicts isOp rfl chars
  rcases kind with rfl | rfl <;> exact fits

/-- What is left behind a fold that advances spells the chain, with fewer operators. -/
theorem Advances.chain {inner : OnSegments.Folded} (isOp : segment.op? = some op)
    (advances : Advances text [tree] (before ++ segment :: after) inner) (span : Span) :
    Spelled text [.form (.tree tree)] (inner.front ++ ⟨span, .tree inner.expr⟩ :: inner.back) ∧
      (headsOf (inner.front ++ ⟨span, .tree inner.expr⟩ :: inner.back)).length <
        (headsOf (before ++ segment :: after)).length := by
  rw [headsOf_append, List.length_append, headsOf_operand (isOperand_of_tree rfl)]
  rcases advances with ⟨front, back, lists⟩ | ⟨spelled, fewer⟩
  · rw [front, back]
    refine ⟨.folded rfl lists.pictures .nil, ?_⟩
    rw [headsOf_append, headsOf_op isOp, List.length_append, List.length_cons]
    exact Nat.lt_of_lt_of_le (Nat.succ_pos _) (Nat.le_add_left _ _)
  · exact ⟨spelled span, fewer⟩

/-- Behind a fold of a bracket there is still a header, with fewer operators. -/
theorem Headed.folded {inner : OnSegments.Folded}
    (headed : Headed text type name tree left right colon (before ++ segment :: after))
    (isOp : segment.op? = some op)
    (advances : Advances text [tree] (before ++ segment :: after) inner)
    (fits : FoldFits text (left :: right :: colon :: (before ++ segment :: after))
      (behindColon left right colon inner)) :
    ∃ span, inner.expr.node?.map (·.span) = some span ∧ Headed text type name tree left right colon
        (inner.front ++ ⟨span, .tree inner.expr⟩ :: inner.back) ∧
      (headsOf (inner.front ++ ⟨span, .tree inner.expr⟩ :: inner.back)).length <
        (headsOf (before ++ segment :: after)).length ∧
      (inner.front ++ ⟨span, .tree inner.expr⟩ :: inner.back).length ≤
        (before ++ segment :: after).length := by
  obtain ⟨state, start, stop, depicts⟩ := headed.shown
  obtain ⟨span, final, known, depicts', shorter⟩ := FoldFits.depicts fits depicts
  obtain ⟨spelled, fewer⟩ := advances.chain isOp span
  have few := headed.few
  refine ⟨span, known, ⟨headed.declares, headed.isColon, headed.rank, headed.well, spelled,
    ⟨final, start, stop, depicts'⟩, by omega⟩, fewer, ?_⟩
  simp only [behindColon, List.cons_append, List.length_cons] at shorter
  omega

/-- The expression is a header over the chain: its variable is the next one to be declared. -/
def Header (body : Body) (chain : Tree) (expr : Expr) : Prop :=
  ∃ node declaration collection, expr = .operation node .colon declaration collection ∧
    Declaration body declaration ∧ chain.Pictures collection

theorem Quiet.header {before after : Reduction} (quiet : Quiet before after) :
    Header after.body tree = Header before.body tree := by
  funext expr
  rw [Header, Header, quiet.declaration]

/-- The colon of a header has the declaration and the chain as its operands. -/
theorem binary_header (declares : Introduces type name other
      (fun result => ∃ expr, result = some expr ∧ Declaration other.body expr)
      (operands [left, right] other))
    (reads : ReadsTo text bound operands) (written : Written text [tree] segments)
    (chars : other.ledger.chars = text) (short : segments.length < bound) (position : Nat) :
    Introduces type name other
      (fun folded => folded.front = [] ∧ folded.back = [] ∧ Header other.body tree folded.expr)
      (OnSegments.binary operands .colon position [left, right] segments other) := by
  unfold OnSegments.binary
  refine Introduces.bind declares fun result after declaring isDeclaration => ?_
  obtain ⟨declaration, rfl, isDeclaration⟩ := isDeclaration
  have chars' : after.ledger.chars = text := by rw [declaring.ledger, chars]
  refine Yields.bind (reads _ _ _ written chars' short) fun result _ _ listed => ?_
  obtain ⟨collection, rfl, pictures⟩ := listed.pictures
  refine Yields.bind (newNodeAround_yields _ _) fun node _ _ _ => Yields.pure ?_
  exact ⟨rfl, rfl, node, declaration, collection, rfl, isDeclaration, pictures⟩

/-- A declaration, a colon and a chain are read as the header of a loop. -/
theorem rounds_header (headed : Headed text type name tree left right colon segments)
    (reads : ReadsTo text bound operands) (fit : FitOperands text operands)
    (declares : ∀ state : Reduction, state.ledger.chars = text → Introduces type name state
      (fun result => ∃ expr, result = some expr ∧ Declaration state.body expr)
      (operands [left, right] state))
    (enough : (headsOf segments).length < count) (chars : other.ledger.chars = text)
    (short : segments.length < bound) :
    Introduces type name other (Header other.body tree)
      (OnSegments.rounds operands count (left :: right :: colon :: segments) other) := by
  induction count generalizing segments other with
  | zero => contradiction
  | succ count induction =>
      unfold OnSegments.rounds
      refine Yields.introduces
        (show Yields other (fun _ => True) _ from ⟨⟨rfl, rfl, _, _, rfl⟩, trivial⟩)
        fun _ state₁ quiet₁ _ => ?_
      have noExpr : OnSegments.whole? (left :: right :: colon :: segments) = none := rfl
      rw [noExpr, ← quiet₁.header]
      cases best : OnSegments.best? (left :: right :: colon :: segments) with
      | none =>
          have closing := OnSegments.isClosing_of_best?_eq_none best
            (show left :: right :: colon :: segments = [left, right] ++ colon :: segments from rfl)
            headed.isColon
          contradiction
      | some chosen =>
          rw [OnSegments.next, best]
          dsimp only
          refine Yields.introduces (show Yields state₁ (· = some chosen) _ from Yields.pure rfl)
            fun candidate state₂ quiet₂ same => ?_
          subst same
          have chars₂ : state₂.ledger.chars = text := by rw [quiet₂.ledger, quiet₁.ledger, chars]
          obtain ⟨state, start, stop, depicts⟩ := headed.shown
          dsimp only
          rw [← quiet₂.header]
          rcases headed.chosen best with rfl | ⟨before, segment, after, rfl, isOp, position, kind⟩
          · have split : OnSegments.splitAt colon.span.start (left :: right :: colon :: segments) =
                ([left, right], segments) :=
              splitAt_eq (show Shows state start stop ([left, right] ++ colon :: segments) from
                depicts.shown)
            rw [split]
            have folds := binary_header (declares state₂ chars₂) reads headed.written chars₂ short
              colon.span.start
            refine Introduces.bind folds fun folded _ _ header => ?_
            rw [header.1, header.2.1]
            exact Yields.pure header.2.2
          · obtain ⟨place, op, isSign⟩ := chosen
            dsimp only at isOp position kind
            subst position
            have split : OnSegments.splitAt segment.span.start
                (left :: right :: colon :: (before ++ segment :: after)) =
                  (left :: right :: colon :: before, after) :=
              splitAt_eq (show Shows state start stop
                ((left :: right :: colon :: before) ++ segment :: after) from depicts.shown)
            have positive :
                0 < (hull (left :: right :: colon :: (before ++ segment :: after))).length := by
              obtain ⟨-, -, -, nonempty⟩ := depicts.shown.hull (List.cons_ne_nil _ _)
              rw [Span.length]
              omega
            have isBracket : op = .openParen ∨ op = .openBracket := kind.imp And.left And.left
            have folds := (headed.bracket_yields reads isOp kind positive chars₂
              (Nat.le_of_lt short)).and_ensures (headed.bracket_fits fit isOp isBracket chars₂)
            have same : OnSegments.fold operands ⟨segment.span.start, op, isSign⟩ =
                OnSegments.bracket operands op segment.span.start := by
              rcases isBracket with rfl | rfl <;> rfl
            rw [split, same]
            refine Yields.introduces folds fun folded state₃ quiet₃ result => ?_
            obtain ⟨⟨inner, rfl, advances⟩, fits⟩ := result
            obtain ⟨span, known, headed', fewer, shorter⟩ := headed.folded isOp advances fits
            have behind : (behindColon left right colon inner).expr = inner.expr := rfl
            rw [behind, known, Option.getD_some, ← quiet₃.header]
            exact induction headed' (Nat.lt_of_lt_of_le fewer (Nat.le_of_lt_succ enough))
              (by rw [quiet₃.ledger, chars₂]) (Nat.lt_of_le_of_lt shorter short)

theorem reduce_header (headed : Headed text type name tree left right colon segments)
    (chars : other.ledger.chars = text) {nesting : Nat} (short : segments.length < nesting + 1)
    (depth : Nat) :
    Introduces type name other (fun result => ∃ expr, result = some expr ∧
      Header other.body tree expr)
      (OnSegments.reduce (nesting + 2) depth (left :: right :: colon :: segments) other) := by
  rw [OnSegments.reduce]
  refine Yields.introduces (show Yields other (fun _ =>
    True) _ from ⟨⟨rfl, rfl, _, _, rfl⟩, trivial⟩)
    fun _ state quiet _ => ?_
  rw [if_neg (by simp), ← quiet.header]
  have introduces := rounds_header headed (reduce_reads (nesting + 1) (depth + 1))
    (reduce_fit (nesting + 1) (depth + 1))
    (fun state same => reduce_introduces headed.declares same nesting (depth + 1)) headed.few
    (show state.ledger.chars = text by rw [quiet.ledger, chars]) short
  exact introduces.bind fun expr _ _ header => Yields.pure ⟨expr, rfl, header⟩

/-- A statement introduces what its segments do. -/
theorem statement_introduces {property : Expr → Prop} {nesting : Nat}
    (reduces : ∀ state, Quiet other state → Introduces type name state
      (fun result => ∃ expr, result = some expr ∧ property expr)
      (OnSegments.reduce nesting 1 segments state)) :
    Introduces type name other property (OnSegments.statement nesting segments other) := by
  unfold OnSegments.statement
  refine Yields.introduces (show Yields other (fun _ =>
    True) _ from ⟨⟨rfl, rfl, _, _, rfl⟩, trivial⟩)
    fun _ state quiet _ => ?_
  refine (reduces state quiet).bind fun result after _ found => ?_
  obtain ⟨expr, rfl, holds⟩ := found
  exact ⟨⟨rfl, rfl, _, _, rfl⟩, holds⟩

end

/-! ## Texts -/

end Tree

namespace Body

open MethodLowering.Tree

section

variable {type name : List Char} {tree : Tree} {rest : List Token}
  {scope : ParagraphId} {body : Body}

/-- The state in which the reduction of a text starts. -/
def startOf (body : Body) (scope : ParagraphId) (text : List Char) : Reduction :=
  { ledger := Ledger.scan text, scope, body }

/-- A text is read as its segments are reduced. -/
theorem readExpression_of_statement {text : List Char} {segments : List Segment}
    (shown : Shows (body.startOf scope text) 0 (Ledger.scan text).size segments)
    {result : EStateM.Result Failure Reduction Expr}
    (reduces : OnSegments.statement ((Ledger.scan text).size + 2) segments
      (body.startOf scope text) = result) :
    match result with
    | .ok expr after => readExpression scope text body =
        .ok ⟨expr, after.body.sightFrom scope⟩ after.body
    | .error failure _ => ∃ after, readExpression scope text body = .error failure after := by
  have agrees : Agrees (body.startOf scope text) (body.startOf scope text) :=
    ⟨rfl, rfl, rfl, rfl, rfl⟩
  have tracks := statement_tracks agrees shown
  rw [show (body.startOf scope text).ledger = Ledger.scan text from rfl, reduces] at tracks
  rw [readExpression]
  change Tracks _ (Reduction.statement (body.startOf scope text)) _ at tracks
  rw [startOf] at tracks
  cases found : Reduction.statement { ledger := Ledger.scan text, scope, body } with
  | error failure final =>
      rw [found] at tracks
      cases result with
      | ok => exact tracks.elim
      | error failure' after =>
          obtain ⟨rfl, -⟩ := tracks
          exact ⟨_, rfl⟩
  | ok expr final =>
      rw [found] at tracks
      cases result with
      | error => exact tracks.elim
      | ok expr' after =>
          obtain ⟨agrees, rfl⟩ := tracks
          dsimp only
          rw [agrees.body]

/-- Where segments are reduced to a declaration, the text is read as one. -/
theorem readExpression_of_gains {text : List Char} {segments : List Segment}
    {entry : Variable} {expr : Expr} {after : Reduction}
    (shown : Shows (body.startOf scope text) 0 (Ledger.scan text).size segments)
    (reduces : OnSegments.statement ((Ledger.scan text).size + 2) segments
      (body.startOf scope text) =
      .ok expr after) (gains : Gains entry (body.startOf scope text) after) :
    ∃ nextNode effort, readExpression scope text body = .ok ⟨expr, ⟨scope, body.vars.size + 1⟩⟩
      { body.declare entry with nextNode, effort } := by
  obtain ⟨nextNode, effort, same⟩ := gains.body
  have read := readExpression_of_statement shown reduces
  refine ⟨nextNode, effort, read.trans ?_⟩
  rw [same]
  refine congrArg (fun visible => EStateM.Result.ok (Placed.mk expr ⟨scope, visible⟩) _) ?_
  exact (congrArg Array.size (vars_declare body entry)).trans (Array.size_push _)

/-- What is read of tokens is what their segments are reduced to, where these introduce a
variable. -/
theorem readExpression_introduces {tokens : List Token} {property : Expr → Prop}
    (depicts : Depicts (Token.text tokens) (body.startOf scope (Token.text tokens)) 0
      (Token.text tokens).length (Token.segments 0 tokens))
    (introduces : Introduces type name (body.startOf scope (Token.text tokens)) property
      (OnSegments.statement ((Token.text tokens).length + 2) (Token.segments 0 tokens)
        (body.startOf scope (Token.text tokens)))) :
    ∃ expr nextNode effort, readExpression scope (Token.text tokens) body =
        .ok ⟨expr, ⟨scope, body.vars.size + 1⟩⟩
          { body.declare (body.written scope type name) with nextNode, effort } ∧
      property expr := by
  have size : (Ledger.scan (Token.text tokens)).size = (Token.text tokens).length :=
    depicts.portrays.size
  have shown := depicts.shown
  rw [← size] at shown introduces
  obtain ⟨expr, after, reduces, declaring, holds⟩ :=
    introduces.cases.resolve_left (not_strays shown)
  obtain ⟨nextNode, effort, read⟩ := readExpression_of_gains shown reduces declaring
  exact ⟨expr, nextNode, effort, read, holds⟩

/-- The first two segments of a declaration are its type and its name. -/
theorem declaresAt_segments (isType : TypeWord type) (isVar : isName name = true) :
    DeclaresAt (Token.text (Token.declared type name rest)) type name
      ⟨⟨0, 0 + type.length⟩, .word⟩
      ⟨⟨0 + type.length + 1, 0 + type.length + 1 + name.length⟩, .word⟩ := by
  refine ⟨isType, isVar, rfl, rfl, ?_⟩
  have front : Token.text (Token.declared type name rest) =
      (type ++ ' ' :: name) ++ Token.text rest := by
    rw [Token.text_declared, List.append_assoc, List.cons_append]
  have length : 0 + type.length + 1 + name.length - 0 = (type ++ ' ' :: name).length := by
    rw [List.length_append, List.length_cons]
    omega
  rw [front]
  change (((type ++ ' ' :: name) ++ Token.text rest).drop 0).take
    (0 + type.length + 1 + name.length - 0) = _
  rw [length, List.drop_zero, List.take_left]

/-- The scanned text of a declaration shows its segments. -/
theorem depicts_declared (isType : TypeWord type) (apart : Token.AreApart (.word name :: rest)) :
    Depicts (Token.text (Token.declared type name rest))
      (body.startOf scope (Token.text (Token.declared type name rest))) 0
      (Token.text (Token.declared type name rest)).length
      (Token.segments 0 (Token.declared type name rest)) :=
  Token.depicts_of_tags (Token.tag?_scan_declared isType apart)
    (Token.filled_declared isType apart) rfl

/-- A type and a name are read as the declaration of a variable. -/
theorem readExpression_declaration (isType : TypeWord type) (isVar : isName name = true)
    (scope : ParagraphId) (body : Body) :
    ∃ expr nextNode effort, readExpression scope (type ++ ' ' :: name) body =
        .ok ⟨expr, ⟨scope, body.vars.size + 1⟩⟩
          { body.declare (body.written scope type name) with nextNode, effort } ∧
      Declaration body expr := by
  have apart : Token.AreApart [.word name] := ⟨isVar, rfl, trivial⟩
  have text : Token.text (Token.declared type name []) = type ++ ' ' :: name := by
    rw [Token.text_declared, Token.text_nil, List.append_nil]
  have depicts : Depicts _ (body.startOf scope _) 0 _ _ := depicts_declared isType apart
  rw [← text]
  refine readExpression_introduces depicts (statement_introduces fun state quiet => ?_)
  have chars : state.ledger.chars = Token.text (Token.declared type name []) := by
    rw [quiet.ledger, depicts.portrays.chars]
  have introduces := reduce_introduces (declaresAt_segments isType isVar) chars
    ((Token.text (Token.declared type name [])).length + 1) 1
  rwa [quiet.declaration] at introduces

/-- A type, a name, a colon and a chain are read as the header of a loop. -/
theorem readExpression_header (isType : TypeWord type) (isVar : isName name = true)
    (well : tree.isWellFormed = true) (rank : 22 ≤ tree.rank)
    (few : tree.operatorCount < Limits.reductionRounds) (scope : ParagraphId) (body : Body) :
    ∃ expr nextNode effort,
      readExpression scope (type ++ ' ' :: (name ++ ' ' :: ':' :: ' ' :: tree.print)) body =
        .ok ⟨expr, ⟨scope, body.vars.size + 1⟩⟩
          { body.declare (body.written scope type name) with nextNode, effort } ∧
      Header body tree expr := by
  let rest : List Token := spaced .colon ++ tree.tokens
  have alone : Token.AreApart tree.tokens := by
    simpa using apart_tokens well mayFollow_nil
  have follows : MayFollow rest := apart_spaced .colon Op.noConfusion Op.noConfusion alone
  have apart : Token.AreApart (.word name :: rest) := ⟨isVar, follows.2, follows.1⟩
  have text : Token.text (Token.declared type name rest) =
      type ++ ' ' :: (name ++ ' ' :: ':' :: ' ' :: tree.print) := rfl
  have depicts : Depicts _ (body.startOf scope _) 0 _ _ := depicts_declared isType apart
  have stands : Token.StandsAt (Token.text (Token.declared type name rest))
      (0 + type.length + 1 + name.length + 1 + 1 + 1) tree.tokens := by
    have front : Token.text (Token.declared type name rest) =
        (type ++ ' ' :: (name ++ [' ', ':', ' '])) ++ tree.print := by simp [text]
    have length : 0 + type.length + 1 + name.length + 1 + 1 + 1 =
        (type ++ ' ' :: (name ++ [' ', ':', ' '])).length := by
      simp only [List.length_append, List.length_cons, List.length_nil]
      omega
    rw [Token.StandsAt, front, length, List.drop_left]
    exact List.prefix_rfl
  have headed : Headed (Token.text (Token.declared type name rest)) type name tree
      ⟨⟨0, 0 + type.length⟩, .word⟩ ⟨⟨0 + type.length + 1, 0 + type.length + 1 + name.length⟩,
        .word⟩
      ⟨⟨0 + type.length + 1 + name.length + 1, 0 + type.length + 1 + name.length + 1 + 1⟩,
        .op .colon⟩
      (Token.segments (0 + type.length + 1 + name.length + 1 + 1 + 1) tree.tokens) := by
    refine ⟨declaresAt_segments isType isVar, rfl, rank, well, (spelled_parts stands).asForm,
      ⟨_, _, _, depicts⟩, ?_⟩
    rw [Token.length_headsOf_segments]
    exact few
  rw [← text]
  refine readExpression_introduces depicts (statement_introduces fun state quiet => ?_)
  have chars : state.ledger.chars = Token.text (Token.declared type name rest) := by
    rw [quiet.ledger, depicts.portrays.chars]
  have counted := depicts.shown.length_le
  have short : (Token.segments (0 + type.length + 1 + name.length + 1 + 1 + 1) tree.tokens).length <
      (Token.text (Token.declared type name rest)).length + 1 := by
    have parts : (Token.segments 0 (Token.declared type name rest)).length =
        (Token.segments (0 + type.length + 1 + name.length + 1 + 1 + 1) tree.tokens).length + 3 :=
          rfl
    omega
  have introduces := reduce_header headed chars short 1
  rwa [quiet.header] at introduces

end

end Body

end MethodLowering
