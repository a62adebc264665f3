import MethodLowering.Proofs.Reduction.Calls

/-!
# Relations that every reduction keeps

A reduction changes its state in few ways: it marks characters as resolved or pending, numbers
nodes, declares variables and counts.  A relation between states that allows these changes holds
between the states before and behind everything a reduction does.  On the way, a fold calls only for
parts of its range that are shorter than the whole.
-/

namespace MethodLowering

/-- The error says that the reduction itself went astray, not what is wrong with the text. -/
def SourceError.IsInternal : SourceError → Prop
  | .spanEscape .. | .resolveStalled .. => True
  | _ => False

namespace Reduction

/-- The relation allows each change that a reduction makes, and failures about the text, and about
spans that are not in it, are of the kind. -/
structure Steady (kept : Reduction → Reduction → Prop) (fails : Failure → Reduction → Prop) : Prop
    where
  quiet : ∀ before after : Reduction, after.ledger = before.ledger → after.body = before.body →
    kept before after
  mark : ∀ (state : Reduction) (span : Span) (tag : Tag), tag.isOperator = false →
    kept state { state with ledger := state.ledger.mark span tag }
  count : ∀ (state : Reduction) (change : Effort → Effort),
    kept state { state with body := { state.body with effort := change state.body.effort } }
  number : ∀ state : Reduction,
    kept state { state with body := { state.body with nextNode := state.body.nextNode + 1 } }
  declare : ∀ (state : Reduction) (entry : Variable),
    kept state { state with body := state.body.declare entry }
  retype : ∀ (state : Reduction) (id : VariableId) (typeName : String),
    kept state { state with body := state.body.retype id typeName }
  reject : ∀ (error : SourceError) (state : Reduction), ¬ error.IsInternal →
    fails (.malformed error) state
  stray : ∀ state : Reduction, fails (.undefined .badRange) state

theorem Steady.mono {kept : Reduction → Reduction → Prop}
    {fails others : Failure → Reduction → Prop} (steady : Steady kept fails)
    (weaker : ∀ failure state, fails failure state → others failure state) :
    Steady kept others :=
  { steady with
    reject := fun error state textual => weaker _ _ (steady.reject error state textual)
    stray := fun state => weaker _ _ (steady.stray state) }

/-- A part of a range that is shorter than the whole. -/
structure Narrows (range : Span) (start stop : Nat) : Prop where
  starts : range.start ≤ start
  ordered : start ≤ stop
  stops : stop ≤ range.stop
  shorter : stop - start < range.length

/-- What a fold may call for: narrower ranges, when its operator stands in the range. -/
def NarrowsAround (range : Span) (op : Op) (position start stop : Nat) : Prop :=
  range.covers (opSpan op position) = true → Narrows range start stop

variable {α : Type} {kept : Reduction → Reduction → Prop} {fails : Failure → Reduction → Prop}
  {range : Span} {position close : Nat} {op : Op}

/-! ## Single steps -/

section

variable (steady : Steady kept fails)
include steady

theorem markSpan_preserves (span : Span) {tag : Tag} (plain : tag.isOperator = false) :
    Preserves kept fails (markSpan span tag) :=
  fun state => steady.mark state span tag plain

theorem recordPair_preserves (opening closing : Nat) :
    Preserves kept fails (recordPair opening closing) :=
  fun _ => steady.quiet _ _ rfl rfl

theorem deepen_preserves (depth : Nat) :
    Preserves kept fails (modify fun state => { state with deepest := max state.deepest depth }) :=
  fun _ => steady.quiet _ _ rfl rfl

theorem effort_preserves (change : Effort → Effort) :
    Preserves kept fails (modifyBody fun body => { body with effort := change body.effort }) :=
  fun state => steady.count state change

theorem textAt_preserves (span : Span) : Preserves kept fails (textAt span) := by
  intro state
  rcases textAt_cases span state with ⟨-, read⟩ | ⟨-, strays⟩
  · rw [read]
    exact steady.quiet _ _ rfl rfl
  · rw [strays]
    exact ⟨steady.quiet _ _ rfl rfl, steady.stray _⟩

theorem newNode_preserves (span : Span) : Preserves kept fails (newNode span) := by
  intro state
  rcases newNode_cases span state with ⟨-, made⟩ | ⟨-, strays⟩
  · rw [made]
    exact steady.number state
  · rw [strays]
    exact ⟨steady.quiet _ _ rfl rfl, steady.stray _⟩

theorem newNodeAround_preserves (anchor : Span) (operands : List Expr) :
    Preserves kept fails (newNodeAround anchor operands) :=
  newNode_preserves steady _

end

variable [IsPreorder Reduction kept]

theorem getLedger_preserves : Preserves kept fails getLedger := fun _ => refl_of kept _

section

variable (steady : Steady kept fails)
include steady

theorem qualifyConstruction?_preserves (subject member : Expr) :
    Preserves kept fails (qualifyConstruction? subject member) := by
  unfold qualifyConstruction?
  split
  · exact (textAt_preserves steady _).bind fun _ => (textAt_preserves steady _).bind fun _ => .pure
  · exact .pure

theorem keepPending_preserves (span : Span) (expr : Expr) :
    Preserves kept fails (keepPending span expr) := by
  intro state
  change kept state { state with
    pending := state.pending.push (some ⟨span, expr⟩)
    ledger := state.ledger.mark span (.pending state.pending.size) }
  refine trans_of kept (steady.mark state span (.pending state.pending.size) rfl) ?_
  exact steady.quiet _ _ rfl rfl

theorem reject_preserves {error : SourceError} (textual : ¬ error.IsInternal) :
    Preserves kept fails (reject error : ReduceM α) :=
  .throw fun state => steady.reject error state textual

theorem rejectBracket_preserves {op : Op} {position : Nat} :
    Preserves kept fails (rejectBracket op position : ReduceM α) :=
  getLedger_preserves.bind fun _ => reject_preserves steady id

theorem required_preserves (operand : Option Expr) (op : Op) (context : String) :
    Preserves kept fails (required operand op context) := by
  cases operand with
  | some expr => exact .pure
  | none => exact reject_preserves steady id

theorem classify_preserves (span : Span) (text : List Char) :
    Preserves kept fails (classify span text) := by
  rw [classify]
  cases leafForm? text with
  | some form => exact (newNode_preserves steady span).bind fun _ => .pure
  | none =>
      cases declared? (Text.words text) with
      | none => exact reject_preserves steady id
      | some declared =>
          cases declared with
          | nothing => exact (newNode_preserves steady span).bind fun _ => .pure
          | «variable» name typeName isFinal isStatic =>
              refine Preserves.get.bind fun state => ?_
              refine Preserves.bind (fun before => steady.declare before _) fun _ => ?_
              exact (newNode_preserves steady span).bind fun _ => .pure

theorem leaf_preserves (range : Span) : Preserves kept fails (leaf range) := by
  refine getLedger_preserves.bind fun ledger => ?_
  dsimp only
  split
  · exact (newNode_preserves steady range).bind fun _ => .pure
  · exact classify_preserves steady range _

theorem qualifyDeclaration?_preserves (subject member : Expr) :
    Preserves kept fails (qualifyDeclaration? subject member) := by
  unfold qualifyDeclaration?
  split
  · split
    · refine Preserves.get.bind fun state => ?_
      split
      · refine Preserves.bind (fun before => steady.retype before _ _) fun _ => ?_
        exact (textAt_preserves steady _).bind fun _ => .pure
      · exact .pure
    · exact .pure
  · exact .pure

theorem absorb_preserves (range : Span) (count : Nat) (indices : List Expr) (stop : Nat) :
    Preserves kept fails (absorb range count indices stop) := by
  induction count generalizing indices stop with
  | zero => exact .pure
  | succ count induction =>
      refine Preserves.get.bind fun state => ?_
      split
      · exact .pure
      · split
        · exact .pure
        · refine Preserves.bind (fun before => steady.quiet _ _ rfl rfl) fun _ => ?_
          split
          · exact .pure
          · exact induction _ _

theorem nextCandidate_preserves (range : Span) : Preserves kept fails (nextCandidate range) := by
  refine getLedger_preserves.bind fun ledger => ?_
  split
  · exact .pure
  · split
    · exact rejectBracket_preserves steady
    · exact .pure

end

/-! ## Bounds of ranges -/

/-- The operator stands in the range. -/
theorem bounds_of_covers (inside : range.covers (opSpan op position) = true) :
    range.start ≤ position ∧ position < position + op.width ∧ position + op.width ≤ range.stop := by
  have width := Ledger.width_pos op
  obtain ⟨starts, stops⟩ := (Span.covers_iff _ _).1 inside
  exact ⟨starts, by omega, stops⟩

theorem greedyStart_bounds (ledger : Ledger) (starts : range.start ≤ position) :
    range.start ≤ greedyStart ledger position range ∧
      greedyStart ledger position range ≤ position := by
  have low := Text.le_seekDown ledger.isOperatorAt position (position - range.start)
  exact ⟨by rw [greedyStart]; omega, Text.seekDown_le _ _ _⟩

theorem greedyStop_bounds (ledger : Ledger) (stops : position ≤ range.stop) :
    position ≤ greedyStop ledger position range ∧
      greedyStop ledger position range ≤ range.stop := by
  have high := Text.seek_le ledger.isOperatorAt position (range.stop - position)
  exact ⟨Text.le_seek _ _ _, by rw [greedyStop]; omega⟩

theorem mem_heads_bounds {ledger : Ledger} {start stop : Nat} {head : Nat × Op}
    (member : head ∈ ledger.heads start stop) : start ≤ head.1 ∧ head.1 < stop := by
  have counted (count first : Nat) (inside : head ∈ ledger.headsFrom first count) :
      first ≤ head.1 ∧ head.1 < first + count := by
    induction count generalizing first with
    | zero => contradiction
    | succ count induction =>
        rw [Ledger.headsFrom] at inside
        have later (rest : head ∈ ledger.headsFrom (first + 1) count) :
            first ≤ head.1 ∧ head.1 < first + (count + 1) := by
          have bounds := induction (first + 1) rest
          omega
        split at inside
        · rcases List.mem_cons.1 inside with rfl | rest
          · exact ⟨Nat.le_refl _, by dsimp only; omega⟩
          · exact later rest
        · exact later inside
  have bounds := counted _ _ member
  omega

theorem behindBracket?_bounds {ledger : Ledger} {behind : Nat}
    (found : behindBracket? ledger position range = some behind) :
    position < behind ∧ behind ≤ range.stop := by
  unfold behindBracket? at found
  split at found
  · split at found
    · obtain ⟨closing, -, closes⟩ := Option.bind_eq_some_iff.1 found
      obtain ⟨last, closed, rfl⟩ := Option.map_eq_some_iff.1 closes
      have bounds := mem_heads_bounds (mem_of_closingHead? closed)
      exact ⟨Nat.lt_succ_of_le bounds.1, bounds.2⟩
    · contradiction
  · contradiction

theorem castStop_bounds (ledger : Ledger) {start : Nat} (stops : start ≤ range.stop) :
    start ≤ castStop ledger start range ∧ castStop ledger start range ≤ range.stop := by
  have reaches (count position : Nat) (starts : start ≤ position) (stops : position ≤ range.stop) :
      start ≤ castStopFrom ledger start range count position ∧
        castStopFrom ledger start range count position ≤ range.stop := by
    induction count generalizing position with
    | zero =>
        have greedy := greedyStop_bounds ledger stops
        exact ⟨Nat.le_trans starts greedy.1, greedy.2⟩
    | succ count induction =>
        have greedy := greedyStop_bounds ledger stops
        have ends : start ≤ greedyStop ledger position range ∧
            greedyStop ledger position range ≤ range.stop :=
          ⟨Nat.le_trans starts greedy.1, greedy.2⟩
        rw [castStopFrom]
        split
        · exact ends
        · rename_i further
          split
          · simp only [Bool.or_eq_true, decide_eq_true_eq, not_or, Nat.not_le] at further
            exact induction _ (Nat.le_succ_of_le ends.1) further.1
          · split
            · rename_i behind found
              have bounds := behindBracket?_bounds found
              exact induction behind (by omega) bounds.2
            · exact ends
  exact reaches _ _ (Nat.le_refl _) stops

/-! ## Narrower ranges -/

theorem narrowsAround_front {start : Nat}
    (bounds : range.start ≤ position → range.start ≤ start ∧ start ≤ position) :
    NarrowsAround range op position start position := by
  intro inside
  obtain ⟨starts, width, stops⟩ := bounds_of_covers inside
  obtain ⟨low, high⟩ := bounds starts
  exact ⟨low, high, by omega, by rw [Span.length]; omega⟩

theorem narrowsAround_before : NarrowsAround range op position range.start position :=
  narrowsAround_front fun starts => ⟨Nat.le_refl _, starts⟩

theorem narrowsAround_greedyStart (ledger : Ledger) :
    NarrowsAround range op position (greedyStart ledger position range) position :=
  narrowsAround_front fun starts => greedyStart_bounds ledger starts

theorem narrowsAround_back {start stop : Nat} (low : position < start) (ordered : start ≤ stop)
    (high : stop ≤ range.stop) : NarrowsAround range op position start stop := by
  intro inside
  have starts := (bounds_of_covers inside).1
  exact ⟨by omega, ordered, high, by rw [Span.length]; omega⟩

theorem narrowsAround_behind :
    NarrowsAround range op position (position + op.width) range.stop := by
  intro inside
  obtain ⟨-, width, stops⟩ := bounds_of_covers inside
  exact narrowsAround_back width stops (Nat.le_refl _) inside

theorem narrowsAround_greedyStop (ledger : Ledger) :
    NarrowsAround range op position (position + op.width)
      (greedyStop ledger (position + op.width) range) := by
  intro inside
  obtain ⟨-, width, stops⟩ := bounds_of_covers inside
  have greedy := greedyStop_bounds ledger stops
  exact narrowsAround_back width greedy.1 greedy.2 inside

/-! ## Folding operators -/

section

variable (steady : Steady kept fails)
include steady

theorem binary_procedure (op : Op) (position : Nat) (range : Span) :
    Procedure (NarrowsAround range op position) kept fails
      fun operands => binary operands op position range :=
  .calling narrowsAround_before fun _ => .calling narrowsAround_behind fun _ =>
    .own ((newNodeAround_preserves steady _ _).bind fun _ => .pure)

theorem assignment_procedure (op : Op) (position : Nat) (range : Span) :
    Procedure (NarrowsAround range op position) kept fails
      fun operands => assignment operands op position range :=
  .calling narrowsAround_before fun _ => .behind (required_preserves steady _ _ _) fun _ =>
    .calling narrowsAround_behind fun _ =>
      .own ((newNodeAround_preserves steady _ _).bind fun _ => .pure)

theorem conditional_procedure (position : Nat) (range : Span) :
    Procedure (NarrowsAround range .question position) kept fails
      fun operands => conditional operands position range := by
  refine .behind getLedger_preserves fun ledger => ?_
  cases found : pairedColon? 0 (ledger.heads (position + 1) range.stop) with
  | none => exact .own (reject_preserves steady id)
  | some colon =>
      have behind := mem_heads_bounds (mem_of_pairedColon? found)
      dsimp only at behind ⊢
      refine .calling narrowsAround_before fun condition =>
        .calling (narrowsAround_back (Nat.lt_succ_self _) behind.1 (Nat.le_of_lt behind.2))
          fun first =>
        .calling (narrowsAround_back (Nat.lt_succ_of_lt behind.1) behind.2 (Nat.le_refl _))
          fun second => .own ?_
      exact (newNodeAround_preserves steady _ _).bind fun _ =>
        (newNodeAround_preserves steady _ _).bind fun _ => .pure

theorem access_procedure (position : Nat) (range : Span) :
    Procedure (NarrowsAround range .dot position) kept fails
      fun operands => access operands position range := by
  refine .behind getLedger_preserves fun ledger =>
    .calling (narrowsAround_greedyStart ledger) fun first =>
    .behind (required_preserves steady _ _ _) fun subject =>
    .calling (narrowsAround_greedyStop ledger) fun second =>
    .behind (required_preserves steady _ _ _) fun member => .own ?_
  refine (qualifyConstruction?_preserves steady subject member).bind fun construction => ?_
  cases construction with
  | some construction => exact .pure
  | none =>
      refine (qualifyDeclaration?_preserves steady subject member).bind fun declaration => ?_
      cases declaration with
      | some declaration => exact .pure
      | none => exact (newNodeAround_preserves steady _ _).bind fun _ => .pure

theorem typeTest_procedure (position : Nat) (range : Span) :
    Procedure (NarrowsAround range .instanceOf position) kept fails
      fun operands => typeTest operands position range := by
  refine .behind getLedger_preserves fun ledger =>
    .calling (narrowsAround_greedyStart ledger) fun first =>
    .behind (required_preserves steady _ _ _) fun operand => .own ?_
  refine getLedger_preserves.bind fun ledger => ?_
  dsimp only
  split
  · exact reject_preserves steady id
  · refine (textAt_preserves steady _).bind fun _ => ?_
    refine (markSpan_preserves steady _ rfl).bind fun _ => ?_
    exact (newNodeAround_preserves steady _ _).bind fun _ => .pure

theorem unary_procedure (op : Op) (position : Nat) (range : Span) :
    Procedure (NarrowsAround range op position) kept fails
      fun operands => unary operands op position range := by
  refine .behind getLedger_preserves fun ledger => ?_
  have operand {start stop : Nat} (inside : NarrowsAround range op position start stop)
      {finish : Expr → ReduceM Expr} (ends : ∀ expr, Preserves kept fails (finish expr)) :
      Procedure (NarrowsAround range op position) kept fails
        fun operands => (do finish (← required (← operands start stop) op "without an operand")) :=
    .calling inside fun operand =>
      .behind (required_preserves steady operand op _) fun expr => .own (ends expr)
  dsimp only
  generalize ((op == .increment || op == .decrement) &&
    !ledger.isBlank (greedyStart ledger position range) position) = isBehind
  cases isBehind with
  | true =>
      exact operand (narrowsAround_greedyStart ledger)
        fun _ => (newNodeAround_preserves steady _ _).bind fun _ => .pure
  | false =>
      exact operand (narrowsAround_greedyStop ledger)
        fun _ => (newNodeAround_preserves steady _ _).bind fun _ => .pure

/-! ## Folding brackets -/

theorem group_procedure {inside : Nat → Nat → Prop} (span : Span) (isBrace : Bool)
    (content : List Expr) :
    Procedure inside kept fails
      fun _ => (do return .group (← newNode span) isBrace content : ReduceM Expr) :=
  .own ((newNode_preserves steady span).bind fun _ => .pure)

theorem paren_procedure (inner : Option Expr) (range : Span) (order : position < close)
    (stops : close < range.stop) :
    Procedure (NarrowsAround range .openParen position) kept fails
      fun operands => paren operands position close inner range := by
  refine .behind getLedger_preserves fun ledger => ?_
  dsimp only
  generalize (!ledger.isBlank (greedyStart ledger position range) position) = isCall
  cases isCall with
  | true =>
      refine .calling (narrowsAround_greedyStart ledger) fun callee => .own ?_
      cases callee with
      | none => exact rejectBracket_preserves steady
      | some callee => exact (newNodeAround_preserves steady _ _).bind fun _ => .pure
  | false =>
      generalize (if ledger.isBlank (close + 1) (castStop ledger (close + 1) range) = true then none
        else inner.bind castType?) = typed
      cases typed with
      | none => exact group_procedure steady _ false _
      | some typeName =>
          have bounds := castStop_bounds ledger (Nat.succ_le_of_lt stops)
          refine .calling (narrowsAround_back (Nat.lt_succ_of_lt order) bounds.1 bounds.2)
            fun operand => .own ?_
          cases operand with
          | none => exact rejectBracket_preserves steady
          | some operand => exact (newNodeAround_preserves steady _ _).bind fun _ => .pure

theorem index_procedure (close : Nat) (inner : Option Expr) (range : Span) :
    Procedure (NarrowsAround range .openBracket position) kept fails
      fun operands => index operands position close inner range :=
  .behind getLedger_preserves fun ledger =>
    .calling (narrowsAround_greedyStart ledger) fun _ => .own
      ((absorb_preserves steady _ _ _ _).bind fun _ => (newNode_preserves steady _).bind fun _ =>
        .pure)

theorem bracket_procedure (op : Op) (position : Nat) (range : Span) :
    Procedure (NarrowsAround range op position) kept fails
      fun operands => bracket operands op position range := by
  refine .behind getLedger_preserves fun ledger => ?_
  cases op.closing? with
  | none => exact .own (rejectBracket_preserves steady)
  | some closing =>
      dsimp only
      cases found : Text.seek? (fun behind => ledger.headAt? behind == some closing) (position + 1)
          (range.stop - (position + 1)) with
      | none => exact .own (rejectBracket_preserves steady)
      | some close =>
          have low := (Text.seek?_spec found).1
          have high := Text.seek?_lt found
          refine .behind (recordPair_preserves steady _ _) fun _ =>
            .calling (narrowsAround_back (Nat.lt_succ_self _) low (by omega)) fun inner => ?_
          cases op with
          | openParen => exact paren_procedure steady inner range low (by omega)
          | openBracket => exact index_procedure steady close inner range
          | _ => exact group_procedure steady _ true _

/-- A fold calls only for ranges that are narrower than its own one. -/
theorem fold_procedure (candidate : Candidate) (range : Span) :
    Procedure (NarrowsAround range candidate.op candidate.position) kept fails
      fun operands => fold operands candidate range := by
  obtain ⟨position, op, isSign⟩ := candidate
  have full : Procedure (NarrowsAround range op position) kept fails fun operands =>
      if isSign then unary operands op position range
      else if op.isAssignment then assignment operands op position range
      else if op.isClosing then rejectBracket op position
      else binary operands op position range := by
    cases isSign with
    | true => exact unary_procedure steady op position range
    | false =>
        cases op.isAssignment with
        | true => exact assignment_procedure steady op position range
        | false =>
            cases op.isClosing with
            | true => exact .own (rejectBracket_preserves steady)
            | false => exact binary_procedure steady op position range
  cases op with
  | openParen => exact bracket_procedure steady _ position range
  | openBracket => exact bracket_procedure steady _ position range
  | openBrace => exact bracket_procedure steady _ position range
  | question => exact conditional_procedure steady position range
  | dot => exact access_procedure steady position range
  | instanceOf => exact typeTest_procedure steady position range
  | increment => exact unary_procedure steady _ position range
  | decrement => exact unary_procedure steady _ position range
  | not => exact unary_procedure steady _ position range
  | _ => exact full

end

end Reduction
end MethodLowering
