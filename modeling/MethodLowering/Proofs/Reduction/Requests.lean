import Mathlib.Logic.Relation
import MethodLowering.Proofs.Reduction.Advancing

/-!
# The calls of a reduction

The reduction of a statement calls itself for parts of the text.  Each of these calls advances: it
takes no more rounds than there are operators in its range, and one more, and calls only for shorter
ranges.  So the bounds on rounds and nesting, and the check of spans, are there for no text but one
with as many operators in a range as there may be rounds.
-/

namespace MethodLowering
namespace Reduction

/-! ## Calls -/

/-- A call for a range: how many further levels it may enter, at which depth it is made, where the
range starts and stops, and the state in which it is made. -/
structure Call where
  nesting : Nat
  depth : Nat
  start : Nat
  stop : Nat
  state : Reduction

/-- The state in which the rounds of a range begin. -/
def entered (depth : Nat) (state : Reduction) : Reduction :=
  { state with deepest := max state.deepest depth }

namespace Call

/-- The call for a whole statement. -/
def whole (first : Reduction) : Call :=
  { nesting := first.ledger.size + 2
    depth := 1
    start := 0
    stop := first.ledger.size
    state :=
      { first with
        body :=
          { first.body with
            effort :=
              { first.body.effort with statements := first.body.effort.statements + 1 } } } }

/-- The range without the blanks around it. -/
def range (call : Call) : Span := call.state.ledger.trim call.start call.stop

/-- How many operators the range holds. -/
def heads (call : Call) : Nat :=
  (call.state.ledger.heads call.range.start call.range.stop).length

/-- How the call has its operands reduced. -/
def operands (call : Call) : Operands := reduce (call.nesting - 1) (call.depth + 1)

/-- The rounds of the call, with the number of those that are begun. -/
def countedRounds (call : Call) : EStateM.Result Failure Reduction Expr × Nat :=
  Reduction.countedRounds call.operands call.range Limits.reductionRounds
    (entered call.depth call.state)

/-- The state before a round, by the number of rounds that went on. -/
def Reaches (call : Call) (count : Nat) (before : Reduction) : Prop :=
  call.range.isEmpty = false ∧
    Passes call.operands call.range (entered call.depth call.state) count before

/-- One call makes another one for an operand. -/
inductive Makes : Call → Call → Prop where
  | operand {nesting depth start stop first last : Nat} {state called : Reduction}
      (asks : Asks (fun operands => reduceBy operands depth start stop) (reduce nesting (depth + 1))
        state first last called) :
      Makes ⟨nesting + 1, depth, start, stop, state⟩ ⟨nesting, depth + 1, first, last, called⟩

end Call

/-- The reduction of a statement makes the call, for itself or on the way. -/
def Requested (first : Reduction) (call : Call) : Prop :=
  Relation.ReflTransGen Call.Makes (Call.whole first) call

section

variable {operands : Operands} {range : Span} {state first before called after : Reduction}
  {count number depth start stop low high : Nat} {failure : Failure}

theorem reduceBy_of_blank (blank : (state.ledger.trim start stop).isEmpty = true) :
    reduceBy operands depth start stop state = .ok none (entered depth state) := by
  change (if (state.ledger.trim start stop).isEmpty then _ else _ : ReduceM (Option Expr)) _ = _
  rw [if_pos blank]
  rfl

theorem reduceBy_of_present (present : (state.ledger.trim start stop).isEmpty = false) :
    reduceBy operands depth start stop state =
      (do return some (← rounds operands (state.ledger.trim start stop) Limits.reductionRounds))
        (entered depth state) := by
  change (if (state.ledger.trim start stop).isEmpty then _ else _ : ReduceM (Option Expr)) _ = _
  rw [present, if_neg Bool.false_ne_true]
  rfl

/-! ### Calls made in rounds -/

theorem anyRound_procedure (range : Span) :
    Procedure (fun _ _ => True) Fades (fun _ _ => True) fun operands => round operands range :=
  round_procedure (steady_fades.mono fun _ _ _ => trivial) (fun _ _ => trivial) range

theorem anyRounds_procedure (range : Span) (count : Nat) :
    Procedure (fun _ _ => True) Fades (fun _ _ => True) fun operands =>
      rounds operands range count :=
  rounds_procedure (steady_fades.mono fun _ _ _ => trivial) (fun _ _ => trivial) range count

/-- What the rounds call for, one of them does. -/
theorem asks_of_rounds
    (asks : Asks (fun operands => rounds operands range count) operands first low high called) :
    ∃ number before, Passes operands range first number before ∧
      Asks (fun operands => round operands range) operands before low high called := by
  have later (left number : Nat) (state : Reduction)
      (passes : Passes operands range first number state)
      (asks : Asks (fun operands => rounds operands range left) operands state low high called) :
      ∃ number before, Passes operands range first number before ∧
        Asks (fun operands => round operands range) operands before low high called := by
    induction left generalizing number state with
    | zero => exact absurd asks (not_asks_own _)
    | succ left induction =>
        simp only [rounds_succ] at asks
        rcases (anyRound_procedure range).asks_bind asks
          with here | ⟨result, between, goesOn, behind⟩
        · exact ⟨number, state, passes, here⟩
        · cases result with
          | some expr => exact absurd behind (not_asks_own _)
          | none => exact induction (number + 1) between (passes.next goesOn) behind
  exact later count 0 first .start asks

theorem rounds_asks_behind (passes : Passes operands range first number before) (left : Nat)
    (asks : Asks (fun operands => rounds operands range left) operands before low high called) :
    Asks (fun operands => rounds operands range (number + left)) operands first low
      high called := by
  induction passes generalizing left with
  | start => rwa [Nat.zero_add]
  | next passes goesOn induction =>
      rw [Nat.add_assoc, Nat.add_comm 1 left]
      refine induction (left + 1) ?_
      simp only [rounds_succ]
      exact (anyRound_procedure range).asks_behind goesOn asks

/-- What a round calls for that is reached, the rounds call for. -/
theorem rounds_asks (passes : Passes operands range first number before) (bound : number < count)
    (asks : Asks (fun operands => round operands range) operands before low high called) :
    Asks (fun operands => rounds operands range count) operands first low high called := by
  obtain ⟨left, rfl⟩ := Nat.exists_eq_add_of_lt bound
  rw [Nat.add_assoc]
  refine rounds_asks_behind passes (left + 1) ?_
  simp only [rounds_succ]
  exact asks.of_bind

/-- What a call for a range asks for, one of its rounds does. -/
theorem asks_of_reduceBy
    (asks : Asks (fun operands => reduceBy operands depth start stop) operands state low
      high called) :
    (state.ledger.trim start stop).isEmpty = false ∧ ∃ number before,
      Passes operands (state.ledger.trim start stop) (entered depth state) number before ∧
        Asks (fun operands => round operands (state.ledger.trim start stop)) operands
          before low high
          called := by
  cases blank : (state.ledger.trim start stop).isEmpty with
  | true =>
      refine absurd asks (not_asks_of_const (.ok none (entered depth state)) fun failure => ?_)
      obtain ⟨others, interrupts⟩ := exists_interrupts operands low high called failure
      exact ⟨others, interrupts, reduceBy_of_blank blank⟩
  | false =>
      refine ⟨rfl, ?_⟩
      have later : Asks (fun operands => do
          return some (← rounds operands (state.ledger.trim start stop) Limits.reductionRounds))
          operands (entered depth state) low high called :=
        fun failure others interrupts =>
          (reduceBy_of_present blank).symm.trans (asks failure others interrupts)
      rcases (anyRounds_procedure _ _).asks_bind later with inRounds | ⟨_, _, _, own⟩
      · exact asks_of_rounds inRounds
      · exact absurd own (not_asks_own _)

theorem reduceBy_asks (present : (state.ledger.trim start stop).isEmpty = false) (asks : Asks
      (fun operands => rounds operands (state.ledger.trim start stop) Limits.reductionRounds)
      operands (entered depth state) low high called) :
    Asks (fun operands => reduceBy operands depth start stop) operands state low high called := by
  intro failure others interrupts
  exact (reduceBy_of_present present).trans
    (bind_eq_error.2 (.inl (asks failure others interrupts)))

end

/-! ## Ranges that are well cut -/

section

variable {operands : Operands} {state called : Reduction} {segments : List Segment}
  {nesting depth start stop low high : Nat} {range : Span} {candidate : Candidate}

/-- A call for a range that shows segments calls only for ranges that do, fewer ones than it may
enter levels.  If it did not, this call could fail for any reason without being noticed on the
segments. -/
theorem Asks.shows (simulates : Simulates nesting operands (OnSegments.reduce nesting (depth + 1)))
    (shown : Shows state start stop segments) (short : segments.length < nesting + 1)
    (asks : Asks (fun operands => reduceBy operands depth start stop) operands state low high
      called) :
    ∃ inner, Shows called low high inner ∧ inner.length < nesting := by
  by_contra none
  have ends (failure : Failure) :
      ∃ other, OnSegments.reduce (nesting + 1) depth segments state = .error failure other := by
    obtain ⟨others, interrupts⟩ := exists_interrupts operands low high called failure
    have simulates' : Simulates nesting others (OnSegments.reduce nesting (depth + 1)) := by
      intro first other start stop inner short agrees shown
      rw [interrupts.elsewhere start stop first ?_]
      · exact simulates first other start stop inner short agrees shown
      · rintro ⟨rfl, rfl, rfl⟩
        exact none ⟨inner, shown, short⟩
    have tracks := reduceBy_simulates simulates' state state start stop segments short
      ⟨rfl, rfl, rfl, rfl, rfl⟩ shown
    rw [show reduceBy others depth start stop state = .error failure called from
      asks failure others interrupts] at tracks
    cases result : OnSegments.reduce (nesting + 1) depth segments state with
    | ok value other =>
        rw [result] at tracks
        exact tracks.elim
    | error reason other =>
        rw [result] at tracks
        exact ⟨other, by rw [tracks.1]⟩
  obtain ⟨_, first⟩ := ends (.undefined .badRange)
  obtain ⟨_, second⟩ := ends (.undefined .unwritable)
  rw [first] at second
  simp at second

/-- The chosen operator stands in the range as a whole. -/
theorem covers_of_chosen (shown : Shows state range.start range.stop segments)
    (chosen : bestCandidate? state.ledger range = some candidate) :
    range.covers (opSpan candidate.op candidate.position) = true := by
  rw [bestCandidate?_eq shown] at chosen
  obtain ⟨before, segment, after, rfl, isOp, position⟩ := exists_of_best? chosen
  obtain ⟨left, stands, right⟩ := shows_append_cons.1 shown
  rw [position, ← stands.span_eq isOp]
  exact (Span.covers_iff _ _).2 ⟨left.le, right.le⟩

/-- The range of a call is filled by the segments shown where it is made. -/
theorem Shows.entered (shown : Shows state start stop segments)
    (present : (state.ledger.trim start stop).isEmpty = false) :
    Fills (entered depth state) (state.ledger.trim start stop) segments := by
  rw [shown.trim_isEmpty, List.isEmpty_eq_false_iff] at present
  have same : (Reduction.entered depth state).ledger = state.ledger := rfl
  rw [shown.trim present]
  exact ⟨(shown.hull present).2.1.of_eq same rfl, rfl, present⟩

end

/-! ## Calls advance -/

/-- How a call advances. -/
structure Call.Progresses (call : Call) : Prop where
  /-- The bound on the nesting is not reached. -/
  nests : 0 < call.nesting
  /-- There is at most one round more than operators. -/
  rounds : call.range.isEmpty = false →
    call.countedRounds.1 = Reduction.rounds call.operands call.range Limits.reductionRounds
      (entered call.depth call.state) ∧ call.countedRounds.2 ≤ call.heads + 1
  /-- A round that goes on folds an operator into an expression around it, inside the range. -/
  folds : ∀ count before after, call.Reaches count before →
    round call.operands call.range before = .ok none after →
      ∃ candidate span, Folds call.operands call.range before after candidate span
  /-- No computation between calls brings an operator back. -/
  fades : Procedure (fun _ _ => True) Fades (fun _ _ => True)
    fun operands => reduceBy operands call.depth call.start call.stop
  /-- The calls that are made are all the result depends on. -/
  depends : ∀ others : Operands,
    (∀ inner, call.Makes inner → others inner.start inner.stop inner.state =
      call.operands inner.start inner.stop inner.state) →
    reduceBy others call.depth call.start call.stop call.state =
      reduceBy call.operands call.depth call.start call.stop call.state
  /-- A call is made for a shorter part of the range. -/
  narrows : ∀ inner, call.Makes inner →
    Narrows call.range inner.start inner.stop ∧ Fades call.state inner.state

section

variable {first before after : Reduction} {call inner : Call} {segments : List Segment}
  {count nesting depth start stop : Nat} {failure : Failure}

theorem reduce_fades (nesting depth start stop : Nat) :
    Preserves Fades (fun _ _ => True) (reduce nesting depth start stop) :=
  reduce_preserves (steady_fades.mono fun _ _ _ => trivial) (fun _ _ => trivial) _ _ _ _

theorem reduceBy_fades (depth start stop : Nat) :
    Procedure (fun _ _ => True) Fades (fun _ _ => True)
      fun operands => reduceBy operands depth start stop :=
  reduceBy_procedure (steady_fades.mono fun _ _ _ => trivial) (fun _ _ => trivial) _ _ _

theorem Call.Makes.shows (makes : call.Makes inner)
    (shown : Shows call.state call.start call.stop segments)
    (short : segments.length < call.nesting) :
    ∃ further, Shows inner.state inner.start inner.stop further ∧
      further.length < inner.nesting := by
  obtain ⟨asks⟩ := makes
  exact asks.shows (reduce_simulates _ _) shown short

/-- A call of a scanned statement is for a range that shows fewer segments than it may enter
levels. -/
theorem Requested.shows {text : List Char} (well : Ledger.WellTagged text first.ledger)
    (requested : Requested first call) :
    ∃ segments, Shows call.state call.start call.stop segments ∧
    segments.length < call.nesting := by
  induction requested with
  | refl =>
      obtain ⟨segments, depicts⟩ := exists_depicts well
      have shown := depicts.shown
      rw [← well.size] at shown
      have counted := shown.length_le
      have same : (Call.whole first).state.ledger = first.ledger := rfl
      exact ⟨segments, shown.of_eq same rfl, show _ < first.ledger.size + 2 by omega⟩
  | tail _ makes induction =>
      obtain ⟨segments, shown, short⟩ := induction
      exact makes.shows shown short

/-- Every round takes an operator away. -/
theorem Call.Reaches.fills (reaches : call.Reaches count before)
    (shown : Shows call.state call.start call.stop segments)
    (short : segments.length < call.nesting) :
    ∃ left, Fills before call.range left ∧ left.length ≤ call.nesting - 1 ∧
      (headsOf left).length + count ≤ call.heads := by
  obtain ⟨present, passes⟩ := reaches
  have fills : Fills (entered call.depth call.state) call.range segments := shown.entered present
  have heads : call.state.ledger.heads call.range.start call.range.stop = headsOf segments :=
    fills.shown.heads
  rw [Call.heads, heads]
  exact passes.fills (reduce_simulates _ _) fills (by omega)

theorem Call.progresses (shown : Shows call.state call.start call.stop segments)
    (short : segments.length < call.nesting) : call.Progresses where
  nests := by omega
  rounds present := by
    refine ⟨countedRounds_eq _ _ _ _, countedRounds_le (fun number before passes => ?_) _⟩
    have reaches : call.Reaches number before := ⟨present, passes⟩
    obtain ⟨left, -, -, fewer⟩ := reaches.fills shown short
    omega
  folds count before after reaches goesOn := by
    obtain ⟨left, fills, fewer, -⟩ := reaches.fills shown short
    exact (round_goesOn (reduce_simulates _ _) fills fewer goesOn).1
  fades := reduceBy_fades _ _ _
  depends others same := by
    obtain ⟨_ | nesting, depth, start, stop, state⟩ := call
    · exact absurd short (Nat.not_lt_zero _)
    · exact (reduceBy_fades _ _ _).congr_asks fun low high called asks =>
        same ⟨nesting, depth + 1, low, high, called⟩ ⟨asks⟩
  narrows inner makes := by
    obtain @⟨nesting, depth, start, stop, _, _, state, _, asks⟩ := makes
    refine ⟨?_, ((reduceBy_fades _ _ _).asks_inside (fun _ _ _ => reduce_fades _ _ _ _) asks).2⟩
    obtain ⟨present, number, before, passes, inRound⟩ := asks_of_reduceBy asks
    have reaches : Call.Reaches ⟨nesting + 1, depth, start, stop, state⟩ number before :=
      ⟨present, passes⟩
    obtain ⟨left, fills, -, -⟩ := reaches.fills shown short
    obtain ⟨candidate, chosen, inFold⟩ := asks_of_round inRound
    exact ((fold_procedure steady_fades candidate _).asks_inside (fun _ _ _ => reduce_fades _ _ _ _)
      inFold).1 (covers_of_chosen fills.shown chosen)

/-! ## Failures -/

/-- A failure has its reason in the text: the text is malformed, a span strays from it, or one of
the ranges has as many operators as there may be rounds. -/
def IsExplained (first : Reduction) (failure : Failure) : Prop :=
  IsTextual failure first ∨ (∃ stalled, failure = .malformed (.resolveStalled stalled)) ∧
      ∃ call, Requested first call ∧ Limits.reductionRounds ≤ call.heads

theorem reduce_explained {text : List Char} (well : Ledger.WellTagged text first.ledger)
    (requested : Requested first ⟨nesting, depth, start, stop, before⟩)
    (failed : reduce nesting depth start stop before = .error failure after) :
    IsExplained first failure := by
  induction nesting generalizing depth start stop before with
  | zero =>
      obtain ⟨segments, -, short⟩ := requested.shows well
      exact absurd short (Nat.not_lt_zero _)
  | succ nesting induction =>
      obtain ⟨segments, shown, short⟩ := requested.shows well
      rw [reduce_succ] at failed
      cases blank : (before.ledger.trim start stop).isEmpty with
      | true =>
          rw [reduceBy_of_blank blank] at failed
          contradiction
      | false =>
          rw [reduceBy_of_present blank] at failed
          have reaches {number : Nat} {last : Reduction}
              (passes : Passes (reduce nesting (depth + 1)) (before.ledger.trim start stop)
                (entered depth before) number last) :
              Call.Reaches ⟨nesting + 1, depth, start, stop, before⟩ number last := ⟨blank, passes⟩
          obtain inRounds | ⟨_, _, _, ends⟩ := bind_eq_error.1 failed
          · rcases rounds_error inRounds with ⟨last, passes, stalled | strays⟩ | ⟨number, last,
              bound, passes, fails⟩
            · obtain ⟨left, -, -, fewer⟩ := (reaches passes).fills shown short
              exact .inr ⟨stalled, _, requested, by omega⟩
            · exact .inl (.inr strays)
            · obtain ⟨left, fills, fewer, -⟩ := (reaches passes).fills shown short
              rcases round_fails (reduce_simulates _ _) fills fewer fails with
                textual | ⟨low, high, called, asks, fails⟩
              · exact .inl textual
              · refine induction (requested.tail ⟨?_⟩) fails
                exact reduceBy_asks blank (rounds_asks passes bound asks)
          · contradiction

theorem statement_explained {text : List Char} (well : Ledger.WellTagged text first.ledger)
    (failed : statement first = .error failure after) : IsExplained first failure := by
  rcases bind_eq_error.1 failed with impossible | ⟨_, counted, begun, failed⟩
  · contradiction
  obtain rfl : counted = (Call.whole first).state := (EStateM.Result.ok.inj begun).2.symm
  rcases bind_eq_error.1 failed with impossible | ⟨_, _, got, failed⟩
  · contradiction
  obtain ⟨rfl, rfl⟩ := EStateM.Result.ok.inj got
  rcases bind_eq_error.1 failed with inside | ⟨_, _, _, ends⟩
  · exact reduce_explained well .refl inside
  · contradiction

end

/-- The reduction of a statement makes progress.  Each of its calls takes at most one round more
than there are operators in its range, folds one of them in every round that goes on, and calls only
for shorter parts of the range; no operator comes back.  It never fails because a span escapes its
range, and it stalls only when one of the ranges has as many operators as there may be rounds. -/
theorem statement_progresses (text : List Char) (scope : ParagraphId) (body : Body) :
    let first : Reduction := { ledger := Ledger.scan text, scope, body }
    (∀ call, Requested first call → call.Progresses) ∧
      ∀ failure last, statement first = .error failure last →
        (∀ op range span, failure ≠ .malformed (.spanEscape op range span)) ∧
        ∀ stalled, failure = .malformed (.resolveStalled stalled) →
          ∃ call, Requested first call ∧ Limits.reductionRounds ≤ call.heads := by
  intro first
  have well : Ledger.WellTagged text first.ledger := (Ledger.scan_sound text).1
  refine ⟨fun call requested => ?_, fun failure last failed => ?_⟩
  · obtain ⟨segments, shown, short⟩ := requested.shows well
    exact Call.progresses shown short
  · rcases statement_explained well failed with
      (⟨error, rfl, textual⟩ | rfl) | ⟨⟨stalled, rfl⟩, crowded⟩
    · refine ⟨?_, ?_⟩
      · rintro op range span ⟨rfl⟩
        exact textual trivial
      · rintro stalled ⟨rfl⟩
        exact absurd trivial textual
    · exact ⟨fun _ _ _ => nofun, fun _ => nofun⟩
    · exact ⟨fun _ _ _ => nofun, fun _ _ => crowded⟩

end Reduction
end MethodLowering
