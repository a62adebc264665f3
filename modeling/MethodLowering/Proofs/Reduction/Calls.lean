import Mathlib.Order.Defs.Unbundled
import MethodLowering.Proofs.Reduction.Declaring

/-!
# Calls for operands

A fold has its operands reduced by a function that it is given.  What it does apart from that, and
for which ranges it calls this function, follows from the way it is put together: from computations
of its own, calls, and one behind the other.
-/

namespace MethodLowering

/-! ## Computations that keep a relation -/

/-- Whether the computation succeeds or fails, the states before and behind it are related; where it
fails, the failure and the state it leaves are of this kind. -/
def Preserves {σ α : Type} (kept : σ → σ → Prop) (fails : Failure → σ → Prop)
    (computation : EStateM Failure σ α) : Prop :=
  ∀ before, match computation before with
    | .ok _ after => kept before after
    | .error failure after => kept before after ∧ fails failure after

section

variable {σ α β : Type} {kept : σ → σ → Prop} {fails : Failure → σ → Prop}
  {computation : EStateM Failure σ α} {next : α → EStateM Failure σ β} {before after : σ}

theorem Preserves.of_ok {value : α} (preserves : Preserves kept fails computation)
    (result : computation before = .ok value after) : kept before after := by
  have known := preserves before
  rwa [result] at known

theorem Preserves.of_error {failure : Failure} (preserves : Preserves kept fails computation)
    (result : computation before = .error failure after) :
    kept before after ∧ fails failure after := by
  have known := preserves before
  rwa [result] at known

theorem Preserves.mono {others : Failure → σ → Prop} (preserves : Preserves kept fails computation)
    (weaker : ∀ failure state, fails failure state → others failure state) :
    Preserves kept others computation := by
  intro before
  have known := preserves before
  cases result : computation before with
  | ok value after => rwa [result] at known
  | error failure after =>
      rw [result] at known
      exact ⟨known.1, weaker failure after known.2⟩

/-- What follows may use what is known of the value of the first computation. -/
theorem Preserves.bind_of [IsTrans σ kept] {property : α → Prop}
    (first : Preserves kept fails computation)
    (gives : ∀ state, Gives computation state fun value _ => property value)
    (later : ∀ value, property value → Preserves kept fails (next value)) :
    Preserves kept fails (computation >>= next) := by
  intro before
  have begun := first before
  simp only [Bind.bind, EStateM.bind]
  cases result : computation before with
  | error failure between => rwa [result] at begun
  | ok value between =>
      rw [result] at begun
      have ended := later value (gives before value between result) between
      dsimp only
      cases last : next value between with
      | ok result after =>
          rw [last] at ended
          exact trans_of kept begun ended
      | error failure after =>
          rw [last] at ended
          exact ⟨trans_of kept begun ended.1, ended.2⟩

theorem Preserves.bind [IsTrans σ kept] (first : Preserves kept fails computation)
    (later : ∀ value, Preserves kept fails (next value)) :
    Preserves kept fails (computation >>= next) :=
  first.bind_of (fun _ _ _ _ => trivial) fun value (_ : True) => later value

theorem Preserves.pure [Std.Refl kept] {value : α} :
    Preserves kept fails (Pure.pure value : EStateM Failure σ α) :=
  fun before => refl_of kept before

theorem Preserves.get [Std.Refl kept] :
    Preserves kept fails (MonadState.get : EStateM Failure σ σ) :=
  fun before => refl_of kept before

theorem Preserves.throw [Std.Refl kept] {failure : Failure} (known : ∀ state, fails failure state) :
    Preserves kept fails (MonadExcept.throw failure : EStateM Failure σ α) :=
  fun before => ⟨refl_of kept before, known before⟩

end

namespace Reduction

/-! ## Calls -/

/-- The call for one range in one state fails, and all other calls are as before. -/
structure Interrupts (operands others : Operands) (start stop : Nat) (called : Reduction)
    (failure : Failure) : Prop where
  here : others start stop called = .error failure called
  elsewhere : ∀ first last state, ¬ (first = start ∧ last = stop ∧ state = called) →
    others first last state = operands first last state

/-- The program calls for a range in a state on its way: whatever failure this call is made to end
with, the program ends with it in this state. -/
def Asks {α : Type} (program : Operands → ReduceM α) (operands : Operands) (state : Reduction)
    (start stop : Nat) (called : Reduction) : Prop :=
  ∀ failure others, Interrupts operands others start stop called failure →
    program others state = .error failure called

/-- A program is put together from computations of its own and from calls for ranges of some
kind. -/
inductive Procedure (inside : Nat → Nat → Prop) (kept : Reduction → Reduction → Prop)
    (fails : Failure → Reduction → Prop) : {α : Type} → (Operands → ReduceM α) → Prop where
  /-- A computation without calls. -/
  | own {α : Type} {computation : ReduceM α} (preserves : Preserves kept fails computation) :
      Procedure inside kept fails fun _ => computation
  /-- A call. -/
  | call {start stop : Nat} (within : inside start stop) :
      Procedure inside kept fails fun operands => operands start stop
  /-- One program behind another. -/
  | bind {α β : Type} {first : Operands → ReduceM α} {next : α → Operands → ReduceM β}
      (head : Procedure inside kept fails first)
      (tail : ∀ value, Procedure inside kept fails (next value)) :
      Procedure inside kept fails fun operands => first operands >>= fun value =>
        next value operands

section

variable {α β : Type} {inside : Nat → Nat → Prop} {kept : Reduction → Reduction → Prop}
  {fails : Failure → Reduction → Prop} {program : Operands → ReduceM α}
  {operands others : Operands} {state between called after : Reduction} {start stop : Nat}
  {failure : Failure}

theorem exists_interrupts (operands : Operands) (start stop : Nat) (called : Reduction)
    (failure : Failure) : ∃ others, Interrupts operands others start stop called failure := by
  classical
  refine ⟨fun first last state => if first = start ∧ last = stop ∧ state = called then
    .error failure called else operands first last state, ?_, fun first last state other => ?_⟩
  · exact if_pos ⟨rfl, rfl, rfl⟩
  · exact if_neg other

/-- A result that does not depend on the failure is not the one of an interrupted call. -/
theorem not_asks_of_const (result : EStateM.Result Failure Reduction α)
    (const : ∀ failure, ∃ others, Interrupts operands others start stop called failure ∧
      program others state = result) :
    ¬ Asks program operands state start stop called := by
  intro asks
  obtain ⟨first, interrupts, same⟩ := const (.undefined .badRange)
  obtain ⟨second, interrupts', same'⟩ := const (.undefined .unwritable)
  rw [asks _ _ interrupts] at same
  rw [asks _ _ interrupts', ← same] at same'
  simp at same'

/-- A computation of its own makes no call. -/
theorem not_asks_own (computation : ReduceM α) :
    ¬ Asks (fun _ => computation) operands state start stop called := by
  refine not_asks_of_const (computation state) fun failure => ?_
  obtain ⟨others, interrupts⟩ := exists_interrupts operands start stop called failure
  exact ⟨others, interrupts, rfl⟩

theorem Asks.of_bind {first : Operands → ReduceM α} {next : α → Operands → ReduceM β}
    (asks : Asks first operands state start stop called) :
    Asks (fun operands => first operands >>= fun value => next value operands) operands state start
      stop called := by
  intro failure others interrupts
  exact bind_eq_error.2 (.inl (asks failure others interrupts))

namespace Procedure

/-- A call is made, or making it fail changes nothing. -/
theorem asks_or (procedure : Procedure inside kept fails program) (operands : Operands)
    (state : Reduction) (start stop : Nat) (called : Reduction) :
    Asks program operands state start stop called ∨
      ∀ failure others, Interrupts operands others start stop called failure →
        program others state = program operands state := by
  induction procedure generalizing state with
  | own preserves => exact .inr fun _ _ _ => rfl
  | @call first last within =>
      by_cases same : first = start ∧ last = stop ∧ state = called
      · obtain ⟨rfl, rfl, rfl⟩ := same
        exact .inl fun failure others interrupts => interrupts.here
      · exact .inr fun failure others interrupts => interrupts.elsewhere first last state same
  | @bind α β first next head tail headInduction tailInduction =>
      rcases headInduction state with asks | same
      · exact .inl asks.of_bind
      · cases begun : first operands state with
        | error reason last =>
            refine .inr fun failure others interrupts => ?_
            simp only [Bind.bind, EStateM.bind, same failure others interrupts, begun]
        | ok value between =>
            have continues (failure : Failure) (others : Operands)
                (interrupts : Interrupts operands others start stop called failure) :
                (first others >>= fun value => next value others) state =
                  next value others between := by
              simp only [Bind.bind, EStateM.bind, same failure others interrupts, begun]
            rcases tailInduction value between with asks | sameLater
            · refine .inl fun failure others interrupts => ?_
              exact (continues failure others interrupts).trans (asks failure others interrupts)
            · refine .inr fun failure others interrupts => (continues _ _ interrupts).trans ?_
              simp only [Bind.bind, EStateM.bind, begun, sameLater failure others interrupts]

/-- A call that is made by what follows is made by the whole. -/
theorem asks_behind {first : Operands → ReduceM α} {next : α → Operands → ReduceM β} {value : α}
    (procedure : Procedure inside kept fails first)
    (begun : first operands state = .ok value between)
    (asks : Asks (next value) operands between start stop called) :
    Asks (fun operands => first operands >>= fun value => next value operands) operands state start
      stop called := by
  rcases procedure.asks_or operands state start stop called with earlier | same
  · exact earlier.of_bind
  · intro failure others interrupts
    refine bind_eq_error.2 (.inr ⟨value, between, ?_, asks failure others interrupts⟩)
    rw [same failure others interrupts, begun]

/-- A call is made by the first part, or behind it. -/
theorem asks_bind {first : Operands → ReduceM α} {next : α → Operands → ReduceM β}
    (procedure : Procedure inside kept fails first)
    (asks : Asks (fun operands => first operands >>= fun value =>
      next value operands) operands state
      start stop called) :
    Asks first operands state start stop called ∨ ∃ value between,
      first operands state = .ok value between ∧
        Asks (next value) operands between start stop called := by
  rcases procedure.asks_or operands state start stop called with earlier | same
  · exact .inl earlier
  · refine .inr ?_
    cases begun : first operands state with
    | error reason last =>
        refine absurd asks (not_asks_of_const (.error reason last) fun failure => ?_)
        obtain ⟨others, interrupts⟩ := exists_interrupts operands start stop called failure
        refine ⟨others, interrupts, bind_eq_error.2 (.inl ?_)⟩
        rw [same failure others interrupts, begun]
    | ok value between =>
        refine ⟨value, between, rfl, fun failure others interrupts => ?_⟩
        have ended := asks failure others interrupts
        simpa only [Bind.bind, EStateM.bind, same failure others interrupts, begun] using ended

/-- A program fails of its own, or because a call that it makes does. -/
theorem fails_or (procedure : Procedure inside kept fails program)
    (failed : program operands state = .error failure after) :
    fails failure after ∨ ∃ start stop called, Asks program operands state start stop called ∧
      operands start stop called = .error failure after := by
  induction procedure generalizing state with
  | own preserves => exact .inl (preserves.of_error failed).2
  | @call start stop within =>
      exact .inr ⟨start, stop, state, fun _ _ interrupts => interrupts.here, failed⟩
  | @bind α β first next head tail headInduction tailInduction =>
      rcases bind_eq_error.1 failed with begun | ⟨value, between, begun, behind⟩
      · rcases headInduction begun with own | ⟨start, stop, called, asks, fails⟩
        · exact .inl own
        · exact .inr ⟨start, stop, called, asks.of_bind, fails⟩
      · rcases tailInduction value behind with own | ⟨start, stop, called, asks, fails⟩
        · exact .inl own
        · exact .inr ⟨start, stop, called, head.asks_behind begun asks, fails⟩

/-- What the parts keep, the whole keeps. -/
theorem preserves [IsPreorder Reduction kept] {others : Failure → Reduction → Prop}
    (procedure : Procedure inside kept fails program)
    (weaker : ∀ failure state, fails failure state → others failure state)
    (keeps : ∀ start stop, inside start stop → Preserves kept others (operands start stop)) :
    Preserves kept others (program operands) := by
  induction procedure with
  | own preserves => exact preserves.mono weaker
  | call within => exact keeps _ _ within
  | bind head tail headInduction tailInduction => exact headInduction.bind tailInduction

/-- The result depends only on calls for ranges of the kind, in states that are related to the first
one. -/
theorem congr [IsPreorder Reduction kept] (procedure : Procedure inside kept fails program)
    (keeps : ∀ start stop, inside start stop →
      Preserves kept (fun _ _ => True) (operands start stop))
    (same : ∀ start stop later, inside start stop → kept state later →
      others start stop later = operands start stop later) :
    program others state = program operands state := by
  induction procedure generalizing state with
  | own preserves => rfl
  | call within => exact same _ _ state within (refl_of kept state)
  | @bind α β first next head tail headInduction tailInduction =>
      have begins := headInduction same
      simp only [Bind.bind, EStateM.bind, begins]
      cases begun : first operands state with
      | error reason last => rfl
      | ok value between =>
          have reached := (head.preserves (fun _ _ _ => trivial) keeps).of_ok begun
          exact tailInduction value fun start stop later within further =>
            same start stop later within (trans_of kept reached further)

/-- A call that is made is for a range of the kind, in a state that is related to the first one. -/
theorem asks_inside [IsPreorder Reduction kept] (procedure : Procedure inside kept fails program)
    (keeps : ∀ start stop, inside start stop →
      Preserves kept (fun _ _ => True) (operands start stop))
    (asks : Asks program operands state start stop called) :
    inside start stop ∧ kept state called := by
  by_contra outside
  refine not_asks_of_const (program operands state) (fun failure => ?_) asks
  obtain ⟨others, interrupts⟩ := exists_interrupts operands start stop called failure
  refine ⟨others, interrupts, procedure.congr keeps fun first last later within reached => ?_⟩
  refine interrupts.elsewhere first last later ?_
  rintro ⟨rfl, rfl, rfl⟩
  exact outside ⟨within, reached⟩

/-- The result depends only on the calls that are made. -/
theorem congr_asks (procedure : Procedure inside kept fails program)
    (same : ∀ start stop called, Asks program operands state start stop called →
      others start stop called = operands start stop called) :
    program others state = program operands state := by
  induction procedure generalizing state with
  | own preserves => rfl
  | call within => exact same _ _ state fun _ _ interrupts => interrupts.here
  | @bind α β first next head tail headInduction tailInduction =>
      have begins := headInduction fun start stop called asks => same start stop called asks.of_bind
      simp only [Bind.bind, EStateM.bind, begins]
      cases begun : first operands state with
      | error reason last => rfl
      | ok value between =>
          exact tailInduction value fun start stop called asks =>
            same start stop called (head.asks_behind begun asks)

theorem mono {wider : Nat → Nat → Prop} {others : Failure → Reduction → Prop}
    (procedure : Procedure inside kept fails program)
    (further : ∀ start stop, inside start stop → wider start stop)
    (weaker : ∀ failure state, fails failure state → others failure state) :
    Procedure wider kept others program := by
  induction procedure with
  | own preserves => exact .own (preserves.mono weaker)
  | call within => exact .call (further _ _ within)
  | bind head tail headInduction tailInduction => exact .bind headInduction tailInduction

/-- A computation of its own in front. -/
theorem behind {computation : ReduceM α} {next : α → Operands → ReduceM β}
    (first : Preserves kept fails computation)
    (later : ∀ value, Procedure inside kept fails (next value)) :
    Procedure inside kept fails fun operands => computation >>= fun value => next value operands :=
  .bind (.own first) later

/-- A call in front. -/
theorem calling {next : Option Expr → Operands → ReduceM β} (within : inside start stop)
    (later : ∀ value, Procedure inside kept fails (next value)) :
    Procedure inside kept fails
      fun operands => operands start stop >>= fun value => next value operands :=
  .bind (.call within) later

end Procedure

end

end Reduction
end MethodLowering
