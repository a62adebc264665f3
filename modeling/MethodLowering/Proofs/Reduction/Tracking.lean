import MethodLowering.Proofs.Reduction.OnSegments
import MethodLowering.Proofs.Reduction.Questions

/-!
# Tracking a reduction

Two reductions run side by side, one over a ledger and one over segments.  They agree on the text
and on the body.  A change inside a range leaves everything that stands outside it in place.
-/

namespace MethodLowering
namespace Reduction

/-! ## States -/

/-- The states have the same text and the same body. -/
structure Agrees (left right : Reduction) : Prop where
  chars : left.ledger.chars = right.ledger.chars
  scope : left.scope = right.scope
  deepest : left.deepest = right.deepest
  pairs : left.pairs = right.pairs
  body : left.body = right.body

/-- Only tags from `start` up to `stop` are changed, no blanks, and only pending expressions in this
range are used. -/
structure Changes (start stop : Nat) (before after : Reduction) : Prop where
  chars : after.ledger.chars = before.ledger.chars
  tags : ∀ p, p < start ∨ stop ≤ p → after.ledger.tag? p = before.ledger.tag? p
  spaces : ∀ p, after.ledger.isSpace p = before.ledger.isSpace p
  pending : ∀ (id : Nat) (subtree : Subtree), before.pending[id]? = some (some subtree) →
    subtree.span.stop ≤ start ∨ stop ≤ subtree.span.start →
    after.pending[id]? = some (some subtree)

theorem isSpace_iff {ledger : Ledger} {p : Nat} :
    ledger.isSpace p = true ↔ ledger.tag? p = some .space := by
  rw [Ledger.isSpace]
  cases ledger.tag? p with
  | none => simp
  | some tag => cases tag <;> simp [Tag.isSpace]

section

variable {start stop first last : Nat} {before between after : Reduction} {segment : Segment}
  {segments : List Segment}

theorem Changes.of_eq (ledger : after.ledger = before.ledger)
    (pending : after.pending = before.pending) : Changes start stop before after :=
  ⟨by rw [ledger], fun p _ => by rw [ledger], fun p => by rw [ledger],
    fun id subtree known _ => by rw [pending, known]⟩

theorem Changes.mono (changes : Changes first last before after) (low : start ≤ first)
    (high : last ≤ stop) : Changes start stop before after := by
  refine ⟨changes.chars, fun p outside => changes.tags p ?_, changes.spaces,
    fun id subtree known outside => changes.pending id subtree known ?_⟩
  · omega
  · omega

theorem Changes.trans (left : Changes start stop before between)
    (right : Changes start stop between after) : Changes start stop before after :=
  ⟨right.chars.trans left.chars, fun p outside =>
    (right.tags p outside).trans (left.tags p outside),
    fun p => (right.spaces p).trans (left.spaces p),
    fun id subtree known outside =>
      right.pending id subtree (left.pending id subtree known outside) outside⟩

theorem Changes.mark (state : Reduction) (span : Span) {tag : Tag} (solid : tag.isSpace = false) :
    Changes span.start span.stop state { state with ledger := state.ledger.mark span tag } := by
  refine ⟨Ledger.chars_mark .., fun p outside => ?_, fun p => ?_, fun id subtree known _ => known⟩
  · rw [Ledger.tag?_mark, if_neg (by omega)]
  · rw [Ledger.isSpace, Ledger.isSpace, Ledger.tag?_mark]
    split
    · cases known : state.ledger.tag? p with
      | none => rfl
      | some found =>
          rw [Option.map_some, Option.any_some, Option.any_some, Ledger.markedTag]
          cases blank : found.isSpace with
          | true => rw [if_pos rfl, blank]
          | false => rw [if_neg Bool.false_ne_true, solid]
    · rfl

theorem Agrees.mark {state other : Reduction} (agrees : Agrees state other) (span : Span)
    (tag : Tag) : Agrees { state with ledger := state.ledger.mark span tag } other :=
  ⟨(Ledger.chars_mark ..).trans agrees.chars, agrees.scope, agrees.deepest, agrees.pairs,
    agrees.body⟩

section

variable (changes : Changes start stop before after)
include changes

theorem Changes.size : after.ledger.size = before.ledger.size := by
  rw [← Ledger.length_chars, ← Ledger.length_chars, changes.chars]

theorem Changes.isGap {low high : Nat} (gap : IsGap before low high) : IsGap after low high := by
  refine ⟨gap.1, fun p above below => isSpace_iff.1 ?_⟩
  rw [changes.spaces p]
  exact isSpace_iff.2 (gap.2 p above below)

/-- A segment outside the changed range stays where it is. -/
theorem Changes.standsIn (stands : segment.StandsIn before)
    (outside : segment.span.stop ≤ start ∨ stop ≤ segment.span.start) :
    segment.StandsIn after := by
  obtain ⟨span, piece⟩ := segment
  obtain ⟨nonempty, tagged, placed⟩ := stands
  dsimp only at nonempty tagged placed outside
  have same (p : Nat) (low : span.start ≤ p) (high : p < span.stop) :
      after.ledger.tag? p = before.ledger.tag? p := changes.tags p (by omega)
  refine ⟨nonempty, ?_, placed⟩
  cases piece with
  | op op =>
      refine ⟨tagged.1, ?_, fun p low high => ?_⟩
      · rw [same _ (Nat.le_refl _) nonempty]
        exact tagged.2.1
      · rw [same p (Nat.le_of_lt low) high]
        exact tagged.2.2 p low high
  | word =>
      intro p low high
      rw [same p low high]
      exact tagged p low high
  | tree expr =>
      obtain ⟨id, kept, head, tail, inside⟩ := tagged
      refine ⟨id, changes.pending id _ kept outside, ?_, ?_, fun p low high => ?_⟩
      · rw [same _ (Nat.le_refl _) nonempty]
        exact head
      · have last : span.start ≤ span.stop - 1 ∧ span.stop - 1 < span.stop := by omega
        rw [same _ last.1 last.2]
        exact tail
      · rw [same p low high]
        exact inside p low high

/-- A range outside the changed one shows the same segments. -/
theorem Changes.shows_
    (shown : Shows before first last segments) (outside : last ≤ start ∨ stop ≤ first) :
    Shows after first last segments := by
  induction segments generalizing first with
  | nil => exact ⟨changes.isGap shown.1, by rw [changes.size]; exact shown.2⟩
  | cons segment rest induction =>
      obtain ⟨gap, stands, later⟩ := shown
      have low := gap.1
      have nonempty := stands.nonempty
      have high := later.le
      exact ⟨changes.isGap gap, changes.standsIn stands (by omega), induction later (by omega)⟩

end

theorem Shows.of_eq (ledger : after.ledger = before.ledger)
    (pending : after.pending = before.pending)
    (shown : Shows before first last segments) : Shows after first last segments :=
  (Changes.of_eq ledger pending : Changes last last before after).shows_ shown
    (.inl (Nat.le_refl _))

end

/-! ## Computations side by side -/

/-- Both results are failures for the same reason, or both are values that are related. -/
def Tracks {α β : Type} (related : α → β → Reduction → Prop) :
    EStateM.Result Failure Reduction α → EStateM.Result Failure Reduction β → Prop
  | .ok left state, .ok right other => Agrees state other ∧ related left right state
  | .error failure state, .error failure' other => failure = failure' ∧ Agrees state other
  | _, _ => False

section

variable {α β γ δ : Type} {state other : Reduction}

theorem Tracks.bind {related : α → β → Reduction → Prop} {related' : γ → δ → Reduction → Prop}
    {left : ReduceM α} {right : ReduceM β} {leftNext : α → ReduceM γ} {rightNext : β → ReduceM δ}
    (tracks : Tracks related (left state) (right other))
    (next : ∀ a b state' other', Agrees state' other' → related a b state' →
      Tracks related' (leftNext a state') (rightNext b other')) :
    Tracks related' ((left >>= leftNext) state) ((right >>= rightNext) other) := by
  simp only [Bind.bind, EStateM.bind]
  generalize left state = first at tracks
  generalize right other = second at tracks
  cases first with
  | ok a state' =>
      cases second with
      | ok b other' => exact next a b state' other' tracks.1 tracks.2
      | error failure other' => exact tracks.elim
  | error failure state' =>
      cases second with
      | ok b other' => exact tracks.elim
      | error failure' other' => exact tracks

theorem Tracks.pure {related : α → β → Reduction → Prop} {left : α} {right : β}
    (agrees : Agrees state other) (holds : related left right state) :
    Tracks related ((Pure.pure left : ReduceM α) state) ((Pure.pure right : ReduceM β) other) :=
  ⟨agrees, holds⟩

/-- Looking at the ledger of the left state. -/
theorem Tracks.getLedger {related : α → β → Reduction → Prop} {next : Ledger → ReduceM α}
    {right : EStateM.Result Failure Reduction β}
    (tracks : Tracks related (next state.ledger state) right) :
    Tracks related ((Reduction.getLedger >>= next) state) right :=
  tracks

/-- A step that succeeds on the left only. -/
theorem Tracks.ok_left {related : α → β → Reduction → Prop} {step : ReduceM γ} {value : γ}
    {after : Reduction} {next : γ → ReduceM α} {right : EStateM.Result Failure Reduction β}
    (steps : step state = .ok value after) (tracks : Tracks related (next value after) right) :
    Tracks related ((step >>= next) state) right := by
  simp only [Bind.bind, EStateM.bind, steps]
  exact tracks

/-- Tags changed on the left only. -/
theorem Tracks.markSpan {related : α → β → Reduction → Prop} {span : Span} {tag : Tag}
    {next : Unit → ReduceM α} {right : EStateM.Result Failure Reduction β}
    (tracks : Tracks related (next () { state with ledger := state.ledger.mark span tag }) right) :
    Tracks related ((Reduction.markSpan span tag >>= next) state) right :=
  tracks

/-- Looking at both states. -/
theorem Tracks.get {related : α → β → Reduction → Prop} {left : Reduction → ReduceM α}
    {right : Reduction → ReduceM β}
    (tracks : Tracks related (left state state) (right other other)) :
    Tracks related ((MonadState.get >>= left) state) ((MonadState.get >>= right) other) :=
  tracks

theorem Tracks.imp {related related' : α → β → Reduction → Prop}
    {left : EStateM.Result Failure Reduction α} {right : EStateM.Result Failure Reduction β}
    (tracks : Tracks related left right)
    (implies : ∀ a b state, related a b state → related' a b state) :
    Tracks related' left right := by
  cases left with
  | ok a state =>
      cases right with
      | ok b other => exact ⟨tracks.1, implies a b state tracks.2⟩
      | error failure other => exact tracks
  | error failure state =>
      cases right with
      | ok b other => exact tracks
      | error failure' other => exact tracks

/-- The same value, with tags and pending expressions left as they were. -/
def SameQuietly (state : Reduction) (left right : α) (after : Reduction) : Prop :=
  left = right ∧ after.ledger = state.ledger ∧ after.pending = state.pending

/-- The computation looks at the text and the body only, and leaves the tags alone. -/
def Blind (computation : ReduceM α) : Prop :=
  ∀ state other, Agrees state other →
    Tracks (SameQuietly state) (computation state) (computation other)

theorem rejectBracket_tracks {related : α → β → Reduction → Prop} (op : Op) (position : Nat)
    (agrees : Agrees state other) :
    Tracks related ((rejectBracket op position : ReduceM α) state)
      ((rejectBracket op position : ReduceM β) other) := by
  refine ⟨?_, agrees⟩
  rw [agrees.chars]

theorem blind_modifyBody (change : Body → Body) : Blind (modifyBody change) := by
  intro state other agrees
  exact ⟨⟨agrees.chars, agrees.scope, agrees.deepest, agrees.pairs, congrArg change agrees.body⟩,
    rfl,
    rfl, rfl⟩

theorem blind_deepen (depth : Nat) :
    Blind (modify fun state => { state with deepest := max state.deepest depth }) := by
  intro state other agrees
  exact ⟨⟨agrees.chars, agrees.scope, congrArg (max · depth) agrees.deepest, agrees.pairs,
    agrees.body⟩, rfl, rfl, rfl⟩

theorem blind_recordPair (opening closing : Nat) : Blind (recordPair opening closing) := by
  intro state other agrees
  exact ⟨⟨agrees.chars, agrees.scope, agrees.deepest, congrArg (List.cons _) agrees.pairs,
    agrees.body⟩, rfl, rfl, rfl⟩

theorem Agrees.textAt (agrees : Agrees state other) (span : Span) :
    state.ledger.textAt span = other.ledger.textAt span := by
  rw [Ledger.textAt_eq, Ledger.textAt_eq, agrees.chars]

theorem Agrees.holds (agrees : Agrees state other) (span : Span) :
    state.ledger.holds span = other.ledger.holds span := by
  rw [Ledger.holds, Ledger.holds, ← Ledger.length_chars, ← Ledger.length_chars, agrees.chars]

theorem blind_textAt (span : Span) : Blind (textAt span) := by
  intro state other agrees
  have same := agrees.holds span
  rcases textAt_cases span state with ⟨inside, read⟩ | ⟨outside, strays⟩
  · rcases textAt_cases span other with ⟨-, read'⟩ | ⟨outside', -⟩
    · rw [read, read']
      exact ⟨agrees, agrees.textAt span, rfl, rfl⟩
    · rw [inside, outside'] at same
      contradiction
  · rcases textAt_cases span other with ⟨inside', -⟩ | ⟨-, strays'⟩
    · rw [outside, inside'] at same
      contradiction
    · rw [strays, strays']
      exact ⟨rfl, agrees⟩

/-- A new node is at the given span and has the text that stands there. -/
theorem newNode_tracks (span : Span) (agrees : Agrees state other) :
    Tracks (fun left right after => SameQuietly state left right after ∧ left.span = span)
      (newNode span state) (newNode span other) := by
  refine Tracks.bind (blind_textAt span state other agrees) ?_
  rintro text _ state' other' agrees' ⟨rfl, ledger, pending⟩
  have counted := congrArg (fun body : Body => { body with nextNode := body.nextNode + 1 })
    agrees'.body
  have same : (⟨state'.body.nextNode, span, text⟩ : Node) = ⟨other'.body.nextNode, span, text⟩ := by
    rw [agrees'.body]
  exact ⟨⟨agrees'.chars, agrees'.scope, agrees'.deepest, agrees'.pairs, counted⟩,
    ⟨same, ledger, pending⟩, rfl⟩

end

end Reduction
end MethodLowering
