import MethodLowering.Proofs.Expr.Layout
import MethodLowering.Proofs.Reduction.Simulation

/-!
# Folds are faithful to the text

When the operands of a fold are faithful to the text, so is the expression it builds.  The segments
are shown by a ledger of the text that itself stays fixed.
-/

namespace MethodLowering
namespace Reduction

open Text MethodLowering.Expr

/-! ## Text under segments -/

/-- The ledger is one of the text, and what it tags as blank is blank. -/
structure Portrays (text : List Char) (state : Reduction) : Prop where
  chars : state.ledger.chars = text
  blank : ∀ p, state.ledger.isSpace p = true → text[p]?.any isBlank = true

/-- The text under a segment is what the segment says. -/
def Segment.Fits (text : List Char) (segment : Segment) : Prop :=
  match segment.piece with
  | .op op => between text segment.span.start segment.span.stop = op.spelling
  | .word => True
  | .tree expr => expr.Faithful text

/-- Segments shown from one position up to another, with the text that belongs to them. -/
structure Depicts (text : List Char) (state : Reduction) (start stop : Nat)
    (segments : List Segment) : Prop where
  portrays : Portrays text state
  shown : Shows state start stop segments
  fits : ∀ segment ∈ segments, segment.Fits text

/-- The result of reducing segments is faithful and covers them. -/
def Resolves (text : List Char) (segments : List Segment) (result : Option Expr) : Prop :=
  Covers segments result ∧ (result.getD .absent).Faithful text

/-- The expression of a fold is faithful and stands for neighbouring segments. -/
def FoldFits (text : List Char) (segments : List Segment) (folded : OnSegments.Folded) : Prop :=
  folded.expr.Faithful text ∧
    ∃ middle, segments = folded.front ++ middle ++ folded.back ∧ middle ≠ [] ∧
      HasSpan folded.expr (hull middle)

section

variable {text : List Char} {state : Reduction} {start middle stop : Nat} {anchor : Span}
  {front back left right segments : List Segment} {segment : Segment} {expr : Expr}

theorem IsGap.between (portrays : Portrays text state) (gap : IsGap state start stop) :
    between text start stop = [] := by
  rw [Text.between, squeeze, List.filter_eq_nil_iff]
  intro c member
  obtain ⟨i, here⟩ := List.mem_iff_getElem?.1 member
  simp only [Span.slice, Span.length, List.getElem?_take, List.getElem?_drop] at here
  split at here
  · have blank := portrays.blank (start + i) (gap.isSpace (Nat.le_add_right _ _) (by omega))
    rw [here] at blank
    simpa using blank
  · contradiction

theorem Portrays.size (portrays : Portrays text state) : state.ledger.size = text.length := by
  rw [← Ledger.length_chars, portrays.chars]

theorem Depicts.split (depicts : Depicts text state start stop (front ++ segment :: back)) :
    Depicts text state start segment.span.start front ∧ segment.Fits text ∧
      segment.StandsIn state ∧ Depicts text state segment.span.stop stop back := by
  obtain ⟨portrays, shown, fits⟩ := depicts
  obtain ⟨left, stands, right⟩ := shows_append_cons.1 shown
  refine ⟨⟨portrays, left, fun other member => fits other (by simp [member])⟩, fits _ (by simp),
    stands, ⟨portrays, right, fun other member => fits other (by simp [member])⟩⟩

/-- Segments next to each other are those of two ranges. -/
theorem Depicts.parts (depicts : Depicts text state start stop (front ++ back)) :
    ∃ middle, Depicts text state start middle front ∧ Depicts text state middle stop back := by
  obtain ⟨middle, left, right⟩ := depicts.shown.split
  exact ⟨middle, ⟨depicts.portrays, left, fun other member =>
    depicts.fits other (by simp [member])⟩,
    ⟨depicts.portrays, right, fun other member => depicts.fits other (by simp [member])⟩⟩

/-! ## Laying out operands -/

/-- An operand in front of the anchor. -/
theorem laid_front {result : Option Expr} (depicts : Depicts text state start anchor.start left)
    (resolves : Covers left result) :
    Laid text (spread left anchor right).start anchor.start [.child (result.getD .absent)] := by
  cases result with
  | none =>
      rw [show left = [] from resolves]
      exact ⟨Nat.le_refl _, between_self ..⟩
  | some expr =>
      obtain ⟨node, known, span⟩ := Option.map_eq_some_iff.1 resolves.2
      obtain ⟨-, -, gap, nonempty⟩ := depicts.shown.hull resolves.1
      have blank := gap.between depicts.portrays
      have order := gap.1
      rw [spread_start_eq resolves.1, Option.getD_some, Laid, known]
      rw [← span] at blank order nonempty ⊢
      exact ⟨Nat.le_refl _, between_self .., nonempty, order, blank⟩

/-- An operand behind the anchor. -/
theorem laid_back {result : Option Expr} (depicts : Depicts text state anchor.stop stop right)
    (resolves : Covers right result) :
    Laid text anchor.stop (spread left anchor right).stop [.child (result.getD .absent)] := by
  cases result with
  | none =>
      rw [show right = [] from resolves]
      exact ⟨Nat.le_refl _, between_self ..⟩
  | some expr =>
      obtain ⟨node, known, span⟩ := Option.map_eq_some_iff.1 resolves.2
      obtain ⟨gap, -, -, nonempty⟩ := depicts.shown.hull resolves.1
      have blank := gap.between depicts.portrays
      have order := gap.1
      rw [spread_stop_eq resolves.1, Option.getD_some, Laid, known]
      rw [← span] at blank order nonempty ⊢
      exact ⟨order, blank, nonempty, Nat.le_refl _, between_self ..⟩

theorem spread_bounds (depictsLeft : Depicts text state start anchor.start left)
    (depictsRight : Depicts text state anchor.stop stop right)
    (nonempty : anchor.start < anchor.stop) :
    (spread left anchor right).start < (spread left anchor right).stop ∧
      (spread left anchor right).stop ≤ text.length := by
  have low : (spread left anchor right).start ≤ anchor.start := by
    by_cases present : left = []
    · rw [present]
      exact Nat.le_refl _
    · obtain ⟨-, -, gap, inner⟩ := depictsLeft.shown.hull present
      have := gap.1
      rw [spread_start_eq present]
      omega
  have size := depictsRight.portrays.size
  have inside := depictsRight.shown.stop_le_size
  have order := depictsRight.shown.le
  have high : anchor.stop ≤ (spread left anchor right).stop ∧
      (spread left anchor right).stop ≤ stop := by
    by_cases present : right = []
    · rw [present]
      exact ⟨Nat.le_refl _, order⟩
    · obtain ⟨gap, -, gap', inner⟩ := depictsRight.shown.hull present
      have := gap.1
      have := gap'.1
      rw [spread_stop_eq present]
      omega
  omega

/-! ## Results -/

/-- A successful result is one of the text, with the property, and a failure says what is wrong with
the text. -/
def Ensures {α : Type} (text : List Char) (property : α → Prop) :
    EStateM.Result Failure Reduction α → Prop
  | .ok value state => state.ledger.chars = text ∧ property value
  | .error failure _ => ∃ error, failure = .malformed error

variable {α β : Type} {other : Reduction}

theorem Ensures.bind {first : α → Prop} {second : β → Prop} {computation : ReduceM α}
    {next : α → ReduceM β} (ensures : Ensures text first (computation other))
    (later : ∀ value state, state.ledger.chars = text → first value →
      Ensures text second (next value state)) :
    Ensures text second ((computation >>= next) other) := by
  simp only [Bind.bind, EStateM.bind]
  generalize computation other = result at ensures
  cases result with
  | ok value state => exact later value state ensures.1 ensures.2
  | error failure state => exact ensures

/-- What holds of a computation beside itself holds of its result. -/
theorem Ensures.and_tracks {first second : α → Prop} {related : α → α → Reduction → Prop}
    {result : EStateM.Result Failure Reduction α} (ensures : Ensures text first result)
    (tracks : Tracks related result result)
    (implies : ∀ value state, related value value state → second value) :
    Ensures text (fun value => first value ∧ second value) result := by
  cases result with
  | ok value state => exact ⟨ensures.1, ensures.2, implies value state tracks.2⟩
  | error failure state => exact ensures

theorem Ensures.reject {property : α → Prop} {error : SourceError} :
    Ensures text property ((reject error : ReduceM α) other) :=
  ⟨error, rfl⟩

theorem Ensures.rejectBracket {property : α → Prop} {op : Op} {position : Nat} :
    Ensures text property ((rejectBracket op position : ReduceM α) other) :=
  ⟨_, rfl⟩

theorem holds_of_le {span : Span} (chars : other.ledger.chars = text)
    (order : span.start ≤ span.stop) (inside : span.stop ≤ text.length) :
    other.ledger.holds span = true := by
  rw [Ledger.holds_iff, ← Ledger.length_chars, chars]
  exact ⟨order, inside⟩

theorem textAt_ensures {span : Span} (order : span.start ≤ span.stop)
    (inside : span.stop ≤ text.length) (chars : other.ledger.chars = text) :
    Ensures text (fun read => read = String.ofList (span.slice text)) (textAt span other) := by
  rcases textAt_cases span other with ⟨-, read⟩ | ⟨strays, -⟩
  · rw [read]
    refine ⟨chars, ?_⟩
    rw [← chars]
    exact Ledger.textAt_eq _ _
  · rw [holds_of_le chars order inside] at strays
    contradiction

theorem newNode_ensures {span : Span} (order : span.start < span.stop)
    (inside : span.stop ≤ text.length) (chars : other.ledger.chars = text) :
    Ensures text (fun node => node.span = span ∧ node.text = String.ofList (node.span.slice text))
      (newNode span other) :=
  (textAt_ensures (Nat.le_of_lt order) inside chars).bind fun _ _ chars read =>
    ⟨chars, rfl, read⟩

theorem newNodeAround_ensures {anchor span : Span} {operands : List Expr}
    (around : operands.foldl joinNode anchor = span)
    (bounds : span.start < span.stop ∧ span.stop ≤ text.length)
    (chars : other.ledger.chars = text) :
    Ensures text (fun node => node.span = span ∧ node.text = String.ofList (node.span.slice text))
      (newNodeAround anchor operands other) := by
  subst around
  exact newNode_ensures bounds.1 bounds.2 chars

theorem required_ensures (operand : Option Expr) (op : Op) (context : String)
    (chars : other.ledger.chars = text) :
    Ensures text (fun expr => operand = some expr) (required operand op context other) := by
  cases operand with
  | none => exact .reject
  | some expr => exact ⟨chars, rfl⟩

/-! ## Folds -/

/-- Operands are reduced to faithful expressions. -/
def FitOperands (text : List Char) (onSegments : OnSegments.Operands) : Prop :=
  ∀ state start stop segments other, Depicts text state start stop segments →
    other.ledger.chars = text → Ensures text (Resolves text segments) (onSegments segments other)

/-- A fold around an anchor. -/
theorem foldFits_around {node : Node} {core : List Segment}
    (split : segments = front ++ (left ++ core ++ right) ++ back) (present : core ≠ [])
    (spans : hull core = anchor) (nonempty : anchor.start < anchor.stop)
    (depictsLeft : Depicts text state start anchor.start left)
    (depictsRight : Depicts text state anchor.stop stop right) (known : expr.node? = some node)
    (span : node.span = spread left anchor right)
    (read : node.text = String.ofList (node.span.slice text))
    (laid : Laid text (spread left anchor right).start (spread left anchor right).stop expr.parts)
    (children : ∀ child ∈ expr.children, child.Faithful text) :
    FoldFits text segments ⟨front, expr, back⟩ := by
  obtain ⟨inner, inside⟩ := spread_bounds depictsLeft depictsRight nonempty
  refine ⟨?_, left ++ core ++ right, split, by simp [present], ?_⟩
  · refine (faithful_iff (isPresent_iff.2 ⟨node, known⟩)).2
      ⟨⟨node, known, ?_, ?_, read, ?_⟩, children⟩
    · rw [span]
      exact inside
    · rw [span]
      exact inner
    · rw [span]
      exact laid
  · rw [hull_eq_spread_hull present, spans, ← span, HasSpan, known, Option.map_some]

theorem FoldFits.resolves (fits : FoldFits text segments ⟨[], expr, []⟩) :
    Resolves text segments (some expr) := by
  obtain ⟨faithful, middle, split, present, span⟩ := fits
  rw [List.nil_append, List.append_nil] at split
  rw [split]
  exact ⟨⟨present, span⟩, faithful⟩

theorem Segment.Fits.laid {op : Op} (fits : segment.Fits text) (isOp : segment.op? = some op)
    (nonempty : segment.span.start < segment.span.stop) :
    Laid text segment.span.start segment.span.stop [.token op.spelling] := by
  obtain ⟨span, piece⟩ := segment
  cases piece with
  | op other =>
      obtain rfl := Option.some.inj isOp
      exact Laid.token (Nat.le_of_lt nonempty) fits
  | word => contradiction
  | tree expr => contradiction

theorem children_faithful {items : List Expr} (faithful : ∀ item ∈ items, item.Faithful text) :
    ∀ child ∈ items.filter isPresent, child.Faithful text :=
  fun child member => faithful child (List.mem_filter.1 member).1

variable {onSegments : OnSegments.Operands} {before after : List Segment} {op : Op}

section

variable (fit : FitOperands text onSegments)
  (depicts : Depicts text state start stop (before ++ segment :: after))
include fit depicts

theorem binary_ensures (isOp : segment.op? = some op) (chars : other.ledger.chars = text) :
    Ensures text (FoldFits text (before ++ segment :: after))
      (OnSegments.binary onSegments op segment.span.start before after other) := by
  obtain ⟨front, fits, stands, back⟩ := depicts.split
  unfold OnSegments.binary
  refine Ensures.bind (fit _ _ _ before other front chars) fun first state₁ chars₁ resolves₁ => ?_
  refine Ensures.bind (fit _ _ _ after state₁ back chars₁) fun second state₂ chars₂ resolves₂ => ?_
  rw [← stands.span_eq isOp]
  have around := joinNode_around front.shown back.shown stands.nonempty resolves₁.1 resolves₂.1
  refine Ensures.bind (newNodeAround_ensures around (spread_bounds front back stands.nonempty)
    chars₂) fun node state₃ chars₃ ⟨span, read⟩ => ?_
  refine ⟨chars₃, foldFits_around
    (show before ++ segment :: after = [] ++ (before ++ [segment] ++ after) ++ [] by simp)
    (by simp) rfl stands.nonempty front back rfl span read ?_ ?_⟩
  · exact (laid_front front resolves₁.1).append
      ((fits.laid isOp stands.nonempty).append (laid_back back resolves₂.1))
  · exact children_faithful (by simp [resolves₁.2, resolves₂.2])

theorem assignment_ensures (isOp : segment.op? = some op) (chars : other.ledger.chars = text) :
    Ensures text (FoldFits text (before ++ segment :: after))
      (OnSegments.assignment onSegments op segment.span.start before after other) := by
  obtain ⟨front, fits, stands, back⟩ := depicts.split
  unfold OnSegments.assignment
  refine Ensures.bind (fit _ _ _ before other front chars) fun first state₁ chars₁ resolves₁ => ?_
  refine Ensures.bind (required_ensures _ _ _ chars₁) fun target state₂ chars₂ found => ?_
  subst found
  refine Ensures.bind (fit _ _ _ after state₂ back chars₂) fun second state₃ chars₃ resolves₂ => ?_
  rw [← stands.span_eq isOp]
  have around := joinNode_around front.shown back.shown stands.nonempty resolves₁.1 resolves₂.1
  refine Ensures.bind (newNodeAround_ensures around (spread_bounds front back stands.nonempty)
    chars₃) fun node state₄ chars₄ ⟨span, read⟩ => ?_
  refine ⟨chars₄, foldFits_around
    (show before ++ segment :: after = [] ++ (before ++ [segment] ++ after) ++ [] by simp)
    (by simp) rfl stands.nonempty front back rfl span read ?_ ?_⟩
  · exact (laid_front front resolves₁.1).append
      ((fits.laid isOp stands.nonempty).append (laid_back back resolves₂.1))
  · have faithful : target.Faithful text := resolves₁.2
    exact children_faithful (by simp [faithful, resolves₂.2])

theorem conditional_ensures
    (isOp : segment.op? = some .question) (chars : other.ledger.chars = text) :
    Ensures text (FoldFits text (before ++ segment :: after))
      (OnSegments.conditional onSegments segment.span.start before after other) := by
  obtain ⟨front, fits, stands, back⟩ := depicts.split
  unfold OnSegments.conditional
  cases found : pairedColon? 0 (headsOf after) with
  | none => exact .reject
  | some colon =>
      obtain ⟨upper, divider, lower, rfl, isColon, rfl⟩ :=
        exists_of_mem_headsOf (mem_of_pairedColon? found)
      obtain ⟨depictsUpper, fitsDivider, standsDivider, depictsLower⟩ := back.split
      dsimp only
      rw [splitAt_eq back.shown]
      refine Ensures.bind (fit _ _ _ before other front chars)
        fun condition state₁ chars₁ resolves₁ => ?_
      refine Ensures.bind (fit _ _ _ upper state₁ depictsUpper chars₁)
        fun first state₂ chars₂ resolves₂ => ?_
      refine Ensures.bind (fit _ _ _ lower state₂ depictsLower chars₂)
        fun second state₃ chars₃ resolves₃ => ?_
      rw [show (⟨divider.span.start, divider.span.start + 1⟩ : Span) = divider.span from
          (standsDivider.span_eq isColon).symm,
        show (⟨segment.span.start, segment.span.start + 1⟩ : Span) = segment.span from
          (stands.span_eq isOp).symm]
      have aroundColon := joinNode_around depictsUpper.shown depictsLower.shown
        standsDivider.nonempty resolves₂.1 resolves₃.1
      refine Ensures.bind (newNodeAround_ensures aroundColon
        (spread_bounds depictsUpper depictsLower standsDivider.nonempty) chars₃)
        fun inner state₄ chars₄ ⟨spanInner, readInner⟩ => ?_
      have branches : FoldFits text (upper ++ divider :: lower)
          ⟨[], .operation inner .colon (first.getD .absent) (second.getD .absent), []⟩ := by
        refine foldFits_around
          (show upper ++ divider :: lower = [] ++ (upper ++ [divider] ++ lower) ++ [] by simp)
          (by simp) rfl standsDivider.nonempty depictsUpper depictsLower rfl spanInner readInner
          ?_ ?_
        · exact (laid_front depictsUpper resolves₂.1).append
            ((fitsDivider.laid isColon standsDivider.nonempty).append
              (laid_back depictsLower resolves₃.1))
        · exact children_faithful (by simp [resolves₂.2, resolves₃.2])
      have resolves := branches.resolves
      have around := joinNode_around front.shown back.shown stands.nonempty resolves₁.1 resolves.1
      refine Ensures.bind (newNodeAround_ensures around
        (spread_bounds front back stands.nonempty) chars₄)
        fun node state₅ chars₅ ⟨span, read⟩ => ?_
      refine ⟨chars₅, foldFits_around
        (show before ++ segment :: (upper ++ divider :: lower) =
          [] ++ (before ++ [segment] ++ (upper ++ divider :: lower)) ++ [] by simp)
        (by simp) rfl stands.nonempty front back rfl span read ?_ ?_⟩
      · exact (laid_front front resolves₁.1).append
          ((fits.laid isOp stands.nonempty).append (laid_back back resolves.1))
      · exact children_faithful (by simp [resolves₁.2, branches.1])

end

/-- The operands next to an anchor. -/
theorem Depicts.lastOperands (depicts : Depicts text state start stop before) :
    ∃ middle, Depicts text state middle stop (OnSegments.lastOperands before) := by
  rw [← dropOperands_append before] at depicts
  obtain ⟨middle, -, last⟩ := depicts.parts
  exact ⟨middle, last⟩

theorem Depicts.firstOperands (depicts : Depicts text state start stop after) :
    ∃ middle, Depicts text state start middle (OnSegments.firstOperands after) := by
  rw [← firstOperands_append after] at depicts
  obtain ⟨middle, first, -⟩ := depicts.parts
  exact ⟨middle, first⟩

theorem Depicts.nil (portrays : Portrays text state) (inside : start ≤ state.ledger.size) :
    Depicts text state start start [] :=
  ⟨portrays, shows_nil_refl inside, nofun⟩

theorem unary_ensures (fit : FitOperands text onSegments)
    (depicts : Depicts text state start stop (before ++ segment :: after))
    (isOp : segment.op? = some op) (chars : other.ledger.chars = text) :
    Ensures text (FoldFits text (before ++ segment :: after))
      (OnSegments.unary onSegments op segment.span.start before after other) := by
  obtain ⟨front, fits, stands, back⟩ := depicts.split
  have nothing : Covers [] none := rfl
  unfold OnSegments.unary
  rw [← stands.span_eq isOp]
  split
  · obtain ⟨low, last⟩ := front.lastOperands
    have inside := back.shown.stop_le_size
    have order := back.shown.le
    have none : Depicts text state segment.span.stop segment.span.stop [] :=
      Depicts.nil depicts.portrays (by omega)
    refine Ensures.bind (fit _ _ _ _ other last chars) fun result state₁ chars₁ resolves₁ => ?_
    refine Ensures.bind (required_ensures _ _ _ chars₁) fun operand state₂ chars₂ found => ?_
    subst found
    have around := joinNode_around last.shown none.shown stands.nonempty resolves₁.1 nothing
    refine Ensures.bind (newNodeAround_ensures around (spread_bounds last none stands.nonempty)
      chars₂) fun node state₃ chars₃ ⟨span, read⟩ => ?_
    have split : before ++ segment :: after = OnSegments.dropOperands before ++
        (OnSegments.lastOperands before ++ [segment] ++ []) ++ after := by
      rw [List.append_nil, ← List.append_assoc, dropOperands_append]
      simp
    refine ⟨chars₃, foldFits_around split (by simp) rfl stands.nonempty last none rfl
      span read ?_ ?_⟩
    · exact (laid_front last resolves₁.1).append
        ((fits.laid isOp stands.nonempty).append (laid_back none nothing))
    · have faithful : operand.Faithful text := resolves₁.2
      exact children_faithful (by simp [faithful, faithful_absent])
  · obtain ⟨high, first⟩ := back.firstOperands
    have none : Depicts text state segment.span.start segment.span.start [] :=
      Depicts.nil depicts.portrays front.shown.stop_le_size
    refine Ensures.bind (fit _ _ _ _ other first chars) fun result state₁ chars₁ resolves₁ => ?_
    refine Ensures.bind (required_ensures _ _ _ chars₁) fun operand state₂ chars₂ found => ?_
    subst found
    have around := joinNode_around none.shown first.shown stands.nonempty nothing resolves₁.1
    refine Ensures.bind (newNodeAround_ensures around (spread_bounds none first stands.nonempty)
      chars₂) fun node state₃ chars₃ ⟨span, read⟩ => ?_
    have split : before ++ segment :: after = before ++
        ([] ++ [segment] ++ OnSegments.firstOperands after) ++ OnSegments.skipOperands after := by
      conv_lhs => rw [← firstOperands_append after]
      simp
    refine ⟨chars₃, foldFits_around split (by simp) rfl stands.nonempty none first rfl
      span read ?_ ?_⟩
    · exact (laid_front none nothing).append
        ((fits.laid isOp stands.nonempty).append (laid_back first resolves₁.1))
    · have faithful : operand.Faithful text := resolves₁.2
      exact children_faithful (by simp [faithful, faithful_absent])

theorem split_operands (before : List Segment) (segment : Segment) (after : List Segment) :
    before ++ segment :: after = OnSegments.dropOperands before ++
        (OnSegments.lastOperands before ++ [segment] ++ OnSegments.firstOperands after) ++
        OnSegments.skipOperands after := by
  conv_lhs => rw [← dropOperands_append before, ← firstOperands_append after]
  simp

theorem typeTest_ensures (fit : FitOperands text onSegments)
    (depicts : Depicts text state start stop (before ++ segment :: after))
    (isOp : segment.op? = some .instanceOf) (chars : other.ledger.chars = text) :
    Ensures text (FoldFits text (before ++ segment :: after))
      (OnSegments.typeTest onSegments before after other) := by
  obtain ⟨front, fits, stands, back⟩ := depicts.split
  obtain ⟨low, last⟩ := front.lastOperands
  obtain ⟨high, first⟩ := back.firstOperands
  unfold OnSegments.typeTest
  refine Ensures.bind (fit _ _ _ _ other last chars) fun result state₁ chars₁ resolves₁ => ?_
  refine Ensures.bind (required_ensures _ _ _ chars₁) fun operand state₂ chars₂ found => ?_
  subst found
  split
  · exact .reject
  · next present =>
      rw [List.isEmpty_iff] at present
      obtain ⟨-, -, gapLeft, innerLeft⟩ := last.shown.hull resolves₁.1.1
      obtain ⟨gap, -, -, inner⟩ := first.shown.hull present
      have order := gapLeft.1
      have order' := gap.1
      have nonempty := stands.nonempty
      have around : [operand].foldl joinNode (hull (OnSegments.firstOperands after)) =
          spread (OnSegments.lastOperands before) segment.span
            (OnSegments.firstOperands after) := by
        rw [List.foldl_cons, List.foldl_nil, resolves₁.1.2.joinNode, Span.join,
          Nat.min_eq_right (by omega), Nat.max_eq_left (by omega),
          ← spread_start_eq resolves₁.1.1, ← spread_stop_eq present]
      have bounds := spread_bounds last first nonempty
      have ends := bounds.2
      rw [spread_stop_eq present] at ends
      refine Ensures.bind (textAt_ensures (Nat.le_of_lt inner) ends chars₂)
        fun typeName state₃ chars₃ typed => ?_
      refine Ensures.bind (newNodeAround_ensures around bounds chars₃)
        fun node state₄ chars₄ placed => ?_
      obtain ⟨span, read⟩ := placed
      refine ⟨chars₄, foldFits_around (split_operands before segment after) (by simp) rfl nonempty
        last first rfl span read ?_ ?_⟩
      · have named : Laid text segment.span.stop
            (spread (OnSegments.lastOperands before) segment.span
              (OnSegments.firstOperands after)).stop
            [.token (squeeze typeName.toList)] := by
          rw [spread_stop_eq present]
          refine Laid.token (by omega) ?_
          rw [← between_append text order' (Nat.le_of_lt inner),
            gap.between depicts.portrays, typed,
            String.toList_ofList]
          rfl
        exact (laid_front last resolves₁.1).append ((fits.laid isOp nonempty).append named)
      · have faithful : operand.Faithful text := resolves₁.2
        exact children_faithful (by simp [faithful])

/-! ## Access to members -/

/-- The name of a member stands at its front. -/
theorem memberName?_exact {member : Expr} {memberNode name : Node} {rebuild : Expr → Expr}
    (found : memberName? member = some (name, rebuild)) (known : member.node? = some memberNode)
    (faithful : member.Faithful text) :
    (Expr.leaf name .identifier).IsExact text name ∧ memberNode.span.start ≤ name.span.start ∧
      between text memberNode.span.start name.span.start = [] ∧
      name.span.stop ≤ memberNode.span.stop := by
  obtain ⟨⟨_, exact_⟩, children⟩ := (faithful_iff (isPresent_iff.2 ⟨_, known⟩)).1 faithful
  obtain rfl := Option.some.inj (known.symm.trans exact_.node?)
  have nameExact (inside : Expr.leaf name .identifier ∈ member.children) :
      (Expr.leaf name .identifier).IsExact text name := by
    obtain ⟨⟨_, exactName⟩, -⟩ := (faithful_iff rfl).1 (children _ inside)
    obtain rfl := Option.some.inj exactName.node?
    exact exactName
  unfold memberName? at found
  split at found
  · obtain ⟨rfl, rfl⟩ := Prod.mk.inj (Option.some.inj found)
    obtain rfl := Option.some.inj known
    exact ⟨exact_, Nat.le_refl _, between_self .., Nat.le_refl _⟩
  · obtain ⟨rfl, rfl⟩ := Prod.mk.inj (Option.some.inj found)
    obtain ⟨low, blank, -, later⟩ := exact_.laid
    exact ⟨nameExact (by simp [Expr.children, isPresent, isAbsent]), low, blank, later.le⟩
  · obtain ⟨rfl, rfl⟩ := Prod.mk.inj (Option.some.inj found)
    obtain ⟨low, blank, -, later⟩ := exact_.laid
    exact ⟨nameExact (by simp [Expr.children, isPresent, isAbsent]), low, blank, later.le⟩
  · contradiction

/-- A member whose name is widened to the front stays faithful. -/
theorem relocate_faithful {member : Expr} {memberNode name widened : Node} {rebuild : Expr → Expr}
    {form : LeafForm} (found : memberName? member = some (name, rebuild))
    (known : member.node? = some memberNode) (faithful : member.Faithful text)
    (leafFaithful : (Expr.leaf widened form).Faithful text)
    (ends : widened.span.stop = name.span.stop) :
    ((rebuild (Expr.leaf widened form)).relocate ⟨widened.span.start, memberNode.span.stop⟩
      (String.ofList (Span.slice ⟨widened.span.start, memberNode.span.stop⟩ text))).Faithful
        text := by
  obtain ⟨⟨_, exactLeaf⟩, -⟩ := (faithful_iff rfl).1 leafFaithful
  obtain rfl := Option.some.inj exactLeaf.node?
  obtain ⟨⟨_, exact_⟩, children⟩ := (faithful_iff (isPresent_iff.2 ⟨_, known⟩)).1 faithful
  obtain rfl := Option.some.inj (known.symm.trans exact_.node?)
  obtain ⟨-, -, -, inside⟩ := memberName?_exact found known faithful
  have nonempty := exactLeaf.nonempty
  unfold memberName? at found
  split at found
  · obtain ⟨rfl, rfl⟩ := Prod.mk.inj (Option.some.inj found)
    obtain rfl := Option.some.inj known
    have same : (⟨widened.span.start, widened.span.stop⟩ : Span) = widened.span := rfl
    rw [← ends, same, ← exactLeaf.text_eq]
    exact leafFaithful
  rotate_right
  · contradiction
  all_goals
    obtain ⟨rfl, rfl⟩ := Prod.mk.inj (Option.some.inj found)
    obtain rfl := Option.some.inj known
    obtain ⟨low, blank, -, later⟩ := exact_.laid
    refine (faithful_iff rfl).2 ⟨⟨_, rfl, exact_.inside, ?_, rfl, ?_⟩, children_faithful ?_⟩
    · dsimp only
      omega
    · rw [← ends] at later
      exact ⟨Nat.le_refl _, between_self .., nonempty, later⟩
    · intro item member
      rcases List.mem_cons.1 member with rfl | behind
      · exact leafFaithful
      · exact faithful_of_mem children (List.mem_cons_of_mem _ behind)

theorem squeeze_trim (chars : List Char) : squeeze (trim chars) = squeeze chars := by
  have front (chars : List Char) : squeeze (chars.dropWhile isBlank) = squeeze chars := by
    induction chars with
    | nil => rfl
    | cons c rest induction =>
        rw [List.dropWhile_cons]
        split
        · next blank => simpa [squeeze, blank] using induction
        · rfl
  have back (chars : List Char) : squeeze (trimEnd chars) = squeeze chars := by
    rw [trimEnd, squeeze, List.filter_reverse, ← squeeze, front, squeeze, List.filter_reverse,
      List.reverse_reverse]
    rfl
  rw [trim, back, trimStart, front]

theorem constructedType?_read {subject : Expr} {node : Node} {typeName : String}
    (typed : subject.constructedType? = some typeName) (exact_ : subject.IsExact text node) :
    between text node.span.start node.span.stop = "new".toList ++ squeeze typeName.toList := by
  unfold constructedType? at typed
  split at typed
  · obtain rfl := Option.some.inj typed
    exact exact_.laid.read_token
  · contradiction

theorem qualifyConstruction?_ensures {subject member : Expr} {subjectNode memberNode : Node}
    (knownSubject : subject.node? = some subjectNode)
    (knownMember : member.node? = some memberNode) (faithfulSubject : subject.Faithful text)
    (faithfulMember : member.Faithful text) (low : subjectNode.span.stop ≤ memberNode.span.start)
    (read : between text subjectNode.span.stop memberNode.span.start = ['.'])
    (chars : other.ledger.chars = text) :
    Ensures text (fun result => ∀ expr, result = some expr → expr.Faithful text)
      (qualifyConstruction? subject member other) := by
  unfold qualifyConstruction?
  rw [knownSubject, knownMember]
  cases typed : subject.constructedType? with
  | none => exact ⟨chars, nofun⟩
  | some qualifier =>
      cases found : memberName? member with
      | none => exact ⟨chars, nofun⟩
      | some named =>
          obtain ⟨name, rebuild⟩ := named
          obtain ⟨exactName, order, blank, inside⟩ :=
            memberName?_exact found knownMember faithfulMember
          obtain ⟨⟨_, exactSubject⟩, -⟩ :=
            (faithful_iff (isPresent_iff.2 ⟨_, knownSubject⟩)).1 faithfulSubject
          obtain rfl := Option.some.inj (knownSubject.symm.trans exactSubject.node?)
          obtain ⟨⟨_, exactMember⟩, -⟩ :=
            (faithful_iff (isPresent_iff.2 ⟨_, knownMember⟩)).1 faithfulMember
          obtain rfl := Option.some.inj (knownMember.symm.trans exactMember.node?)
          have subjectRead := constructedType?_read typed exactSubject
          have nameRead := exactName.laid.read_token
          have nonempty := exactSubject.nonempty
          have nameNonempty := exactName.nonempty
          refine Ensures.bind (textAt_ensures (by dsimp only; omega) exactName.inside chars)
            fun nameText state₁ chars₁ named => ?_
          refine Ensures.bind (textAt_ensures (by dsimp only; omega) exactMember.inside chars₁)
            fun whole state₂ chars₂ readWhole => ?_
          refine ⟨chars₂, fun expr same => ?_⟩
          obtain rfl := Option.some.inj same
          subst named readWhole
          have spelled : between text subjectNode.span.start name.span.stop =
              "new".toList ++ squeeze (qualifier ++ "." ++ Text.trimmed name.text).toList := by
            rw [← between_append text (Nat.le_of_lt nonempty)
                (show subjectNode.span.stop ≤ name.span.stop by omega), subjectRead,
              ← between_append text low (show memberNode.span.start ≤ name.span.stop by omega),
              read,
              ← between_append text order (Nat.le_of_lt nameNonempty), blank, nameRead,
              Text.trimmed_eq]
            simp only [String.toList_append, String.toList_ofList, squeeze_append, squeeze_trim,
              leafToken, List.nil_append, List.append_assoc]
            rfl
          refine relocate_faithful found knownMember faithfulMember
            ((faithful_iff rfl).2 ⟨⟨_, rfl, exactName.inside, ?_, rfl, ?_⟩, nofun⟩) rfl
          · dsimp only
            omega
          · exact Laid.token (by dsimp only; omega) spelled

theorem qualifyDeclaration?_ensures {subject member : Expr} {subjectNode memberNode : Node}
    (knownSubject : subject.node? = some subjectNode)
    (knownMember : member.node? = some memberNode) (faithfulMember : member.Faithful text)
    (order : subjectNode.span.start ≤ memberNode.span.start)
    (order' : subjectNode.span.stop ≤ memberNode.span.stop) (chars : other.ledger.chars = text) :
    Ensures text (fun result => ∀ expr, result = some expr → expr.Faithful text)
      (qualifyDeclaration? subject member other) := by
  have nothing (expr : Expr) (same : none = some expr) : expr.Faithful text :=
    absurd same.symm (Option.some_ne_none expr)
  unfold qualifyDeclaration?
  rw [knownSubject]
  cases member with
  | declaration node declared continued =>
      obtain rfl := Option.some.inj knownMember
      obtain ⟨⟨_, exact_⟩, -⟩ := (faithful_iff rfl).1 faithfulMember
      obtain rfl := Option.some.inj exact_.node?
      dsimp only
      split
      · refine Ensures.bind (show Ensures text (fun _ => True) _ from ⟨chars, trivial⟩)
          fun found state₁ chars₁ _ => ?_
        cases found.body.vars[declared]? with
        | none => exact ⟨chars₁, nothing⟩
        | some entry =>
            refine Ensures.bind (show Ensures text (fun _ => True) _ from ⟨chars₁, trivial⟩)
              fun _ state₂ chars₂ _ => ?_
            have nonempty := exact_.nonempty
            have joined : subjectNode.span.join node.span =
                ⟨subjectNode.span.start, node.span.stop⟩ := by
              rw [Span.join, Nat.min_eq_left order, Nat.max_eq_right order']
            refine Ensures.bind (textAt_ensures (by rw [joined]; dsimp only; omega)
              (by rw [joined]; exact exact_.inside) chars₂) fun read state₃ chars₃ readWhole => ?_
            refine ⟨chars₃, fun expr same => ?_⟩
            obtain rfl := Option.some.inj same
            subst readWhole
            refine (faithful_iff rfl).2 ⟨⟨_, rfl, ?_, ?_, rfl, ?_⟩, List.forall_mem_nil _⟩
            · rw [joined]
              exact exact_.inside
            · rw [joined]
              dsimp only
              omega
            · refine Laid.token ?_ ?_
              · rw [joined]
                dsimp only
                omega
              · rw [String.toList_ofList]
                rfl
      · exact ⟨chars, nothing⟩
  | _ => exact ⟨chars, nothing⟩

theorem access_ensures (fit : FitOperands text onSegments)
    (depicts : Depicts text state start stop (before ++ segment :: after))
    (isOp : segment.op? = some .dot) (chars : other.ledger.chars = text) :
    Ensures text (FoldFits text (before ++ segment :: after))
      (OnSegments.access onSegments segment.span.start before after other) := by
  obtain ⟨front, fits, stands, back⟩ := depicts.split
  obtain ⟨low, last⟩ := front.lastOperands
  obtain ⟨high, first⟩ := back.firstOperands
  have nonempty := stands.nonempty
  have agrees (state : Reduction) : Agrees state state := ⟨rfl, rfl, rfl, rfl, rfl⟩
  unfold OnSegments.access
  refine Ensures.bind (fit _ _ _ _ other last chars) fun result state₁ chars₁ resolves₁ => ?_
  refine Ensures.bind (required_ensures _ _ _ chars₁) fun subject state₂ chars₂ found => ?_
  subst found
  refine Ensures.bind (fit _ _ _ _ state₂ first chars₂) fun result state₃ chars₃ resolves₂ => ?_
  refine Ensures.bind (required_ensures _ _ _ chars₃) fun member state₄ chars₄ found => ?_
  subst found
  obtain ⟨⟨presentLeft, spanLeft⟩, faithfulLeft⟩ := resolves₁
  obtain ⟨⟨presentRight, spanRight⟩, faithfulRight⟩ := resolves₂
  obtain ⟨subjectNode, knownSubject, placedSubject⟩ := Option.map_eq_some_iff.1 spanLeft
  obtain ⟨memberNode, knownMember, placedMember⟩ := Option.map_eq_some_iff.1 spanRight
  obtain ⟨-, -, gapLeft, innerLeft⟩ := last.shown.hull presentLeft
  obtain ⟨gapRight, -, -, innerRight⟩ := first.shown.hull presentRight
  have orderLeft := gapLeft.1
  have orderRight := gapRight.1
  have blankLeft := gapLeft.between depicts.portrays
  have blankRight := gapRight.between depicts.portrays
  have read : between text subjectNode.span.stop memberNode.span.start = ['.'] := by
    rw [placedSubject, placedMember, ← between_append text orderLeft
        (show segment.span.start ≤ (hull (OnSegments.firstOperands after)).start by omega),
          blankLeft,
      ← between_append text (Nat.le_of_lt nonempty) orderRight, blankRight,
      (fits.laid isOp nonempty).read_token]
    rfl
  have fold {expr : Expr} (faithful : expr.Faithful text)
      (span : HasSpan expr ⟨(hull (OnSegments.lastOperands before)).start,
        (hull (OnSegments.firstOperands after)).stop⟩) :
      FoldFits text (before ++ segment :: after)
        ⟨OnSegments.dropOperands before, expr, OnSegments.skipOperands after⟩ := by
    refine ⟨faithful, _, split_operands before segment after, by simp, ?_⟩
    rw [hull_eq_spread_hull (by simp), spread_eq presentLeft presentRight]
    exact span
  refine Ensures.bind ((qualifyConstruction?_ensures knownSubject knownMember faithfulLeft
      faithfulRight (by rw [placedSubject, placedMember]; omega) read chars₄).and_tracks
      (qualifyConstruction?_tracks spanLeft spanRight (agrees state₄)) fun _ _ => And.right)
    fun construction state₅ chars₅ outcome => ?_
  cases construction with
  | some construction =>
      exact ⟨chars₅, fold (outcome.1 _ rfl) (outcome.2 _ rfl)⟩
  | none =>
      refine Ensures.bind ((qualifyDeclaration?_ensures knownSubject knownMember faithfulRight
          (by rw [placedSubject, placedMember]; omega) (by rw [placedSubject, placedMember]; omega)
          chars₅).and_tracks
          (qualifyDeclaration?_tracks spanLeft spanRight (agrees state₅)) fun _ _ => And.right)
        fun declaration state₆ chars₆ outcome => ?_
      cases declaration with
      | some declaration =>
          refine ⟨chars₆, fold (outcome.1 _ rfl) ?_⟩
          have span := outcome.2 _ rfl
          rw [Span.join, Nat.min_eq_left (by omega), Nat.max_eq_right (by omega)] at span
          exact span
      | none =>
          have around := joinNode_around last.shown first.shown nonempty
            (show Covers _ (some subject) from ⟨presentLeft, spanLeft⟩)
            (show Covers _ (some member) from ⟨presentRight, spanRight⟩)
          rw [show (⟨segment.span.start, segment.span.start + 1⟩ : Span) = segment.span from
            (stands.span_eq isOp).symm]
          refine Ensures.bind (newNodeAround_ensures around (spread_bounds last first nonempty)
            chars₆) fun node state₇ chars₇ new => ?_
          obtain ⟨span, readNode⟩ := new
          refine ⟨chars₇, foldFits_around (split_operands before segment after) (by simp) rfl
            nonempty last first rfl span readNode ?_ ?_⟩
          · exact (laid_front last
              (show Covers _ (some subject) from ⟨presentLeft, spanLeft⟩)).append
              ((fits.laid isOp nonempty).append (laid_back first
                (show Covers _ (some member) from ⟨presentRight, spanRight⟩)))
          · have faithful : subject.Faithful text := faithfulLeft
            have faithful' : member.Faithful text := faithfulRight
            exact children_faithful (by simp [faithful, faithful'])

end

end Reduction
end MethodLowering
