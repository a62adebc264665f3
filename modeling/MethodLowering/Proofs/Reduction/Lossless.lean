import MethodLowering.Proofs.Reduction.BracketFidelity

/-!
# Reduced statements are faithful to their text

Every round keeps the segments faithful, so the expression of a whole range is.
-/

namespace MethodLowering
namespace Reduction

open Text MethodLowering.Expr

section

variable {text : List Char} {state other : Reduction} {start stop : Nat} {range : Span}
  {before after segments : List Segment} {segment : Segment} {expr : Expr}
  {onSegments : OnSegments.Operands}

/-! ## Text without operators -/

theorem leaf_faithful {node : Node} {form : LeafForm} (nonempty : node.span.start < node.span.stop)
    (inside : node.span.stop ≤ text.length)
    (read : node.text = String.ofList (node.span.slice text))
    (spelled : leafToken node form = between text node.span.start node.span.stop) :
    (Expr.leaf node form).Faithful text :=
  (faithful_iff rfl).2 ⟨⟨node, rfl, inside, nonempty, read,
    Laid.token (Nat.le_of_lt nonempty) spelled.symm⟩, nofun⟩

/-- A construction is spelled by `new` and its type. -/
theorem leafForm?_construction {chars : List Char} {typeName : String}
    (read : leafForm? chars = some (.construction typeName)) :
    squeeze chars = "new".toList ++ squeeze typeName.toList := by
  unfold leafForm? at read
  split at read
  · cases read
  · cases read
  · cases read
  · split at read
    · cases read
    · split at read
      · cases read
      · split at read
        · next starts =>
            obtain rfl := LeafForm.construction.inj (Option.some.inj read)
            obtain ⟨rest, rfl⟩ := List.isPrefixOf_iff_prefix.1 starts
            have dropped : ("new ".toList ++ rest).drop 4 = rest := rfl
            rw [dropped, @String.toList_ofList (trim rest), squeeze_trim, squeeze_append]
            rfl
        · contradiction

theorem classify_ensures (nonempty : range.start < range.stop) (inside : range.stop ≤ text.length)
    (chars : other.ledger.chars = text) :
    Ensures text (fun expr => expr.Faithful text) (classify range (range.slice text) other) := by
  have plain (form : LeafForm) (other : Reduction) (chars : other.ledger.chars = text)
      (spelled : ∀ node : Node, node.span = range →
        node.text = String.ofList (range.slice text) →
        leafToken node form = between text node.span.start node.span.stop) :
      Ensures text (fun expr => expr.Faithful text)
        ((do return .leaf (← newNode range) form : ReduceM Expr) other) := by
    refine Ensures.bind (newNode_ensures nonempty inside chars)
      fun node state₁ chars₁ ⟨span, read⟩ => ?_
    refine ⟨chars₁, leaf_faithful ?_ ?_ read (spelled node span (span ▸ read))⟩
    · rw [span]
      exact nonempty
    · rw [span]
      exact inside
  have squeezed (node : Node) (span : node.span = range)
      (read : node.text = String.ofList (range.slice text)) :
      squeeze node.text.toList = between text node.span.start node.span.stop := by
    rw [read, span, String.toList_ofList]
    rfl
  unfold classify
  cases form : leafForm? (range.slice text) with
  | some form' =>
      refine plain form' other chars fun node span read => ?_
      cases form' with
      | construction typeName =>
          rw [span]
          exact (leafForm?_construction form).symm
      | _ => exact squeezed node span read
  | none =>
      cases declared? (Text.words (range.slice text)) with
      | none => exact .reject
      | some declared =>
          match declared with
          | .nothing => exact plain .verbatim other chars squeezed
          | .variable name typeName isFinal isStatic =>
              refine Ensures.bind (show Ensures text (fun _ => True) _ from ⟨chars, trivial⟩)
                fun found state₁ chars₁ _ => ?_
              refine Ensures.bind (show Ensures text (fun _ => True) _ from ⟨chars₁, trivial⟩)
                fun _ state₂ chars₂ _ => ?_
              refine Ensures.bind (newNode_ensures nonempty inside chars₂)
                fun node state₃ chars₃ ⟨span, read⟩ => ?_
              refine ⟨chars₃, (faithful_iff rfl).2 ⟨⟨node, rfl, ?_, ?_, read, ?_⟩, nofun⟩⟩
              · rw [span]
                exact inside
              · rw [span]
                exact nonempty
              · refine Laid.token ?_ (squeezed node span (span ▸ read)).symm
                rw [span]
                exact Nat.le_of_lt nonempty

theorem leaf_ensures (depicts : Depicts text state start stop segments) (present : segments ≠ [])
    (chars : other.ledger.chars = text) :
    Ensures text (fun expr => expr.Faithful text ∧ HasSpan expr (hull segments))
      (OnSegments.leaf segments other) := by
  obtain ⟨-, -, gap, nonempty⟩ := depicts.shown.hull present
  have inside := depicts.shown.stop_le_size
  have size := depicts.portrays.size
  have order := gap.1
  unfold OnSegments.leaf
  split
  · refine Ensures.bind (newNode_ensures nonempty (by omega) chars)
      fun node state₁ chars₁ new => ?_
    obtain ⟨span, read⟩ := new
    refine ⟨chars₁, leaf_faithful ?_ ?_ read ?_, congrArg some span⟩
    · rw [span]
      exact nonempty
    · rw [span]
      omega
    · rw [leafToken, read, String.toList_ofList]
      · rfl
      · exact fun _ => LeafForm.noConfusion
  · have read : other.ledger.slice (hull segments) = (hull segments).slice text := by
      rw [Ledger.slice_eq, chars]
    have found := (classify_ensures nonempty (show (hull segments).stop ≤ text.length by omega)
      chars).and_tracks (classify_tracks _ _ ⟨rfl, rfl, rfl, rfl, rfl⟩) fun _ _ => And.right
    rw [← read] at found
    exact found

/-! ## Rounds -/

theorem fold_ensures {candidate : Candidate} {count : Nat} (fit : FitOperands text onSegments)
    (depicts : Depicts text state start stop (before ++ segment :: after))
    (isOp : segment.op? = some candidate.op)
    (position : candidate.position = segment.span.start) (chars : other.ledger.chars = text) :
    Ensures text (FoldFits text (before ++ segment :: after))
      (OnSegments.fold onSegments candidate count before after other) := by
  obtain ⟨place, op, isSign⟩ := candidate
  dsimp only at isOp position
  subst position
  refine OnSegments.fold_cases (motive := fun folds =>
    Ensures text (FoldFits text (before ++ segment :: after)) (folds other))
    ?_ ?_ ?_ ?_ ?_ ?_ ?_ ?_
  · exact fun opens => bracket_ensures count fit depicts isOp opens chars
  · exact fun same => conditional_ensures fit depicts (same ▸ isOp) chars
  · exact fun same => access_ensures fit depicts (same ▸ isOp) chars
  · exact fun same => typeTest_ensures fit depicts (same ▸ isOp) chars
  · exact fun _ => unary_ensures fit depicts isOp chars
  · exact fun _ => assignment_ensures fit depicts isOp chars
  · exact fun _ => .rejectBracket
  · exact fun _ => binary_ensures fit depicts isOp chars

/-- The segments of a fold are replaced by its expression. -/
theorem Depicts.folded {front middle back : List Segment}
    (depicts : Depicts text state range.start range.stop (front ++ middle ++ back))
    (present : middle ≠ []) (span : HasSpan expr (hull middle)) (faithful : expr.Faithful text) :
    ∃ final, Depicts text final range.start range.stop
      (front ++ ⟨hull middle, .tree expr⟩ :: back) ∧
      ∀ p, final.ledger.isSpace p = state.ledger.isSpace p := by
  obtain ⟨high, depictsFront, depictsBack⟩ := depicts.parts
  obtain ⟨low, depictsFront, depictsMiddle⟩ := depictsFront.parts
  obtain ⟨gap, -, gap', nonempty⟩ := depictsMiddle.shown.hull present
  have inside := depictsMiddle.shown.stop_le_size
  have order := gap'.1
  obtain ⟨final, -, -, changes, shown⟩ := keepPending_shows span nonempty
    (depictsMiddle.shown.isSpace_hull_start present)
    (depictsMiddle.shown.isSpace_hull_stop present)
    (depictsFront.shown.uptoGap gap (by omega)) (Shows.behindGap gap' depictsBack.shown)
  refine ⟨final, ⟨⟨changes.chars.trans depicts.portrays.chars, fun p blank => ?_⟩, shown, ?_⟩,
    changes.spaces⟩
  · rw [changes.spaces] at blank
    exact depicts.portrays.blank p blank
  · intro segment member
    rcases List.mem_append.1 member with inFront | behind
    · exact depictsFront.fits segment inFront
    · rcases List.mem_cons.1 behind with rfl | inBack
      · exact faithful
      · exact depictsBack.fits segment inBack

theorem next_ensures (chars : other.ledger.chars = text) :
    Ensures text (fun candidate => candidate = OnSegments.best? segments)
      (OnSegments.next segments other) := by
  unfold OnSegments.next
  cases OnSegments.best? segments with
  | some candidate => exact ⟨chars, rfl⟩
  | none =>
      cases (headsOf segments).head? with
      | some head => exact .rejectBracket
      | none => exact ⟨chars, rfl⟩

theorem whole?_faithful (depicts : Depicts text state start stop segments)
    (whole : OnSegments.whole? segments = some expr) : expr.Faithful text := by
  unfold OnSegments.whole? at whole
  split at whole
  · next segment => exact (depicts.fits segment List.mem_cons_self).tree whole
  · contradiction

/-- Reduction stops with the text of what is left. -/
theorem stalls_ensures {α : Type} {property : α → Prop}
    (depicts : Depicts text state start stop segments) (chars : other.ledger.chars = text) :
    Ensures text property
      ((do reject (.resolveStalled (← textAt (hull segments))) : ReduceM α) other) := by
  have order : (hull segments).start ≤ (hull segments).stop ∧
      (hull segments).stop ≤ text.length := by
    by_cases present : segments = []
    · subst present
      exact ⟨Nat.le_refl _, Nat.zero_le _⟩
    · obtain ⟨-, -, gap, nonempty⟩ := depicts.shown.hull present
      have inside := depicts.shown.stop_le_size
      have size := depicts.portrays.size
      have ends := gap.1
      omega
  exact (textAt_ensures order.1 order.2 chars).bind fun _ _ _ _ => .reject

theorem rounds_ensures (fit : FitOperands text onSegments) (count : Nat)
    (depicts : Depicts text state range.start range.stop segments) (spans : hull segments = range)
    (present : segments ≠ []) (chars : other.ledger.chars = text) :
    Ensures text (fun expr => expr.Faithful text ∧ HasSpan expr range)
      (OnSegments.rounds onSegments count segments other) := by
  induction count generalizing state other segments with
  | zero => exact stalls_ensures depicts chars
  | succ count induction =>
      unfold OnSegments.rounds
      refine Ensures.bind (show Ensures text (fun _ => True) _ from ⟨chars, trivial⟩)
        fun _ state₁ chars₁ _ => ?_
      cases whole : OnSegments.whole? segments with
      | some expr =>
          exact ⟨chars₁, whole?_faithful depicts whole, spans ▸ whole?_hasSpan depicts.shown whole⟩
      | none =>
          refine Ensures.bind (next_ensures chars₁) fun candidate state₂ chars₂ best => ?_
          cases candidate with
          | none =>
              rw [← spans]
              exact leaf_ensures depicts present chars₂
          | some candidate =>
              obtain ⟨before, segment, after, rfl, isOp, position⟩ := exists_of_best? best.symm
              dsimp only
              rw [position, splitAt_eq depicts.shown]
              refine Ensures.bind (fold_ensures fit depicts isOp position chars₂)
                fun folded state₃ chars₃ fits => ?_
              obtain ⟨front, expr, back⟩ := folded
              dsimp only
              obtain ⟨faithful, middle, split, solid, span⟩ := fits
              dsimp only at faithful split span
              split
              · next none =>
                  rw [Bool.and_eq_true, List.isEmpty_iff, List.isEmpty_iff] at none
                  obtain ⟨rfl, rfl⟩ := none
                  rw [List.nil_append, List.append_nil] at split
                  rw [← split, spans] at span
                  exact ⟨chars₃, faithful, span⟩
              · have first := depicts.shown.isSpace_hull_start present
                have last := depicts.shown.isSpace_hull_stop present
                rw [spans] at first last
                rw [split] at depicts
                obtain ⟨final, depicts', spaces⟩ := depicts.folded solid span faithful
                rw [show expr.node?.map (·.span) = some (hull middle) from span, Option.getD_some]
                exact induction depicts' (depicts'.shown.hull_eq (by simp)
                  ((spaces _).trans first) ((spaces _).trans last)) (by simp) chars₃

theorem reduce_fit (nesting depth : Nat) : FitOperands text (OnSegments.reduce nesting depth) := by
  induction nesting generalizing depth with
  | zero => exact fun state start stop segments other => stalls_ensures
  | succ nesting induction =>
      intro state start stop segments other depicts chars
      unfold OnSegments.reduce
      refine Ensures.bind (show Ensures text (fun _ => True) _ from ⟨chars, trivial⟩)
        fun _ state₁ chars₁ _ => ?_
      split
      · next none => exact ⟨chars₁, List.isEmpty_iff.1 none, faithful_absent⟩
      · next some =>
          rw [List.isEmpty_iff] at some
          obtain ⟨-, inner, -, -⟩ := depicts.shown.hull some
          refine Ensures.bind (rounds_ensures (induction (depth + 1)) Limits.reductionRounds
            ⟨depicts.portrays, inner, depicts.fits⟩ rfl some chars₁)
            fun expr state₂ chars₂ stands => ?_
          obtain ⟨faithful, span⟩ := stands
          exact ⟨chars₂, ⟨some, span⟩, faithful⟩

theorem statement_ensures (nesting : Nat) (depicts : Depicts text state start stop segments)
    (chars : other.ledger.chars = text) :
    Ensures text (fun expr => expr.Faithful text ∧
        (expr.isPresent = false ∧ segments = [] ∨ segments ≠ [] ∧ HasSpan expr (hull segments)))
      (OnSegments.statement nesting segments other) := by
  unfold OnSegments.statement
  refine Ensures.bind (show Ensures text (fun _ => True) _ from ⟨chars, trivial⟩)
    fun _ state₁ chars₁ _ => ?_
  refine Ensures.bind (reduce_fit nesting 1 _ _ _ segments state₁ depicts chars₁)
    fun result state₂ chars₂ resolves => ?_
  refine ⟨chars₂, resolves.2, ?_⟩
  cases result with
  | none => exact .inl ⟨rfl, resolves.1⟩
  | some expr => exact .inr resolves.1

end

end Reduction
end MethodLowering
