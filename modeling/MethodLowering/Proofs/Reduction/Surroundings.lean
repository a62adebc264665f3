import MethodLowering.Proofs.Reduction.Advancing
import MethodLowering.Proofs.Reduction.Chains
import MethodLowering.Proofs.Reduction.CopiedFolds

/-!
# Segments between further segments

Segments in front of others and behind them are left alone by a fold that does not draw them in:
round brackets are folded between them as they are alone.
-/

namespace MethodLowering
namespace Reduction
namespace OnSegments

/-- What stands behind segments and is not drawn into them: it starts with an operator, continues no
chain and has no brackets. -/
structure Ends (position : Nat) (trail : List Segment) : Prop where
  first : ∀ segment ∈ trail.head?, segment.isOperand = false
  plain : ∀ head ∈ headsOf trail, head.2 ≠ .dot ∧ head.2.isOpening = false ∧
    head.2.isClosing = false
  behind : ∀ segment ∈ trail, position ≤ segment.span.start ∧ position ≤ segment.span.stop

/-- What stands in front of segments and behind them without being drawn into them. -/
structure Surrounds (start stop : Nat) (lead trail : List Segment) : Prop where
  present : lead ≠ []
  closed : lastOperands lead = []
  before : ∀ segment ∈ lead, segment.span.start < start
  ends : Ends stop trail

theorem ends_nil (position : Nat) : Ends position [] := ⟨nofun, nofun, nofun⟩

/-- The fold between further segments. -/
def Folded.between (lead trail : List Segment) (folded : Folded) : Folded :=
  ⟨lead ++ folded.front, folded.expr, folded.back ++ trail⟩

section

variable {operands : Operands} {op : Op} {position last close count more : Nat}
  {before after segments lead trail taken : List Segment} {segment : Segment}
    {content : Option Expr}

/-! ## Taking segments -/

/-- What ends segments is neither taken nor dropped with them. -/
theorem takeWhile_ends {α : Type} {test : α → Bool} {ys : List α}
    (none : ∀ y ∈ ys.head?, test y = false) (xs : List α) :
    (xs ++ ys).takeWhile test = xs.takeWhile test ∧
      (xs ++ ys).dropWhile test = xs.dropWhile test ++ ys := by
  induction xs with
  | nil =>
      cases ys with
      | nil => exact ⟨rfl, rfl⟩
      | cons y ys =>
          have stops := none y rfl
          exact ⟨List.takeWhile_cons_of_neg (by simp [stops]), List.dropWhile_cons_of_neg
            (by simp [stops])⟩
  | cons x xs induction =>
      rw [List.cons_append, List.takeWhile_cons, List.takeWhile_cons, List.dropWhile_cons,
        List.dropWhile_cons]
      split
      · exact ⟨congrArg (List.cons x) induction.1, induction.2⟩
      · exact ⟨rfl, rfl⟩

theorem Ends.firstOperands (ends : Ends position trail) (segments : List Segment) :
    firstOperands (segments ++ trail) = firstOperands segments :=
  (takeWhile_ends ends.first segments).1

theorem Ends.skipOperands (ends : Ends position trail) (segments : List Segment) :
    skipOperands (segments ++ trail) = skipOperands segments ++ trail :=
  (takeWhile_ends ends.first segments).2

theorem Ends.none (ends : Ends position trail) :
    OnSegments.firstOperands trail = [] ∧ OnSegments.skipOperands trail = trail :=
  ⟨ends.firstOperands [], ends.skipOperands []⟩

theorem lastOperands_lead (closed : lastOperands lead = []) (segments : List Segment) :
    lastOperands (lead ++ segments) = lastOperands segments ∧
      dropOperands (lead ++ segments) = lead ++ dropOperands segments := by
  induction segments using List.reverseRecOn with
  | nil =>
      have all := dropOperands_append lead
      rw [closed, List.append_nil] at all
      rw [List.append_nil]
      exact ⟨closed, all.trans (List.append_nil lead).symm⟩
  | append_singleton segments last induction =>
      obtain ⟨taken, dropped⟩ := induction
      unfold lastOperands at taken ⊢
      unfold dropOperands at dropped ⊢
      rw [← List.append_assoc, List.rtakeWhile_concat, List.rtakeWhile_concat,
        List.rdropWhile_concat,
        List.rdropWhile_concat]
      split
      · exact ⟨congrArg (· ++ [last]) taken, dropped⟩
      · exact ⟨rfl, List.append_assoc ..⟩

/-- A position in front of further segments splits a list as it did without them. -/
theorem splitAt_append (known : ∃ segment ∈ segments, segment.span.start = position) :
    splitAt position (segments ++ trail) =
      ((splitAt position segments).1, (splitAt position segments).2 ++ trail) := by
  induction segments with
  | nil => simp at known
  | cons first rest induction =>
      by_cases here : first.span.start = position
      · simp [splitAt, here]
      · have later := induction (by simpa [here] using known)
        rw [splitAt, splitAt, Prod.mk.injEq] at later
        rw [splitAt, splitAt, List.cons_append, List.takeWhile_cons_of_pos (by simpa using here),
          List.takeWhile_cons_of_pos (by simpa using here),
          List.dropWhile_cons_of_pos (by simpa using here),
          List.dropWhile_cons_of_pos (by simpa using here), later.1, later.2]

theorem splitAt_lead (other : ∀ segment ∈ lead, segment.span.start ≠ position)
    (segments : List Segment) :
    splitAt position (lead ++ segments) =
      (lead ++ (splitAt position segments).1, (splitAt position segments).2) := by
  induction lead with
  | nil => rfl
  | cons first rest induction =>
      have later := induction fun segment among => other segment (List.mem_cons_of_mem _ among)
      have here := other first List.mem_cons_self
      rw [splitAt, splitAt, Prod.mk.injEq] at later
      rw [splitAt, splitAt, List.cons_append, List.takeWhile_cons_of_pos (by simpa using here),
        List.dropWhile_cons_of_pos (by simpa using here), later.1, later.2]
      rfl

/-! ## Chains -/

/-- Behind a list without brackets nothing is closed. -/
theorem closingHead?_plain {opening closing : Op} (opens : opening.isOpening = true)
    (closes : closing.isClosing = true) {heads more : List (Nat × Op)}
    (plain : ∀ head ∈ more, head.2.isOpening = false ∧ head.2.isClosing = false) (depth : Nat) :
    closingHead? opening closing depth (heads ++ more) =
      closingHead? opening closing depth heads := by
  induction heads generalizing depth with
  | nil =>
      induction more generalizing depth with
      | nil => rfl
      | cons head rest induction =>
          obtain ⟨noOpening, noClosing⟩ := plain head List.mem_cons_self
          have notOpening : head.2 ≠ opening := by
            rintro same
            rw [same, opens] at noOpening
            contradiction
          have notClosing : head.2 ≠ closing := by
            rintro same
            rw [same, closes] at noClosing
            contradiction
          rw [List.nil_append, closingHead?, closingHead?, if_neg (by simpa using notOpening),
            if_neg (by simpa using notClosing)]
          exact induction (fun other among => plain other (List.mem_cons_of_mem _ among)) depth
  | cons head rest induction =>
      rw [List.cons_append, closingHead?, closingHead?, induction, induction, induction]

theorem bracketed?_ends (ends : Ends last trail) (op : Op)
    (low : ∀ head ∈ headsOf (segment :: segments), head.1 < last) :
    bracketed? op segment (segments ++ trail) =
      (bracketed? op segment segments).map fun parts => (parts.1, parts.2 ++ trail) := by
  unfold bracketed?
  split
  · cases closes : op.closing? with
    | none => rfl
    | some closing =>
        obtain ⟨opens, closes'⟩ := Matching.isClosing_of_closing? closes
        rw [← List.cons_append, headsOf_append, Option.bind_some, Option.bind_some,
          closingHead?_plain opens closes' fun head among => (ends.plain head among).2]
        cases found : closingHead? op closing 0 (headsOf (segment :: segments)) with
        | none => rfl
        | some close =>
            have before := low _ (mem_of_closingHead? found)
            have beyond : ∀ segment ∈ trail.head?, decide (segment.span.start ≤ close) = false := by
              intro segment first
              have behind := (ends.behind segment (List.mem_of_mem_head? first)).1
              exact decide_eq_false (by omega)
            obtain ⟨takes, drops⟩ := takeWhile_ends beyond segments
            rw [Option.map_some, Option.map_some, Option.map_some, takes, drops]
  · rfl

/-- A chain does not reach beyond what ends it. -/
theorem castFrom_trail (ends : Ends last trail) (count : Nat) (taken : List Segment) :
    castFrom count taken trail = (taken, trail) := by
  obtain ⟨none, all⟩ := ends.none
  cases count with
  | zero => rw [castFrom, none, all, List.append_nil]
  | succ count =>
      rw [castFrom, none, all, List.append_nil]
      cases trail with
      | nil => rfl
      | cons segment behind =>
          have noOperand := ends.first segment rfl
          rw [Segment.isOperand, Option.isNone_eq_false_iff] at noOperand
          obtain ⟨op, isOp⟩ := Option.isSome_iff_exists.1 noOperand
          obtain ⟨noDot, opens, -⟩ := ends.plain (segment.span.start, op)
            (by rw [headsOf_op isOp]; exact List.mem_cons_self)
          have unbracketed : bracketed? op segment behind = Option.none := by
            rw [bracketed?, if_neg]
            rw [Bool.or_eq_true, beq_iff_eq, beq_iff_eq]
            rintro (rfl | rfl)
            · contradiction
            · contradiction
          have noLink : (some op == some Op.dot) = false := by simpa using noDot
          dsimp only
          rw [isOp, Option.bind_some, unbracketed, noLink, if_neg Bool.false_ne_true, ite_self]

theorem castFrom_ends (ends : Ends last trail) (count : Nat) (taken : List Segment)
    (low : ∀ head ∈ headsOf segments, head.1 < last) :
    castFrom count taken (segments ++ trail) =
      ((castFrom count taken segments).1, (castFrom count taken segments).2 ++ trail) := by
  induction count generalizing taken segments with
  | zero => rw [castFrom, castFrom, ends.firstOperands, ends.skipOperands]
  | succ count induction =>
      have all := headsOf_skipOperands segments
      rw [castFrom, castFrom, ends.firstOperands, ends.skipOperands]
      rw [← all] at low
      clear all
      generalize taken ++ OnSegments.firstOperands segments = operand
      generalize OnSegments.skipOperands segments = rest at low
      cases rest with
      | nil =>
          have stops := castFrom_trail ends (count + 1) operand
          rw [castFrom, ends.none.1, ends.none.2, List.append_nil] at stops
          exact stops
      | cons next behind =>
          rw [List.cons_append]
          dsimp only
          split
          · rfl
          · have behindLow : ∀ head ∈ headsOf behind, head.1 < last := by
              intro head among
              refine low head ?_
              rw [← List.singleton_append, headsOf_append]
              exact List.mem_append_right _ among
            split
            · exact induction _ behindLow
            · cases next.op? with
              | none => rfl
              | some op =>
                  rw [Option.bind_some, Option.bind_some, bracketed?_ends ends op low]
                  cases found : bracketed? op next behind with
                  | none => rfl
                  | some parts =>
                      obtain ⟨inner, rest⟩ := parts
                      refine induction _ fun head among => behindLow head ?_
                      rw [← bracketed?_append found, headsOf_append]
                      exact List.mem_append_right _ among

theorem castFrom_add (enough : segments.length ≤ count) (more : Nat) (taken : List Segment) :
    castFrom (count + more) taken segments = castFrom count taken segments := by
  induction count generalizing taken segments with
  | zero =>
      obtain rfl := List.eq_nil_of_length_eq_zero (Nat.le_zero.1 enough)
      rw [castFrom_trail (ends_nil 0), castFrom_trail (ends_nil 0)]
  | succ count induction =>
      have shorter : (OnSegments.skipOperands segments).length ≤ segments.length :=
        (List.dropWhile_suffix _).length_le
      rw [Nat.add_right_comm, castFrom, castFrom]
      generalize taken ++ OnSegments.firstOperands segments = operand
      generalize OnSegments.skipOperands segments = rest at shorter
      cases rest with
      | nil => rfl
      | cons next behind =>
          rw [List.length_cons] at shorter
          dsimp only
          split
          · rfl
          · split
            · exact induction (by omega) _
            · split
              · next inner rest found =>
                  obtain ⟨op, -, found⟩ := Option.bind_eq_some_iff.1 found
                  have both := congrArg List.length (bracketed?_append found)
                  rw [List.length_append] at both
                  exact induction (by omega) _
              · rfl

/-- A chain has no more links than there are segments. -/
theorem castFrom_enough (plenty : segments.length ≤ more) (enough : segments.length ≤ count)
    (taken : List Segment) : castFrom more taken segments = castFrom count taken segments := by
  rcases Nat.le_total count more with fewer | fewer
  · obtain ⟨rest, rfl⟩ := Nat.exists_eq_add_of_le fewer
    exact castFrom_add enough rest taken
  · obtain ⟨rest, rfl⟩ := Nat.exists_eq_add_of_le fewer
    exact (castFrom_add plenty rest taken).symm

/-! ## Folding round brackets -/

section

variable (closed : lastOperands lead = []) (ends : Ends last trail)
  (low : ∀ head ∈ headsOf after, head.1 < last) (enough : after.length ≤ count)
  (plenty : after.length ≤ more)
include closed ends low enough plenty

theorem paren_between :
    paren operands position close more content (lead ++ before) (after ++ trail) =
      Folded.between lead trail <$> paren operands position close count content before after := by
  obtain ⟨taken, dropped⟩ := lastOperands_lead closed before
  unfold paren
  rw [taken, dropped, castFrom_ends ends _ _ low, castFrom_enough plenty enough]
  by_cases behind : (!(lastOperands before).isEmpty) = true
  · rw [if_pos behind, if_pos behind, map_bind]
    refine bind_congr fun callee => ?_
    cases callee with
    | none => rfl
    | some callee =>
        dsimp only
        rw [map_bind]
        rfl
  · rw [if_neg behind, if_neg behind]
    dsimp only
    generalize (if (castFrom count [] after).1.isEmpty =
      true then none else content.bind castType?) = type
    cases type with
    | none =>
        dsimp only
        rw [map_bind]
        rfl
    | some typeName =>
        dsimp only
        rw [map_bind]
        refine bind_congr fun operand => ?_
        cases operand with
        | none => rfl
        | some operand =>
            dsimp only
            rw [map_bind]
            rfl

/-- Round brackets are folded between further segments as they are alone. -/
theorem openParen_between :
    bracket operands .openParen position more (lead ++ before) (after ++ trail) =
      Folded.between lead trail <$> bracket operands .openParen position count before after := by
  have noClosing : (headsOf trail).find? (·.2 == .closeParen) = none := by
    rw [List.find?_eq_none]
    intro head among same
    have plain := (ends.plain head among).2.2
    rw [eq_of_beq same] at plain
    contradiction
  unfold bracket
  dsimp only [Op.closing?]
  rw [headsOf_append, List.find?_append, noClosing, Option.or_none]
  cases search : (headsOf after).find? (·.2 == .closeParen) with
  | none => rfl
  | some head =>
      obtain ⟨close, found⟩ := head
      have among := List.mem_of_find?_eq_some search
      have known : ∃ segment ∈ after, segment.span.start = close := by
        obtain ⟨segment, member, isOp⟩ := List.mem_filterMap.1 among
        obtain ⟨op, -, same⟩ := Option.map_eq_some_iff.1 isOp
        exact ⟨segment, member, congrArg Prod.fst same⟩
      have suffix : (splitAt close after).2 <:+ after :=
        (List.tail_suffix _).trans (List.dropWhile_suffix _)
      have rest : ∀ head ∈ headsOf (splitAt close after).2, head.1 < last := by
        obtain ⟨front, same⟩ := suffix
        intro head member
        refine low head ?_
        rw [← same, headsOf_append]
        exact List.mem_append_right _ member
      dsimp only
      rw [splitAt_append known]
      dsimp only
      rw [map_bind]
      refine bind_congr fun _ => ?_
      rw [map_bind]
      refine bind_congr fun content => ?_
      exact paren_between closed ends rest (Nat.le_trans suffix.length_le enough)
        (Nat.le_trans suffix.length_le plenty)

end

/-- Only opening round brackets have the lowest level. -/
theorem eq_openParen_of_level {candidate : Candidate} (plain : candidate.op.isClosing = false)
    (lowest : candidate.level ≤ 0) : candidate.op = .openParen := by
  obtain ⟨position, op, isSign⟩ := candidate
  cases isSign with
  | true => exact absurd lowest (Nat.not_succ_le_zero _)
  | false =>
      change op.isClosing = false at plain
      change op.row.level ≤ 0 at lowest
      change op = .openParen
      revert plain lowest
      cases op <;> decide

/-- The last opening round bracket is folded first. -/
theorem best?_openParen (isOp : segment.op? = some .openParen)
    (later : ∀ head ∈ headsOf after, head.2 ≠ .openParen) :
    best? (before ++ segment :: after) = some ⟨segment.span.start, .openParen, false⟩ := by
  cases best : best? (before ++ segment :: after) with
  | none => exact absurd (isClosing_of_best?_eq_none best rfl isOp) Bool.false_ne_true
  | some chosen =>
      obtain ⟨before', segment', after', split, isOp', plain, same, isChosen⟩ :=
        exists_of_best?_eq_some best
      have round : chosen.op = .openParen := by
        have among : segment ∈ before' ++ segment' :: after' := by
          rw [← split]
          simp
        rcases List.mem_append.1 among with inFront | behind
        · exact eq_openParen_of_level plain (le_level_of_mem isChosen.front_le inFront isOp rfl)
        · rcases List.mem_cons.1 behind with rfl | inBack
          · exact Option.some.inj (isOp'.symm.trans isOp)
          · exact eq_openParen_of_level plain (le_level_of_mem isChosen.back_le inBack isOp rfl)
      rw [round] at same isOp'
      have last : ∀ head ∈ headsOf after', head.2 ≠ .openParen := by
        have behind := isChosen.ne_behind (by rw [round]; rfl) (by rw [same]; rfl)
        rwa [round] at behind
      have here (front : List Segment) (segment : Segment) (back : List Segment)
          (isOp : segment.op? = some .openParen) :
          (segment.span.start, Op.openParen) ∈ headsOf (front ++ segment :: back) := by
        rw [headsOf_append, headsOf_op isOp]
        exact List.mem_append_right _ List.mem_cons_self
      have once : segment' = segment := by
        rcases List.append_eq_append_iff.1 split with ⟨middle, -, tail⟩ | ⟨middle, -, tail⟩
        · rcases List.cons_eq_append_iff.1 tail with ⟨-, tail⟩ | ⟨middle', -, tail⟩
          · exact (List.cons.inj tail).1
          · exact absurd rfl (later _ (tail ▸ here middle' segment' after' isOp'))
        · rcases List.cons_eq_append_iff.1 tail with ⟨-, tail⟩ | ⟨middle', -, tail⟩
          · exact (List.cons.inj tail).1.symm
          · exact absurd rfl (last _ (tail ▸ here middle' segment after isOp))
      rw [same, once]
      rfl

/-- Between further segments, a list does not get shorter. -/
theorem Surrounds.length_le {start stop : Nat} (surrounds : Surrounds start stop lead trail)
    (low : start ≤ (hull segments).start) (high : (hull segments).stop ≤ stop)
    (filled : segments ≠ []) :
    (hull segments).length ≤ (hull (lead ++ segments ++ trail)).length := by
  obtain ⟨first, rest, rfl⟩ := List.exists_cons_of_ne_nil surrounds.present
  have begins := surrounds.before first List.mem_cons_self
  have starts : (hull (first :: rest ++ segments ++ trail)).start = first.span.start := rfl
  have stops : (hull segments).stop ≤ (hull (first :: rest ++ segments ++ trail)).stop := by
    rcases List.eq_nil_or_concat' trail with rfl | ⟨front, last, rfl⟩
    · obtain ⟨front, last, rfl⟩ := (List.eq_nil_or_concat' segments).resolve_left filled
      rw [List.append_nil, ← List.append_assoc, hull_append_stop, hull_append_stop]
    · have behind := (surrounds.ends.behind last (by simp)).2
      rw [← List.append_assoc, hull_append_stop]
      omega
  rw [Span.length, Span.length, starts]
  omega

end

end OnSegments
end Reduction
end MethodLowering
