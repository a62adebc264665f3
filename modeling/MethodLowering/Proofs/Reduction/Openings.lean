import MethodLowering.Proofs.Reduction.Surroundings

/-!
# Round brackets of an operand

Round brackets are folded before anything else, so those of an operand are folded in the same way
whatever stands around it.  What is left of a chain of accesses, calls and indices is still such a
chain.
-/

namespace MethodLowering
namespace Reduction
namespace OnSegments

section

variable {operands : Operands} {op : Op} {position last count : Nat}
  {before after segments lead trail : List Segment} {segment : Segment}

/-! ## Rounds for round brackets -/

/-- The number of opening round brackets. -/
def roundCount (segments : List Segment) : Nat :=
  ((headsOf segments).filter (·.2 == .openParen)).length

theorem roundCount_append (front back : List Segment) :
    roundCount (front ++ back) = roundCount front + roundCount back := by
  rw [roundCount, headsOf_append, List.filter_append, List.length_append]
  rfl

theorem roundCount_op (isOp : segment.op? = some .openParen) (back : List Segment) :
    roundCount (segment :: back) = roundCount back + 1 := by
  rw [roundCount, headsOf_op isOp]
  rfl

theorem roundCount_tree (span : Span) (expr : Expr) (back : List Segment) :
    roundCount (⟨span, .tree expr⟩ :: back) = roundCount back := by
  rw [roundCount, headsOf_operand rfl]
  rfl

theorem roundCount_sublist (sublist : segments.Sublist before) :
    roundCount segments ≤ roundCount before :=
  ((sublist.filterMap _).filter _).length_le

theorem Ends.roundCount (ends : Ends position trail) : roundCount trail = 0 := by
  refine List.length_eq_zero_iff.2 (List.filter_eq_nil_iff.2 fun head among => ?_)
  have opens := (ends.plain head among).2.1
  rintro same
  rw [eq_of_beq same] at opens
  contradiction

theorem ne_of_roundCount (none : roundCount segments = 0) :
    ∀ head ∈ headsOf segments, head.2 ≠ .openParen := by
  intro head among same
  have empty := List.eq_nil_of_length_eq_zero none
  rw [List.filter_eq_nil_iff] at empty
  exact empty head among (by simpa using same)

/-- The last opening round bracket. -/
theorem exists_last_round (present : roundCount segments ≠ 0) :
    ∃ before segment after, segments = before ++ segment :: after ∧ segment.op? = some .openParen ∧
      roundCount after = 0 := by
  induction segments using List.reverseRecOn with
  | nil => exact absurd rfl present
  | append_singleton segments last induction =>
      by_cases isRound : last.op? = some .openParen
      · exact ⟨segments, last, [], rfl, isRound, rfl⟩
      · have none : roundCount [last] = 0 := by
          rw [roundCount, headsOf, List.filterMap_cons]
          cases isOp : last.op? with
          | none => rfl
          | some op =>
              have other : op ≠ .openParen := fun same => isRound (by rw [isOp, same])
              simp [other]
        rw [roundCount_append, none] at present
        obtain ⟨before, segment, after, rfl, isOp, empty⟩ := induction present
        exact ⟨before, segment, after ++ [last],
          by simp, isOp, by rw [roundCount_append, empty, none]⟩

theorem whole?_of_op (isOp : segment.op? = some op) :
    whole? (before ++ segment :: after) = none := by
  have noTree : segment.tree? = none := by
    obtain ⟨span, piece⟩ := segment
    cases piece <;> first | rfl | contradiction
  cases before with
  | nil =>
      cases after with
      | nil => exact noTree
      | cons => rfl
  | cons first rest =>
      cases rest with
      | nil => rfl
      | cons => rfl

/-- A round that folds round brackets. -/
theorem rounds_openParen (isOp : segment.op? = some .openParen) (last : roundCount after = 0)
    (split : splitAt segment.span.start (before ++ segment :: after) = (before, after))
    (count : Nat) :
    rounds operands (count + 1) (before ++ segment :: after) = (do
      modifyBody fun body =>
        { body with effort := { body.effort with rounds := body.effort.rounds + 1 } }
      let folded ← bracket operands .openParen segment.span.start
        (hull (before ++ segment :: after)).length before after
      if folded.front.isEmpty && folded.back.isEmpty then return folded.expr
      else
        let span := (folded.expr.node?.map (·.span)).getD (hull (before ++ segment :: after))
        rounds operands count (folded.front ++ ⟨span, .tree folded.expr⟩ :: folded.back)) := by
  rw [rounds, whole?_of_op isOp, next, best?_openParen isOp (ne_of_roundCount last)]
  dsimp only
  rw [pure_bind]
  dsimp only
  rw [split]
  rfl

end

/-- A chain in the middle of its reduction, with its copy. -/
structure ChainCopy (text whole : List Char) (range : Span) (shift stop : Nat)
    (segments copies : List Segment) (left right : Reduction) : Prop where
  copying : Copying shift stop whole left right
  all : AllCopy shift stop segments copies
  filled : segments ≠ []
  chain : IsChain segments
  depicts : ∃ state, Depicts text state range.start range.stop segments
  chars : left.ledger.chars = text

section

variable {text whole : List Char} {state left right final : Reduction}
  {operands operands' : Operands}
  {shift stop first last count : Nat} {segments copies lead trail before after : List Segment}
  {segment : Segment} {expr : Expr}

theorem exists_of_allCopy_append (all : AllCopy shift stop (before ++ after) copies) :
    ∃ before' after', copies = before' ++ after' ∧ AllCopy shift stop before before' ∧
      AllCopy shift stop after after' := by
  induction before generalizing copies with
  | nil => exact ⟨[], copies, rfl, .nil, all⟩
  | cons segment before induction =>
      cases all with
      | cons copied rest =>
          obtain ⟨before', after', rfl, inFront, behind⟩ := induction rest
          exact ⟨_, after', rfl, .cons copied inFront, behind⟩

theorem hasSpan_copies {copy : Expr} {span : Span} (copied : expr.Copies shift stop copy)
    (has : HasSpan expr span) : HasSpan copy (span.shift shift) ∧ span.stop ≤ stop := by
  have nodes := copied.node?
  unfold HasSpan at has ⊢
  revert nodes has
  generalize expr.node? = node
  generalize copy.node? = node'
  intro has nodes
  cases nodes with
  | none => contradiction
  | @some node node' nodes =>
      obtain rfl : node.span = span := Option.some.inj has
      exact ⟨congrArg some nodes.span, nodes.within⟩

/-- A copy is as wide as it has segments. -/
theorem length_le_hull_copies (all : AllCopy shift stop segments copies) (filled : segments ≠ [])
    (shown : Shows state first last segments) : segments.length ≤ (hull copies).length := by
  obtain ⟨-, shownHull, -, -⟩ := shown.hull filled
  have count := shownHull.length_le
  rw [(hull_copies all filled).1, Span.length_shift, Span.length]
  omega

theorem Surrounds.hull_le (surrounds : Surrounds shift (stop + shift) lead trail)
    (all : AllCopy shift stop segments copies) (filled : segments ≠ []) :
    (hull copies).length ≤ (hull (lead ++ copies ++ trail)).length := by
  obtain ⟨hull, inside⟩ := hull_copies all filled
  refine surrounds.length_le ?_ ?_ ?_
  · rw [hull, Span.shift]
    exact Nat.le_add_left _ _
  · rw [hull, Span.shift]
    exact Nat.add_le_add_right inside _
  · rintro rfl
    exact filled (List.forall₂_nil_right_iff.1 all)

theorem exists_of_mem_copies (all : AllCopy shift stop segments copies) {copy : Segment}
    (among : copy ∈ copies) : ∃ segment ∈ segments, segment.Copies shift stop copy := by
  induction all with
  | nil => contradiction
  | @cons segment copy' rest rest' copied _ induction =>
      rcases List.mem_cons.1 among with rfl | later
      · exact ⟨segment, List.mem_cons_self, copied⟩
      · obtain ⟨segment, known, copied⟩ := induction later
        exact ⟨segment, List.mem_cons_of_mem _ known, copied⟩

/-- The operators of a copy stand in front of its end. -/
theorem lt_of_mem_headsOf_copies (all : AllCopy shift stop segments copies) :
    ∀ head ∈ headsOf copies, head.1 < stop + shift := by
  intro head among
  rw [headsOf_copies all] at among
  obtain ⟨⟨position, op⟩, known, rfl⟩ := List.mem_map.1 among
  have bound := width_le_of_mem_headsOf all known
  have positive := Ledger.width_pos op
  dsimp only
  omega

theorem roundCount_copies (all : AllCopy shift stop segments copies) :
    roundCount copies = roundCount segments := by
  rw [roundCount, roundCount, headsOf_copies all, List.filter_map, List.length_map]
  rfl

/-! ## Folding all round brackets -/

/-- What is left of a chain when its last opening round bracket is folded. -/
theorem openParen_leaves (paired : PairedOperands text operands) (fit : FitOperands text operands)
    {range : Span}
    (depicts : Depicts text state range.start range.stop (before ++ segment :: after))
    (chain : IsChain (before ++ segment :: after)) (isOp : segment.op? = some .openParen)
    (last : roundCount after = 0) (chars : left.ledger.chars = text) {folded : Folded}
    (folds : bracket operands .openParen segment.span.start count before after left =
      .ok folded right) :
    right.ledger.chars = text ∧ ∃ span, HasSpan folded.expr span ∧
      IsChain (folded.front ++ ⟨span, .tree folded.expr⟩ :: folded.back) ∧
      (∃ final, Depicts text final range.start range.stop
        (folded.front ++ ⟨span, .tree folded.expr⟩ :: folded.back)) ∧
      roundCount (folded.front ++ ⟨span, .tree folded.expr⟩ :: folded.back) <
        roundCount (before ++ segment :: after) := by
  have leaves := bracket_leaves .openParen _ _ before after _ _ _ folds
  have known :=
    (bracket_balances count paired depicts isOp rfl (ne_of_roundCount last) chars).and_ensures
    (bracket_ensures count fit depicts isOp rfl chars)
  rw [folds] at known
  obtain ⟨chars', added, -, ⟨⟨middle, split, pairs, nested, -⟩, left⟩, faithful, middle',
    split', solid,
    span⟩ := known
  obtain rfl : middle = middle' :=
    List.append_cancel_left (List.append_cancel_right (split.symm.trans split'))
  refine ⟨chars'.trans chars, hull middle, span, ?_, ?_, ?_⟩
  · exact IsChain.folded (split ▸ chain) ⟨pairs, nested⟩ (left chain.nested) (hull middle)
  · obtain ⟨final, depicts, -⟩ := Depicts.folded (split ▸ depicts) solid span faithful
    exact ⟨final, depicts⟩
  · have inFront := roundCount_sublist leaves.front
    have inBack := roundCount_sublist leaves.back
    rw [roundCount_append, roundCount_tree, roundCount_append, roundCount_op isOp]
    omega

/-- A fold that leaves nothing is a tree, which is a result in one round. -/
theorem exists_rounds {folded : Folded} {span whole : Span} (has : HasSpan folded.expr span)
    (reads : (if folded.front.isEmpty && folded.back.isEmpty then pure folded.expr
      else
        let span := (folded.expr.node?.map (·.span)).getD whole
        rounds operands count (folded.front ++ ⟨span, .tree folded.expr⟩ :: folded.back) :
          ReduceM Expr)
      left = .ok expr final) :
    ∃ fewer ≤ count + 1, ∃ final', rounds operands fewer
      (folded.front ++ ⟨span, .tree folded.expr⟩ :: folded.back) left = .ok expr final' := by
  split at reads
  · next nothing =>
      obtain ⟨front, back⟩ := Bool.and_eq_true_iff.1 nothing
      rw [List.isEmpty_iff] at front back
      obtain ⟨rfl, -⟩ := EStateM.Result.ok.inj reads
      rw [front, back]
      exact ⟨1, Nat.succ_le_succ (Nat.zero_le _), _, rfl⟩
  · rw [has, Option.getD_some] at reads
    exact ⟨count, Nat.le_succ _, final, reads⟩

/-- A round that folds round brackets between further segments. -/
theorem rounds_between {start : Nat} (surrounds : Surrounds start last lead trail)
    (isOp : segment.op? = some .openParen) (empty : roundCount after = 0)
    (inside : start ≤ segment.span.start)
    (other : ∀ earlier ∈ before, earlier.span.start ≠ segment.span.start)
    (low : ∀ head ∈ headsOf after, head.1 < last)
    (enough : after.length ≤ (hull (before ++ segment :: after)).length)
    (wider : (hull (before ++ segment :: after)).length ≤
      (hull (lead ++ (before ++ segment :: after) ++ trail)).length)
    {folded : Folded} {span : Span} (has : HasSpan folded.expr span)
    (folds : bracket operands .openParen segment.span.start
      (hull (before ++ segment :: after)).length
      before after (counted left) = .ok folded right) (count : Nat) :
    rounds operands (count + 1) (lead ++ (before ++ segment :: after) ++ trail) left =
      rounds operands count (lead ++ (folded.front ++ ⟨span, .tree folded.expr⟩ :: folded.back) ++
        trail)
        right := by
  have none : roundCount (after ++ trail) = 0 := by
    rw [roundCount_append, empty, surrounds.ends.roundCount]
  have split : splitAt segment.span.start (lead ++ before ++ segment :: (after ++ trail)) =
      (lead ++ before, after ++ trail) := by
    have others : ∀ earlier ∈ lead ++ before, earlier.span.start ≠ segment.span.start := by
      intro earlier among
      rcases List.mem_append.1 among with inLead | inFront
      · have := surrounds.before earlier inLead
        omega
      · exact other earlier inFront
    rw [splitAt_lead others]
    simp [splitAt]
  have whole : lead ++ (before ++ segment :: after) ++ trail =
      lead ++ before ++ segment :: (after ++ trail) := by simp
  rw [whole] at wider ⊢
  rw [rounds_openParen isOp none split]
  have between : bracket operands .openParen segment.span.start _ (lead ++ before)
      (after ++ trail) =
      Folded.between lead trail <$> bracket operands .openParen segment.span.start _ before after :=
    openParen_between surrounds.closed surrounds.ends low enough (Nat.le_trans enough wider)
  rw [between]
  refine (bind_of_ok (show modifyBody _ left = .ok () (counted left) from rfl) _).trans ?_
  refine (bind_of_ok (map_of_ok folds _) _).trans ?_
  have front : (Folded.between lead trail folded).front.isEmpty = false := by
    obtain ⟨first, rest, rfl⟩ := List.exists_cons_of_ne_nil surrounds.present
    rfl
  rw [front, Bool.false_and, if_neg Bool.false_ne_true]
  dsimp only [Folded.between]
  rw [has, Option.getD_some]
  simp only [List.append_assoc, List.cons_append]

/-- Alone and between further segments, a round folds the last opening round bracket of a chain. -/
theorem rounds_step (follows : FollowsOperands shift stop whole operands operands')
    (paired : PairedOperands text operands) (fit : FitOperands text operands)
    (surrounds : Surrounds shift (stop + shift) lead trail) {range : Span}
    (both : ChainCopy text whole range shift stop segments copies left right)
    (present : roundCount segments ≠ 0)
    (reads : rounds operands count segments left = .ok expr final) :
    ∃ segments' copies' left' right', ChainCopy text whole range shift stop segments' copies'
      left' right' ∧ roundCount segments' < roundCount segments ∧
      (∃ fewer ≤ count, ∃ final', rounds operands fewer segments' left' = .ok expr final') ∧
      ∀ more, rounds operands' (more + 1) (lead ++ copies ++ trail) right =
        rounds operands' more (lead ++ copies' ++ trail) right' := by
  obtain ⟨copying, all, filled, chain, ⟨state, depicts⟩, chars⟩ := both
  obtain ⟨before, segment, after, rfl, isOp, empty⟩ := exists_last_round present
  obtain ⟨before', rest', rfl, front, behind⟩ := exists_of_allCopy_append all
  cases behind with
  | @cons _ segment' _ after' copied back =>
  cases count with
  | zero =>
      obtain ⟨_, _, -, rejects⟩ := bind_eq_ok.1 reads
      contradiction
  | succ count =>
  -- the round alone
  rw [rounds_openParen isOp empty (splitAt_eq depicts.shown)] at reads
  obtain ⟨_, left₁, marked, later⟩ := bind_eq_ok.1 reads
  obtain rfl : left₁ = counted left := (EStateM.Result.ok.inj marked).2.symm
  obtain ⟨folded, left₂, folds, rest⟩ := bind_eq_ok.1 later
  have counts : (counted left).ledger.chars = text := chars
  obtain ⟨chars₂, span, has, chain₂, depicts₂, fewer⟩ :=
    openParen_leaves paired fit depicts chain isOp empty counts folds
  -- its copy
  obtain ⟨sameHull, -⟩ := hull_copies all filled
  have copying₁ : Copying shift stop whole (counted left) (counted right) :=
    (effort_follows copying fun effort => { effort with rounds := effort.rounds + 1 }).1
  have copies₂ :=
    @bracket_follows _ _ _ _ _ _ _ segment.span.start (hull (before ++ segment :: after)).length
    _ _ _ _ follows copying₁ front back .openParen
  rw [folds] at copies₂
  revert copies₂
  cases folds' : bracket operands' .openParen (segment.span.start + shift)
    (hull (before ++ segment :: after)).length before' after' (counted right) with
  | error => exact False.elim
  | ok folded' right₂ =>
  rintro ⟨copying₂, front₂, copied₂, back₂⟩
  obtain ⟨has', within⟩ := hasSpan_copies copied₂ has
  refine ⟨_, folded'.front ++ ⟨span.shift shift, .tree folded'.expr⟩ :: folded'.back, left₂, right₂,
    ⟨copying₂, ?_, by simp, chain₂, depicts₂, chars₂⟩, fewer, ?_, fun more => ?_⟩
  · exact allCopy_append front₂ (.cons ⟨rfl, within, .tree copied₂⟩ back₂)
  · exact exists_rounds has rest
  · rw [← Span.length_shift shift, ← sameHull, ← copied.start] at folds'
    have start : segment'.span.start = segment.span.start + shift := copied.start
    have both := allCopy_append front (.cons copied back)
    have width := length_le_hull_copies both filled depicts.shown
    rw [List.length_append, List.length_cons, back.length_eq] at width
    refine rounds_between surrounds (copied.op?.trans isOp) (roundCount_copies back ▸ empty)
      (by rw [start]; exact Nat.le_add_left _ _) ?_ (lt_of_mem_headsOf_copies back) (by omega)
      (surrounds.hull_le both filled) has' folds' more
    · intro earlier among
      obtain ⟨original, known, copied'⟩ := exists_of_mem_copies front among
      have order := (depicts.split.1.shown.start_lt known).2
      rw [start, copied'.start]
      omega

/-- The rounds that fold the round brackets of a chain go in the same way between further segments,
and are as many at most as there are opening brackets. -/
theorem rounds_opened (follows : FollowsOperands shift stop whole operands operands')
    (paired : PairedOperands text operands) (fit : FitOperands text operands)
    (surrounds : Surrounds shift (stop + shift) lead trail) {range : Span}
    (both : ChainCopy text whole range shift stop segments copies left right)
    (reads : rounds operands count segments left = .ok expr final) :
    ∃ opened opened' left' right', ChainCopy text whole range shift stop opened opened'
      left' right' ∧ roundCount opened = 0 ∧
      (∃ fewer ≤ count, ∃ final', rounds operands fewer opened left' = .ok expr final') ∧
      ∃ used ≤ roundCount segments, ∀ more,
        rounds operands' (used + more) (lead ++ copies ++ trail) right =
          rounds operands' more (lead ++ opened' ++ trail) right' := by
  induction brackets : roundCount segments using Nat.strongRecOn generalizing segments
    copies left right
    count final with
  | ind brackets induction =>
    by_cases none : roundCount segments = 0
    · refine ⟨segments, copies, left, right, both, none, ⟨count, Nat.le_refl _, final, reads⟩, 0,
        Nat.zero_le _, fun more => ?_⟩
      rw [Nat.zero_add]
    · obtain ⟨segments', copies', left₁, right₁, both₁, fewer,
        ⟨count', bound, final', reads'⟩, step⟩ :=
        rounds_step follows paired fit surrounds both none reads
      rw [brackets] at fewer
      obtain ⟨opened, opened', left', right', both', none',
        ⟨count'', bound', final'', reads''⟩, used, few,
        rest⟩ := induction _ fewer both₁ reads' rfl
      refine ⟨opened, opened', left', right', both', none',
        ⟨count'', Nat.le_trans bound' bound, final'', reads''⟩,
        used + 1, by omega, fun more => ?_⟩
      rw [Nat.add_right_comm, step, rest]

end

end OnSegments
end Reduction
end MethodLowering
