import MethodLowering.Proofs.Reduction.OnSegments

/-!
# The operator that is folded next

Among the operators of a list of segments the one of lowest level is chosen, and among those of one
level the first or the last, as the level has it.
-/

namespace MethodLowering
namespace Reduction

/-- What a choice knows about the candidates in front of it and behind it. -/
structure IsChosen (chosen : Candidate) (front back : List Candidate) : Prop where
  front_le : ∀ other ∈ front, chosen.level ≤ other.level
  back_le : ∀ other ∈ back, chosen.level ≤ other.level
  first : chosen.tieBreak = .leftmost → ∀ other ∈ front, chosen.level < other.level
  last : ∀ other ∈ back, other.tieBreak = .rightmost → chosen.level < other.level

/-- Operators of the levels four to eight are taken from the left, all others from the right. -/
theorem Candidate.tieBreak_eq (candidate : Candidate) :
    candidate.tieBreak =
      if 4 ≤ candidate.level ∧ candidate.level ≤ 8 then .leftmost else .rightmost := by
  obtain ⟨position, op, isSign⟩ := candidate
  cases isSign with
  | true => rfl
  | false => cases op <;> rfl

theorem IsChosen.later {chosen : Candidate} {front back : List Candidate} {level : Nat}
    (isChosen : IsChosen chosen front back) (same : chosen.level = level)
    (rightmost : level < 4 ∨ 8 < level) : ∀ candidate ∈ back, level < candidate.level := by
  intro candidate among
  have bound := isChosen.back_le candidate among
  by_contra notAbove
  have above := isChosen.last candidate among (by rw [candidate.tieBreak_eq, if_neg (by omega)])
  omega

theorem IsChosen.earlier {chosen : Candidate} {front back : List Candidate} {level : Nat}
    (isChosen : IsChosen chosen front back) (same : chosen.level = level)
    (leftmost : 4 ≤ level ∧ level ≤ 8) : ∀ candidate ∈ front, level < candidate.level := by
  rw [← same]
  refine isChosen.first ?_
  rw [chosen.tieBreak_eq, if_pos (by omega)]

theorem exists_isChosen {candidates : List Candidate} {chosen : Candidate}
    (choice : candidates.foldl (fun best next => some (Candidate.better best next)) none =
      some chosen) :
    ∃ front back, candidates = front ++ chosen :: back ∧ IsChosen chosen front back := by
  induction candidates using List.reverseRecOn generalizing chosen with
  | nil => contradiction
  | append_singleton candidates next induction =>
      rw [List.foldl_append, List.foldl_cons, List.foldl_nil] at choice
      cases previous : candidates.foldl (fun best next =>
        some (Candidate.better best next)) none with
      | none =>
          have empty : candidates = [] := by
            rcases List.eq_nil_or_concat' candidates with empty | ⟨front, last, rfl⟩
            · exact empty
            · rw [List.foldl_append, List.foldl_cons, List.foldl_nil] at previous
              contradiction
          rw [previous] at choice
          obtain rfl := Option.some.inj choice
          exact ⟨[], [], by rw [empty]; rfl, nofun, nofun, fun _ => nofun, nofun⟩
      | some best =>
          obtain ⟨front, back, rfl, isChosen⟩ := induction previous
          rw [previous] at choice
          obtain rfl := Option.some.inj choice
          rw [Candidate.better]
          have among {other : Candidate} (member : other ∈ front ++ best :: back) :
              best.level ≤ other.level := by
            rcases List.mem_append.1 member with inFront | behind
            · exact isChosen.front_le other inFront
            · rcases List.mem_cons.1 behind with rfl | inBack
              · exact Nat.le_refl _
              · exact isChosen.back_le other inBack
          split
          · next replaced =>
              simp only [Bool.or_eq_true, Bool.and_eq_true, decide_eq_true_eq,
                beq_iff_eq] at replaced
              refine ⟨front ++ best :: back, [], by simp, fun other member => ?_, nofun,
                fun leftmost other member => ?_, nofun⟩
              · have lower := among member
                omega
              · have lower := among member
                rcases replaced with less | ⟨-, rightmost⟩
                · omega
                · rw [leftmost] at rightmost
                  contradiction
          · next kept =>
              simp only [Bool.or_eq_true, Bool.and_eq_true, decide_eq_true_eq, beq_iff_eq] at kept
              refine ⟨front, back ++ [next], by simp, isChosen.front_le, fun other member => ?_,
                isChosen.first, fun other member rightmost => ?_⟩
              · rcases List.mem_append.1 member with inBack | last
                · exact isChosen.back_le other inBack
                · rw [List.mem_singleton.1 last]
                  omega
              · rcases List.mem_append.1 member with inBack | last
                · exact isChosen.last other inBack rightmost
                · rw [List.mem_singleton.1 last] at rightmost ⊢
                  by_cases same : next.level = best.level
                  · exact absurd (.inr ⟨same, rightmost⟩) kept
                  · omega

namespace OnSegments

section

variable {segments before after : List Segment} {segment : Segment} {op : Op}
  {last : Option Segment}

theorem getLast?_cons_or (segment : Segment) (before : List Segment) (last : Option Segment) :
    (segment :: before).getLast?.or last = before.getLast?.or (some segment) := by
  cases before with
  | nil => rfl
  | cons next rest => simp [List.getLast?_cons]

theorem candidatesFrom_append (last : Option Segment) (before after : List Segment) :
    candidatesFrom last (before ++ after) =
      candidatesFrom last before ++ candidatesFrom (before.getLast?.or last) after := by
  induction before generalizing last with
  | nil => rfl
  | cons segment before induction =>
      rw [List.cons_append, candidatesFrom, candidatesFrom, getLast?_cons_or, induction]
      split
      · rfl
      · split
        · rfl
        · rfl

/-- An operator is a candidate, with the segment in front of it. -/
theorem mem_candidatesFrom (isOp : segment.op? = some op) (plain : op.isClosing = false) :
    candidateOf (before.getLast?.or last) segment op ∈
      candidatesFrom last (before ++ segment :: after) := by
  rw [candidatesFrom_append, candidatesFrom, isOp]
  dsimp only
  rw [plain, if_neg Bool.false_ne_true]
  simp

/-- A candidate is an operator, with the segment in front of it. -/
theorem exists_of_candidatesFrom {candidate : Candidate} {front back : List Candidate}
    (split : candidatesFrom last segments = front ++ candidate :: back) :
    ∃ before segment after, segments = before ++ segment :: after ∧
      segment.op? = some candidate.op ∧ candidate.op.isClosing = false ∧
      candidate = candidateOf (before.getLast?.or last) segment candidate.op ∧
      front = candidatesFrom last before ∧ back = candidatesFrom (some segment) after := by
  induction segments generalizing last front with
  | nil => simp [candidatesFrom] at split
  | cons segment rest induction =>
      rw [candidatesFrom] at split
      cases isOp : segment.op? with
      | none =>
          rw [isOp] at split
          obtain ⟨before, found, after, rfl, isFound, plain, same, rfl, rfl⟩ := induction split
          refine ⟨segment :: before, found, after, rfl, isFound, plain, ?_, ?_, rfl⟩
          · rw [getLast?_cons_or]
            exact same
          · rw [candidatesFrom, isOp]
      | some op =>
          rw [isOp] at split
          dsimp only at split
          cases closing : op.isClosing with
          | true =>
              rw [closing, if_pos rfl] at split
              obtain ⟨before, found, after, rfl, isFound, plain, same, rfl, rfl⟩ := induction split
              refine ⟨segment :: before, found, after, rfl, isFound, plain, ?_, ?_, rfl⟩
              · rw [getLast?_cons_or]
                exact same
              · rw [candidatesFrom, isOp]
                dsimp only
                rw [closing, if_pos rfl]
          | false =>
              rw [closing, if_neg Bool.false_ne_true] at split
              rcases List.cons_eq_append_iff.1 split with ⟨rfl, same⟩ | ⟨earlier, rfl, later⟩
              · obtain ⟨rfl, rfl⟩ := List.cons.inj same
                exact ⟨[], segment, rest, rfl, isOp, closing, rfl, rfl, rfl⟩
              · obtain ⟨before, found, after, rfl, isFound, plain, same, rfl, rfl⟩ :=
                  induction later
                refine ⟨segment :: before, found, after, rfl, isFound, plain, ?_, ?_, rfl⟩
                · rw [getLast?_cons_or]
                  exact same
                · rw [candidatesFrom, isOp]
                  dsimp only
                  rw [closing, if_neg Bool.false_ne_true]

/-- The chosen operator with its place. -/
theorem exists_of_best?_eq_some {chosen : Candidate} (best : best? segments = some chosen) :
    ∃ before segment after, segments = before ++ segment :: after ∧
      segment.op? = some chosen.op ∧ chosen.op.isClosing = false ∧
      chosen = candidateOf before.getLast? segment chosen.op ∧
      IsChosen chosen (candidatesFrom none before) (candidatesFrom (some segment) after) := by
  obtain ⟨front, back, split, isChosen⟩ := exists_isChosen best
  obtain ⟨before, segment, after, rfl, isOp, plain, same, rfl, rfl⟩ :=
    exists_of_candidatesFrom split
  rw [Option.or_none] at same
  exact ⟨before, segment, after, rfl, isOp, plain, same, isChosen⟩

theorem isClosing_of_best?_eq_none (best : best? segments = none)
    (split : segments = before ++ segment :: after) (isOp : segment.op? = some op) :
    op.isClosing = true := by
  by_contra open_
  have found : candidateOf (before.getLast?.or none) segment op ∈
      candidatesFrom none (before ++ segment :: after) :=
    mem_candidatesFrom isOp (Bool.eq_false_iff.2 open_)
  rw [← split] at found
  rw [best?] at best
  rcases List.eq_nil_or_concat' (candidatesFrom none segments) with empty | ⟨front, last, some⟩
  · rw [empty] at found
    contradiction
  · rw [some, List.foldl_append, List.foldl_cons, List.foldl_nil] at best
    contradiction

/-! ## Levels -/

/-- A sign may bind tighter than its operator between operands. -/
theorem level_candidateOf_le (last : Option Segment) (segment : Segment) (op : Op) :
    (candidateOf last segment op).level ≤ op.row.level := by
  rw [Candidate.level, candidateOf]
  dsimp only
  split
  · next sign =>
      rw [Bool.and_eq_true, Bool.or_eq_true, beq_iff_eq, beq_iff_eq] at sign
      rcases sign.1 with rfl | rfl <;> decide
  · exact Nat.le_refl _

theorem level_candidateOf (last : Option Segment) (segment : Segment) (plus : op ≠ .plus)
    (minus : op ≠ .minus) : (candidateOf last segment op).level = op.row.level := by
  rw [Candidate.level, candidateOf]
  dsimp only
  rw [beq_eq_false_iff_ne.2 plus, beq_eq_false_iff_ne.2 minus]
  rfl

/-- A bound on all candidates bounds every operator. -/
theorem le_level_of_mem {least : Nat}
    (bound : ∀ candidate ∈ candidatesFrom last segments, least ≤ candidate.level)
    (among : segment ∈ segments) (isOp : segment.op? = some op) (plain : op.isClosing = false) :
    least ≤ op.row.level := by
  obtain ⟨before, after, rfl⟩ := List.append_of_mem among
  exact Nat.le_trans (bound _ (mem_candidatesFrom isOp plain)) (level_candidateOf_le ..)

end

end OnSegments

end Reduction
end MethodLowering
