import MethodLowering.Proofs.Brackets.Reducing

/-!
# Chains

Outside its brackets, a chain of accesses, calls and indices has nothing but points and opening
brackets.  It stays a chain when whole pairs of brackets are folded, and the operand of a cast takes
all of it.
-/

namespace MethodLowering

theorem IsNested.insert {front inner back : List (Nat × Op)} (outer : IsNested (front ++ back))
    (nested : IsNested inner) : IsNested (front ++ inner ++ back) := by
  obtain ⟨pairs, outer⟩ := outer
  obtain ⟨more, nested⟩ := nested
  obtain ⟨all, whole, -⟩ := outer.insert nested
  exact ⟨all, whole⟩

namespace Reduction

/-- What a chain goes on with: a member, arguments or an index. -/
def isLink (op : Op) : Bool := op == .dot || op == .openParen || op == .openBracket

/-- Outside their brackets, the operators link a chain. -/
def AreLinks (heads : List (Nat × Op)) : Prop :=
  ∀ front head back, heads = front ++ head :: back → IsNested front → isLink head.2 = true

/-- Segments that start with an operand or a round bracket and are linked to it. -/
structure IsChain (segments : List Segment) : Prop where
  nested : IsNested (headsOf segments)
  links : AreLinks (headsOf segments)
  first : ∀ segment ∈ segments.head?, segment.isOperand = true ∨ segment.op? = some .openParen

section

variable {front inner back : List (Nat × Op)}

theorem AreLinks.behind (links : AreLinks (front ++ back)) (nested : IsNested front) :
    AreLinks back := by
  rintro before head after rfl whole
  exact links (front ++ before) head after (by simp) (nested.append whole)

/-- Whole pairs of brackets may be left out. -/
theorem AreLinks.remove (links : AreLinks (front ++ inner ++ back)) (nested : IsNested inner) :
    AreLinks (front ++ back) := by
  intro before head after split whole
  rcases List.append_eq_append_iff.1 split with ⟨middle, rfl, rest⟩ | ⟨middle, rfl, rest⟩
  · exact links (front ++ inner ++ middle) head after (by simp [rest]) (whole.insert nested)
  · rcases List.cons_eq_append_iff.1 rest with ⟨rfl, rest⟩ | ⟨middle, rfl, -⟩
    · rw [List.append_nil] at links
      refine links (before ++ inner) head after (by simp [rest]) (whole.append nested)
    · exact links before head (middle ++ inner ++ back) (by simp) whole

end

section

variable {text : List Char} {state : Reduction} {start stop : Nat}
  {front middle back segments taken after : List Segment} {segment : Segment}
    {op : Op} {expr : Expr}

/-- A chain of which whole pairs of brackets are folded is one still. -/
theorem IsChain.folded (chain : IsChain (front ++ middle ++ back))
    (nested : IsNested (headsOf middle)) (left : IsNested (headsOf (front ++ back))) (span : Span) :
    IsChain (front ++ ⟨span, .tree expr⟩ :: back) := by
  have heads : headsOf (front ++ ⟨span, .tree expr⟩ :: back) = headsOf front ++ headsOf back := by
    rw [headsOf_append, headsOf_operand rfl]
  refine ⟨?_, ?_, fun segment first => ?_⟩
  · rw [heads, ← headsOf_append]
    exact left
  · have links := chain.links
    rw [headsOf_append, headsOf_append] at links
    rw [heads]
    exact links.remove nested
  · cases front with
    | nil =>
        obtain rfl := Option.some.inj first
        exact .inl rfl
    | cons => exact chain.first segment first

/-- A bracket that links a chain is closed. -/
theorem exists_bracketed? (shown : Shows state start stop after) (isOp : segment.op? = some op)
    (round : op = .openParen ∨ op = .openBracket) (nested : IsNested (headsOf (segment :: after))) :
    ∃ inner rest, OnSegments.bracketed? op segment after = some (inner, rest) ∧
    inner ++ rest = after ∧ IsNested (headsOf (segment :: inner)) ∧ IsNested (headsOf rest) := by
  have opens : op.isOpening = true := by rcases round with rfl | rfl <;> rfl
  have linked : (op == .openParen || op == .openBracket) = true :=
    by rcases round with rfl | rfl <;> rfl
  have found : ∃ parts, OnSegments.bracketed? op segment after = some parts := by
    obtain ⟨pairs, nested⟩ := nested
    rw [headsOf_op isOp] at nested
    obtain ⟨heads, position, closing, rest, inside, outside, split, closes, nestedInner, -⟩ :=
      @Nested.exists_partner [] _ _ _ _ nested opens
    have search : closingHead? op closing 0 (headsOf (segment :: after)) = some position := by
      rw [headsOf_op isOp, closingHead?, if_pos (beq_self_eq_true op), split,
        nestedInner.closingHead?_append closes (Nat.succ_pos _), closingHead?,
        if_neg (by simpa using (closing?_ne closes).symm), if_pos (beq_self_eq_true closing)]
      rfl
    rw [OnSegments.bracketed?, if_pos linked, closes, Option.bind_some, search]
    exact ⟨_, rfl⟩
  obtain ⟨⟨inner, rest⟩, found⟩ := found
  obtain ⟨whole, left⟩ := @bracketed?_nested _ _ _ _ _ _ [] _ _ shown isOp found nested
  exact ⟨inner, rest, found, bracketed?_append found, whole, left⟩

/-- The operand of a cast takes all of a chain. -/
theorem castFrom_of_areLinks {count : Nat} (shown : Shows state start stop segments)
    (nested : IsNested (headsOf segments)) (links : AreLinks (headsOf segments))
    (begun : taken ++ OnSegments.firstOperands segments ≠ []) (enough : segments.length ≤ count) :
    OnSegments.castFrom count taken segments = (taken ++ segments, []) := by
  induction count generalizing taken segments start with
  | zero =>
      obtain rfl := List.eq_nil_of_length_eq_zero (Nat.le_zero.1 enough)
      rfl
  | succ count induction =>
      have all := firstOperands_append segments
      have shorter : (OnSegments.skipOperands segments).length ≤ segments.length :=
        (List.dropWhile_suffix _).length_le
      rw [← all] at shown
      rw [← headsOf_skipOperands segments] at nested links
      have op_of_next {next : Segment} {behind : List Segment}
          (skips : OnSegments.skipOperands segments = next :: behind) :
            ∃ op, next.op? = some op := by
        have opens := List.head?_dropWhile_not Segment.isOperand segments
        rw [show List.dropWhile Segment.isOperand segments = next :: behind from skips] at opens
        change next.isOperand = false at opens
        rw [Segment.isOperand, Option.isNone_eq_false_iff] at opens
        exact Option.isSome_iff_exists.1 opens
      rw [OnSegments.castFrom]
      generalize OnSegments.skipOperands segments = rest at *
      generalize OnSegments.firstOperands segments = leading at *
      subst all
      cases rest with
      | nil => rw [List.append_nil]
      | cons next behind =>
          obtain ⟨op, isOp⟩ := op_of_next rfl
          obtain ⟨middle, -, -, stands, shownBehind⟩ := shown.split
          have link :=
            links [] (next.span.start, op) (headsOf behind) (headsOf_op isOp behind)
              ⟨[], Nested.nil⟩
          simp only [isLink, Bool.or_eq_true, beq_iff_eq, or_assoc] at link
          have fewer : behind.length ≤ count := by
            rw [List.length_cons] at shorter
            omega
          dsimp only
          rw [if_neg (by simpa using begun), isOp]
          rcases link with rfl | round
          · have single : IsNested [(next.span.start, Op.dot)] :=
              ⟨[], Nested.of_plain (by simp [Op.isOpening, Op.isClosing])⟩
            rw [headsOf_op isOp] at nested links
            obtain ⟨pairs, nested⟩ := nested
            have rest := @induction _ _ (taken ++ leading ++ [next]) shownBehind
              ⟨pairs, Nested.erase (show Nested ([] ++ _ :: _) pairs from nested) rfl rfl⟩
              (@AreLinks.behind [_] _ links single) (by simp) fewer
            rw [if_pos (by simp), rest]
            simp
          · obtain ⟨inner, rest, bracketed, whole, inside, left⟩ :=
              exists_bracketed? shownBehind isOp round nested
            rw [← whole] at shownBehind links fewer
            rw [List.length_append] at fewer
            obtain ⟨_, -, shownRest⟩ := shownBehind.split
            have heads : headsOf (next :: (inner ++ rest)) =
                headsOf (next :: inner) ++ headsOf rest :=
              headsOf_append (next :: inner) rest
            rw [heads] at links
            have further := @induction _ _ (taken ++ leading ++ next :: inner) shownRest left
              (links.behind inside) (by simp) (by omega)
            rw [if_neg (by rcases round with rfl | rfl <;> simp), Option.bind_some, bracketed]
            dsimp only
            rw [further, ← whole]
            simp

end

end Reduction
end MethodLowering
