import MethodLowering.Proofs.Brackets.Closed
import MethodLowering.Text.Brackets

/-!
# Net depth

The net depth of a text is the number of its opening brackets less the number of its closing ones,
whatever their kinds.  Brackets in literals do not count.  Read from left to right, a character
changes the depth by its weight, and the depths of texts with closed literals add up.
-/

namespace MethodLowering

/-- What a bracket adds to the depth behind it. -/
def Op.weight (op : Op) : Int :=
  if op.isOpening then 1 else if op.isClosing then -1 else 0

theorem Op.weight_of_isOpening {op : Op} (opens : op.isOpening = true) : op.weight = 1 := by
  rw [weight, if_pos opens]

theorem Op.weight_of_isClosing {op : Op} (closes : op.isClosing = true) : op.weight = -1 := by
  rw [weight, if_neg (by simp [Matching.not_isOpening_of_isClosing closes]), if_pos closes]

/-- What operators add to the depth. -/
def netWeight : List (Nat × Op) → Int
  | [] => 0
  | head :: rest => head.2.weight + netWeight rest

section

variable {heads front back : List (Nat × Op)} {pairs : List (Nat × Nat)}

@[simp]
theorem netWeight_nil : netWeight [] = 0 := rfl

@[simp]
theorem netWeight_cons (head : Nat × Op) (rest : List (Nat × Op)) :
    netWeight (head :: rest) = head.2.weight + netWeight rest := rfl

@[simp]
theorem netWeight_append (front back : List (Nat × Op)) :
    netWeight (front ++ back) = netWeight front + netWeight back := by
  induction front with
  | nil => simp
  | cons head rest induction => simp [induction, Int.add_assoc]

/-- Positions do not matter to the depth. -/
theorem netWeight_shift (count : Nat) (heads : List (Nat × Op)) :
    netWeight (heads.map (Prod.map (count + ·) id)) = netWeight heads := by
  induction heads with
  | nil => rfl
  | cons head rest induction => simp [induction]

/-- A reading adds to the depth what it adds to the stack. -/
theorem Matching.netWeight_of_readAll {matching after : Matching}
    (reads : matching.readAll heads = some after) :
    (matching.unclosed.length : Int) + netWeight heads = after.unclosed.length := by
  induction heads generalizing matching with
  | nil =>
      obtain rfl := Option.some.inj reads
      simp
  | cons head rest induction =>
      obtain ⟨middle, first, later⟩ := exists_of_readAll_cons reads
      rw [← induction later, netWeight_cons]
      rcases read_cases first with ⟨opens, rfl⟩ | ⟨opening, outer, split, fits, rfl⟩ |
        ⟨opens, closes, rfl⟩
      · rw [Op.weight_of_isOpening opens, List.length_cons]
        omega
      · rw [Op.weight_of_isClosing (isClosing_of_closing? fits).2, split, List.length_cons]
        dsimp only
        omega
      · simp [Op.weight, opens, closes]

/-- Well-nested operators have net depth zero. -/
theorem Nested.netWeight_eq (nested : Nested heads pairs) : netWeight heads = 0 := by
  have read := Matching.netWeight_of_readAll (nested [] [])
  simpa using read

/-- The beginning of well-nested operators closes no more than it opens. -/
theorem Nested.netWeight_front (nested : Nested (front ++ back) pairs) : 0 ≤ netWeight front := by
  obtain ⟨between, first, -⟩ := Matching.exists_of_readAll_append (nested [] [])
  have read := Matching.netWeight_of_readAll first
  rw [List.length_nil] at read
  omega

end

namespace Text

/-- The brackets of a text that is read from a given place, the first character being at a given
position. -/
def bracketsFrom : Quote → Nat → List Char → List (Nat × Op)
  | _, _, [] => []
  | quote, position, c :: rest =>
      let behind := bracketsFrom (quote.next c) (position + 1) rest
      match if quote.covers c then none else Op.ofBracket? c with
      | some op => (position, op) :: behind
      | none => behind

section

variable {text front rest : List Char} {c : Char} {position : Nat}

theorem ofBracket?_of_not_bracket (opens : isOpening c = false) (closes : isClosing c = false) :
    Op.ofBracket? c = none := by
  unfold Op.ofBracket?
  split <;> first | rfl | exact absurd opens (by decide) | exact absurd closes (by decide)

/-- The brackets of a text whose beginning is read already. -/
theorem brackets_eq_append (front rest : List Char) :
    brackets (front ++ rest) =
      brackets front ++ bracketsFrom (Quote.outside.after front) front.length rest := by
  induction rest generalizing front with
  | nil => simp [bracketsFrom]
  | cons c rest induction =>
      have one : brackets (front ++ [c]) = brackets front ++
          ((bracketAt? (front ++ [c]) front.length).map fun op => (front.length, op)).toList := by
        rw [brackets, List.length_append, List.length_singleton, List.range_succ,
          List.filterMap_append, brackets]
        congr 1
        exact List.filterMap_congr fun p among => by
          rw [bracketAt?_append_left (List.mem_range.1 among)]
      have here : bracketAt? (front ++ [c]) front.length =
          if (Quote.outside.after front).covers c then none else Op.ofBracket? c := by
        simp [bracketAt?]
      have whole := induction (front ++ [c])
      rw [List.append_assoc, List.singleton_append, one, here, List.length_append,
        List.length_singleton, Quote.after_append, List.append_assoc] at whole
      rw [whole, bracketsFrom]
      dsimp only [Quote.after_cons, Quote.after_nil]
      cases if (Quote.outside.after front).covers c = true then none else Op.ofBracket? c <;> rfl

/-- Brackets of the whole text, with those at a position and behind it read from there. -/
theorem brackets_split (low : position ≤ text.length) :
    brackets text = brackets (text.take position) ++
      bracketsFrom (Quote.outside.after (text.take position)) position (text.drop position) := by
  have whole := brackets_eq_append (text.take position) (text.drop position)
  rwa [List.take_append_drop, List.length_take_of_le low] at whole

end

/-- Opening brackets of a text less closing ones, whatever their kinds; those in literals do not
count. -/
def netDepth (text : List Char) : Int := netWeight (brackets text)

/-- The character stands at the position, and not in a literal. -/
def UnquotedAt (text : List Char) (position : Nat) (c : Char) : Prop :=
  text[position]? = some c ∧ (Quote.outside.after (text.take position)).covers c = false

/-- The net depth in front of a position. -/
def depthAt (text : List Char) (position : Nat) : Int := netDepth (text.take position)

/-- What a character adds to the depth behind it. -/
def weight (c : Char) : Int := if isOpening c then 1 else if isClosing c then -1 else 0

section

variable {text front back rest : List Char} {c : Char} {op : Op} {position : Nat} {low high : Nat}

theorem weight_eq (c : Char) : (Op.ofBracket? c).elim 0 Op.weight = weight c := by
  by_cases bracket : isOpening c = true ∨ isClosing c = true
  · simp only [isOpening, isClosing, Bool.or_eq_true, beq_iff_eq] at bracket
    rcases bracket with ((rfl | rfl) | rfl) | ((rfl | rfl) | rfl) <;> rfl
  · simp only [not_or, Bool.not_eq_true] at bracket
    rw [ofBracket?_of_not_bracket bracket.1 bracket.2, weight, bracket.1, bracket.2]
    rfl

@[simp]
theorem netDepth_nil : netDepth [] = 0 := rfl

@[simp]
theorem depthAt_zero (text : List Char) : depthAt text 0 = 0 := rfl

theorem netDepth_concat (front : List Char) (c : Char) :
    netDepth (front ++ [c]) =
      netDepth front + if (Quote.outside.after front).covers c then 0 else weight c := by
  rw [netDepth, brackets_eq_append, netWeight_append, netDepth, ← weight_eq]
  congr 1
  simp only [bracketsFrom]
  split
  · rename_i found
    split at found
    · contradiction
    · rename_i plain
      rw [if_neg plain, found]
      simp
  · rename_i found
    split at found
    · rename_i covered
      rw [if_pos covered, netWeight_nil]
    · rename_i plain
      rw [if_neg plain, found, netWeight_nil]
      rfl

/-- Texts with closed literals add up their depths. -/
theorem netDepth_append (outside : Quote.outside.after front = .outside) (back : List Char) :
    netDepth (front ++ back) = netDepth front + netDepth back := by
  rw [netDepth, brackets_append outside, netWeight_append, netWeight_shift, netDepth, netDepth]

/-- The depth of a piece of a text that starts outside literals. -/
theorem netDepth_slice (outside : Quote.outside.after (text.take low) = .outside)
    (order : low ≤ high) :
    netDepth (Span.slice ⟨low, high⟩ text) = depthAt text high - depthAt text low := by
  have whole : text.take high = text.take low ++ Span.slice ⟨low, high⟩ text := by
    rw [Span.slice, Span.length, ← List.take_add, Nat.add_sub_cancel' order]
  rw [depthAt, whole, netDepth_append outside, depthAt]
  omega

/-! ## Reading on -/

/-- The character at the position where the rest of a text starts. -/
theorem getElem?_of_drop (behind : text.drop position = c :: rest) :
    text[position]? = some c := by
  rw [← List.head?_drop, behind, List.head?_cons]

theorem drop_succ_of_drop (behind : text.drop position = c :: rest) :
    text.drop (position + 1) = rest := by
  rw [← List.drop_drop, behind, List.drop_one, List.tail_cons]

theorem take_succ_of_getElem? (here : text[position]? = some c) :
    text.take (position + 1) = text.take position ++ [c] := by
  rw [List.take_add_one, here, Option.toList_some]

theorem after_take_succ (here : text[position]? = some c) :
    Quote.outside.after (text.take (position + 1)) =
      (Quote.outside.after (text.take position)).next c := by
  rw [take_succ_of_getElem? here, Quote.after_append]
  rfl

theorem depthAt_succ_of_covers (here : text[position]? = some c)
    (covers : (Quote.outside.after (text.take position)).covers c = true) :
    depthAt text (position + 1) = depthAt text position := by
  rw [depthAt, take_succ_of_getElem? here, netDepth_concat, if_pos covers, Int.add_zero, depthAt]

theorem UnquotedAt.depthAt_succ (stands : UnquotedAt text position c) :
    depthAt text (position + 1) = depthAt text position + weight c := by
  rw [depthAt, take_succ_of_getElem? stands.1, netDepth_concat,
    if_neg (Bool.eq_false_iff.1 stands.2), depthAt]

theorem UnquotedAt.outside (stands : UnquotedAt text position c) :
    Quote.outside.after (text.take position) = .outside ∧
      Quote.outside.after (text.take (position + 1)) = .outside := by
  have next := Quote.next_of_not_covers stands.2
  exact ⟨next.1, (after_take_succ stands.1).trans next.2⟩

theorem UnquotedAt.eq {other : Char} (stands : UnquotedAt text position c)
    (stands' : UnquotedAt text position other) : c = other :=
  Option.some.inj (stands.1.symm.trans stands'.1)

/-- The brackets of a text are the characters outside literals that are brackets. -/
theorem mem_brackets : (position, op) ∈ brackets text ↔
    ∃ c, UnquotedAt text position c ∧ Op.ofBracket? c = some op := by
  constructor
  · intro member
    obtain ⟨p, -, found⟩ := List.mem_filterMap.1 member
    obtain ⟨found', known, same⟩ := Option.map_eq_some_iff.1 found
    obtain ⟨rfl, rfl⟩ := Prod.mk.inj same
    obtain ⟨c, here, bracket⟩ := Option.bind_eq_some_iff.1 known
    split at bracket
    · contradiction
    · rename_i plain
      exact ⟨c, ⟨here, Bool.eq_false_iff.2 plain⟩, bracket⟩
  · rintro ⟨c, stands, bracket⟩
    have inside := (List.getElem?_eq_some_iff.1 stands.1).1
    refine List.mem_filterMap.2 ⟨position, List.mem_range.2 inside, ?_⟩
    rw [Scanner.bracketAt?_of_outside stands.1 bracket stands.outside.1]
    rfl

end
end Text
end MethodLowering
