import Mathlib.Data.List.Nodup
import MethodLowering.Proofs.Brackets.Depth
import MethodLowering.Proofs.Text.Growth

/-!
# Partners of opening brackets

Counting only the brackets of one kind, from an opening bracket on and outside literals from there,
finds its partner in the stack matching of the whole text, where that exists: brackets of the other
kinds stand in whole pairs between the two.
-/

namespace MethodLowering

open Matching

/-! ## Pairs of a stack matching -/

namespace Matching

/-- The opening brackets read are those that have found a partner and those that are left. -/
theorem readAll_perm {matching after : Matching} {heads : List (Nat × Op)}
    (reads : matching.readAll heads = some after) :
    (after.pairs.map (·.1) ++ after.unclosed.map (·.1)).Perm
      (matching.pairs.map (·.1) ++ matching.unclosed.map (·.1) ++
        (heads.filter (·.2.isOpening)).map (·.1)) := by
  induction heads generalizing matching with
  | nil =>
      obtain rfl := Option.some.inj reads
      simp
  | cons head rest induction =>
      obtain ⟨middle, first, later⟩ := exists_of_readAll_cons reads
      refine (induction later).trans ?_
      rcases read_cases first with ⟨opens, rfl⟩ | ⟨opening, outer, split, fits, rfl⟩ |
        ⟨opens, closes, rfl⟩
      · rw [List.filter_cons_of_pos (p := fun head : Nat × Op => head.2.isOpening) opens]
        simp only [List.map_cons, List.append_assoc]
        refine List.Perm.append_left _ ?_
        rw [List.cons_append]
        exact List.perm_middle.symm
      · rw [List.filter_cons_of_neg (by
          simp [not_isOpening_of_isClosing (isClosing_of_closing? fits).2]), split]
        refine List.Perm.append_right _ ?_
        rw [List.map_cons, List.map_cons, List.cons_append]
        exact List.perm_middle.symm
      · rw [List.filter_cons_of_neg (by simp [opens])]

end Matching

section

variable {front inner rest heads : List (Nat × Op)} {pairs inside : List (Nat × Nat)}
  {start stop : Nat} {opening closing : Op}

/-- Brackets with whole pairs between them are a pair. -/
theorem Nested.mem_pairs
    (nested : Nested (front ++ (start, opening) :: (inner ++ (stop, closing) :: rest)) pairs)
    (fits : opening.closing? = some closing) (within : Nested inner inside) :
    (start, stop) ∈ pairs := by
  have reads := nested [] []
  rw [List.append_nil] at reads
  obtain ⟨⟨unclosed, found⟩, -, later⟩ := exists_of_readAll_append reads
  rw [readAll, read_of_opening (isClosing_of_closing? fits).1, Option.bind_some,
    readAll_append, within,
    Option.bind_some, readAll, read_of_closing fits, Option.bind_some, readAll_pairs] at later
  obtain ⟨⟨left, added⟩, -, same⟩ := Option.map_eq_some_iff.1 later
  obtain ⟨-, rfl⟩ := Matching.mk.inj same
  exact List.mem_append_right _ List.mem_cons_self

/-- An opening bracket has one partner. -/
theorem Nested.partner_unique (nested : Nested heads pairs) (distinct : (heads.map (·.1)).Nodup)
    {other : Nat} (pair : (start, stop) ∈ pairs) (pair' : (start, other) ∈ pairs) :
    other = stop := by
  have reads := nested [] []
  have positions := readAll_perm reads
  simp only [List.append_nil, List.map_nil, List.nil_append] at positions
  have once : (pairs.map (·.1)).Nodup :=
    positions.nodup_iff.2 (distinct.sublist (List.filter_sublist.map _))
  exact congrArg Prod.snd (List.inj_on_of_nodup_map once pair' pair rfl)

end

namespace Text

/-! ## Counting one kind -/

section

variable {text rest : List Char} {left right c : Char} {opening closing : Op} {position close : Nat}

/-- Only distances matter to a count. -/
theorem closeFrom_shift (left right : Char) (quote : Quote) (depth count position : Nat)
    (text : List Char) :
    closeFrom left right quote depth (count + position) text =
      (closeFrom left right quote depth position text).map (count + ·) := by
  induction text generalizing quote depth position with
  | nil => rfl
  | cons c rest induction =>
      rw [closeFrom, closeFrom, Nat.add_assoc]
      split_ifs
      · exact induction (quote.next c) depth (position + 1)
      · exact induction (quote.next c) (depth + 1) (position + 1)
      · rfl
      · exact induction (quote.next c) (depth - 1) (position + 1)
      · exact induction (quote.next c) depth (position + 1)

theorem ofBracket?_inj {other : Char} {op : Op} (known : Op.ofBracket? c = some op)
    (known' : Op.ofBracket? other = some op) : c = other := by
  have spelled := (Op.spelling_of_ofBracket? known).1
  rw [(Op.spelling_of_ofBracket? known').1] at spelled
  exact (List.singleton_inj.1 spelled).symm

/-- Counting characters of one kind is counting brackets of this kind. -/
theorem closeFrom_eq (isLeft : Op.ofBracket? left = some opening)
    (isRight : Op.ofBracket? right = some closing) (quote : Quote) (depth position : Nat)
    (text : List Char) :
    closeFrom left right quote depth position text =
      Reduction.closingHead? opening closing depth (bracketsFrom quote position text) := by
  induction text generalizing quote depth position with
  | nil => rfl
  | cons c rest induction =>
      rw [closeFrom, bracketsFrom]
      by_cases covers : quote.covers c = true
      · simp only [covers, if_true]
        exact induction ..
      simp only [covers, if_false, Bool.false_eq_true]
      have isSame {side : Char} {op : Op} (known : Op.ofBracket? side = some op) :
          (c == side) = (Op.ofBracket? c == some op) := by
        rw [Bool.eq_iff_iff, beq_iff_eq, beq_iff_eq]
        constructor
        · rintro rfl
          exact known
        · exact fun known' => ofBracket?_inj known' known
      rw [isSame isLeft, isSame isRight]
      cases Op.ofBracket? c with
      | none => exact induction ..
      | some op =>
          simp only [Reduction.closingHead?, Option.some_beq_some, induction]

theorem closing?_of_ofBracket? (known : Op.ofBracket? c = some opening)
    (opens : opening.isOpening = true) : ∃ right closing, closing? c = some right ∧
      Op.ofBracket? right = some closing ∧ opening.closing? = some closing := by
  unfold Op.ofBracket? at known
  split at known <;> first
    | contradiction
    | (obtain rfl := Option.some.inj known
       first | exact ⟨_, _, rfl, rfl, rfl⟩ | contradiction)

theorem positions_brackets_nodup (text : List Char) : ((brackets text).map (·.1)).Nodup := by
  have positions : (brackets text).map (·.1) =
      (List.range text.length).filter fun position => (bracketAt? text position).isSome := by
    rw [brackets, List.map_filterMap, ← List.filterMap_eq_filter]
    refine List.filterMap_congr fun position _ => ?_
    cases found : bracketAt? text position <;> simp [Option.guard, found]
  rw [positions]
  exact List.nodup_range.filter _

/-- In a text with well-nested brackets, an opening bracket is followed by whole pairs and its
partner, and the count of its kind ends there. -/
theorem exists_partner {pairs : List (Nat × Nat)}
    (known : bracketPairs? (brackets text) = some pairs)
    (member : (position, opening) ∈ brackets text) (opens : opening.isOpening = true) :
    ∃ inner close closing behind inside,
      brackets text = brackets (text.take position) ++
        (position, opening) :: (inner ++ (close, closing) :: behind) ∧
      Nested inner inside ∧ opening.closing? = some closing ∧ (position, close) ∈ pairs ∧
      (matchingClose? (text.drop position)).map (position + ·) = some close := by
  obtain ⟨c, stands, bracket⟩ := mem_brackets.1 member
  have inside := (List.getElem?_eq_some_iff.1 stands.1).1
  have behind : text.drop position = c :: text.drop (position + 1) := by
    rw [List.drop_eq_getElem_cons inside, (List.getElem?_eq_some_iff.1 stands.1).2]
  have after : bracketsFrom .outside position (text.drop position) =
      (position, opening) :: bracketsFrom .outside (position + 1) (text.drop (position + 1)) := by
    have plain := stands.2
    rw [stands.outside.1] at plain
    rw [behind, bracketsFrom]
    simp only [plain, bracket, (Quote.next_of_not_covers plain).2, Bool.false_eq_true, if_false]
  have whole := brackets_split (Nat.le_of_lt inside)
  rw [stands.outside.1, after] at whole
  have nested := Nested.bracketPairs?_eq_some.1 known
  rw [whole] at nested
  obtain ⟨inner, close, closing, rest, pairsInside, -, split, fits, within, -⟩ :=
    nested.exists_partner opens
  rw [split] at nested whole
  refine ⟨inner, close, closing, rest, pairsInside, whole, within, fits,
    nested.mem_pairs fits within, ?_⟩
  obtain ⟨right, closing', closes, isRight, fits'⟩ := closing?_of_ofBracket? bracket opens
  obtain rfl : closing = closing' := Option.some.inj (fits.symm.trans fits')
  have differs : (closing == opening) = false := by
    rw [beq_eq_false_iff_ne]
    rintro rfl
    have contradictory := not_isOpening_of_isClosing (isClosing_of_closing? fits).2
    rw [opens] at contradictory
    contradiction
  have counted : closeFrom c right .outside 0 position (text.drop position) = some close := by
    rw [closeFrom_eq bracket isRight, after, split, Reduction.closingHead?,
      if_pos (beq_self_eq_true _), Nat.zero_add, within.closingHead?_append fits Nat.one_pos,
      Reduction.closingHead?, differs, if_neg Bool.false_ne_true, if_pos (beq_self_eq_true _),
      if_pos (Nat.le_refl 1)]
  rw [behind, matchingClose?, closes, Option.bind_some, ← behind, ← closeFrom_shift, Nat.add_zero]
  exact counted

end

/-- **Partners.**  Where the brackets of a text are well nested by kind, the count from an opening
bracket ends at the bracket that the stack matching pairs with it.  In every text, a count that has
ended ends at the same place when more text follows. -/
theorem matchingClose?_exact (text : List Char) :
    (∀ pairs, bracketPairs? (brackets text) = some pairs →
      ∀ position op, (position, op) ∈ brackets text → op.isOpening = true →
        ∃ close, (matchingClose? (text.drop position)).map (position + ·) = some close ∧
          ∀ other, (position, other) ∈ pairs ↔ other = close) ∧
      ∀ position close more, matchingClose? (text.drop position) = some close →
        matchingClose? ((text ++ more).drop position) = some close := by
  constructor
  · intro pairs known position op member opens
    obtain ⟨inner, close, closing, behind, inside, -, -, -, pair, counted⟩ :=
      exists_partner known member opens
    refine ⟨close, counted, fun other => ⟨fun pair' => ?_, ?_⟩⟩
    · exact (Nested.bracketPairs?_eq_some.1 known).partner_unique
        (positions_brackets_nodup text) pair
        pair'
    · rintro rfl
      exact pair
  · intro position close more found
    have low : position ≤ text.length := by
      by_contra outside
      rw [List.drop_eq_nil_of_le (Nat.le_of_not_le outside)] at found
      contradiction
    rw [List.drop_append_of_le_length low]
    exact matchingClose?_append more found

/-- A literal with a bracket in it, and brackets of the two other kinds, between an opening bracket
and its partner. -/
theorem matchingClose?_exact_mixed :
    ∃ pairs, bracketPairs? (brackets "f(\")\", [a], \x7bb\x7d) + (c)".toList) = some pairs ∧
      (1, Op.openParen) ∈ brackets "f(\")\", [a], \x7bb\x7d) + (c)".toList ∧
      ∃ close, (matchingClose? ("f(\")\", [a], \x7bb\x7d) + (c)".toList.drop 1)).map (1 + ·) =
          some close ∧ (∀ other, (1, other) ∈ pairs ↔ other = close) ∧
        matchingClose? (("f(\")\", [a], \x7bb\x7d) + (c)".toList ++ ")".toList).drop 1) =
          some 14 := by
  have known : (bracketPairs? (brackets "f(\")\", [a], \x7bb\x7d) + (c)".toList)).isSome =
      true := by
    decide
  have member : (1, Op.openParen) ∈ brackets "f(\")\", [a], \x7bb\x7d) + (c)".toList := by decide
  obtain ⟨pairs, found⟩ := Option.isSome_iff_exists.1 known
  obtain ⟨partners, stays⟩ := matchingClose?_exact "f(\")\", [a], \x7bb\x7d) + (c)".toList
  obtain ⟨close, counted, unique⟩ := partners pairs found 1 .openParen member rfl
  exact ⟨pairs, found, member, close, counted, unique, stays 1 14 ")".toList (by decide)⟩

end Text
end MethodLowering
