import MethodLowering.Proofs.Brackets.Heads
import MethodLowering.Proofs.Text.Shutting

/-!
# Text between operators

Between neighbouring operators of a scan the text is shut: literals do not reach over an operator,
and the brackets that a scan leaves to a type stand in pairs.  Whole pairs of brackets may be taken
out of the list of operators, and what then stands between two of them is shut again.
-/

namespace MethodLowering

open Matching
open Text hiding bracketAt?

/-! ## Stacks -/

namespace Matching

section

variable {matching after : Matching} {heads unclosed more final : List (Nat × Op)}
  {found pairs : List (Nat × Nat)}

/-- A bracket that is left open stood on the stack or was read. -/
theorem count_readAll_le (reads : matching.readAll heads = some after) (head : Nat × Op) :
    after.unclosed.count head ≤ matching.unclosed.count head + heads.count head := by
  induction heads generalizing matching with
  | nil =>
      obtain rfl := Option.some.inj reads
      exact Nat.le_add_right ..
  | cons first rest induction =>
      obtain ⟨middle, here, later⟩ := exists_of_readAll_cons reads
      have bound := induction later
      have counted := List.count_cons (a := head) (b := first) (l := rest)
      rcases read_cases here with ⟨-, rfl⟩ | ⟨top, outer, stacked, -, rfl⟩ | ⟨-, -, rfl⟩
      · rw [List.count_cons] at bound
        omega
      · have popped := List.count_cons (a := head) (b := top) (l := outer)
        rw [← stacked] at popped
        dsimp only at bound
        omega
      · omega

/-- A reading that ends with the stack it starts with, though it reads none of its brackets, closes
what it opens. -/
theorem readAll_above (reads : readAll ⟨more ++ unclosed, found⟩ heads = some ⟨unclosed, pairs⟩)
    (fresh : ∀ head ∈ heads, head ∉ unclosed) :
    readAll ⟨more, found⟩ heads = some ⟨[], pairs⟩ := by
  induction heads generalizing more found with
  | nil =>
      obtain ⟨same, rfl⟩ := Matching.mk.inj (Option.some.inj reads)
      obtain rfl : more = [] := List.append_left_eq_self.1 same
      rfl
  | cons head rest induction =>
      obtain ⟨middle, first, later⟩ := exists_of_readAll_cons reads
      have others := fun other among => fresh other (List.mem_cons_of_mem head among)
      rw [readAll]
      rcases read_cases first with ⟨opens, rfl⟩ | ⟨top, outer, stacked, fits,
        rfl⟩ | ⟨opens, closes, rfl⟩
      · rw [read_of_opening opens]
        exact induction later others
      · cases more with
        | nil =>
            -- a bracket below would be closed, and none like it is opened again
            obtain rfl : unclosed = top :: outer := stacked
            have bound := count_readAll_le later top
            have none := List.count_eq_zero.2 fun among => others top among List.mem_cons_self
            rw [List.count_cons_self, none] at bound
            dsimp only at bound
            omega
        | cons last more =>
            obtain ⟨rfl, rfl⟩ := List.cons.inj stacked
            rw [read_of_closing fits]
            exact induction later others
      · rw [read_of_plain opens closes]
        exact induction later others

/-- What refines a successful reading is one that has the same brackets open. -/
theorem Refines.exists_eq {left : Option Matching}
    (refines : Refines left (some ⟨unclosed, pairs⟩)) :
    ∃ found, left = some ⟨unclosed, found⟩ := by
  cases left with
  | none => exact refines.elim
  | some matching =>
      obtain ⟨stack, found⟩ := matching
      obtain rfl : stack = unclosed := refines.1
      exact ⟨found, rfl⟩

end
end Matching

/-! ## Brackets of a text -/

namespace Text

section

variable {text : List Char} {c : Char} {op : Op}

theorem isOpening_of_ofBracket? (known : Op.ofBracket? c = some op) :
    isOpening c = op.isOpening ∧ isClosing c = op.isClosing := by
  unfold Op.ofBracket? at known
  split at known <;> first
    | contradiction
    | (obtain rfl := Option.some.inj known
       exact ⟨rfl, rfl⟩)

theorem not_bracket_of_ofBracket? (none : Op.ofBracket? c = none) :
    isOpening c = false ∧ isClosing c = false := by
  have other {symbol : Char} (known : (Op.ofBracket? symbol).isSome = true) :
      (c == symbol) = false := by
    rw [beq_eq_false_iff_ne]
    rintro rfl
    rw [none] at known
    contradiction
  constructor
  · rw [isOpening, other rfl, other rfl, other rfl]
    rfl
  · rw [isClosing, other rfl, other rfl, other rfl]
    rfl

/-- The place behind the start of a text is where the brackets read so far lead. -/
theorem after?_take {p : Nat} {matching : Matching} (inside : p ≤ text.length)
    (reads : Scanner.textMatching text p = some matching) :
    Place.after? anyChar {} (text.take p) =
      some ⟨Quote.outside.after (text.take p), matching.unclosed.length⟩ := by
  induction p generalizing matching with
  | zero =>
      obtain rfl := Option.some.inj reads
      rfl
  | succ p induction =>
      have here := List.getElem?_eq_getElem inside
      obtain ⟨before, first, last⟩ := Option.bind_eq_some_iff.1
        ((Scanner.textMatching_succ text p).symm.trans reads)
      rw [List.take_add_one, here, Option.toList_some, Place.after?_append,
        induction (by omega) first,
        Option.bind_some, Place.after?, Quote.after_append]
      rw [bracketAt?, here, Option.bind_some] at last
      generalize text[p] = c at last
      generalize Quote.outside.after (text.take p) = quote at last
      have next : (Place.mk quote before.unclosed.length).next? anyChar c =
          some ⟨quote.next c, matching.unclosed.length⟩ := by
        unfold Place.next?
        dsimp only
        split
        · rename_i covers
          rw [if_pos covers] at last
          obtain rfl := Option.some.inj last
          rfl
        · rename_i covers
          obtain ⟨rfl, stays⟩ := Quote.next_of_not_covers (Bool.eq_false_iff.2 covers)
          rw [if_neg covers] at last
          rw [stays]
          cases bracket : Op.ofBracket? c with
          | none =>
              obtain ⟨opens, closes⟩ := not_bracket_of_ofBracket? bracket
              rw [bracket] at last
              obtain rfl := Option.some.inj last
              simp [opens, closes]
          | some op =>
              obtain ⟨opens, closes⟩ := isOpening_of_ofBracket? bracket
              have isBracket := (Op.spelling_of_ofBracket? bracket).2
              rw [bracket] at last
              obtain ⟨middle, read, same⟩ := exists_of_readAll_cons
                (show before.readAll [(p, op)] = some matching from last)
              obtain rfl := Option.some.inj same
              rw [opens, closes]
              rcases read_cases read with ⟨isOpening, rfl⟩ | ⟨top, outer, stacked, fits, rfl⟩ |
                ⟨isOpening, isClosing, -⟩
              · rw [if_pos isOpening]
                rfl
              · have isClosing := (isClosing_of_closing? fits).2
                have notOpening := not_isOpening_of_isClosing isClosing
                dsimp only at isClosing notOpening
                rw [notOpening, if_neg Bool.false_ne_true, if_pos isClosing, stacked]
                rfl
              · dsimp only at isOpening isClosing
                rw [Op.isBracket, isOpening, isClosing] at isBracket
                contradiction
      rw [next]
      rfl

/-- A closed text is shut. -/
theorem IsClosed.shut (closed : IsClosed text) : Shut anyChar text := by
  obtain ⟨pairs, reads⟩ := isNested_iff.1 closed.brackets
  have whole := Ledger.textMatching_eq (Nat.le_refl text.length)
  rw [List.take_length, reads] at whole
  have place := after?_take (Nat.le_refl _) whole
  rw [List.take_length, closed.literals] at place
  exact place

theorem slice_append (text : List Char) {start middle stop : Nat} (low : start ≤ middle)
    (high : middle ≤ stop) :
    Span.slice ⟨start, middle⟩ text ++ Span.slice ⟨middle, stop⟩ text =
      Span.slice ⟨start, stop⟩ text := by
  have lengths : stop - start = (middle - start) + (stop - middle) := by omega
  rw [Span.slice, Span.slice, Span.slice, Span.length, Span.length, Span.length, lengths,
    List.take_add,
    List.drop_drop, Nat.add_sub_cancel' low]

/-- Two spans with what stands between them. -/
theorem slice_around (text : List Char) {left right : Span} (first : left.start ≤ left.stop)
    (order : left.stop ≤ right.start) (last : right.start ≤ right.stop) :
    Span.slice ⟨left.start, right.stop⟩ text =
      left.slice text ++ Span.slice ⟨left.stop, right.start⟩ text ++ right.slice text := by
  have front := slice_append text first order
  exact ((congrArg (· ++ _) front).trans (slice_append text (Nat.le_trans first order) last)).symm

theorem take_append_slice (text : List Char) {start stop : Nat} (low : start ≤ stop) :
    text.take start ++ Span.slice ⟨start, stop⟩ text = text.take stop := by
  have whole := slice_append text (Nat.zero_le start) low
  simpa [Span.slice, Span.length] using whole

/-- What stands between two positions with the same open brackets is shut. -/
theorem shut_between {start stop : Nat} {unclosed : List (Nat × Op)}
    {found pairs : List (Nat × Nat)} (low : start ≤ stop) (inside : stop ≤ text.length)
    (outside : Quote.outside.after (text.take start) = .outside)
    (outside' : Quote.outside.after (text.take stop) = .outside)
    (reads : Scanner.textMatching text start = some ⟨unclosed, found⟩)
    (reads' : Scanner.textMatching text stop = some ⟨unclosed, pairs⟩) :
    Shut anyChar (Span.slice ⟨start, stop⟩ text) := by
  have length : (text.take start).length = start := by
    rw [List.length_take]
    omega
  rw [Ledger.textMatching_eq (Nat.le_trans low inside)] at reads
  rw [Ledger.textMatching_eq inside, ← take_append_slice text low, brackets_append outside,
    readAll_append, reads, Option.bind_some, length] at reads'
  rw [← take_append_slice text low, Quote.after_append, outside] at outside'
  refine IsClosed.shut ⟨outside', ?_⟩
  refine (isNested_shift start).1 (isNested_iff.2 ?_)
  rw [readAll_pairs] at reads'
  obtain ⟨⟨left, added⟩, whole, same⟩ := Option.map_eq_some_iff.1 reads'
  obtain ⟨rfl, -⟩ := Matching.mk.inj same
  refine ⟨added, readAll_above (show readAll ⟨[] ++ _, _⟩ _ = _ from whole)
    fun head among stacked => ?_⟩
  -- a bracket on the stack stands in front of the text
  obtain ⟨inner, -, rfl⟩ := List.mem_map.1 among
  rcases mem_of_readAll reads stacked with none | early
  · contradiction
  · obtain ⟨p, range, known⟩ := List.mem_filterMap.1 early
    obtain ⟨op, -, same⟩ := Option.map_eq_some_iff.1 known
    have position := congrArg Prod.fst same
    have bound := List.mem_range.1 range
    dsimp only [Prod.map] at position
    omega

end
end Text

/-! ## Spaced operators -/

/-- The operators stand in the text from `start` up to `stop`, one behind the other, and what stands
between them is shut. -/
def Spaced (text : List Char) (stop : Nat) : Nat → List (Nat × Op) → Prop
  | start, [] => start ≤ stop ∧ Shut anyChar (Span.slice ⟨start, stop⟩ text)
  | start, (position, op) :: rest =>
      start ≤ position ∧ Shut anyChar (Span.slice ⟨start, position⟩ text) ∧
        Span.slice ⟨position, position + op.width⟩ text = op.spelling ∧
        Spaced text stop (position + op.width) rest

section

variable {text : List Char} {start stop position : Nat} {op : Op}
  {heads front middle back : List (Nat × Op)}

theorem Spaced.le (spaced : Spaced text stop start heads) : start ≤ stop := by
  induction heads generalizing start with
  | nil => exact spaced.1
  | cons head rest induction =>
      have first := spaced.1
      have later := induction spaced.2.2.2
      omega

theorem spaced_append_cons : Spaced text stop start (front ++ (position, op) :: back) ↔
    Spaced text position start front ∧
      Span.slice ⟨position, position + op.width⟩ text = op.spelling ∧
      Spaced text stop (position + op.width) back := by
  induction front generalizing start with
  | nil => rw [List.nil_append, Spaced, Spaced, and_assoc]
  | cons head front induction =>
      rw [List.cons_append, Spaced, Spaced, induction, and_assoc, and_assoc, and_assoc]

/-- The spelling of an operator that is no bracket. -/
theorem isPlain_of_mem_spelling {c : Char} (plain : op.isBracket = false)
    (among : c ∈ op.spelling) :
    isPlain c = true ∧ c ≠ ';' := by
  have all : ∀ c ∈ op.spelling, isPlain c = true ∧ c ≠ ';' := by
    revert plain
    cases op <;> decide
  exact all c among

/-- Reading the operators is reading the text. -/
theorem Spaced.after? {unclosed final : List (Nat × Op)} {found pairs : List (Nat × Nat)}
    (spaced : Spaced text stop start heads)
    (reads : Matching.readAll ⟨unclosed, found⟩ heads = some ⟨final, pairs⟩) :
    Place.after? anyChar { depth := unclosed.length } (Span.slice ⟨start, stop⟩ text) =
      some { depth := final.length } := by
  induction heads generalizing start unclosed found with
  | nil =>
      obtain ⟨rfl, -⟩ := Matching.mk.inj (Option.some.inj reads)
      exact spaced.2.after? _
  | cons head rest induction =>
      obtain ⟨position, op⟩ := head
      obtain ⟨low, gap, spelled, later⟩ := spaced
      obtain ⟨⟨between, inner⟩, first, others⟩ := exists_of_readAll_cons reads
      rw [← slice_append text low (Nat.le_trans (Nat.le_add_right ..) later.le),
        ← slice_append text (Nat.le_add_right position op.width) later.le, spelled,
        Place.after?_append, gap.after?, Option.bind_some, Place.after?_append]
      have step : Place.after? anyChar { depth := unclosed.length } op.spelling =
          some { depth := between.length } := by
        rcases read_cases first with ⟨opens, same⟩ | ⟨top, outer, stacked, fits,
          same⟩ | ⟨opens, closes, same⟩
        · obtain ⟨rfl, -⟩ := Matching.mk.inj same
          dsimp only at opens
          cases op <;> first | contradiction | rfl
        · obtain ⟨rfl, -⟩ := Matching.mk.inj same
          have closes := (isClosing_of_closing? fits).2
          dsimp only at stacked closes
          subst stacked
          cases op <;> first | contradiction | rfl
        · obtain ⟨rfl, -⟩ := Matching.mk.inj same
          dsimp only at opens closes
          refine Place.after?_plain rfl fun c among => ⟨?_, rfl⟩
          exact (isPlain_of_mem_spelling (by rw [Op.isBracket, opens, closes]; rfl) among).1
      rw [step, Option.bind_some]
      exact induction later others

/-- Text with whole pairs of brackets is shut. -/
theorem Spaced.shut (spaced : Spaced text stop start heads) (nested : IsNested heads) :
    Shut anyChar (Span.slice ⟨start, stop⟩ text) := by
  obtain ⟨pairs, reads⟩ := isNested_iff.1 nested
  exact spaced.after? reads

/-- Whole pairs of brackets may be taken out. -/
theorem Spaced.erase (spaced : Spaced text stop start (front ++ middle ++ back))
    (nested : IsNested middle) : Spaced text stop start (front ++ back) := by
  induction front generalizing start with
  | nil =>
      rw [List.nil_append] at spaced ⊢
      cases back with
      | nil =>
          rw [List.append_nil] at spaced
          exact ⟨spaced.le, spaced.shut nested⟩
      | cons head back =>
          obtain ⟨position, op⟩ := head
          obtain ⟨before, spelled, later⟩ := spaced_append_cons.1 spaced
          exact ⟨before.le, before.shut nested, spelled, later⟩
  | cons head front induction =>
      obtain ⟨position, op⟩ := head
      obtain ⟨low, gap, spelled, later⟩ := spaced
      exact ⟨low, gap, spelled, induction later⟩

end

/-! ## Scans -/

namespace Reduction

section

variable {text : List Char} {state : Reduction} {low start : Nat} {op : Op}
  {front back segments : List Segment}

/-- Behind a scanned operator the brackets are those of the operators up to it. -/
theorem textMatching_behind {p : Nat} {matching : Matching}
    (well : Ledger.WellTagged text state.ledger)
    (tagged : state.ledger.tag? p = some (.operator op))
    (outside : Quote.outside.after (text.take p) = .outside)
    (reads : Scanner.textMatching text p = some matching) :
    Scanner.textMatching text (p + op.width) = matching.readAll [(p, op)] ∧
      Quote.outside.after (text.take (p + op.width)) = .outside := by
  have spelled := (well.head p op tagged).1
  have unquoted : Quote.outside.after op.spelling = .outside :=
    Quote.after_of_plain fun c among => Op.isQuoteMark_of_mem among
  constructor
  · cases bracket : op.isBracket with
    | true =>
        obtain ⟨c, word, known, width⟩ := Op.spelling_of_isBracket bracket
        have here : text[p]? = some c := by
          rw [Scanner.getElem?_of_slice spelled (Nat.le_refl p) (by omega), Nat.sub_self, word]
          rfl
        rw [width, Scanner.textMatching_succ, reads, Option.bind_some,
          Scanner.bracketAt?_of_outside here known outside, Option.map_some, Option.toList_some]
    | false =>
        rw [Scanner.textMatching_of_none, reads, readAll, read_of_not_isBracket bracket]
        · rfl
        intro q above below
        have here := Scanner.getElem?_of_slice spelled above below
        cases known : op.spelling[q - p]? with
        | none =>
            rw [known] at here
            rw [Text.bracketAt?, here]
            rfl
        | some c =>
            rw [known] at here
            exact Scanner.bracketAt?_of_char here
              (Op.ofBracket?_of_mem bracket (List.mem_of_getElem? known))
  · rw [← take_append_slice text (Nat.le_add_right p op.width), Quote.after_append, outside,
      spelled, unquoted]

/-- The operators behind a position are spaced, given the brackets in front of it. -/
theorem spaced_behind {unclosed : List (Nat × Op)} {found pairs all : List (Nat × Nat)}
    (well : Ledger.WellTagged text state.ledger) (rooted : Scanner.AreRooted text state.ledger)
    (ends : Quote.outside.after text = .outside)
    (final : Refines (Scanner.textMatching text text.length)
      (Matching.readAll {} (headsOf (front ++ back))))
    (nested : Matching.readAll {} (headsOf (front ++ back)) = some ⟨[], all⟩)
    (whole : Shows state 0 text.length (front ++ back)) (behind : Shows state low text.length back)
    (before : start ≤ low) (outside : Quote.outside.after (text.take start) = .outside)
    (reads : Scanner.textMatching text start = some ⟨unclosed, found⟩)
    (alike : Matching.readAll {} (headsOf front) = some ⟨unclosed, pairs⟩) :
    Spaced text text.length start (headsOf back) := by
  induction back generalizing front low start unclosed found pairs with
  | nil =>
      rw [List.append_nil, alike] at final
      rw [List.append_nil, alike] at nested
      obtain ⟨added, reached⟩ := final.exists_eq
      have order := Nat.le_trans before behind.le
      exact ⟨order, shut_between order (Nat.le_refl _) outside
        (by rw [List.take_length]; exact ends)
        reads reached⟩
  | cons segment back induction =>
      have regroup : front ++ segment :: back = (front ++ [segment]) ++ back := by simp
      obtain ⟨shownFront, stands, later⟩ := shows_append_cons.1 whole
      have low_le := behind.1.1
      have nonempty := stands.nonempty
      rw [regroup] at final nested whole
      cases isOp : segment.op? with
      | none =>
          have operand : segment.isOperand = true := by rw [Segment.isOperand, isOp]; rfl
          rw [headsOf_operand operand]
          have same : headsOf (front ++ [segment]) = headsOf front := by
            rw [headsOf_append, headsOf_operand operand]
            exact List.append_nil _
          rw [← same] at alike
          exact induction final nested whole later (by omega) outside reads alike
      | some op =>
          have tagged : state.ledger.tag? segment.span.start = some (.operator op) ∧
              segment.span.stop = segment.span.start + op.width := by
            obtain ⟨span, piece⟩ := segment
            cases piece with
            | op other =>
                obtain rfl := Option.some.inj isOp
                exact ⟨stands.tagged.2.1, stands.tagged.1⟩
            | word => contradiction
            | tree expr => contradiction
          obtain ⟨tagged, width⟩ := tagged
          have heads := shownFront.headsFrom
          rw [Nat.sub_zero] at heads
          obtain ⟨reached, refines, -⟩ := rooted _ op tagged
          rw [heads, alike] at refines
          obtain ⟨added, here⟩ := refines.exists_eq
          have size := shownFront.stop_le_size
          rw [well.size] at size
          have order : start ≤ segment.span.start := Nat.le_trans before low_le
          obtain ⟨next, outsideNext⟩ := textMatching_behind well tagged reached here
          have read := nested
          rw [headsOf_append] at read
          obtain ⟨⟨stack, closed⟩, first, -⟩ := exists_of_readAll_append read
          have one := first
          rw [headsOf_append, headsOf_op isOp, readAll_append, alike, Option.bind_some,
            readAll_pairs]
            at one
          obtain ⟨⟨_, more⟩, step, same⟩ := Option.map_eq_some_iff.1 one
          obtain ⟨rfl, -⟩ := Matching.mk.inj same
          rw [readAll_pairs, show Matching.readAll ⟨unclosed, []⟩ [(segment.span.start, op)] =
            _ from step]
            at next
          rw [headsOf_op isOp]
          refine ⟨order, shut_between order size outside reached reads here,
            (well.head _ op tagged).1, ?_⟩
          rw [← width] at next outsideNext ⊢
          exact induction final nested whole later (Nat.le_refl _) outsideNext next first

/-- The operators of a text that are nested are spaced. -/
theorem spaced_scan (scanned : state.ledger = Ledger.scan text)
    (ends : Quote.outside.after text = .outside) (shown : Shows state 0 text.length segments)
    (nested : IsNested (headsOf segments)) : Spaced text text.length 0 (headsOf segments) := by
  obtain ⟨all, nested⟩ := isNested_iff.1 nested
  have well : Ledger.WellTagged text state.ledger := scanned ▸ (Ledger.scan_sound text).1
  have rooted : Scanner.AreRooted text state.ledger := scanned ▸ Scanner.areRooted_scan text
  have heads := shown.heads
  have final := Ledger.refines_scan text
  rw [← scanned, heads] at final
  have whole := Ledger.textMatching_eq (Nat.le_refl text.length)
  rw [List.take_length] at whole
  rw [← whole] at final
  refine spaced_behind well rooted ends ?_
    (show Matching.readAll {} (headsOf ([] ++ segments)) = some ⟨[], all⟩ from nested) shown shown
    (Nat.le_refl 0) rfl rfl rfl
  exact final

end
end Reduction
end MethodLowering
