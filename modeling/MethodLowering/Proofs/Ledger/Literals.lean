import MethodLowering.Proofs.Brackets.Heads

/-!
# Literals in a scan

A scan steps over whole operators and whole pairs of brackets without looking for quotation marks in
them.  There are none, so it stays in step with a reading of the text character by character: what
stands in a literal is plain text, and the blanks are those outside literals.
-/

namespace MethodLowering

open Text hiding bracketAt?

namespace Text

theorem Quote.getElem?_marks (quote : Quote) (text : List Char) (p : Nat) :
    (quote.marks text)[p]? = text[p]?.map (quote.after (text.take p)).covers := by
  induction text generalizing quote p with
  | nil => rfl
  | cons c rest induction =>
      cases p with
      | zero => rfl
      | succ p =>
          rw [Quote.marks, List.getElem?_cons_succ, List.getElem?_cons_succ, induction,
            List.take_succ_cons,
            Quote.after_cons]

/-- The marks of a reading tell which characters belong to literals. -/
theorem getElem?_marks_eq_true {text : List Char} {p : Nat} :
    (Quote.outside.marks text)[p]? = some true ↔ InLiteral text p := by
  rw [Quote.getElem?_marks, InLiteral, Option.map_eq_some_iff, Option.any_eq_true]

/-- From outside every literal, no literal begins before a quotation mark. -/
theorem not_inLiteral_of_plain {text : List Char} {low high p : Nat}
    (outside : Quote.outside.after (text.take low) = .outside)
    (plain : ∀ q, low ≤ q → q < high → text[q]?.any isQuoteMark = false) (above : low ≤ p)
    (below : p < high) : ¬ InLiteral text p := by
  have stays : Quote.outside.after (text.take p) = .outside := by
    obtain ⟨count, rfl⟩ := Nat.exists_eq_add_of_le above
    refine Scanner.after_take_add outside fun c among => ?_
    obtain ⟨i, known⟩ := List.mem_iff_getElem?.1 among
    simp only [Span.slice, Span.length, Nat.add_sub_cancel_left, List.getElem?_take,
      List.getElem?_drop] at known
    split at known
    · have here := plain (low + i) (Nat.le_add_right _ _) (by omega)
      rwa [known, Option.any_some] at here
    · contradiction
  rw [InLiteral, stays]
  exact Bool.eq_false_iff.1 (plain p above below)

end Text

namespace Scanner

open Ledger

section

variable {text : List Char} {scanner : Scanner} {ledger : Ledger} {tag : Tag} {p : Nat}
  {op : Op} {c : Char}

/-! ## What a step leaves alone -/

theorem tag?_plainFrom_of_plain (known : ledger.tag? p = some tag) (plain : tag.isOperator = false)
    (start count : Nat) : (plainFrom start count ledger).tag? p = some tag := by
  rw [tag?_plainFrom, known, Option.map_some, clearedTag, plain,
    if_neg Bool.false_ne_true, ite_self]

theorem tag?_closeAngle_of_plain (known : scanner.ledger.tag? p = some tag)
    (plain : tag.isOperator = false) :
    scanner.closeAngle.ledger.tag? p = some tag := by
  rw [closeAngle]
  split
  · exact known
  · dsimp only
    split
    · exact tag?_plainFrom_of_plain known plain _ _
    · exact known

theorem tag?_tagOp_behind (low : p < scanner.position) :
    (tagOp scanner.ledger scanner.position op).tag? p = scanner.ledger.tag? p := by
  rw [tag?_tagOp, if_neg (by omega), if_neg (by omega)]

theorem tag?_takeOp_of_plain (known : scanner.ledger.tag? p = some tag)
    (plain : tag.isOperator = false)
    (low : p < scanner.position) : (scanner.takeOp op).ledger.tag? p = some tag := by
  have tagged : (tagOp scanner.ledger scanner.position op).tag? p = some tag := by
    rw [tag?_tagOp_behind low, known]
  rw [takeOp_cases]
  split
  · exact tagged
  · split
    · exact tag?_closeAngle_of_plain tagged plain
    · exact tagged

/-- No step changes plain text and blanks behind its position. -/
theorem tag?_advance_of_plain (known : scanner.ledger.tag? p = some tag)
    (plain : tag.isOperator = false)
    (low : p < scanner.position) (c : Char) : (scanner.advance c).ledger.tag? p = some tag := by
  rw [advance]
  dsimp only
  split
  · rw [tag?_setTag, if_neg (Nat.ne_of_gt low), known]
  · split
    · exact known
    · rw [takeSolid]
      split
      · next close found =>
          have later := (emptyPair?_spec found rfl).1
          dsimp only at later ⊢
          rw [tag?_setTag, if_neg (by omega), tag?_setTag, if_neg (Nat.ne_of_gt low), known]
      · split
        · exact known
        · dsimp only
          split
          · exact known
          · have same : ({ scanner with quote := scanner.quote.next c } : Scanner).ledger.tag? p =
              some tag := known
            exact tag?_takeOp_of_plain same plain low

/-- Nor does a run. -/
theorem tag?_run_of_plain (sound : Sound text scanner) (known : scanner.ledger.tag? p = some tag)
    (plain : tag.isOperator = false) (low : p < scanner.position) (count : Nat) :
    (run count scanner).ledger.tag? p = some tag := by
  induction count generalizing scanner with
  | zero => exact known
  | succ count induction =>
      rw [run]
      cases here : scanner.ledger.char? scanner.position with
      | none => exact known
      | some c =>
          have further := lt_position_advance sound c
          rw [char?_eq_chars, sound.well.chars] at here
          exact induction (sound.advance here) (tag?_advance_of_plain known plain low c)
            (Nat.lt_trans low further)

/-! ## Literals -/

/-- A step outside literals passes no quotation mark. -/
theorem not_isQuoteMark_takeSolid (sound : Sound text scanner)
    (here : text[scanner.position]? = some c)
    (plain : isQuoteMark c = false) (low : scanner.position ≤ p)
    (high : p < scanner.takeSolid.position) :
    text[p]?.any isQuoteMark = false := by
  have single (short : p < scanner.position + 1) : text[p]?.any isQuoteMark = false := by
    obtain rfl : p = scanner.position := by omega
    rwa [here]
  rw [takeSolid] at high
  split at high
  · next close found =>
      obtain ⟨later, first, last, blanks⟩ := emptyPair?_spec found sound.well.chars
      dsimp only at high
      obtain rfl | rfl | between : p = scanner.position ∨ p = close ∨
        (scanner.position < p ∧ p < close) := by
        omega
      · exact single (Nat.lt_succ_self _)
      · rw [last]
        rfl
      · have blank := blanks p between.1 between.2
        cases known : text[p]? with
        | none => rfl
        | some c =>
            rw [known, Option.any_some] at blank
            exact isQuoteMark_of_isBlank blank
  · split at high
    · exact single high
    · next found spelled =>
        dsimp only at high
        split at high
        · exact single high
        · rw [position_takeOp] at high
          have meant :=
            slice_of_meantOp sound.well.chars (slice_of_spelledOp? sound.well.chars spelled)
          have here := getElem?_of_slice meant low high
          rw [here]
          cases known : (scanner.meantOp found).spelling[p - scanner.position]? with
          | none => rfl
          | some c => exact Op.isQuoteMark_of_mem (List.mem_of_getElem? known)

/-- Behind the position, all literals are plain text. -/
def Quotes (text : List Char) (scanner : Scanner) : Prop :=
  ∀ p < scanner.position, InLiteral text p → scanner.ledger.tag? p = some .unresolved

theorem Quotes.advance (quotes : Quotes text scanner) (sound : Sound text scanner)
    (here : text[scanner.position]? = some c) : Quotes text (scanner.advance c) := by
  intro p high literal
  by_cases old : p < scanner.position
  · exact tag?_advance_of_plain (quotes p old literal) rfl old c
  · have covers : p = scanner.position → scanner.quote.covers c = true := by
      rintro rfl
      rwa [InLiteral, here, Option.any_some, ← sound.quote] at literal
    rw [Scanner.advance] at high ⊢
    dsimp only at high ⊢
    split at high
    · next covered =>
        obtain rfl : p = scanner.position := by
          dsimp only at high
          omega
        have inside : scanner.position < scanner.ledger.size := by
          rw [sound.well.size]
          exact (List.getElem?_eq_some_iff.1 here).1
        rw [if_pos covered, tag?_setTag, if_pos rfl]
        cases known : scanner.ledger.tag? scanner.position with
        | none => exact absurd (tag?_eq_none.1 known) (Nat.not_le_of_lt inside)
        | some tag => rfl
    · next notCovered =>
        split at high
        · exact absurd (covers (by dsimp only at high; omega)) notCovered
        · obtain ⟨outside, stays⟩ := Quote.next_of_not_covers (Bool.eq_false_iff.2 notCovered)
          have same : ({ scanner with quote := scanner.quote.next c } : Scanner) = scanner := by
            rw [stays, ← outside]
          rw [same] at high
          have plain : isQuoteMark c = false := by
            rw [outside] at notCovered
            exact Bool.eq_false_iff.2 notCovered
          have before : Quote.outside.after (text.take scanner.position) = .outside := by
            rw [← sound.quote, outside]
          exact absurd literal (not_inLiteral_of_plain before
            (fun q low high => not_isQuoteMark_takeSolid sound here plain low high)
              (Nat.le_of_not_lt old) high)

theorem Quotes.run (quotes : Quotes text scanner) (sound : Sound text scanner) (count : Nat) :
    Quotes text (run count scanner) := by
  induction count generalizing scanner with
  | zero => exact quotes
  | succ count induction =>
      rw [Scanner.run]
      cases here : scanner.ledger.char? scanner.position with
      | none => exact quotes
      | some c =>
          rw [char?_eq_chars, sound.well.chars] at here
          exact induction (quotes.advance sound here) (sound.advance here)

end

end Scanner

/-- **Literals.**  In a scan every character that a reading of the whole text finds in a literal is
plain text, and the characters tagged as blanks are those that are blanks and stand in no
literal. -/
theorem Ledger.tag?_scan_literal (text : List Char) (p : Nat) :
    ((Quote.outside.marks text)[p]? = some true → (scan text).tag? p = some .unresolved) ∧
      ((scan text).tag? p = some .space ↔
        text[p]?.any Text.isBlank = true ∧ (Quote.outside.marks text)[p]? = some false) := by
  have sound := Scanner.sound_ofText text
  have quoted (literal : InLiteral text p) : (scan text).tag? p = some .unresolved := by
    have quotes : Scanner.Quotes text { ledger := ofText text } := nofun
    refine quotes.run sound text.length p ?_ literal
    rw [Scanner.position_scan]
    obtain ⟨c, known, -⟩ := (Option.any_eq_true _ _).1 literal
    exact (List.getElem?_eq_some_iff.1 known).1
  refine ⟨fun marked => quoted (getElem?_marks_eq_true.1 marked), fun space => ?_,
    fun ⟨blank, unmarked⟩ => ?_⟩
  · have blank := (scan_sound text).1.blank p space
    refine ⟨blank, ?_⟩
    obtain ⟨c, known, -⟩ := (Option.any_eq_true _ _).1 blank
    cases marks : (Quote.outside.marks text)[p]? with
    | none =>
        rw [Quote.getElem?_marks, known] at marks
        contradiction
    | some mark =>
        cases mark with
        | false => rfl
        | true =>
            rw [quoted (getElem?_marks_eq_true.1 marks)] at space
            contradiction
  · refine ((scan_sound text).2 p blank).resolve_right fun literal => ?_
    rw [getElem?_marks_eq_true.2 literal] at unmarked
    contradiction

end MethodLowering
