import MethodLowering.Proofs.Brackets.Scanned

/-!
# Operators of a scan

Every operator that a scan finds stands outside literals, and the brackets in front of it are those
of the text in front of it.
-/

namespace MethodLowering

open Matching
open Text hiding bracketAt?

namespace Scanner

open Ledger

/-- The operator at a position stands outside literals, behind the brackets of the text. -/
structure IsRooted (text : List Char) (ledger : Ledger) (p : Nat) (op : Op) : Prop where
  outside : Quote.outside.after (text.take p) = .outside
  refines : Refines (textMatching text p) (Matching.readAll {} (ledger.headsFrom 0 p))
  spaced : op = .instanceOf → isSpaced ledger p op.width = true

/-- All operators found so far. -/
def AreRooted (text : List Char) (ledger : Ledger) : Prop :=
  ∀ p op, ledger.tag? p = some (.operator op) → IsRooted text ledger p op

/-- What a step does to the operators: those in front of its position stay or are cleared, brackets
stay, and one may be found at the position. -/
structure Finds (scanner : Scanner) (after : Ledger) : Prop where
  chars : after.chars = scanner.ledger.chars
  kept : ∀ p < scanner.position, after.bracketAt? p = scanner.ledger.bracketAt? p
  heads : ∀ p op, after.tag? p = some (.operator op) →
    scanner.ledger.tag? p = some (.operator op) ∨ p = scanner.position ∧ scanner.quote = .outside ∧
        (op = .instanceOf → isSpaced scanner.ledger p op.width = true)

section

variable {text : List Char} {scanner : Scanner} {ledger after : Ledger} {p : Nat}
  {op : Op} {c : Char}

theorem isSpaced_congr (same : after.chars = ledger.chars) (p width : Nat) :
    isSpaced after p width = isSpaced ledger p width := by
  simp only [isSpaced, blankAt, char?_eq_chars, same]

/-- A step keeps all operators rooted. -/
theorem AreRooted.step (rooted : AreRooted text scanner.ledger) (sound : Sound text scanner)
    (gathers : Gathers text scanner) (finds : Finds scanner after) : AreRooted text after := by
  intro p op known
  rcases finds.heads p op known with old | ⟨rfl, outside, spaced⟩
  · obtain ⟨outside, refines, spaced⟩ := rooted p op old
    have before : p < scanner.position := by
      by_contra ahead
      exact (sound.ahead p (Nat.le_of_not_lt ahead)).ne_operator old
    refine ⟨outside, ?_, fun isTest => (isSpaced_congr finds.chars _ _).trans (spaced isTest)⟩
    rw [readAll_headsFrom_congr fun q low => finds.kept q (Nat.lt_trans low before)]
    exact refines
  · refine ⟨?_, ?_, fun isTest => (isSpaced_congr finds.chars _ _).trans (spaced isTest)⟩
    · rw [← sound.quote]
      exact outside
    · rw [readAll_headsFrom_congr finds.kept]
      exact gathers.refines

theorem finds_same (scanner : Scanner) : Finds scanner scanner.ledger :=
  ⟨rfl, fun _ _ => rfl, fun _ _ known => .inl known⟩

theorem Finds.setUnresolved (finds : Finds scanner after) (ahead : scanner.position ≤ p) :
    Finds scanner (after.setTag p .unresolved) := by
  refine ⟨by rw [chars_setTag, finds.chars], fun q low => ?_, fun q op known => ?_⟩
  · rw [bracketAt?_setUnresolved, if_neg (by omega), finds.kept q low]
  · rw [tag?_setTag] at known
    split at known
    · obtain ⟨old, -, same⟩ := Option.map_eq_some_iff.1 known
      contradiction
    · exact finds.heads q op known

theorem Finds.plainFrom (finds : Finds scanner after) {start count : Nat}
    (plain : ∀ p, start ≤ p → p < start + count → after.bracketAt? p = none) :
    Finds scanner (plainFrom start count after) := by
  refine ⟨by rw [chars_plainFrom, finds.chars], fun q low => ?_, fun q op known => ?_⟩
  · rw [bracketAt?_plainFrom q plain, finds.kept q low]
  · rw [tag?_plainFrom] at known
    split at known
    · obtain ⟨old, -, same⟩ := Option.map_eq_some_iff.1 known
      rw [clearedTag] at same
      split at same
      · contradiction
      · next other =>
          rw [same] at other
          contradiction
    · exact finds.heads q op known

/-- The three ways to take an operator. -/
theorem takeOp_cases (scanner : Scanner) (op : Op) :
    scanner.takeOp op = if op == .less && followsTypeName scanner.ledger scanner.position then
        ⟨tagOp scanner.ledger scanner.position op, scanner.position :: scanner.angles,
          scanner.quote,
          scanner.position + op.width⟩
      else if op == .greater then
        let closed := closeAngle { scanner with ledger := tagOp scanner.ledger scanner.position op }
        { closed with position := closed.position + op.width }
      else
        ⟨tagOp scanner.ledger scanner.position op, scanner.angles, scanner.quote,
          scanner.position + op.width⟩ := by
  rw [takeOp]
  split
  · rfl
  · split
    · rfl
    · rfl

theorem finds_tagOp (outside : scanner.quote = .outside)
    (spaced : op = .instanceOf → isSpaced scanner.ledger scanner.position op.width = true) :
    Finds scanner (tagOp scanner.ledger scanner.position op) := by
  refine ⟨by rw [tagOp, chars_setTags, chars_setTag], fun q low => ?_, fun q found known => ?_⟩
  · rw [bracketAt?_tagOp, if_neg (by omega), if_neg (by omega)]
  · rw [tag?_tagOp] at known
    split at known
    · next here =>
        obtain ⟨old, -, same⟩ := Option.map_eq_some_iff.1 known
        obtain rfl := Tag.operator.inj same
        exact .inr ⟨here, outside, here ▸ spaced⟩
    · split at known
      · obtain ⟨old, -, same⟩ := Option.map_eq_some_iff.1 known
        contradiction
      · exact .inl known

section

variable (gathers : Gathers text scanner) (sound : Sound text scanner)
include gathers sound

theorem finds_takeOp (outside : scanner.quote = .outside)
    (spaced : op = .instanceOf → isSpaced scanner.ledger scanner.position op.width = true) :
    Finds scanner (scanner.takeOp op).ledger := by
  have tagged := finds_tagOp outside spaced
  rw [takeOp_cases]
  split
  · exact tagged
  · split
    · next closes =>
        obtain rfl := eq_of_beq closes
        dsimp only
        rw [closeAngle]
        dsimp only
        cases angles : scanner.angles with
        | nil => exact tagged
        | cons opening rest =>
            dsimp only
            split
            · next typed =>
                have order := (sound.angles opening (by simp [angles])).1
                have first : (tagOp scanner.ledger scanner.position .greater).bracketAt? opening =
                    none := by
                  rw [tagged.kept opening order]
                  exact gathers.angles opening (by simp [angles])
                exact tagged.plainFrom (bracketAt?_typeText typed first order)
            · exact tagged
    · exact tagged

theorem finds_takeSolid
    (outside : scanner.quote = .outside) : Finds scanner scanner.takeSolid.ledger := by
  rw [takeSolid]
  split
  · next close found =>
      have later := (emptyPair?_spec found sound.well.chars).1
      exact ((finds_same scanner).setUnresolved (Nat.le_refl _)).setUnresolved (Nat.le_of_lt later)
  · split
    · exact finds_same scanner
    · next found spelled =>
        dsimp only
        split
        · exact finds_same scanner
        · refine finds_takeOp gathers sound outside fun isTest => ?_
          have same : found = .instanceOf := by
            rw [meantOp] at isTest
            split at isTest
            · contradiction
            · split at isTest
              · contradiction
              · exact isTest
          subst same
          have spaced := List.find?_some spelled
          rw [bne_self_eq_false, Bool.false_or, Bool.and_eq_true] at spaced
          rw [isTest]
          exact spaced.2

theorem finds_advance (c : Char) :
    Finds scanner (scanner.advance c).ledger := by
  rw [advance]
  dsimp only
  split
  · exact (finds_same scanner).setUnresolved (Nat.le_refl _)
  · next notCovered =>
      split
      · exact finds_same scanner
      · obtain ⟨outside, stays⟩ := Quote.next_of_not_covers (Bool.eq_false_iff.2 notCovered)
        have same : ({ scanner with quote := scanner.quote.next c } : Scanner) = scanner := by
          rw [stays, ← outside]
        rw [same]
        exact finds_takeSolid gathers sound outside

end

/-- All operators of a scan are rooted. -/
theorem AreRooted.run (rooted : AreRooted text scanner.ledger) (sound : Sound text scanner)
    (gathers : Gathers text scanner) (count : Nat) : AreRooted text (run count scanner).ledger := by
  induction count generalizing scanner with
  | zero => exact rooted
  | succ count induction =>
      rw [Scanner.run]
      cases here : scanner.ledger.char? scanner.position with
      | none => exact rooted
      | some c =>
          rw [char?_eq_chars, sound.well.chars] at here
          exact induction (rooted.step sound gathers (finds_advance gathers sound c))
            (sound.advance here)
            (gathers.advance sound here)

theorem areRooted_scan (text : List Char) : AreRooted text (Ledger.scan text) := by
  have start : AreRooted text (ofText text) := fun p op known =>
    absurd known (isFree_ofText text p).ne_operator
  exact AreRooted.run start (sound_ofText text) ⟨⟨rfl, nofun⟩, nofun⟩ text.length

end

end Scanner

namespace Ledger

variable {ledger : Ledger} {text : List Char} {start count p : Nat} {op : Op}
  {front back : List (Nat × Op)}

/-- The operators in front of one are those that start in front of its position. -/
theorem headsFrom_split (split : ledger.headsFrom start count = front ++ (p, op) :: back) :
    ∃ before, p = start + before ∧ front = ledger.headsFrom start before ∧
      ledger.tag? p = some (.operator op) := by
  induction count generalizing start front with
  | zero =>
      rw [headsFrom] at split
      simp at split
  | succ count induction =>
      rw [headsFrom] at split
      cases here : ledger.headAt? start with
      | none =>
          rw [here] at split
          obtain ⟨before, rfl, rfl, tagged⟩ := induction split
          refine ⟨before + 1, by omega, ?_, tagged⟩
          rw [headsFrom, here]
      | some found =>
          rw [here] at split
          cases front with
          | nil =>
              obtain ⟨rfl, rfl⟩ := Prod.mk.inj (List.cons.inj split).1
              refine ⟨0, rfl, rfl, ?_⟩
              rw [headAt?] at here
              split at here
              · next known => rw [known, Option.some.inj here]
              · contradiction
          | cons head front =>
              obtain ⟨rfl, later⟩ := List.cons.inj split
              obtain ⟨before, rfl, rfl, tagged⟩ := induction later
              refine ⟨before + 1, by omega, ?_, tagged⟩
              rw [headsFrom, here]

/-- The brackets of a text in front of a position are those of its start. -/
theorem textMatching_eq (low : p ≤ text.length) :
    Scanner.textMatching text p = Matching.readAll {} (Text.brackets (text.take p)) := by
  rw [Scanner.textMatching, Text.brackets, List.length_take, Nat.min_eq_left low]
  refine congrArg _ (List.filterMap_congr fun q among => ?_)
  have inside := List.mem_range.1 among
  rw [Text.bracketAt?, Text.bracketAt?, List.getElem?_take, if_pos inside, List.take_take,
    Nat.min_eq_left (Nat.le_of_lt inside)]

/-- An operator with whole pairs of brackets in front of it stands outside the brackets of the
text. -/
theorem outer_of_isNested (split : (scan text).heads 0 text.length = front ++ (p, op) :: back)
    (nested : IsNested front) :
    IsNested (Text.brackets (text.take p)) ∧ Quote.outside.after (text.take p) = .outside ∧
      (∃ rest, text = text.take p ++ op.spelling ++ rest) ∧
      (op = .instanceOf → Scanner.isSpaced (scan text) p op.width = true) := by
  obtain ⟨before, same, rfl, tagged⟩ := headsFrom_split split
  obtain rfl : p = before := by omega
  obtain ⟨outside, refines, spaced⟩ := Scanner.areRooted_scan text p op tagged
  have well := (scan_sound text).1
  have inside : p < text.length := by
    rw [← well.size]
    exact lt_size_of_tag? tagged
  obtain ⟨pairs, nested⟩ := nested
  have reads := nested [] []
  rw [List.append_nil] at reads
  rw [show Matching.readAll {} _ = _ from reads, textMatching_eq (Nat.le_of_lt inside)] at refines
  refine ⟨?_, outside, ⟨text.drop (p + op.width), ?_⟩, spaced⟩
  · cases readings : Matching.readAll {} (Text.brackets (text.take p)) with
    | none =>
        rw [readings] at refines
        exact refines.elim
    | some matching =>
        obtain ⟨unclosed, found⟩ := matching
        rw [readings] at refines
        obtain ⟨rfl, -⟩ := refines
        exact ⟨found, Nested.of_readAll readings⟩
  · have spelled := (well.head p op tagged).1
    rw [Span.slice, Span.length, Nat.add_sub_cancel_left] at spelled
    rw [← spelled, List.append_assoc, ← List.drop_drop, List.take_append_drop,
      List.take_append_drop]

end Ledger
end MethodLowering
