import MethodLowering.Proofs.Roundtrip.Surrounded

/-!
# Steps of a scan inside another text

Every step of a scan of a text is made further on in another text in which it stands apart, and tags
the same there.
-/

namespace MethodLowering

open Text

namespace Scanner

open Ledger

/-! ## Steps -/

/-- The scanner further on in another text. -/
def further (shift : Nat) (scanner : Scanner) (ledger : Ledger) : Scanner where
  ledger := ledger
  angles := scanner.angles.map (shift + ·)
  quote := scanner.quote
  position := shift + scanner.position

/-- The ledger of the whole text contains the one of the text, and around it the ground. -/
structure Embeds (front text back : List Char) (ground inner outer : Ledger) : Prop where
  contains : Contains front text back inner outer
  around : ∀ p, p < front.length ∨ front.length + text.length ≤ p → outer.tag? p = ground.tag? p

section

variable {front text back : List Char} {ground inner outer : Ledger} {p count : Nat}
  {c : Char} {op : Op} {tag : Tag} {scanner : Scanner}

section

variable (embeds : Embeds front text back ground inner outer)
include embeds

theorem Embeds.setTag (low : p < text.length) :
    Embeds front text back ground (inner.setTag p tag) (outer.setTag (front.length + p) tag) := by
  obtain ⟨⟨chars, whole, tags⟩, around⟩ := embeds
  refine ⟨⟨by rw [chars_setTag, chars], by rw [chars_setTag, whole], fun q inside => ?_⟩,
    fun q outside => ?_⟩
  · rw [tag?_setTag, tag?_setTag, tags q inside]
    simp only [Nat.add_left_cancel_iff]
  · rw [tag?_setTag, if_neg (by omega), around q outside]

theorem Embeds.tagOp (within : p + op.width ≤ text.length) :
    Embeds front text back ground (tagOp inner p op) (tagOp outer (front.length + p) op) := by
  have positive := width_pos op
  obtain ⟨⟨chars, whole, tags⟩, around⟩ := embeds
  refine ⟨⟨?_, ?_, fun q inside => ?_⟩, fun q outside => ?_⟩
  · rw [Scanner.tagOp, chars_setTags, chars_setTag, chars]
  · rw [Scanner.tagOp, chars_setTags, chars_setTag, whole]
  · rw [tag?_tagOp, tag?_tagOp, tags q inside]
    simp only [Nat.add_left_cancel_iff, Nat.add_lt_add_iff_left, Nat.add_assoc]
  · rw [tag?_tagOp, if_neg (by omega), if_neg (by omega), around q outside]

theorem Embeds.plainFrom (within : p + count ≤ text.length) :
    Embeds front text back ground (plainFrom p count inner)
    (plainFrom (front.length + p) count outer) := by
  obtain ⟨⟨chars, whole, tags⟩, around⟩ := embeds
  refine ⟨⟨by rw [chars_plainFrom, chars], by rw [chars_plainFrom, whole], fun q inside => ?_⟩,
    fun q outside => ?_⟩
  · rw [tag?_plainFrom, tag?_plainFrom, tags q inside]
    simp only [Nat.add_le_add_iff_left, Nat.add_lt_add_iff_left, Nat.add_assoc]
  · rw [tag?_plainFrom]
    split
    · next between =>
        obtain ⟨low, high⟩ := between
        omega
    · exact around q outside

end

end

section

variable {front text back : List Char} {ground outer : Ledger} {c : Char} {op : Op}
  {scanner : Scanner} (apart : StandsApart front text back)
    (embeds : Embeds front text back ground scanner.ledger outer)
include embeds

theorem closeAngle_further (before : ∀ angle ∈ scanner.angles, angle < scanner.position)
    (low : scanner.position < text.length) :
    ∃ ledger, (further front.length scanner outer).closeAngle =
        further front.length scanner.closeAngle ledger ∧
      Embeds front text back ground scanner.closeAngle.ledger ledger := by
  obtain ⟨ledger, angles, quote, position⟩ := scanner
  cases angles with
  | nil => exact ⟨outer, rfl, embeds⟩
  | cons opening rest =>
      have order := before opening List.mem_cons_self
      have typed : onlyTypeText outer (front.length + opening) (front.length + position) =
          onlyTypeText ledger opening position :=
        onlyTypeText_inside embeds.contains (Nat.le_of_lt low)
      dsimp only at order low embeds typed
      by_cases closes : onlyTypeText ledger opening position = true
      · have alone : closeAngle ⟨ledger, opening :: rest, quote, position⟩ =
            ⟨plainFrom opening (position + 1 - opening) ledger, rest, quote, position⟩ :=
              if_pos closes
        have whole :
            (further front.length ⟨ledger, opening :: rest, quote, position⟩ outer).closeAngle =
            ⟨plainFrom (front.length + opening)
              (front.length + position + 1 - (front.length + opening)) outer,
              rest.map (front.length + ·), quote, front.length + position⟩ := if_pos
              (typed.trans closes)
        rw [alone, whole, show front.length + position + 1 - (front.length + opening) =
          position + 1 - opening by omega]
        exact ⟨_, rfl, embeds.plainFrom (by omega)⟩
      · have alone : closeAngle ⟨ledger, opening :: rest, quote, position⟩ =
            ⟨ledger, rest, quote, position⟩ := if_neg closes
        have whole :
            (further front.length ⟨ledger, opening :: rest, quote, position⟩ outer).closeAngle =
            ⟨outer, rest.map (front.length + ·), quote, front.length + position⟩ :=
          if_neg fun other => closes (typed.symm.trans other)
        rw [alone, whole]
        exact ⟨outer, rfl, embeds⟩

include apart

theorem takeOp_further (sound : Sound text scanner)
    (spelled : Span.slice ⟨scanner.position, scanner.position + op.width⟩ text = op.spelling) :
    ∃ ledger, (further front.length scanner outer).takeOp op =
        further front.length (scanner.takeOp op) ledger ∧
      Embeds front text back ground (scanner.takeOp op).ledger ledger := by
  have positive := width_pos op
  have within : scanner.position + op.width ≤ text.length :=
    le_length_of_slice (congrArg List.length spelled) positive
  have tagged := embeds.tagOp within
  have opens : (op == .less && followsTypeName outer (front.length + scanner.position)) =
      (op == .less && followsTypeName scanner.ledger scanner.position) := by
    cases less : op == Op.less with
    | false => rfl
    | true =>
        obtain rfl := eq_of_beq less
        rw [followsTypeName_inside apart embeds.contains
          (pos_of_spelled apart spelled (.inr (.inr rfl))) (by omega)]
  rw [takeOp_cases, takeOp_cases]
  simp only [show (further front.length scanner outer).ledger = outer from rfl,
    show (further front.length scanner outer).position =
    front.length + scanner.position from rfl, opens]
  split
  · refine ⟨_, ?_, tagged⟩
    simp only [further, List.map_cons, Nat.add_assoc]
  · split
    · obtain ⟨ledger, closes, embeds'⟩ := @closeAngle_further front text back ground
        (tagOp outer (front.length + scanner.position) op)
        { scanner with ledger := tagOp scanner.ledger scanner.position op } tagged
        (fun angle member => (sound.angles angle member).1) (by dsimp only; omega)
      refine ⟨ledger, ?_, embeds'⟩
      have shifted :=
        congrArg (fun closed : Scanner => { closed with position := closed.position + op.width })
        closes
      refine shifted.trans ?_
      simp only [further, Nat.add_assoc]
    · refine ⟨_, ?_, tagged⟩
      simp only [further, Nat.add_assoc]

theorem meantOp_further (low : scanner.position < text.length) (op : Op) :
    (further front.length scanner outer).meantOp op = scanner.meantOp op := by
  have doubled : charIs outer (front.length + scanner.position + 1) '=' =
      charIs scanner.ledger (scanner.position + 1) '=' :=
    charIs_inside apart embeds.contains (by decide) low
  have angle : (scanner.angles.map (front.length + ·)).head?.any
      (onlyTypeText outer · (front.length + scanner.position)) =
      scanner.angles.head?.any (onlyTypeText scanner.ledger · scanner.position) := by
    rw [List.head?_map, Option.any_map]
    congr 1
    exact funext fun opening => onlyTypeText_inside embeds.contains (Nat.le_of_lt low)
  rw [meantOp, meantOp]
  simp only [further, doubled, angle]

theorem takeSolid_further (sound : Sound text scanner) (low : scanner.position < text.length) :
    ∃ ledger, (further front.length scanner outer).takeSolid =
        further front.length scanner.takeSolid ledger ∧
      Embeds front text back ground scanner.takeSolid.ledger ledger := by
  have pair := emptyPair?_inside apart embeds.contains low
  have spelled := spelledOp?_inside apart embeds.contains low
  have first : scanner.ledger.isSpace 0 = false := by
    have solid := (blankAt_first apart embeds.contains).2
    rw [blankAt, char?_eq_chars, sound.well.chars] at solid
    rw [isSpace]
    cases known : scanner.ledger.tag? 0 with
    | none => rfl
    | some tag =>
        cases tag with
        | space =>
            rw [sound.well.blank 0 known] at solid
            contradiction
        | _ => rfl
  rw [takeSolid, takeSolid]
  simp only [show (further front.length scanner outer).ledger = outer from rfl,
    show (further front.length scanner outer).position = front.length + scanner.position from rfl,
    pair, spelled,
    meantOp_further apart embeds low]
  cases empty : emptyPair? scanner.ledger scanner.position with
  | some close =>
      have inside : close < text.length :=
        (List.getElem?_eq_some_iff.1 (emptyPair?_spec empty sound.well.chars).2.2.1).1
      exact ⟨_, rfl, (embeds.setTag low).setTag inside⟩
  | none =>
      cases found : spelledOp? scanner.ledger scanner.position with
      | none => exact ⟨outer, rfl, embeds⟩
      | some op =>
          have meant :=
            slice_of_meantOp sound.well.chars (slice_of_spelledOp? sound.well.chars found)
          dsimp only [Option.map_none]
          rw [startsNumber_inside apart embeds.contains first low meant]
          split
          · exact ⟨outer, rfl, embeds⟩
          · exact takeOp_further apart embeds sound meant

theorem advance_further (sound : Sound text scanner) (here : text[scanner.position]? = some c) :
    ∃ ledger, (further front.length scanner outer).advance c =
        further front.length (scanner.advance c) ledger ∧
      Embeds front text back ground (scanner.advance c).ledger ledger := by
  have low := (List.getElem?_eq_some_iff.1 here).1
  rw [advance, advance]
  simp only [show (further front.length scanner outer).quote = scanner.quote from rfl]
  split
  · exact ⟨_, rfl, embeds.setTag low⟩
  · next notCovered =>
      split
      · exact ⟨outer, rfl, embeds⟩
      · obtain ⟨outside, stays⟩ := Quote.next_of_not_covers (Bool.eq_false_iff.2 notCovered)
        have same : ({ scanner with quote := scanner.quote.next c } : Scanner) = scanner := by
          rw [stays, ← outside]
        have same' :
            ({ further front.length scanner outer with quote := scanner.quote.next c } : Scanner) =
            further front.length scanner outer := by
          rw [stays, ← outside]
          rfl
        rw [same, same']
        exact takeSolid_further apart embeds sound low

/-- A scan of the text goes the same way inside the whole text. -/
theorem run_further (sound : Sound text scanner) (count : Nat) :
    ∃ ledger used, used + scanner.position ≤ (run count scanner).position ∧
      Embeds front text back ground (run count scanner).ledger ledger ∧ ∀ more,
        run (used + more) (further front.length scanner outer) =
          run more (further front.length (run count scanner) ledger) := by
  induction count generalizing scanner outer with
  | zero =>
      refine ⟨outer, 0, Nat.le_of_eq (Nat.zero_add _), embeds, fun more => ?_⟩
      rw [Nat.zero_add]
      rfl
  | succ count induction =>
      rw [run]
      cases here : scanner.ledger.char? scanner.position with
      | none =>
          refine ⟨outer, 0, Nat.le_of_eq (Nat.zero_add _), embeds, fun more => ?_⟩
          rw [Nat.zero_add]
      | some c =>
          have known := here
          rw [char?_eq_chars, sound.well.chars] at known
          have low := (List.getElem?_eq_some_iff.1 known).1
          have later := lt_position_advance sound c
          obtain ⟨ledger, step, embeds'⟩ := advance_further apart embeds sound known
          obtain ⟨ledger', used, bound, embeds'', rest⟩ := induction embeds' (sound.advance known)
          refine ⟨ledger', used + 1, by dsimp only; omega, embeds'', fun more => ?_⟩
          have here' : (further front.length scanner outer).ledger.char?
              (further front.length scanner outer).position = some c := by
            rw [← here]
            exact embeds.contains.char?_eq low
          rw [Nat.add_right_comm, run, here']
          dsimp only
          rw [step, rest]

end

end Scanner
end MethodLowering
