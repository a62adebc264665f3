import MethodLowering.Proofs.Ledger.Literals
import MethodLowering.Proofs.Roundtrip.Framing
import MethodLowering.Proofs.Roundtrip.Operand

/-!
# Texts that a scan crosses

A scan that arrives at a text outside literals goes on to its end and leaves certain tags, whatever
stands in front of the text.  Texts that are crossed one after the other are crossed together, so it
is enough to look at words, blanks, marks and pairs of brackets by themselves.
-/

namespace MethodLowering

open Text

/-- A blank or plain text. -/
def Tag.isPlain : Tag → Bool
  | .space | .unresolved => true
  | _ => false

namespace Scanner

open Ledger

section

variable {text front more rest arguments gap word : List Char} {scanner : Scanner} {ledger : Ledger}
  {test test' : Tag → Bool} {op : Op} {c : Char} {p : Nat}

theorem run_add (count more : Nat) (scanner : Scanner) :
    run (count + more) scanner = run more (run count scanner) := by
  induction count generalizing scanner with
  | zero => rw [Nat.zero_add]; rfl
  | succ count induction =>
      rw [Nat.add_right_comm, run, run]
      cases here : scanner.ledger.char? scanner.position with
      | none =>
          have ended : scanner.ledger.chars.length ≤ scanner.position := by
            rwa [char?_eq_chars, List.getElem?_eq_none_iff] at here
          exact (run_ended ended more).symm
      | some c => exact induction _

/-! ## Texts that a scan crosses -/

/-- Wherever a scan arrives between `front` and the text outside literals, it goes on to the end of
the text, with tags that pass the test and those in front as they were. -/
def Crosses (test : Tag → Bool) (front text rest : List Char) : Prop :=
  ∀ scanner : Scanner, Sound (front ++ text ++ rest) scanner → scanner.quote = .outside →
    scanner.position = front.length → ∃ count ledger,
      run count scanner = { scanner with ledger, position := front.length + text.length } ∧
      (∀ p < front.length, ledger.tag? p = scanner.ledger.tag? p) ∧
      ∀ p, front.length ≤ p → p < front.length + text.length → (ledger.tag? p).any test = true

theorem Crosses.mono (crosses : Crosses test front text rest)
    (weaker : ∀ tag, test tag = true → test' tag = true) : Crosses test' front text rest := by
  intro scanner sound outside start
  obtain ⟨count, ledger, runs, kept, passes⟩ := crosses scanner sound outside start
  refine ⟨count, ledger, runs, kept, fun p low high => ?_⟩
  obtain ⟨tag, known, holds⟩ := (Option.any_eq_true _ _).1 (passes p low high)
  rw [known, Option.any_some, weaker tag holds]

theorem Crosses.append (first : Crosses test front text (more ++ rest))
    (second : Crosses test (front ++ text) more rest) : Crosses test front (text ++ more) rest := by
  intro scanner sound outside start
  have whole : front ++ text ++ (more ++ rest) = front ++ (text ++ more) ++ rest := by simp
  obtain ⟨count, ledger, runs, kept, passes⟩ := first scanner (whole ▸ sound) outside start
  have sound' := sound.run count
  rw [runs, show front ++ (text ++ more) ++ rest = front ++ text ++ more ++ rest by simp] at sound'
  obtain ⟨count', ledger', runs', kept', passes'⟩ :=
    second _ sound' outside (List.length_append ..).symm
  rw [List.length_append] at runs' kept' passes'
  refine ⟨count + count', ledger', ?_, fun p low => ?_, fun p low high => ?_⟩
  · rw [run_add, runs, runs', List.length_append, Nat.add_assoc]
  · rw [kept' p (by omega), kept p low]
  · rw [List.length_append, ← Nat.add_assoc] at high
    by_cases early : p < front.length + text.length
    · rw [kept' p early]
      exact passes p low early
    · exact passes' p (by omega) high

theorem isPlain_of_isFree {tag : Tag} (free : ledger.IsFree p) (known : ledger.tag? p = some tag) :
    tag.isPlain = true := by
  rcases free tag known with rfl | rfl
  · rfl
  · rfl

theorem isTypeTag_of_isPlain (tag : Tag) (plain : tag.isPlain = true) : isTypeTag tag = true := by
  cases tag <;> first | rfl | contradiction

/-- Inside the text every position has a tag. -/
theorem exists_tag (well : WellTagged text ledger) (low : p < text.length) :
    ∃ tag, ledger.tag? p = some tag := by
  rw [← well.size] at low
  cases known : ledger.tag? p with
  | none => exact absurd (tag?_eq_none.1 known) (Nat.not_le_of_lt low)
  | some tag => exact ⟨tag, rfl⟩

/-- A scan crosses a text in which it finds nothing. -/
theorem crosses_passed (passes : ∀ scanner : Scanner, scanner.quote = .outside →
      scanner.ledger.chars.drop scanner.position = text ++ rest → ∀ offset < text.length,
      Passes { scanner with position := scanner.position + offset }) :
    Crosses Tag.isPlain front text rest := by
  intro scanner sound outside start
  have ahead : scanner.ledger.chars.drop scanner.position = text ++ rest := by
    rw [sound.well.chars, start, List.append_assoc, List.drop_left]
  have runs := run_of_passes (passes scanner outside ahead) 0
  rw [Nat.add_zero, start] at runs
  refine ⟨text.length, scanner.ledger, runs, fun _ _ => rfl, fun p low high => ?_⟩
  obtain ⟨tag, known⟩ := exists_tag sound.well (p := p) (by simp only [List.length_append]; omega)
  rw [known, Option.any_some, isPlain_of_isFree (sound.ahead p (start ▸ low)) known]

theorem crosses_blanks (blank : ∀ c ∈ gap, isBlank c = true) :
    Crosses Tag.isPlain front gap rest := by
  refine crosses_passed fun scanner outside ahead offset within => ?_
  have later : scanner.ledger.chars.drop (scanner.position + offset) =
      gap[offset] :: (gap.drop (offset + 1) ++ rest) := by
    rw [← List.drop_drop, ahead, List.drop_append_of_le_length (Nat.le_of_lt within),
      ← List.getElem_cons_drop within, List.cons_append]
  exact passes_blank outside later (blank _ (List.getElem_mem within))

/-- A scan crosses a word that is not the test for a type. -/
theorem crosses_word (letters : ∀ c ∈ word, isWordChar c = true)
    (other : word ≠ Op.instanceOf.spelling)
    (ends : rest.head?.any isWordChar = false) : Crosses Tag.isPlain front word rest := by
  exact crosses_passed fun scanner outside ahead offset within =>
    passes_letters letters (fun _ starts => not_isBlank_behind letters other ends starts)
      outside ahead within

/-- The marks between type arguments are type text. -/
theorem crosses_mark (op : Op) (listed : op ∈ [Op.comma, .question, .dot])
    (number : op = .dot → rest.head?.any isDigit = false) :
    Crosses isTypeTag front op.spelling rest := by
  intro scanner sound outside start
  have ahead : scanner.ledger.chars.drop scanner.position = op.spelling ++ rest := by
    rw [sound.well.chars, start, List.append_assoc, List.drop_left]
  have alone : rest.head?.any op.absorbs = false := by
    have never : ∀ c, op.absorbs c = false := by
      simp only [List.mem_cons, List.not_mem_nil, or_false] at listed
      rcases listed with rfl | rfl | rfl <;> exact fun _ => rfl
    cases rest.head? <;> simp [never]
  have symbol : op ∈ symbols ∧ op.width = 1 ∧ isTypeTag (.operator op) = true := by
    simp only [List.mem_cons, List.not_mem_nil, or_false] at listed
    rcases listed with rfl | rfl | rfl <;> decide
  obtain ⟨isSymbol, single, typed⟩ := symbol
  have runs := run_symbol op outside ahead isSymbol alone number 0
  refine ⟨1, tagOp scanner.ledger scanner.position op, ?_, fun p low => ?_, fun p low high => ?_⟩
  · rw [runs, start]
    rfl
  · rw [tag?_tagOp_behind (start ▸ low)]
  · obtain rfl : p = scanner.position := by
      change p < front.length + op.width at high
      omega
    obtain ⟨tag, known⟩ := exists_tag sound.well (p := scanner.position) (by
      simp only [List.length_append]
      omega)
    rw [tag?_tagOp, if_pos rfl, known, Option.map_some, Option.any_some, typed]

/-- An empty pair of square brackets is found where a blank text and `]` follow `[`. -/
theorem emptyPair?_eq_some (ahead : ledger.chars.drop p = '[' :: gap ++ ']' :: rest)
    (blank : ∀ c ∈ gap, isBlank c = true) (brace : (rest.dropWhile isBlank).head? ≠ some '{') :
    emptyPair? ledger p = some (p + gap.length + 1) := by
  have char (offset : Nat) : ledger.char? (p + offset) = ('[' :: gap ++ ']' :: rest)[offset]? := by
    rw [char?_eq_chars, ← List.getElem?_drop, ahead]
  have opens : charIs ledger p '[' = true := by
    rw [charIs, ← Nat.add_zero p, char]
    rfl
  have size : p + gap.length + 2 + rest.length = ledger.size := by
    have bound := congrArg List.length ahead
    simp only [List.length_drop, List.length_append, List.length_cons, length_chars] at bound
    omega
  have closing : ledger.char? (p + gap.length + 1) = some ']' := by
    rw [Nat.add_assoc, char]
    simp
  have next : nextSolid? ledger (p + 1) = some (p + gap.length + 1) := by
    refine seek?_eq_some (by omega) (by omega) (fun q low high => ?_) ?_
    · obtain ⟨offset, rfl⟩ := Nat.exists_eq_add_of_le low
      have within : offset < gap.length := by omega
      rw [blankAt, Nat.add_assoc, char, Nat.add_comm 1, List.cons_append, List.getElem?_cons_succ,
        List.getElem?_append_left within, List.getElem?_eq_getElem within, Option.any_some,
        blank _ (List.getElem_mem within)]
      rfl
    · rw [blankAt, closing]
      decide
  have noBrace : ((nextSolid? ledger (p + gap.length + 1 + 1)).any fun behind =>
      charIs ledger behind '{') = false := by
    cases seeks : nextSolid? ledger (p + gap.length + 1 + 1) with
    | none => rfl
    | some behind =>
        obtain ⟨low, solid, blanks⟩ := seek?_spec seeks
        obtain ⟨offset, rfl⟩ := Nat.exists_eq_add_of_le low
        have inRest (i : Nat) : ledger.char? (p + gap.length + 1 + 1 + i) = rest[i]? := by
          rw [show p + gap.length + 1 + 1 + i = p + (gap.length + 2 + i) by omega, char,
            List.getElem?_append_right (by simp; omega)]
          simp only [List.length_cons]
          rw [show gap.length + 2 + i - (gap.length + 1) = i + 1 by omega, List.getElem?_cons_succ]
        rw [Option.any_some, charIs, inRest, beq_eq_false_iff_ne]
        intro curly
        refine brace (head?_dropWhile curly (by decide) fun i early => ?_)
        have here := blanks _ (Nat.le_add_right _ i) (by omega)
        rwa [blankAt, inRest, Bool.not_eq_false'] at here
  rw [emptyPair?, if_pos opens, next]
  dsimp only
  rw [noBrace, charIs, closing]
  rfl

/-- A scan crosses the brackets of an array type. -/
theorem crosses_pair (blank : ∀ c ∈ gap, isBlank c = true)
    (brace : (rest.dropWhile isBlank).head? ≠ some '{') :
    Crosses Tag.isPlain front ('[' :: gap ++ [']']) rest := by
  intro scanner sound outside start
  have ahead : scanner.ledger.chars.drop scanner.position = '[' :: gap ++ ']' :: rest := by
    rw [sound.well.chars, start, List.append_assoc, List.drop_left]
    simp
  have pair := emptyPair?_eq_some ahead blank brace
  have here : scanner.ledger.char? scanner.position = some '[' := char?_zero_of_drop ahead
  refine ⟨1, (scanner.ledger.setTag scanner.position .unresolved).setTag
    (scanner.position + gap.length + 1) .unresolved, ?_, fun p low => ?_, fun p low high => ?_⟩
  · rw [run, here]
    dsimp only
    rw [advance_solid outside (by decide) (by decide), takeSolid, pair, start]
    simp only [List.cons_append, List.length_cons, List.length_append, List.length_nil]
    rfl
  · rw [tag?_setTag, if_neg (by omega), tag?_setTag, if_neg (by omega)]
  · obtain ⟨tag, known⟩ := exists_tag sound.well (p := p) (by
      simp only [List.length_append] at high ⊢
      omega)
    have plain := isPlain_of_isFree (sound.ahead p (start ▸ low)) known
    rw [tag?_setTag, tag?_setTag, known]
    split
    · split <;> rfl
    · split
      · rfl
      · rw [Option.any_some, plain]

/-! ## Arriving at a word -/

/-- No step goes over the start of a word: only the test for a type has letters, and it stands
between blanks. -/
theorem position_advance_le_of_word (sound : Sound text scanner) (low : scanner.position < p)
    (starts : text[p]?.any isWordChar = true) (apart : text[p - 1]?.any isWordChar = false)
    (c : Char) :
    (scanner.advance c).position ≤ p := by
  rw [advance]
  dsimp only
  split
  · exact low
  · split
    · exact low
    · rw [takeSolid]
      split
      · next close found =>
          obtain ⟨later, -, last, blanks⟩ := emptyPair?_spec found sound.well.chars
          dsimp only at later blanks ⊢
          by_contra inside
          obtain rfl | between : p = close ∨ p < close := by omega
          · rw [last] at starts
            exact absurd starts (by decide)
          · obtain ⟨c, known, isWord⟩ := (Option.any_eq_true _ _).1 starts
            have blank := blanks p low between
            rw [known, Option.any_some, isBlank_of_isWordChar isWord] at blank
            contradiction
      · split
        · exact low
        · next found spelled =>
            dsimp only
            split
            · exact low
            · let outside : Scanner := { scanner with quote := scanner.quote.next c }
              rw [position_takeOp]
              change scanner.position + (outside.meantOp found).width ≤ p
              by_contra inside
              have chars : outside.ledger.chars = text := sound.well.chars
              have meant :
                  Span.slice ⟨scanner.position, scanner.position + (outside.meantOp found).width⟩
                    text = (outside.meantOp found).spelling :=
                slice_of_meantOp chars (slice_of_spelledOp? chars spelled)
              have here := getElem?_of_slice meant (Nat.le_of_lt low) (Nat.lt_of_not_le inside)
              have before :
                  text[p - 1]? = (outside.meantOp found).spelling[p - 1 - scanner.position]? :=
                getElem?_of_slice meant (by omega) (by omega)
              obtain ⟨letter, known, isWord⟩ := (Option.any_eq_true _ _).1 starts
              have isTest : outside.meantOp found = .instanceOf := by
                by_contra symbolic
                rw [here] at known
                rw [Op.not_isWordChar_of_mem symbolic (List.mem_of_getElem? known)] at isWord
                contradiction
              have within : p - 1 - scanner.position < Op.instanceOf.spelling.length := by
                rw [isTest] at inside
                change ¬ scanner.position + Op.instanceOf.spelling.length ≤ p at inside
                omega
              rw [isTest, List.getElem?_eq_getElem within] at before
              rw [before, Option.any_some, isWordChar_instanceOf _ (List.getElem_mem _)] at apart
              contradiction

/-- A scan arrives at the start of every word that it has not passed. -/
theorem exists_run_position (sound : Sound text scanner) (low : scanner.position ≤ p)
    (starts : text[p]?.any isWordChar = true)
    (apart : p ≠ 0 → text[p - 1]?.any isWordChar = false) :
    ∃ count, (run count scanner).position = p := by
  induction distance : p - scanner.position using Nat.strongRecOn generalizing scanner with
  | ind distance induction =>
      by_cases here : scanner.position = p
      · exact ⟨0, here⟩
      · have inside : p < text.length := by
          obtain ⟨c, known, -⟩ := (Option.any_eq_true _ _).1 starts
          exact (List.getElem?_eq_some_iff.1 known).1
        have known : text[scanner.position]? = some text[scanner.position] :=
          List.getElem?_eq_getElem (by omega)
        have further := lt_position_advance sound text[scanner.position]
        have bound :=
          position_advance_le_of_word sound (by omega) starts (apart (by omega))
            text[scanner.position]
        obtain ⟨count, ends⟩ := induction _ (by omega) (sound.advance known) bound rfl
        refine ⟨count + 1, ?_⟩
        rw [run, char?_eq_chars, sound.well.chars, known]
        exact ends

end

end Scanner
end MethodLowering
