import MethodLowering.Proofs.Roundtrip.Embedding

/-!
# Tokens around a text

A scan finds blanks, brackets and words wherever it stands outside literals.  Between such tokens, a
text that stands apart is tagged as it is by itself.
-/

namespace MethodLowering

open Text

namespace Scanner

open Ledger

/-- Nothing is found yet from the position on. -/
def IsFresh (scanner : Scanner) : Prop :=
  ∀ p, scanner.position ≤ p → scanner.ledger.tag? p = (ofText scanner.ledger.chars).tag? p

/-- From a position on, the second ledger has the tags of tokens, and elsewhere those of the
first. -/
structure Inserts (tokens : List Token) (position : Nat) (before after : Ledger) : Prop where
  chars : after.chars = before.chars
  inside : ∀ p < (Token.text tokens).length, after.tag? (position + p) =
    (tokens.flatMap Token.tags)[p]?
  around : ∀ p, p < position ∨ position + (Token.text tokens).length ≤ p →
    after.tag? p = before.tag? p

/-- Wherever it stands outside literals, a scan finds the tokens in front of the rest. -/
def Reads (tokens : List Token) (rest : List Char) : Prop :=
  ∀ scanner : Scanner, scanner.quote = .outside →
    scanner.ledger.chars.drop scanner.position = Token.text tokens ++ rest → scanner.IsFresh →
    ∃ ledger, Inserts tokens scanner.position scanner.ledger ledger ∧
      ∀ more, run ((Token.text tokens).length + more) scanner = run more
        { scanner with ledger, position := scanner.position + (Token.text tokens).length }

section

variable {scanner : Scanner} {ledger before between after : Ledger} {front back tokens : List Token}
  {token : Token} {rest word : List Char} {op : Op} {position : Nat}

theorem Inserts.append (left : Inserts front position before between)
    (right : Inserts back (position + (Token.text front).length) between after) :
    Inserts (front ++ back) position before after := by
  have length := Token.length_flatMap_tags front
  refine ⟨right.chars.trans left.chars, fun p low => ?_, fun p outside => ?_⟩
  · rw [List.flatMap_append]
    rw [Token.text_append, List.length_append] at low
    by_cases first : p < (Token.text front).length
    · rw [right.around _ (.inl (by omega)), left.inside p first,
        List.getElem?_append_left (by rw [length]; exact first)]
    · obtain ⟨offset, rfl⟩ := Nat.exists_eq_add_of_le (Nat.le_of_not_lt first)
      rw [← Nat.add_assoc, right.inside offset (by omega),
        List.getElem?_append_right (by rw [length]; exact Nat.le_add_right _ _), length,
        Nat.add_sub_cancel_left]
  · rw [Token.text_append, List.length_append] at outside
    rw [right.around p (by omega), left.around p (by omega)]

theorem reads_nil (rest : List Char) : Reads [] rest := by
  refine fun scanner _ _ _ => ⟨scanner.ledger, ⟨rfl, nofun, fun _ _ => rfl⟩, fun more => ?_⟩
  rw [Token.text_nil, List.length_nil, Nat.zero_add]
  rfl

theorem Reads.append (left : Reads front (Token.text back ++ rest)) (right : Reads back rest) :
    Reads (front ++ back) rest := by
  intro scanner outside ahead fresh
  rw [Token.text_append, List.append_assoc] at ahead
  obtain ⟨between, inserts, passes⟩ := left scanner outside ahead fresh
  have later : between.chars.drop (scanner.position + (Token.text front).length) =
      Token.text back ++ rest := by
    rw [inserts.chars, ← List.drop_drop, ahead, List.drop_left]
  obtain ⟨ledger, inserts', passes'⟩ := right
    { scanner with ledger := between, position := scanner.position + (Token.text front).length }
      outside later
    fun p low => by
      dsimp only at low ⊢
      rw [inserts.chars, inserts.around p (.inr low), fresh p (Nat.le_of_add_right_le low)]
  refine ⟨ledger, inserts.append inserts', fun more => ?_⟩
  rw [Token.text_append, List.length_append, Nat.add_assoc, passes, passes', Nat.add_assoc]

theorem Reads.cons (left : Reads [token] (Token.text tokens ++ rest)) (right : Reads tokens rest) :
    Reads (token :: tokens) rest :=
  Reads.append left right

/-- Blanks and plain text are tagged from the start. -/
theorem inserts_plain (ahead : scanner.ledger.chars.drop scanner.position = token.chars ++ rest)
    (fresh : scanner.IsFresh)
    (plain : token.tags = token.chars.map fun c => if Text.isBlank c then .space else .unresolved) :
    Inserts [token] scanner.position scanner.ledger scanner.ledger := by
  refine ⟨rfl, fun p low => ?_, fun _ _ => rfl⟩
  have text : Token.text [token] = token.chars := List.flatMap_singleton ..
  rw [text] at low
  rw [fresh _ (Nat.le_add_right _ _), tag?_ofText, ← List.getElem?_drop, ahead,
    List.getElem?_append_left low, List.flatMap_singleton, plain, List.getElem?_map]

theorem reads_blank (rest : List Char) : Reads [.blank] rest := by
  intro scanner outside ahead fresh
  refine ⟨scanner.ledger, inserts_plain ahead fresh rfl, fun more => ?_⟩
  exact @run_of_passes scanner 1 (fun offset low => by
    obtain rfl : offset = 0 := Nat.lt_one_iff.1 low
    exact passes_blank outside ahead (by decide)) more

theorem reads_symbol (listed : op ∈ symbols) (alone : rest.head?.any op.absorbs = false)
    (number : op = .dot → rest.head?.any isDigit = false) : Reads [.op op] rest := by
  intro scanner outside ahead fresh
  have length : (Token.text [.op op]).length = op.width := by simp [Token.chars, Op.width]
  have inTags : (List.flatMap Token.tags [.op op]) = Token.tags (.op op) :=
    List.flatMap_singleton ..
  have text : Token.text [.op op] = op.spelling := List.flatMap_singleton ..
  obtain ⟨-, -, -, -, -, -, -, c, spelling, -⟩ := exists_of_symbol op listed
  have single : op.width = 1 := congrArg List.length spelling
  rw [text] at ahead
  refine ⟨tagOp scanner.ledger scanner.position op, ⟨?_, fun p low => ?_, fun p out => ?_⟩,
    fun more => ?_⟩
  · rw [tagOp, chars_setTags, chars_setTag]
  · rw [length, single] at low
    obtain rfl : p = 0 := Nat.lt_one_iff.1 low
    have here : scanner.position < scanner.ledger.chars.length := by
      have bound := congrArg List.length ahead
      rw [List.length_append, List.length_drop, spelling, List.length_singleton] at bound
      omega
    rw [tag?_tagOp, Nat.add_zero, if_pos rfl, inTags, fresh _ (Nat.le_refl _), tag?_ofText,
      List.getElem?_eq_getElem here]
    rfl
  · rw [length, single] at out
    rw [tag?_tagOp, if_neg (by omega), if_neg (by omega)]
  · rw [length, single, Nat.add_comm 1, run_symbol op outside ahead listed alone number, single]

/-- Nothing is found inside a word that is not the test for a type. -/
theorem passes_letters (letters : ∀ c ∈ word, isWordChar c = true)
    (other : ∀ tail, word ++ rest = Op.instanceOf.spelling ++ tail → tail.head?.any isBlank = false)
    (outside : scanner.quote = .outside)
    (ahead : scanner.ledger.chars.drop scanner.position = word ++ rest)
    {offset : Nat} (within : offset < word.length) :
    Passes { scanner with position := scanner.position + offset } := by
  have later : scanner.ledger.chars.drop (scanner.position + offset) =
      word[offset] :: (word.drop (offset + 1) ++ rest) := by
    rw [← List.drop_drop, ahead, List.drop_append_of_le_length (Nat.le_of_lt within),
      ← List.getElem_cons_drop within, List.cons_append]
  refine passes_word outside later (letters _ (List.getElem_mem _)) fun ⟨tail, starts⟩ => ?_
  cases offset with
  | succ offset =>
      refine isSpaced_eq_false (.inr ?_)
      have here : scanner.ledger.char? (scanner.position + offset) = some word[offset] := by
        rw [char?_of_drop ahead, List.getElem?_append_left (by omega),
          List.getElem?_eq_getElem (by omega)]
      dsimp only
      rw [← Nat.add_assoc, Nat.add_sub_cancel, blankAt, here, Option.any_some,
        isBlank_of_isWordChar (letters _ (List.getElem_mem _))]
  | zero =>
      have whole : word ++ rest = Op.instanceOf.spelling ++ tail := by
        rw [starts, ← List.cons_append, List.getElem_cons_drop, List.drop_zero]
      have behind : scanner.ledger.char? (scanner.position + 0 + Op.instanceOf.width) =
          tail.head? := by
        rw [Nat.add_zero, char?_of_drop ahead, whole, Op.width, List.getElem?_append_right
          (Nat.le_refl _),
          Nat.sub_self, ← List.head?_eq_getElem?]
      rw [isSpaced, blankAt, blankAt, behind, other tail whole, Bool.and_false]

/-- A word is found that is not the test for a type. -/
theorem reads_word (letters : ∀ c ∈ word, isWordChar c = true)
    (other : ∀ tail, word ++ rest = Op.instanceOf.spelling ++ tail →
      tail.head?.any isBlank = false) :
    Reads [.word word] rest := by
  intro scanner outside ahead fresh
  have text : Token.text [.word word] = word := List.flatMap_singleton ..
  rw [text] at ahead ⊢
  exact ⟨scanner.ledger, inserts_plain ahead fresh (tags_solid fun c among =>
    isBlank_of_isWordChar (letters c among)),
    run_of_passes fun offset within => passes_letters letters other outside ahead within⟩

/-! ## A text between tokens -/

theorem run_ended (ended : scanner.ledger.chars.length ≤ scanner.position) (count : Nat) :
    run count scanner = scanner := by
  cases count with
  | zero => rfl
  | succ count => rw [run, char?_eq_chars, List.getElem?_eq_none ended]

end

end Scanner

namespace Ledger

open Scanner

variable {front back : List Token} {text : List Char}

/-- A text without open literals that stands apart between tokens is tagged as it is by itself. -/
theorem tag?_scan_between (apart : StandsApart (Token.text front) text (Token.text back))
    (closed : Quote.outside.after text = .outside) (before : Reads front (text ++ Token.text back))
    (behind : Reads back []) :
    let ledger := scan (Token.text front ++ text ++ Token.text back)
    (∀ p < (Token.text front).length, ledger.tag? p = (front.flatMap Token.tags)[p]?) ∧
    (∀ p < text.length, ledger.tag? ((Token.text front).length + p) = (scan text).tag? p) ∧
    ∀ p < (Token.text back).length, ledger.tag? ((Token.text front).length + text.length + p) =
      (back.flatMap Token.tags)[p]? := by
  let whole := Token.text front ++ text ++ Token.text back
  let start : Scanner := { ledger := ofText whole }
  have chars : start.ledger.chars = whole := chars_ofText whole
  -- the tokens in front
  obtain ⟨first, inserted, reads⟩ := before start rfl
    (by rw [chars, ← List.append_assoc]; rfl) (fun p _ => by rw [chars])
  have firstChars : first.chars = whole := inserted.chars.trans chars
  have embeds : Embeds (Token.text front) text (Token.text back) first
      ({ ledger := ofText text } : Scanner).ledger first := by
    refine ⟨⟨chars_ofText text, firstChars, fun p low => ?_⟩, fun _ _ => rfl⟩
    rw [inserted.around _ (.inr (by dsimp only [start]; omega)), tag?_ofText, tag?_ofText,
      show whole = Token.text front ++ (text ++ Token.text back) from List.append_assoc ..,
      List.getElem?_append_right (Nat.le_add_right _ _), Nat.add_sub_cancel_left,
      List.getElem?_append_left low]
  -- the text
  obtain ⟨second, used, bound, embeds', later⟩ :=
    run_further apart embeds (sound_ofText text) text.length
  have ends := position_scan text
  have outside : (run text.length { ledger := ofText text }).quote = .outside := by
    rw [((sound_ofText text).run text.length).quote, ends, List.take_length, closed]
  -- the tokens behind
  let middle := further (Token.text front).length (run text.length { ledger := ofText text }) second
  have position : middle.position = (Token.text front).length + text.length :=
    congrArg ((Token.text front).length + ·) ends
  have secondChars : middle.ledger.chars = whole := embeds'.contains.whole
  obtain ⟨last, inserted', reads'⟩ := behind middle outside
    (by rw [secondChars, position, ← List.length_append, List.drop_left, List.append_nil])
      fun p low => by
      rw [position] at low
      rw [secondChars, show middle.ledger = second from rfl, embeds'.around p (.inr low),
        inserted.around p (.inr (by dsimp only [start]; omega))]
  -- the scan
  obtain ⟨spare, enough⟩ : ∃ spare, whole.length =
      (Token.text front).length + (used + ((Token.text back).length + spare)) := by
    refine ⟨text.length - used, ?_⟩
    rw [ends] at bound
    simp only [whole, List.length_append]
    dsimp only at bound
    omega
  have scanned : scan whole = last := by
    rw [scan, enough, reads, show ({ start with ledger := first, position := start.position +
      (Token.text front).length } : Scanner) =
        further (Token.text front).length { ledger := ofText text } first
      from by simp [further, start], later, reads', run_ended]
    dsimp only
    rw [inserted'.chars, secondChars, position]
    simp only [whole, List.length_append]
    exact Nat.le_refl _
  intro ledger
  rw [position] at inserted'
  refine ⟨fun p low => ?_, fun p low => ?_, fun p low => ?_⟩
  · rw [show ledger = last from scanned, inserted'.around p (.inl (by omega)),
      show middle.ledger = second from rfl, embeds'.around p (.inl low),
      ← inserted.inside p low, Nat.zero_add]
  · rw [show ledger = last from scanned, inserted'.around _ (.inl (by omega))]
    exact embeds'.contains.tags p low
  · rw [show ledger = last from scanned, inserted'.inside p low]

end Ledger
end MethodLowering
