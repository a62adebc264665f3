import MethodLowering.Proofs.Brackets.Heads
import MethodLowering.Proofs.Roundtrip.Lexing

/-!
# Operators of a scan are whole and longest

The table is searched in order and `=` comes before `==`; shifts are taken apart where they close
type arguments, and type arguments are made plain again.  Still every operator that is left is the
longest one that is spelled at its place, with all its characters.
-/

namespace MethodLowering

open Text hiding bracketAt?

/-! ## Spellings in a text -/

namespace Op

/-- The operator is spelled at the position of a text, a test for a type between blanks. -/
structure IsSpelledAt (op : Op) (text : List Char) (p : Nat) : Prop where
  starts : op.spelling <+: text.drop p
  spaced : op = .instanceOf →
    p ≠ 0 ∧ text[p - 1]?.any isBlank = true ∧ text[p + op.width]?.any isBlank = true

/-- The operator is spelled at the position, and no longer one is. -/
structure IsLongestAt (op : Op) (text : List Char) (p : Nat) : Prop where
  spelled : op.IsSpelledAt text p
  longest : ∀ other : Op, other.IsSpelledAt text p → other.width ≤ op.width

variable {op other : Op} {text : List Char} {p : Nat}

/-- Of two operators at one place, the shorter one starts the longer one. -/
theorem IsSpelledAt.prefix_of_le (spelled : op.IsSpelledAt text p)
    (longer : other.IsSpelledAt text p)
    (shorter : op.width ≤ other.width) : op.spelling <+: other.spelling :=
  List.prefix_of_prefix_length_le spelled.starts longer.starts shorter

/-- What the table gives first is not the start of another operator that passes the test, up to the
table's one exception. -/
theorem eq_inTable_of_find? {test : Op → Bool} (found : all.find? test = some op)
    (passes : test other.inTable = true) (starts : op.spelling <+: other.spelling) :
    op = other.inTable := by
  obtain ⟨front, back, split, earlier⟩ := exists_earlier other
  rw [split, List.find?_append] at found
  cases before : front.find? test with
  | some first =>
      rw [before, Option.some_or, Option.some.injEq] at found
      subst found
      exact absurd starts (earlier first (List.mem_of_find?_eq_some before))
  | none =>
      rw [before, Option.none_or, List.find?_cons_of_pos passes, Option.some.injEq] at found
      exact found.symm

theorem inTable_eq_assign (same : other.inTable = .assign) : other = .assign ∨ other = .equal := by
  rw [inTable] at same
  split at same
  · next equal => exact .inr (eq_of_beq equal)
  · exact .inl same

/-- An entry of the table is spelled where the operator is that it stands for. -/
theorem IsSpelledAt.inTable (spelled : other.IsSpelledAt text p) :
    other.inTable.IsSpelledAt text p := by
  refine ⟨(inTable_starts other).trans spelled.starts, fun isTest => ?_⟩
  have same : other.inTable = other := by
    rw [Op.inTable] at isTest ⊢
    split at isTest
    · contradiction
    · next plain => rw [if_neg plain]
  rw [same] at isTest ⊢
  exact spelled.spaced isTest

end Op

namespace Scanner

open Ledger

section

variable {text : List Char} {scanner : Scanner} {ledger : Ledger} {p : Nat}
  {op other found : Op} {c : Char}

/-- The scanner looks for operators that are spelled in the text. -/
theorem spells_iff (chars : ledger.chars = text) :
    (spells ledger p op.spelling && (op != .instanceOf || isSpaced ledger p op.width)) = true ↔
      op.IsSpelledAt text p := by
  have spaced : (op != .instanceOf || isSpaced ledger p op.width) = true ↔ (op = .instanceOf →
      p ≠ 0 ∧ text[p - 1]?.any Text.isBlank = true ∧
        text[p + op.width]?.any Text.isBlank = true) := by
    rw [isSpaced, blankAt, blankAt, char?_eq_chars, char?_eq_chars, chars,
      Bool.or_eq_true, bne_iff_ne,
      Bool.and_eq_true, Bool.and_eq_true, bne_iff_ne, and_assoc, ne_eq, Decidable.imp_iff_not_or]
  rw [Bool.and_eq_true, spaced, spells_eq, chars, List.isPrefixOf_iff_prefix]
  constructor
  · rintro ⟨starts, spaced⟩
    exact ⟨starts, spaced⟩
  · rintro ⟨starts, spaced⟩
    exact ⟨starts, spaced⟩

theorem isSpelledAt_of_spelledOp? (chars : ledger.chars = text)
    (spelled : spelledOp? ledger p = some op) :
    op.IsSpelledAt text p := by
  have passes := List.find?_some spelled
  exact (spells_iff chars).1 passes

/-- An operator of the table is the longest one that is spelled, but for `=` in front of `=`. -/
theorem isLongestAt_of_spelledOp? (chars : ledger.chars = text)
    (spelled : spelledOp? ledger p = some op)
    (single : op = .assign → text[p + 1]? ≠ some '=') : op.IsLongestAt text p := by
  have here := isSpelledAt_of_spelledOp? chars spelled
  refine ⟨here, fun other longer => Nat.le_of_not_lt fun shorter => ?_⟩
  have same := Op.eq_inTable_of_find? spelled ((spells_iff chars).2 longer.inTable)
    (here.prefix_of_le longer (Nat.le_of_lt shorter))
  by_cases assigns : op = .assign
  · subst assigns
    rcases Op.inTable_eq_assign same.symm with rfl | rfl
    · exact absurd shorter (Nat.lt_irrefl _)
    · refine single rfl ?_
      obtain ⟨rest, split⟩ := longer.starts
      rw [← List.getElem?_drop, ← split]
      rfl
  · have itself : other.inTable = other := by
      rw [Op.inTable, if_neg]
      intro equal
      rw [Op.inTable, if_pos equal] at same
      exact assigns same
    rw [same, itself] at shorter
    exact absurd shorter (Nat.lt_irrefl _)

theorem isLongestAt_equal (chars : ledger.chars = text)
    (spelled : spelledOp? ledger p = some .assign)
    (doubled : text[p + 1]? = some '=') : Op.equal.IsLongestAt text p := by
  have here := isSpelledAt_of_spelledOp? chars spelled
  obtain ⟨rest, split⟩ := here.starts
  have both : Op.equal.IsSpelledAt text p := by
    refine ⟨?_, nofun⟩
    rw [← List.getElem?_drop, ← split] at doubled
    obtain ⟨behind, rfl⟩ : ∃ behind, rest = '=' :: behind := by
      cases rest with
      | nil => contradiction
      | cons first behind => exact ⟨behind, by rw [Option.some.inj doubled]⟩
    exact ⟨behind, split⟩
  refine ⟨both, fun other longer => Nat.le_of_not_lt fun shorter => ?_⟩
  have same := Op.eq_inTable_of_find? spelled ((spells_iff chars).2 longer.inTable)
    (here.prefix_of_le longer (by change 2 < _ at shorter; change 1 ≤ _; omega))
  rcases Op.inTable_eq_assign same.symm with rfl | rfl
  · exact absurd shorter (by decide)
  · exact absurd shorter (Nat.lt_irrefl _)

/-! ## Steps -/

/-- The operator that is tagged is the longest one, unless it closes type arguments. -/
theorem isLongestAt_meantOp (chars : scanner.ledger.chars = text)
    (spelled : spelledOp? scanner.ledger scanner.position = some found)
    (unclosed : found.isRightShift = true →
      scanner.angles.head?.any (onlyTypeText scanner.ledger · scanner.position) = false) :
    (scanner.meantOp found).IsLongestAt text scanner.position := by
  rw [meantOp, charIs, char?_eq_chars, chars]
  split
  · next doubled =>
      rw [Bool.and_eq_true, beq_iff_eq, beq_iff_eq] at doubled
      obtain ⟨rfl, doubled⟩ := doubled
      exact isLongestAt_equal chars spelled doubled
  · next single =>
      rw [if_neg]
      · refine isLongestAt_of_spelledOp? chars spelled fun assigns doubled => single ?_
        rw [assigns, doubled]
        rfl
      · rw [Bool.and_eq_true]
        rintro ⟨shift, closes⟩
        rw [unclosed shift] at closes
        contradiction

/-- An operator that is tagged behind type text leaves it type text. -/
theorem onlyTypeText_tagOp (ledger : Ledger) (opening position : Nat) (op : Op) :
    onlyTypeText (tagOp ledger position op) opening position =
      onlyTypeText ledger opening position := by
  rw [onlyTypeText, onlyTypeText]
  refine congrArg Option.isNone (seek?_congr fun p above below => ?_)
  rw [tag?_tagOp, if_neg (by omega), if_neg (by omega)]

/-- Type arguments that are closed are plain, their closing bracket included. -/
theorem tag?_closed {opening : Nat} {rest : List Nat} (angles : scanner.angles = opening :: rest)
    (low : opening ≤ scanner.position)
    (typed : onlyTypeText scanner.ledger opening scanner.position = true) :
    (scanner.takeOp .greater).ledger.tag? scanner.position ≠ some (.operator op) := by
  intro known
  rw [takeOp_cases, if_neg fun opens => absurd (Bool.and_eq_true_iff.1 opens).1 (by decide),
    if_pos (by decide)] at known
  dsimp only at known
  rw [closeAngle, angles] at known
  dsimp only at known
  rw [if_pos ((onlyTypeText_tagOp ..).trans typed)] at known
  dsimp only at known
  rw [tag?_plainFrom, if_pos (by omega)] at known
  obtain ⟨old, -, cleared⟩ := Option.map_eq_some_iff.1 known
  rw [clearedTag] at cleared
  split at cleared
  · contradiction
  · next plain =>
      rw [cleared] at plain
      exact plain rfl

/-- The operator that a step leaves at its position is the one that it takes. -/
theorem eq_of_tag?_takeOp (known : (scanner.takeOp found).ledger.tag? scanner.position =
      some (.operator op)) :
    op = found := by
  have tagged (known : (tagOp scanner.ledger scanner.position found).tag? scanner.position =
      some (.operator op)) : op = found := by
    rw [tag?_tagOp, if_pos rfl] at known
    obtain ⟨old, -, same⟩ := Option.map_eq_some_iff.1 known
    exact (Tag.operator.inj same).symm
  rw [takeOp_cases] at known
  split at known
  · exact tagged known
  · split at known
    · dsimp only at known
      rw [closeAngle] at known
      split at known
      · exact tagged known
      · dsimp only at known
        split at known
        · dsimp only at known
          rw [tag?_plainFrom] at known
          split at known
          · obtain ⟨old, was, cleared⟩ := Option.map_eq_some_iff.1 known
            rw [clearedTag] at cleared
            split at cleared
            · contradiction
            · rw [cleared] at was
              exact tagged was
          · exact tagged known
        · exact tagged known
    · exact tagged known

theorem isLongestAt_takeSolid (sound : Sound text scanner)
    (known : scanner.takeSolid.ledger.tag? scanner.position = some (.operator op)) :
    op.IsLongestAt text scanner.position := by
  have free : scanner.ledger.tag? scanner.position ≠ some (.operator op) :=
    (sound.ahead scanner.position (Nat.le_refl _)).ne_operator
  rw [takeSolid] at known
  split at known
  · next close found =>
      have later := (emptyPair?_spec found sound.well.chars).1
      dsimp only at known
      rw [tag?_setTag, if_neg (by omega), tag?_setTag, if_pos rfl] at known
      obtain ⟨old, -, same⟩ := Option.map_eq_some_iff.1 known
      contradiction
  · split at known
    · exact absurd known free
    · next found spelled =>
        dsimp only at known
        split at known
        · exact absurd known free
        · obtain rfl := eq_of_tag?_takeOp known
          refine isLongestAt_meantOp sound.well.chars spelled fun shift => ?_
          by_contra closes
          rw [Bool.not_eq_false, Option.any_eq_true] at closes
          obtain ⟨opening, first, typed⟩ := closes
          obtain ⟨rest, angles⟩ := List.head?_eq_some_iff.1 first
          have order := (sound.angles opening (by simp [angles])).1
          have noAssign : (found == .assign) = false := by
            rw [beq_eq_false_iff_ne]
            rintro rfl
            contradiction
          have greater : scanner.meantOp found = .greater := by
            rw [meantOp, noAssign, Bool.false_and, if_neg Bool.false_ne_true, shift, angles,
              List.head?_cons,
              Option.any_some, typed]
            rfl
          rw [greater] at known
          exact tag?_closed angles (Nat.le_of_lt order) typed known

theorem isLongestAt_advance (sound : Sound text scanner)
    (known : (scanner.advance c).ledger.tag? scanner.position = some (.operator op)) :
    op.IsLongestAt text scanner.position := by
  rw [advance] at known
  dsimp only at known
  split at known
  · rw [tag?_setTag, if_pos rfl] at known
    obtain ⟨old, -, same⟩ := Option.map_eq_some_iff.1 known
    contradiction
  · next notCovered =>
      split at known
      · exact absurd known (sound.ahead scanner.position (Nat.le_refl _)).ne_operator
      · obtain ⟨outside, stays⟩ := Quote.next_of_not_covers (Bool.eq_false_iff.2 notCovered)
        have same : ({ scanner with quote := scanner.quote.next c } : Scanner) = scanner := by
          rw [stays, ← outside]
        rw [same] at known
        exact isLongestAt_takeSolid sound known

/-- All operators found so far are the longest at their places. -/
def AreLongest (text : List Char) (ledger : Ledger) : Prop :=
  ∀ p op, ledger.tag? p = some (.operator op) → op.IsLongestAt text p

theorem AreLongest.run (longest : AreLongest text scanner.ledger) (sound : Sound text scanner)
    (gathers : Gathers text scanner) (count : Nat) :
    AreLongest text (run count scanner).ledger := by
  induction count generalizing scanner with
  | zero => exact longest
  | succ count induction =>
      rw [Scanner.run]
      cases here : scanner.ledger.char? scanner.position with
      | none => exact longest
      | some c =>
          rw [char?_eq_chars, sound.well.chars] at here
          refine induction (fun p op known => ?_) (sound.advance here) (gathers.advance sound here)
          rcases (finds_advance gathers sound c).heads p op known with old | ⟨rfl, -⟩
          · exact longest p op old
          · exact isLongestAt_advance sound known

theorem areLongest_scan (text : List Char) : AreLongest text (Ledger.scan text) := by
  have start : AreLongest text (ofText text) := fun p op known =>
    absurd known (isFree_ofText text p).ne_operator
  exact AreLongest.run start (sound_ofText text) ⟨⟨rfl, nofun⟩, nofun⟩ text.length

end

end Scanner

/-- No character belongs to two operators. -/
theorem Ledger.WellTagged.head_unique {text : List Char} {ledger : Ledger}
    (well : WellTagged text ledger)
    {p p' q : Nat} {op op' : Op} (head : ledger.tag? p = some (.operator op)) (low : p ≤ q)
    (high : q < p + op.width) (head' : ledger.tag? p' = some (.operator op')) (low' : p' ≤ q)
    (high' : q < p' + op'.width) : p = p' := by
  rcases Nat.lt_trichotomy p p' with before | same | behind
  · have tail := (well.head p op head).2 p' before (by omega)
    rw [head'] at tail
    cases tail
  · exact same
  · have tail := (well.head p' op' head').2 p behind (by omega)
    rw [head] at tail
    cases tail

/-- **Operators.**  In a scan every operator is the longest one that is spelled at its place and has
all its characters, every later character of an operator belongs to exactly one, and nothing is part
of an expression yet.  So `>` is left alone only where no `>` and no `=` follows. -/
theorem Ledger.scan_longest (text : List Char) :
    (∀ p op, (scan text).tag? p = some (.operator op) → op.IsLongestAt text p ∧
      ∀ q, p < q → q < p + op.width → (scan text).tag? q = some (.operatorTail op)) ∧
    (∀ q op, (scan text).tag? q = some (.operatorTail op) →
      ∃ p, (p < q ∧ q < p + op.width ∧ (scan text).tag? p = some (.operator op)) ∧
        ∀ p' op', p' < q → q < p' + op'.width → (scan text).tag? p' = some (.operator op') →
        p' = p) ∧
    (∀ p, (scan text).tag? p ≠ some .resolved ∧ ∀ id, (scan text).tag? p ≠ some (.pending id)) ∧
    ∀ p, (scan text).tag? p = some (.operator .greater) →
      text[p + 1]? ≠ some '>' ∧ text[p + 1]? ≠ some '=' := by
  have well := (scan_sound text).1
  have longest := Scanner.areLongest_scan text
  refine ⟨fun p op known => ⟨longest p op known, (well.head p op known).2⟩, fun q op known => ?_,
    fun p => ⟨fun known => (well.raw p _ known).1 rfl, fun id known =>
    (well.raw p _ known).2 id rfl⟩,
    fun p known => ?_⟩
  · obtain ⟨p, low, high, head⟩ := well.tail q op known
    exact ⟨p, ⟨low, high, head⟩, fun p' op' low' high' head' =>
      well.head_unique head' (Nat.le_of_lt low') high' head (Nat.le_of_lt low) high⟩
  · obtain ⟨spelled, longest⟩ := longest p .greater known
    have joined (c : Char) (behind : text[p + 1]? = some c) : ['>', c] <+: text.drop p := by
      obtain ⟨rest, split⟩ := spelled.starts
      rw [← List.getElem?_drop, ← split] at behind
      cases rest with
      | nil => contradiction
      | cons first rest =>
          obtain rfl := Option.some.inj behind
          exact ⟨rest, split⟩
    constructor
    · intro behind
      exact absurd (longest .shiftRight ⟨joined '>' behind, nofun⟩) (by decide)
    · intro behind
      exact absurd (longest .atLeast ⟨joined '=' behind, nofun⟩) (by decide)

end MethodLowering
