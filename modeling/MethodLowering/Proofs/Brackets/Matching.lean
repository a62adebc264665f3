import MethodLowering.Reduction.Brackets

/-!
# Matching brackets with a stack

Operators are read from left to right.  An opening bracket is put on a stack, and a closing one
takes the latest opening bracket, which has to be of its kind.  Operators are well nested when no
closing bracket fails and no opening one is left.
-/

namespace MethodLowering

/-- What is known in the middle of a reading. -/
structure Matching where
  /-- Opening brackets without partner so far, the latest first. -/
  unclosed : List (Nat × Op) := []
  /-- Positions of the pairs found so far, the latest first. -/
  pairs : List (Nat × Nat) := []

namespace Matching

/-- Read the operator at a position; nothing where a closing bracket does not fit. -/
def read (matching : Matching) (head : Nat × Op) : Option Matching :=
  if head.2.isOpening then some { matching with unclosed := head :: matching.unclosed }
  else if head.2.isClosing then
    match matching.unclosed with
    | [] => none
    | opening :: outer =>
        if opening.2.closing? == some head.2 then
          some ⟨outer, (opening.1, head.1) :: matching.pairs⟩
        else none
  else some matching

/-- Read operators from left to right. -/
def readAll (matching : Matching) : List (Nat × Op) → Option Matching
  | [] => some matching
  | head :: rest => (matching.read head).bind (·.readAll rest)

end Matching

/-- The pairs of brackets among operators that are well nested by kind. -/
def bracketPairs? (heads : List (Nat × Op)) : Option (List (Nat × Nat)) :=
  match Matching.readAll {} heads with
  | some ⟨[], pairs⟩ => some pairs
  | _ => none

/-- Wherever the operators are read, they add the pairs and leave the stack as it was. -/
def Nested (heads : List (Nat × Op)) (pairs : List (Nat × Nat)) : Prop :=
  ∀ unclosed found,
    Matching.readAll ⟨unclosed, found⟩ heads = some ⟨unclosed, pairs ++ found⟩

namespace Matching

section

variable {unclosed outer final more : List (Nat × Op)} {found pairs : List (Nat × Nat)}
  {matching after : Matching} {heads front back : List (Nat × Op)} {head : Nat × Op}

/-! ## Single operators -/

theorem read_of_opening (opens : head.2.isOpening = true) :
    matching.read head = some { matching with unclosed := head :: matching.unclosed } := by
  rw [read, if_pos opens]

theorem not_isOpening_of_isClosing {op : Op} (closes : op.isClosing = true) :
    op.isOpening = false := by
  cases op <;> first | rfl | contradiction

theorem read_of_plain (opens : head.2.isOpening = false) (closes : head.2.isClosing = false) :
    matching.read head = some matching := by
  rw [read, opens, closes]
  rfl

theorem isClosing_of_closing? {op closing : Op} (known : op.closing? = some closing) :
    op.isOpening = true ∧ closing.isClosing = true := by
  cases op <;> first | contradiction | (obtain rfl := Option.some.inj known; exact ⟨rfl, rfl⟩)

theorem closing?_inj {op other closing : Op} (known : op.closing? = some closing)
    (known' : other.closing? = some closing) : op = other := by
  cases op <;> first | contradiction | (obtain rfl := Option.some.inj known
                                        cases other <;> first | contradiction | rfl)

theorem read_of_closing {opening : Nat × Op} {closing : Op}
    (known : opening.2.closing? = some closing) (position : Nat) :
    read ⟨opening :: outer, found⟩ (position, closing) =
      some ⟨outer, (opening.1, position) :: found⟩ := by
  have closes := (isClosing_of_closing? known).2
  rw [read, if_neg (by simp [not_isOpening_of_isClosing closes]), if_pos closes]
  dsimp only
  rw [if_pos (by simp [known])]

/-- What reading one operator can do. -/
theorem read_cases (reads : matching.read head = some after) :
    (head.2.isOpening = true ∧ after = ⟨head :: matching.unclosed, matching.pairs⟩) ∨
      (∃ opening outer, matching.unclosed = opening :: outer ∧ opening.2.closing? = some head.2 ∧
        after = ⟨outer, (opening.1, head.1) :: matching.pairs⟩) ∨
      (head.2.isOpening = false ∧ head.2.isClosing = false ∧ after = matching) := by
  rw [read] at reads
  split at reads
  · next opens => exact .inl ⟨opens, (Option.some.inj reads).symm⟩
  · next opens =>
      split at reads
      · split at reads
        · contradiction
        · next opening outer same =>
            split at reads
            · next fits => exact .inr (.inl ⟨opening, outer, same, eq_of_beq fits,
                (Option.some.inj reads).symm⟩)
            · contradiction
      · next closes =>
          exact .inr (.inr ⟨Bool.eq_false_iff.2 opens, Bool.eq_false_iff.2 closes,
            (Option.some.inj reads).symm⟩)

/-! ## Lists of operators -/

theorem readAll_append (matching : Matching) (front back : List (Nat × Op)) :
    matching.readAll (front ++ back) = (matching.readAll front).bind (·.readAll back) := by
  induction front generalizing matching with
  | nil => rfl
  | cons head front induction =>
      rw [List.cons_append, readAll, readAll]
      cases matching.read head with
      | none => rfl
      | some after => exact induction after

theorem exists_of_readAll_cons (reads : matching.readAll (head :: back) = some after) :
    ∃ middle, matching.read head = some middle ∧ middle.readAll back = some after :=
  Option.bind_eq_some_iff.1 reads

theorem exists_of_readAll_append (reads : matching.readAll (front ++ back) = some after) :
    ∃ middle, matching.readAll front = some middle ∧ middle.readAll back = some after := by
  rw [readAll_append] at reads
  exact Option.bind_eq_some_iff.1 reads

/-- Pairs found before do not matter. -/
theorem readAll_pairs (unclosed : List (Nat × Op)) (found : List (Nat × Nat))
    (heads : List (Nat × Op)) :
    readAll ⟨unclosed, found⟩ heads =
      (readAll ⟨unclosed, []⟩ heads).map fun after => ⟨after.unclosed, after.pairs ++ found⟩ := by
  induction heads generalizing unclosed found with
  | nil => rfl
  | cons head rest induction =>
      rw [readAll, readAll, read, read]
      dsimp only
      split
      · exact induction ..
      · split
        · cases unclosed with
          | nil => rfl
          | cons opening outer =>
              dsimp only
              split
              · rw [Option.bind_some, Option.bind_some,
                  induction outer ((opening.1, head.1) :: found),
                  induction outer [(opening.1, head.1)], Option.map_map]
                simp [Function.comp_def]
              · rfl
        · exact induction ..

/-- Brackets below those that a reading closes do not matter. -/
theorem readAll_below (below : List (Nat × Op))
    (reads : readAll ⟨unclosed, found⟩ heads = some ⟨final, pairs⟩) :
    readAll ⟨unclosed ++ below, found⟩ heads = some ⟨final ++ below, pairs⟩ := by
  induction heads generalizing unclosed found with
  | nil =>
      obtain ⟨rfl, rfl⟩ := Matching.mk.inj (Option.some.inj reads)
      rfl
  | cons head rest induction =>
      obtain ⟨⟨between, inner⟩, first, later⟩ := exists_of_readAll_cons reads
      rw [readAll]
      rcases read_cases first with ⟨opens, same⟩ | ⟨opening, outer, stacked, fits, same⟩ |
        ⟨opens, closes, same⟩
      · obtain ⟨rfl, rfl⟩ := Matching.mk.inj same
        rw [read_of_opening opens]
        exact induction later
      · obtain ⟨rfl, rfl⟩ := Matching.mk.inj same
        dsimp only at stacked
        rw [stacked, List.cons_append, read_of_closing fits]
        exact induction later
      · obtain ⟨rfl, rfl⟩ := Matching.mk.inj same
        rw [read_of_plain opens closes]
        exact induction later

/-- What is left open stood on the stack or was read. -/
theorem mem_of_readAll (reads : matching.readAll heads = some after) {opening : Nat × Op}
    (left : opening ∈ after.unclosed) : opening ∈ matching.unclosed ∨ opening ∈ heads := by
  induction heads generalizing matching with
  | nil =>
      obtain rfl := Option.some.inj reads
      exact .inl left
  | cons head rest induction =>
      obtain ⟨middle, first, later⟩ := exists_of_readAll_cons reads
      rcases induction later with stacked | read
      · rcases read_cases first with ⟨-, rfl⟩ | ⟨top, outer, split, -, rfl⟩ | ⟨-, -, rfl⟩
        · rcases List.mem_cons.1 stacked with rfl | below
          · exact .inr List.mem_cons_self
          · exact .inl below
        · rw [split]
          exact .inl (List.mem_cons_of_mem _ stacked)
        · exact .inl stacked
      · exact .inr (List.mem_cons_of_mem _ read)

/-- A bracket on the stack stays there, or is closed by a later one of its kind with whole pairs
before it. -/
theorem exists_closing {opening : Nat × Op}
    (reads : readAll ⟨more ++ opening :: unclosed, found⟩ heads = some after) :
    (∃ above, after.unclosed = above ++ opening :: unclosed) ∨
      ∃ inner position closing rest pairs, heads = inner ++ (position, closing) :: rest ∧
        opening.2.closing? = some closing ∧ readAll ⟨more, found⟩ inner = some ⟨[], pairs⟩ ∧
        readAll ⟨unclosed, (opening.1, position) :: pairs⟩ rest = some after := by
  induction heads generalizing more found with
  | nil =>
      obtain rfl := Option.some.inj reads
      exact .inl ⟨more, rfl⟩
  | cons head rest induction =>
      obtain ⟨middle, first, later⟩ := exists_of_readAll_cons reads
      have extend {more' : List (Nat × Op)} {found' : List (Nat × Nat)}
          (reads' : readAll ⟨more' ++ opening :: unclosed, found'⟩ rest = some after)
          (same : read ⟨more, found⟩ head = some ⟨more', found'⟩) :
          (∃ above, after.unclosed = above ++ opening :: unclosed) ∨
            ∃ inner position closing tail pairs,
              head :: rest = inner ++ (position, closing) :: tail ∧
              opening.2.closing? = some closing ∧ readAll ⟨more, found⟩ inner = some ⟨[], pairs⟩ ∧
              readAll ⟨unclosed, (opening.1, position) :: pairs⟩ tail = some after := by
        refine (induction reads').imp_right ?_
        rintro ⟨inner, position, closing, tail, pairs, rfl, fits, within, behind⟩
        refine ⟨head :: inner, position, closing, tail, pairs, rfl, fits, ?_, behind⟩
        rw [readAll, same]
        exact within
      rcases read_cases first with ⟨opens, rfl⟩ | ⟨top, outer, split, fits, rfl⟩ |
        ⟨opens, closes, rfl⟩
      · exact extend later (read_of_opening opens)
      · cases more with
        | nil =>
            obtain ⟨rfl, rfl⟩ := List.cons.inj split
            exact .inr ⟨[], head.1, head.2, rest, found, rfl, fits, rfl, later⟩
        | cons last more =>
            obtain ⟨rfl, rfl⟩ := List.cons.inj split
            exact extend later (read_of_closing fits _)
      · exact extend later (read_of_plain opens closes)

end

end Matching

namespace Nested

open Matching

section

variable {heads front back inner : List (Nat × Op)} {pairs more : List (Nat × Nat)}

theorem of_readAll (reads : readAll {} heads = some ⟨[], pairs⟩) : Nested heads pairs := by
  intro unclosed found
  rw [readAll_pairs, show readAll ⟨unclosed, []⟩ heads = some ⟨unclosed, pairs⟩ from
    readAll_below unclosed reads]
  rfl

theorem bracketPairs?_eq_some : bracketPairs? heads = some pairs ↔ Nested heads pairs := by
  constructor
  · intro found
    rw [bracketPairs?] at found
    split at found
    · next reads =>
        obtain rfl := Option.some.inj found
        exact of_readAll reads
    · contradiction
  · intro nested
    have reads := nested [] []
    rw [List.append_nil] at reads
    rw [bracketPairs?, show readAll {} heads = some ⟨[], pairs⟩ from reads]

/-- Well-nested operators with some pairs. -/
theorem isSome_bracketPairs? : (bracketPairs? heads).isSome = true ↔
      ∃ pairs, Nested heads pairs := by
  rw [Option.isSome_iff_exists]
  exact exists_congr fun pairs => bracketPairs?_eq_some

theorem nil : Nested [] [] := fun _ _ => rfl

theorem append (left : Nested front more) (right : Nested back pairs) :
    Nested (front ++ back) (pairs ++ more) := by
  intro unclosed found
  rw [readAll_append, left, Option.bind_some, right, List.append_assoc]

theorem of_plain (plain : ∀ head ∈ heads, head.2.isOpening = false ∧ head.2.isClosing = false) :
    Nested heads [] := by
  intro unclosed found
  induction heads with
  | nil => rfl
  | cons head rest induction =>
      obtain ⟨opens, closes⟩ := plain head List.mem_cons_self
      rw [readAll, read_of_plain opens closes]
      exact induction fun other among => plain other (List.mem_cons_of_mem _ among)

/-- Brackets around well-nested operators. -/
theorem around {opening closing : Op} (known : opening.closing? = some closing) (start stop : Nat)
    (nested : Nested inner pairs) :
    Nested ((start, opening) :: inner ++ [(stop, closing)]) ((start, stop) :: pairs) := by
  intro unclosed found
  rw [readAll_append, readAll, read_of_opening (isClosing_of_closing? known).1, Option.bind_some,
    nested, Option.bind_some, readAll, read_of_closing known]
  rfl

/-- Well-nested operators may stand anywhere between others. -/
theorem insert (outer : Nested (front ++ back) pairs) (nested : Nested inner more) :
    ∃ all, Nested (front ++ inner ++ back) all ∧ (∀ pair ∈ pairs, pair ∈ all) ∧
      ∀ pair ∈ more, pair ∈ all := by
  have reads := outer [] []
  rw [List.append_nil] at reads
  obtain ⟨⟨unclosed, found⟩, first, later⟩ := exists_of_readAll_append reads
  rw [readAll_pairs] at later
  obtain ⟨⟨left, added⟩, rest, same⟩ := Option.map_eq_some_iff.1 later
  obtain ⟨rfl, rfl⟩ := Matching.mk.inj same
  refine ⟨added ++ (more ++ found), of_readAll ?_, ?_, ?_⟩
  · rw [List.append_assoc, readAll_append, show readAll {} front = _ from first, Option.bind_some,
      readAll_append, nested, Option.bind_some, readAll_pairs, rest]
    rfl
  · simp +contextual [or_imp]
  · simp +contextual

/-- An opening bracket is closed by one of its kind, with whole pairs between them. -/
theorem exists_partner {start : Nat} {opening : Op}
    (nested : Nested (front ++ (start, opening) :: back) pairs) (opens : opening.isOpening = true) :
    ∃ inner stop closing rest inside outside, back = inner ++ (stop, closing) :: rest ∧
      opening.closing? = some closing ∧ Nested inner inside ∧ Nested (front ++ rest) outside := by
  have reads := nested [] []
  rw [List.append_nil] at reads
  obtain ⟨⟨unclosed, found⟩, first, later⟩ := exists_of_readAll_append reads
  rw [readAll, read_of_opening opens, Option.bind_some] at later
  rcases @exists_closing unclosed [] found _ back (start, opening) later with ⟨above, stays⟩ |
    ⟨inner, stop, closing, rest, inside, rfl, fits, within, behind⟩
  · simp at stays
  · rw [readAll_pairs] at within behind
    obtain ⟨⟨left, added⟩, within, same⟩ := Option.map_eq_some_iff.1 within
    obtain ⟨rfl, -⟩ := Matching.mk.inj same
    obtain ⟨⟨left, outside⟩, behind, same⟩ := Option.map_eq_some_iff.1 behind
    obtain ⟨rfl, -⟩ := Matching.mk.inj same
    refine ⟨inner, stop, closing, rest, added, outside ++ found, rfl, fits, of_readAll within,
      of_readAll ?_⟩
    rw [readAll_append, show readAll {} front = _ from first, Option.bind_some,
      readAll_pairs, behind]
    rfl

/-- An operator that is no bracket may be left out. -/
theorem erase {position : Nat} {op : Op} (nested : Nested (front ++ (position, op) :: back) pairs)
    (opens : op.isOpening = false) (closes : op.isClosing = false) :
    Nested (front ++ back) pairs := by
  intro unclosed found
  rw [← nested unclosed found, readAll_append, readAll_append]
  refine congrArg (Option.bind _) (funext fun middle => ?_)
  rw [readAll, read_of_plain opens closes]
  rfl

/-- Without opening brackets of a kind there are no closing ones of it. -/
theorem ne_closing {opening closing : Op} (nested : Nested heads pairs)
    (known : opening.closing? = some closing) (none : ∀ head ∈ heads, head.2 ≠ opening) :
    ∀ head ∈ heads, head.2 ≠ closing := by
  rintro ⟨position, op⟩ among rfl
  obtain ⟨front, back, rfl⟩ := List.append_of_mem among
  have closes := (isClosing_of_closing? known).2
  have reads := nested [] []
  obtain ⟨middle, first, later⟩ := exists_of_readAll_append reads
  obtain ⟨after, here, -⟩ := exists_of_readAll_cons later
  rcases read_cases here with ⟨opens, -⟩ | ⟨top, outer, split, fits, -⟩ | ⟨-, plain, -⟩
  · rw [not_isOpening_of_isClosing closes] at opens
    contradiction
  · rcases mem_of_readAll first (show top ∈ middle.unclosed by simp [split]) with stacked | read
    · contradiction
    · exact none top (by simp [read]) (closing?_inj fits known)
  · dsimp only at plain closes
    rw [closes] at plain
    contradiction

/-- Well-nested operators without opening brackets have no brackets at all. -/
theorem plain_of_not_opening (nested : Nested heads pairs)
    (none : ∀ head ∈ heads, head.2.isOpening = false) :
    ∀ head ∈ heads, head.2.isOpening = false ∧ head.2.isClosing = false := by
  have apart (op : Op) (opens : op.isOpening = true) : ∀ head ∈ heads, head.2 ≠ op := by
    rintro head among rfl
    rw [none head among] at opens
    contradiction
  intro head among
  refine ⟨none head among, ?_⟩
  have paren := nested.ne_closing rfl (apart .openParen rfl) head among
  have brace := nested.ne_closing rfl (apart .openBrace rfl) head among
  have square := nested.ne_closing rfl (apart .openBracket rfl) head among
  generalize head.2 = op at paren brace square
  cases op <;> first | rfl | contradiction

/-- Whole pairs do not change how deep a search for a closing bracket is. -/
theorem closingHead?_append {opening closing : Op} {depth : Nat} (nested : Nested inner pairs)
    (known : opening.closing? = some closing) (deep : 0 < depth) (rest : List (Nat × Op)) :
    Reduction.closingHead? opening closing depth (inner ++ rest) =
      Reduction.closingHead? opening closing depth rest := by
  -- the depth is that of the brackets of this kind on the stack
  have step (inner : List (Nat × Op)) {unclosed final : List (Nat × Op)}
      {found pairs : List (Nat × Nat)}
      (reads : readAll ⟨unclosed, found⟩ inner = some ⟨final, pairs⟩) :
      Reduction.closingHead? opening closing
          (depth + unclosed.countP (·.2 == opening)) (inner ++ rest) =
        Reduction.closingHead? opening closing
          (depth + final.countP (·.2 == opening)) rest := by
    induction inner generalizing unclosed found with
    | nil =>
        obtain ⟨rfl, rfl⟩ := Matching.mk.inj (Option.some.inj reads)
        rfl
    | cons head inner induction =>
        obtain ⟨middle, first, later⟩ := exists_of_readAll_cons reads
        obtain ⟨position, op⟩ := head
        rw [List.cons_append, Reduction.closingHead?]
        rcases read_cases first with ⟨opens, rfl⟩ | ⟨top, outer, split, fits, rfl⟩ |
          ⟨opens, closes, rfl⟩
        · have rest := induction later
          rw [List.countP_cons] at rest
          have notClosing : (op == closing) = false := by
            rw [beq_eq_false_iff_ne]
            rintro rfl
            have closes := (isClosing_of_closing? known).2
            rw [not_isOpening_of_isClosing closes] at opens
            contradiction
          by_cases same : op = opening
          · subst same
            rw [if_pos (beq_self_eq_true _), ← rest]
            simp [Nat.add_assoc]
          · have other : (op == opening) = false := beq_eq_false_iff_ne.2 same
            rw [other, if_neg Bool.false_ne_true, notClosing, if_neg Bool.false_ne_true, ← rest]
            simp [same]
        · have rest := induction later
          dsimp only at split fits
          rw [split, List.countP_cons]
          have notOpening : (op == opening) = false := by
            rw [beq_eq_false_iff_ne]
            rintro rfl
            have closes := (isClosing_of_closing? fits).2
            have opens := (isClosing_of_closing? known).1
            rw [not_isOpening_of_isClosing closes] at opens
            contradiction
          rw [notOpening, if_neg Bool.false_ne_true]
          by_cases same : op = closing
          · subst same
            obtain rfl := closing?_inj fits known
            rw [if_pos (beq_self_eq_true _), if_neg (by simp; omega), ← rest]
            simp [Nat.add_sub_assoc]
          · have other : (top.2 == opening) = false := by
              rw [beq_eq_false_iff_ne]
              rintro rfl
              rw [known] at fits
              exact same (Option.some.inj fits).symm
            rw [if_neg (by simpa using same), ← rest, other]
            simp
        · have rest := induction later
          have notOpening : (op == opening) = false := by
            rw [beq_eq_false_iff_ne]
            rintro rfl
            rw [(isClosing_of_closing? known).1] at opens
            contradiction
          have notClosing : (op == closing) = false := by
            rw [beq_eq_false_iff_ne]
            rintro rfl
            rw [(isClosing_of_closing? known).2] at closes
            contradiction
          rw [notOpening, if_neg Bool.false_ne_true, notClosing, if_neg Bool.false_ne_true, ← rest]
  have same := step inner (nested [] [])
  simpa using same

end

end Nested

end MethodLowering
