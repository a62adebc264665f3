import Mathlib.Data.List.DropRight
import Mathlib.Tactic.ByContra
import Mathlib.Tactic.SplitIfs
import MethodLowering.Keyword
import MethodLowering.Text.Cut

/-!
# Text that grows at its end

A text is read while its end is still open.  What is found in the part already there must not change
when more text follows behind a blank.
-/

namespace MethodLowering
namespace Text

/-! ## Blanks -/

theorem isBlank_space : isBlank ' ' = true := by decide

theorem isWordChar_space : isWordChar ' ' = false := by decide

theorem isWordChar_mark : ∀ mark ∈ [';', ':', '{', '}', '(', ')', '[', '.'],
    isWordChar mark = false := by
  decide

theorem trimStart_append_of_solid {text : List Char} (solid : trimStart text ≠ [])
    (more : List Char) : trimStart (text ++ more) = trimStart text ++ more := by
  have keeps : ¬ (text.dropWhile isBlank).isEmpty := by simpa [trimStart] using solid
  simp only [trimStart, List.dropWhile_append, keeps, Bool.false_eq_true, if_false]

theorem trimStart_append_of_blank {text : List Char} (blank : trimStart text = [])
    (more : List Char) : trimStart (text ++ more) = trimStart more := by
  have drops : (text.dropWhile isBlank).isEmpty := by simpa [trimStart] using blank
  simp only [trimStart, List.dropWhile_append, drops, if_true]

theorem trimStart_space (text : List Char) : trimStart (' ' :: text) = trimStart text := by
  simp [trimStart, isBlank_space]

@[simp]
theorem trimStart_trimStart (text : List Char) : trimStart (trimStart text) = trimStart text :=
  List.dropWhile_idempotent ..

/-- Leading blanks of the front part do not matter. -/
theorem trimStart_trimStart_append (text more : List Char) :
    trimStart (trimStart text ++ more) = trimStart (text ++ more) := by
  by_cases blank : trimStart text = []
  · rw [trimStart_append_of_blank blank, blank, List.nil_append]
  · rw [trimStart_append_of_solid blank, trimStart_append_of_solid, trimStart_trimStart]
    simpa using blank

/-! ## Words -/

theorem takeWhile_append_stop {α : Type} {keep : α → Bool} {stop : α} (stops : keep stop = false)
    (text more : List α) : (text ++ stop :: more).takeWhile keep = text.takeWhile keep := by
  induction text with
  | nil => simp [stops]
  | cons c rest induction =>
      by_cases kept : keep c
      · simp [kept, induction]
      · simp [kept]

theorem leadingWord_append (text more : List Char) :
    leadingWord (text ++ ' ' :: more) = leadingWord text :=
  takeWhile_append_stop isWordChar_space text more

theorem isPrefixOf_append_space {word : List Char} (solid : ' ' ∉ word) (text more : List Char) :
    word.isPrefixOf (text ++ ' ' :: more) = word.isPrefixOf text := by
  induction word generalizing text with
  | nil => simp
  | cons c rest induction =>
      rw [List.mem_cons, not_or] at solid
      cases text with
      | nil => simp [List.isPrefixOf, Ne.symm solid.1]
      | cons d text => simp [List.isPrefixOf, induction solid.2]

theorem startsWithWord_append {word : List Char} (solid : ' ' ∉ word) (text more : List Char) :
    startsWithWord word (text ++ ' ' :: more) = startsWithWord word text := by
  rw [startsWithWord, startsWithWord, isPrefixOf_append_space solid]
  by_cases starts : word.isPrefixOf text
  · obtain ⟨rest, rfl⟩ := List.isPrefixOf_iff_prefix.1 starts
    rw [List.append_assoc, List.drop_left, List.drop_left]
    cases rest with
    | nil => simp [isWordChar_space]
    | cons c rest => simp
  · simp [starts]

theorem length_le_of_startsWithWord {word text : List Char} (starts : startsWithWord word text) :
    word.length ≤ text.length := by
  rw [startsWithWord, Bool.and_eq_true] at starts
  exact (List.isPrefixOf_iff_prefix.1 starts.1).length_le

/-! ## Cuts -/

theorem cutFrom_append (terminator : Char) (state : CutState) (position : Nat)
    (text more : List Char) (found : cutFrom terminator state position text ≠ .incomplete) :
    cutFrom terminator state position (text ++ more) = cutFrom terminator state position text := by
  fun_induction cutFrom terminator state position text with
  | case1 => contradiction
  | case4 state position c rest bare solid ends =>
      rw [List.cons_append, cutFrom, if_neg bare, if_neg solid, if_pos ends]
  | case7 state position c rest bare solid goes noBrace noOpening closes stray =>
      rw [List.cons_append, cutFrom, if_neg bare, if_neg solid, if_neg goes, if_neg noBrace,
        if_neg noOpening, if_pos closes, if_pos stray]
  | case8 state position c rest bare solid goes noBrace noOpening closes inside induction =>
      rw [← induction found, List.cons_append, cutFrom, if_neg bare, if_neg solid, if_neg goes,
        if_neg noBrace, if_neg noOpening, if_pos closes, if_neg inside]
  | _ =>
      rename_i induction
      rw [← induction found, List.cons_append, cutFrom]
      simp only [*, if_true, if_false, Bool.false_eq_true]

/-- Where a search that starts at `position` may end in a text of `length` characters. -/
def CutSearch.EndsWithin (position length : Nat) : CutSearch → Prop
  | .found cut => position ≤ cut.stop ∧ cut.stop < position + length
  | .incomplete => True
  | .strayClose close => position ≤ close ∧ close < position + length

theorem CutSearch.EndsWithin.shift {position length : Nat} {search : CutSearch}
    (ends : search.EndsWithin (position + 1) length) :
    search.EndsWithin position (length + 1) := by
  cases search with
  | found cut => exact ⟨Nat.le_of_succ_le ends.1, by have := ends.2; omega⟩
  | incomplete => trivial
  | strayClose close => exact ⟨Nat.le_of_succ_le ends.1, by have := ends.2; omega⟩

theorem cutFrom_endsWithin (terminator : Char) (state : CutState) (position : Nat)
    (text : List Char) :
    (cutFrom terminator state position text).EndsWithin position text.length := by
  fun_induction cutFrom terminator state position text with
  | case1 => trivial
  | case4 state position c rest | case7 state position c rest =>
      exact ⟨Nat.le_refl _, Nat.lt_add_of_pos_right (Nat.succ_pos _)⟩
  | _ =>
      rename_i induction
      exact induction.shift

/-- A search that finds something finds the same in a longer text. -/
theorem findCut_append (terminator : Char) (text more : List Char) :
    findCut terminator text = .incomplete ∨
      (findCut terminator (text ++ more) = findCut terminator text ∧
        (findCut terminator text).EndsWithin 0 text.length) := by
  by_cases waits : findCut terminator text = .incomplete
  · exact .inl waits
  · exact .inr ⟨cutFrom_append terminator {} 0 text more waits,
      cutFrom_endsWithin terminator {} 0 text⟩

/-- The character has no part in the structure of statements. -/
def isInert (terminator c : Char) : Bool :=
  !isQuoteMark c && c != terminator && !isOpening c && !isClosing c

/-- Without a terminator and without brackets nothing is found. -/
theorem cutFrom_inert (terminator : Char) (state : CutState) (outside : state.quote = .outside)
    (position : Nat) (text : List Char) (inert : ∀ c ∈ text, isInert terminator c) :
    cutFrom terminator state position text = .incomplete := by
  induction text generalizing state position with
  | nil => rfl
  | cons c rest induction =>
      have here := inert c List.mem_cons_self
      have behind (d : Char) (member : d ∈ rest) := inert d (List.mem_cons_of_mem c member)
      simp only [isInert, Bool.and_eq_true, Bool.not_eq_true', bne_iff_ne] at here
      obtain ⟨⟨⟨unquoted, other⟩, unopened⟩, unclosed⟩ := here
      have uncovered : state.quote.covers c = false := by rw [outside]; exact unquoted
      have brace : (c == '{') = false := by
        simp only [isOpening, Bool.or_eq_false_iff] at unopened
        exact unopened.2
      unfold cutFrom
      simp only [uncovered, brace, unopened, unclosed, beq_eq_false_iff_ne.2 other,
        Bool.false_and, Bool.false_eq_true, if_false]
      split_ifs
      · exact induction state outside (position + 1) behind
      · exact induction { state with last := some c } outside (position + 1) behind

/-- The marks that structure a statement: quotes, the terminator and brackets. -/
def statementMarks : List Char := ['"', '\'', ';', '(', '[', '{', ')', ']', '}']

/-- A character of a kind that holds of no mark is inert. -/
theorem isInert_of_kind {kind : Char → Bool} {c : Char} (member : kind c)
    (plain : ∀ mark ∈ statementMarks, kind mark = false) : isInert ';' c := by
  have other (mark : Char) (among : mark ∈ statementMarks) : (c == mark) = false := by
    refine beq_eq_false_iff_ne.2 ?_
    rintro rfl
    rw [plain c among] at member
    contradiction
  simp only [isInert, isQuoteMark, isOpening, isClosing, bne, other '"' (by decide),
    other '\'' (by decide), other ';' (by decide), other '(' (by decide), other '[' (by decide),
    other '{' (by decide), other ')' (by decide), other ']' (by decide), other '}' (by decide),
    Bool.or_self, Bool.not_false, Bool.and_self]

theorem isInert_of_isWordChar {c : Char} (word : isWordChar c) : isInert ';' c :=
  isInert_of_kind word (by decide)

theorem isInert_of_isBlank {c : Char} (blank : isBlank c) : isInert ';' c :=
  isInert_of_kind blank (by decide)

/-- A word with nothing but blanks behind it ends no statement. -/
theorem findCut_word {text : List Char}
    (blank : trimStart (text.drop (leadingWord text).length) = []) :
    findCut ';' text = .incomplete := by
  refine cutFrom_inert ';' {} rfl 0 text fun c member => ?_
  have parts : leadingWord text ++ text.dropWhile isWordChar = text :=
    List.takeWhile_append_dropWhile
  have behind : text.drop (leadingWord text).length = text.dropWhile isWordChar := by
    have dropped : (leadingWord text ++ text.dropWhile isWordChar).drop (leadingWord text).length =
        text.dropWhile isWordChar := List.drop_left
    rwa [parts] at dropped
  rw [← parts, List.mem_append] at member
  rcases member with front | back
  · exact isInert_of_isWordChar (List.mem_takeWhile_imp front)
  · rw [behind, trimStart, List.dropWhile_eq_nil_iff] at blank
    exact isInert_of_isBlank (blank c back)

/-! ## Brackets -/

theorem closeFrom_append (opening closing : Char) (quote : Quote) (depth position : Nat)
    (text more : List Char) {close : Nat}
    (found : closeFrom opening closing quote depth position text = some close) :
    closeFrom opening closing quote depth position (text ++ more) = some close := by
  induction text generalizing quote depth position with
  | nil => simp [closeFrom] at found
  | cons c rest induction =>
      rw [List.cons_append]
      unfold closeFrom at found ⊢
      split_ifs at found ⊢ <;> first | exact found | exact induction _ _ _ found

theorem closeFrom_bounds (opening closing : Char) (quote : Quote) (depth position : Nat)
    (text : List Char) {close : Nat}
    (found : closeFrom opening closing quote depth position text = some close) :
    position ≤ close ∧ close < position + text.length := by
  induction text generalizing quote depth position with
  | nil => simp [closeFrom] at found
  | cons c rest induction =>
      have later {quote : Quote} {depth : Nat}
          (inner : closeFrom opening closing quote depth (position + 1) rest = some close) :
          position ≤ close ∧ close < position + (rest.length + 1) := by
        have := induction _ _ _ inner
        omega
      unfold closeFrom at found
      split_ifs at found
      all_goals first
        | exact later found
        | (obtain rfl := Option.some.inj found
           exact ⟨Nat.le_refl _, by simp⟩)

theorem matchingClose?_append {text : List Char} {close : Nat} (more : List Char)
    (found : matchingClose? text = some close) :
    matchingClose? (text ++ more) = some close := by
  cases text with
  | nil => simp [matchingClose?] at found
  | cons c rest =>
      obtain ⟨closing, kind, search⟩ := Option.bind_eq_some_iff.1 found
      exact Option.bind_eq_some_iff.2
        ⟨closing, kind, closeFrom_append c closing .outside 0 0 (c :: rest) more search⟩

theorem matchingClose?_lt {text : List Char} {close : Nat}
    (found : matchingClose? text = some close) : close < text.length := by
  cases text with
  | nil => simp [matchingClose?] at found
  | cons c rest =>
      obtain ⟨closing, -, search⟩ := Option.bind_eq_some_iff.1 found
      have := closeFrom_bounds c closing .outside 0 0 (c :: rest) search
      omega

end Text

/-! ## Labels -/

theorem length_leadingWord_le (text : List Char) :
    (Text.leadingWord text).length ≤ text.length :=
  (List.takeWhile_prefix Text.isWordChar).length_le

theorem leadingLabel?_append (text more : List Char)
    (solid : Text.trimStart (text.drop (Text.leadingWord text).length) ≠ []) :
    leadingLabel? (text ++ ' ' :: more) = leadingLabel? text := by
  unfold leadingLabel?
  simp only [Text.leadingWord_append, List.drop_append_of_le_length (length_leadingWord_le text),
    Text.trimStart_append_of_solid solid]
  have distance (rest tail back : List Char) :
      (rest ++ back).length - (tail ++ back).length = rest.length - tail.length := by
    rw [List.length_append, List.length_append]
    omega
  rw [distance]
  obtain ⟨mark, tail, split⟩ := List.exists_cons_of_ne_nil solid
  rw [split]
  cases tail with
  | nil => simp
  | cons next tail => simp

theorem leadingLabel?_taken_le {text label : List Char} {taken : Nat}
    (found : leadingLabel? text = some (label, taken)) : taken ≤ text.length := by
  simp only [leadingLabel?] at found
  have inner := Text.length_trimStart_le (text.drop (Text.leadingWord text).length)
  have whole := length_leadingWord_le text
  simp only [List.length_drop] at inner
  split_ifs at found with unnamed marked
  have solid : 0 < (Text.trimStart (text.drop (Text.leadingWord text).length)).length := by
    rw [List.length_pos_iff]
    intro nothing
    simp [nothing] at marked
  obtain ⟨-, rfl⟩ := Prod.mk.inj (Option.some.inj found)
  simp only [List.length_drop]
  omega

end MethodLowering
