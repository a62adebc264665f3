import MethodLowering.Ledger.Basic

/-!
# Tags position by position

What the changes of a ledger do to the tag and the character at each position, and what the bounded
searches find.
-/

namespace MethodLowering

namespace Text

/-! ## Searches -/

theorem seek_eq {stops : Nat → Bool} {start found count : Nat} (bound : start ≤ found)
    (within : found ≤ start + count) (before : ∀ p, start ≤ p → p < found → stops p = false)
    (ends : found = start + count ∨ stops found = true) : seek stops start count = found := by
  induction count generalizing start with
  | zero => exact Nat.le_antisymm bound within
  | succ count induction =>
      rw [seek]
      by_cases here : start = found
      · subst here
        rcases ends with ends | ends
        · omega
        · rw [if_pos ends]
      · rw [before start (Nat.le_refl _) (by omega), if_neg Bool.false_ne_true]
        refine induction (by omega) (by omega) (fun p low high => before p (by omega) high) ?_
        exact ends.imp_left (by omega)

theorem seekDown_eq {stops : Nat → Bool} {stop found count : Nat} (bound : found ≤ stop)
    (within : stop ≤ found + count) (before : ∀ p, found ≤ p → p < stop → stops p = false)
    (ends : stop = found + count ∨ stops (found - 1) = true) :
    seekDown stops stop count = found := by
  induction count generalizing stop with
  | zero => exact Nat.le_antisymm within bound
  | succ count induction =>
      rw [seekDown]
      by_cases here : stop = found
      · subst here
        rcases ends with ends | ends
        · omega
        · rw [if_pos ends]
      · rw [before (stop - 1) (by omega) (by omega), if_neg Bool.false_ne_true]
        refine induction (by omega) (by omega) (fun p low high => before p low (by omega)) ?_
        exact ends.imp_left (by omega)

theorem seek?_eq_some {wanted : Nat → Bool} {start found count : Nat} (bound : start ≤ found)
    (within : found < start + count) (before : ∀ p, start ≤ p → p < found → wanted p = false)
    (holds : wanted found = true) : seek? wanted start count = some found := by
  induction count generalizing start with
  | zero => omega
  | succ count induction =>
      rw [seek?]
      by_cases here : start = found
      · subst here
        rw [if_pos holds]
      · rw [before start (Nat.le_refl _) (by omega), if_neg Bool.false_ne_true]
        exact induction (by omega) (by omega) fun p low high => before p (by omega) high

theorem seek?_eq_none {wanted : Nat → Bool} {start count : Nat}
    (nowhere : ∀ p, start ≤ p → p < start + count → wanted p = false) :
    seek? wanted start count = none := by
  induction count generalizing start with
  | zero => rfl
  | succ count induction =>
      rw [seek?, nowhere start (Nat.le_refl _) (by omega), if_neg Bool.false_ne_true]
      exact induction fun p low high => nowhere p (by omega) (by omega)

/-- A search depends only on the positions that it may visit. -/
theorem seek?_congr {wanted wanted' : Nat → Bool} {start count : Nat}
    (same : ∀ p, start ≤ p → p < start + count → wanted p = wanted' p) :
    seek? wanted start count = seek? wanted' start count := by
  induction count generalizing start with
  | zero => rfl
  | succ count induction =>
      rw [seek?, seek?, same start (Nat.le_refl _) (by omega),
        induction fun p low high => same p (by omega) (by omega)]

theorem seek?_spec {wanted : Nat → Bool} {start found count : Nat}
    (seeks : seek? wanted start count = some found) :
    start ≤ found ∧ wanted found = true ∧ ∀ p, start ≤ p → p < found → wanted p = false := by
  induction count generalizing start with
  | zero => contradiction
  | succ count induction =>
      rw [seek?] at seeks
      split at seeks
      · next here =>
          obtain rfl := Option.some.inj seeks
          exact ⟨Nat.le_refl _, here, fun p low high => by omega⟩
      · next here =>
          obtain ⟨low, holds, before⟩ := induction seeks
          refine ⟨by omega, holds, fun p above below => ?_⟩
          by_cases first : p = start
          · rw [first]
            exact Bool.eq_false_iff.2 here
          · exact before p (by omega) below

theorem seek?_lt {wanted : Nat → Bool} {start found count : Nat}
    (seeks : seek? wanted start count = some found) : found < start + count := by
  induction count generalizing start with
  | zero => contradiction
  | succ count induction =>
      rw [seek?] at seeks
      split at seeks
      · obtain rfl := Option.some.inj seeks
        omega
      · have := induction seeks
        omega

theorem seek?_isSome (wanted : Nat → Bool) (start count : Nat) :
    (seek? wanted start count).isSome ↔ ∃ p, start ≤ p ∧ p < start + count ∧ wanted p = true := by
  induction count generalizing start with
  | zero =>
      constructor
      · intro found
        contradiction
      · rintro ⟨p, low, high, -⟩
        omega
  | succ count induction =>
      rw [seek?]
      by_cases here : wanted start = true
      · rw [if_pos here]
        exact ⟨fun _ => ⟨start, Nat.le_refl _, by omega, here⟩, fun _ => rfl⟩
      · rw [if_neg here, induction]
        constructor
        · rintro ⟨p, low, high, found⟩
          exact ⟨p, by omega, by omega, found⟩
        · rintro ⟨p, low, high, found⟩
          have later : p ≠ start := by
            rintro rfl
            exact here found
          exact ⟨p, by omega, by omega, found⟩

end Text

namespace Ledger

/-! ## Changed tags -/

theorem tag?_setTag (ledger : Ledger) (position : Nat) (tag : Tag) (p : Nat) :
    (ledger.setTag position tag).tag? p =
      if position = p then (ledger.tag? p).map fun _ => tag else ledger.tag? p := by
  simp only [setTag, tag?, Array.getElem?_modify]
  split
  · simp [Option.map_map, Function.comp_def]
  · rfl

theorem tag?_setTags (tag : Tag) (start count : Nat) (ledger : Ledger) (p : Nat) :
    (setTags tag start count ledger).tag? p =
      if start ≤ p ∧ p < start + count then (ledger.tag? p).map fun _ => tag
      else ledger.tag? p := by
  induction count generalizing start ledger with
  | zero => rw [setTags, if_neg (by omega)]
  | succ count induction =>
      rw [setTags, induction, tag?_setTag]
      by_cases here : start = p
      · rw [if_neg (by omega), if_pos here, if_pos (by omega)]
      · rw [if_neg here]
        by_cases inside : start + 1 ≤ p ∧ p < start + 1 + count
        · rw [if_pos inside, if_pos (by omega)]
        · rw [if_neg inside, if_neg (by omega)]

/-- The tag that marking leaves: blanks stay blanks. -/
def markedTag (tag old : Tag) : Tag := if old.isSpace then old else tag

theorem tag?_markFrom (tag : Tag) (start count : Nat) (ledger : Ledger) (p : Nat) :
    (markFrom tag start count ledger).tag? p =
      if start ≤ p ∧ p < start + count then (ledger.tag? p).map (markedTag tag)
      else ledger.tag? p := by
  induction count generalizing start ledger with
  | zero => rw [markFrom, if_neg (by omega)]
  | succ count induction =>
      rw [markFrom, induction]
      simp only [tag?, Array.getElem?_modify]
      by_cases here : start = p
      · rw [if_neg (by omega), if_pos here, if_pos (by omega)]
        cases ledger.cells[p]? with
        | none => rfl
        | some cell =>
            simp only [Option.map_some, markedTag]
            split <;> rfl
      · rw [if_neg here]
        by_cases inside : start + 1 ≤ p ∧ p < start + 1 + count
        · rw [if_pos inside, if_pos (by omega)]
        · rw [if_neg inside, if_neg (by omega)]

theorem tag?_eq_none {ledger : Ledger} {p : Nat} : ledger.tag? p = none ↔ ledger.size ≤ p := by
  rw [tag?, Option.map_eq_none_iff, Array.getElem?_eq_none_iff, size]

theorem lt_size_of_tag? {ledger : Ledger} {p : Nat} {tag : Tag} (known : ledger.tag? p = some tag) :
    p < ledger.size := by
  refine Nat.lt_of_not_le fun outside => ?_
  rw [tag?_eq_none.2 outside] at known
  contradiction

theorem tag?_mark (ledger : Ledger) (span : Span) (tag : Tag) (p : Nat) :
    (ledger.mark span tag).tag? p =
      if span.start ≤ p ∧ p < span.stop then (ledger.tag? p).map (markedTag tag)
      else ledger.tag? p := by
  rw [mark, tag?_markFrom]
  by_cases inside : p < ledger.size
  · by_cases marked : span.start ≤ p ∧ p < span.stop
    · rw [if_pos marked, if_pos (by omega)]
    · rw [if_neg marked, if_neg (by omega)]
  · rw [tag?_eq_none.2 (Nat.le_of_not_lt inside)]
    simp

/-! ## Unchanged text -/

theorem chars_modify_tag (cells : Array Cell) (position : Nat) (change : Cell → Cell)
    (keeps : ∀ cell, (change cell).char = cell.char) :
    (cells.modify position change).toList.map (·.char) = cells.toList.map (·.char) := by
  apply List.ext_getElem?
  intro p
  simp only [List.getElem?_map, Array.getElem?_toList, Array.getElem?_modify]
  split
  · cases cells[p]? <;> simp [keeps]
  · rfl

@[simp]
theorem chars_setTag (ledger : Ledger) (position : Nat) (tag : Tag) :
    (ledger.setTag position tag).chars = ledger.chars :=
  chars_modify_tag ledger.cells position _ fun _ => rfl

@[simp]
theorem chars_setTags (tag : Tag) (start count : Nat) (ledger : Ledger) :
    (setTags tag start count ledger).chars = ledger.chars := by
  induction count generalizing start ledger with
  | zero => rfl
  | succ count induction => rw [setTags, induction, chars_setTag]

@[simp]
theorem chars_markFrom (tag : Tag) (start count : Nat) (ledger : Ledger) :
    (markFrom tag start count ledger).chars = ledger.chars := by
  induction count generalizing start ledger with
  | zero => rfl
  | succ count induction =>
      rw [markFrom, induction]
      refine chars_modify_tag ledger.cells start _ fun cell => ?_
      split <;> rfl

@[simp]
theorem chars_mark (ledger : Ledger) (span : Span) (tag : Tag) :
    (ledger.mark span tag).chars = ledger.chars :=
  chars_markFrom ..

@[simp]
theorem length_chars (ledger : Ledger) : ledger.chars.length = ledger.size := by
  simp [chars, size]

theorem char?_eq_chars (ledger : Ledger) (p : Nat) : ledger.char? p = ledger.chars[p]? := by
  simp [char?, chars]

/-- The text at a span is a piece of the whole text. -/
theorem slice_eq (ledger : Ledger) (span : Span) : ledger.slice span = span.slice ledger.chars := by
  rw [slice_eq_extract, Span.slice, Span.length, chars, Array.toList_extract, List.extract,
    List.map_take, List.map_drop]

theorem textAt_eq (ledger : Ledger) (span : Span) :
    ledger.textAt span = String.ofList (span.slice ledger.chars) := by
  rw [textAt_eq_ofList, slice_eq]

end Ledger
end MethodLowering
