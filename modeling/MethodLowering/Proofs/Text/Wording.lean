import MethodLowering.Proofs.Text.Shutting

/-!
# Words of a shut text

The words of a text are the text again, blanks aside.  So where the words of a shut text declare a
variable, its name and its type are shut.
-/

namespace MethodLowering
namespace Text

/-! ## The words are the text -/

/-- The spans stand one behind the other from `start` on, and all around them is blank. -/
def Chained (text : List Char) : Nat → List Span → Prop
  | start, [] => squeeze (text.drop start) = []
  | start, span :: rest =>
      start ≤ span.start ∧ span.start ≤ span.stop ∧ between text start span.start = [] ∧
        Chained text span.stop rest

section

variable {text ahead : List Char} {start stop position : Nat} {current : Span} {spans : List Span}
  {c : Char}

theorem squeeze_drop (order : start ≤ stop) :
    squeeze (text.drop start) = between text start stop ++ squeeze (text.drop stop) := by
  have split : text.drop start =
      (text.drop start).take (stop - start) ++ (text.drop start).drop (stop - start) :=
    (List.take_append_drop ..).symm
  rw [between, Span.slice, Span.length, ← squeeze_append]
  conv_lhs => rw [split]
  rw [List.drop_drop, Nat.add_sub_cancel' order]

theorem Chained.squeeze_eq (chained : Chained text start spans) :
    squeeze (text.drop start) = spans.flatMap fun span => squeeze (span.slice text) := by
  induction spans generalizing start with
  | nil => exact chained
  | cons span rest induction =>
      obtain ⟨low, order, blank, later⟩ := chained
      rw [squeeze_drop low, blank, squeeze_drop order, induction later, List.flatMap_cons]
      rfl

/-- Blanks in front do not matter. -/
theorem Chained.behind (order : start ≤ position) (blank : between text start position = [])
    (chained : Chained text position spans) : Chained text start spans := by
  cases spans with
  | nil => rw [Chained, squeeze_drop order, blank]; exact chained
  | cons span rest =>
      obtain ⟨low, later⟩ := chained
      rw [Chained, ← between_append text order low, blank]
      exact ⟨Nat.le_trans order low, later⟩

/-- The spans are chained, the first of them beginning where the word being read began. -/
def ChainedFrom (text : List Char) (start : Option Nat) (position : Nat) (spans : List Span) :
    Prop :=
  match start with
  | none => Chained text position spans
  | some start => start ≤ position →
      ∃ stop rest, spans = ⟨start, stop⟩ :: rest ∧ position ≤ stop ∧ Chained text stop rest

theorem chained_wordSpansFrom (quote : Quote) (depth : Nat) (start : Option Nat)
    (here : text.drop position = ahead) :
    ChainedFrom text start position (wordSpansFrom quote depth start position ahead) := by
  induction ahead generalizing quote depth start position with
  | nil =>
      have none : Chained text position [] := by rw [Chained, here]; rfl
      cases start with
      | none => exact none
      | some start => exact fun _ => ⟨position, [], rfl, Nat.le_refl _, none⟩
  | cons c ahead induction =>
      have next : text.drop (position + 1) = ahead := by
        rw [← List.drop_drop, here]
        rfl
      have alone : between text position (position + 1) = squeeze [c] := by
        rw [between, Span.slice, Span.length, here, Nat.add_sub_cancel_left]
        rfl
      have later (quote : Quote) (depth : Nat) (start : Option Nat) :=
        induction quote depth start next
      have stands {quote : Quote} {depth : Nat}
          (splits : (!quote.covers c && depth == 0 && isBlank c) = true) :
          between text position (position + 1) = [] := by
        rw [Bool.and_eq_true] at splits
        rw [alone, squeeze, List.filter_cons_of_neg (by simp [splits.2])]
        rfl
      cases start with
      | none =>
          rw [wordSpansFrom]
          generalize (if quote.covers c = true then depth else angleDepth depth c) = inner
          split
          · exact (later _ _ none).behind (Nat.le_succ position) (stands ‹_›)
          · obtain ⟨stop, rest, spans, order, behind⟩ := later (quote.next c) inner
              (some position) (Nat.le_succ position)
            rw [Option.getD_none, spans]
            exact ⟨Nat.le_refl _, by dsimp only; omega, between_self .., behind⟩
      | some start =>
          intro before
          rw [wordSpansFrom]
          generalize (if quote.covers c = true then depth else angleDepth depth c) = inner
          split
          · exact ⟨position, _, rfl, Nat.le_refl _,
              (later _ _ none).behind (Nat.le_succ position) (stands ‹_›)⟩
          · obtain ⟨stop, rest, spans, order, behind⟩ := later (quote.next c) inner
              (some start) (Nat.le_succ_of_le before)
            exact ⟨stop, rest, spans, Nat.le_of_succ_le order, behind⟩

theorem chained_glueFrom (order : current.start ≤ current.stop)
    (chained : Chained text current.stop spans) :
    ∃ stop rest, glueFrom text current spans = ⟨current.start, stop⟩ :: rest ∧
      current.stop ≤ stop ∧ Chained text stop rest := by
  induction spans generalizing current with
  | nil => exact ⟨current.stop, [], rfl, Nat.le_refl _, chained⟩
  | cons span rest induction =>
      obtain ⟨low, high, blank, later⟩ := chained
      rw [glueFrom]
      split
      · obtain ⟨stop, more, glued, above, behind⟩ :=
          induction (show (⟨current.start, span.stop⟩ : Span).start ≤
            span.stop by dsimp only; omega)
            later
        exact ⟨stop, more, glued, by dsimp only at above; omega, behind⟩
      · obtain ⟨stop, more, glued, above, behind⟩ := induction high later
        rw [glued]
        exact ⟨current.stop, _, rfl, Nat.le_refl _, low, by dsimp only; omega, blank, behind⟩

/-- The words of a text are the text, blanks aside. -/
theorem squeeze_words (text : List Char) : (words text).flatMap squeeze = squeeze text := by
  have spans : Chained text 0 (wordSpansFrom .outside 0 none 0 text) :=
    chained_wordSpansFrom .outside 0 none (List.drop_zero ..)
  have whole : ∀ glued, Chained text 0 glued →
      (glued.map fun span => span.slice text).flatMap squeeze = squeeze text := by
    intro glued chained
    rw [List.flatMap_map, ← chained.squeeze_eq, List.drop_zero]
  rw [words]
  cases read : wordSpansFrom .outside 0 none 0 text with
  | nil =>
      rw [read] at spans
      exact whole [] spans
  | cons first rest =>
      rw [read] at spans
      obtain ⟨low, order, blank, later⟩ := spans
      obtain ⟨stop, more, glued, above, behind⟩ := chained_glueFrom order later
      dsimp only
      rw [glued]
      exact whole _ ⟨low, by dsimp only; omega, blank, behind⟩

end

/-! ## Declared variables -/

theorem isPlain_of_isWordChar {c : Char} (letter : isWordChar c = true) :
    isPlain c = true ∧ c ≠ ';' :=
  ⟨isPlain_of_kind letter (by decide),
    beq_eq_false_iff_ne.1 (beq_eq_false_of_kind letter (by decide))⟩

theorem isQuoteMark_of_isTypeChar {c : Char} (type : isTypeChar c = true) :
    isQuoteMark c = false ∧ c ≠ ';' := by
  refine ⟨?_, beq_eq_false_iff_ne.1 (beq_eq_false_of_kind type (by decide))⟩
  rw [isQuoteMark, beq_eq_false_of_kind type (by decide), beq_eq_false_of_kind type (by decide)]
  rfl

theorem isPlain_of_isModifier {word : List Char} (modifies : Reduction.isModifier word = true) :
    ∀ c ∈ word, isPlain c = true ∧ c ≠ ';' := by
  have all : ∀ name ∈ Reduction.modifiers, ∀ c ∈ name.toList, isPlain c = true ∧ c ≠ ';' :=
    by decide
  rw [Reduction.isModifier, List.contains_iff_mem] at modifies
  have letters := all _ modifies
  rwa [String.toList_ofList] at letters

theorem forall_squeeze {property : Char → Prop} {words : List (List Char)}
    (all : ∀ word ∈ words, ∀ c ∈ word, property c) : ∀ c ∈ words.flatMap squeeze, property c := by
  intro c among
  obtain ⟨word, member, inside⟩ := List.mem_flatMap.1 among
  exact all word member c (List.mem_filter.1 inside).1

/-- The words with a blank between them are the words, blanks aside. -/
theorem squeeze_intercalate (words : List (List Char)) :
    squeeze (String.intercalate " " (words.map String.ofList)).toList = words.flatMap squeeze := by
  rw [String.toList_intercalate, List.map_map,
    show words.map (String.toList ∘ String.ofList) = words by simp]
  induction words with
  | nil => rfl
  | cons word rest induction =>
      cases rest with
      | nil => simp
      | cons next rest =>
          rw [List.intercalate_cons_cons, squeeze_append, squeeze_append, induction,
            show squeeze " ".toList = [] from rfl, List.append_nil]
          simp only [List.flatMap_cons]

/-- The name and the type of a variable that a shut text declares are shut. -/
theorem Shut.declared {text : List Char} {name typeName : String} {isFinal isStatic : Bool}
    (shut : Shut anyChar text) (declares : Reduction.declared? (words text) =
      some (.variable name typeName isFinal isStatic)) :
    Shut noSemicolon name.toList ∧ Shut noSemicolon typeName.toList := by
  have lenient := lenient_noSemicolon
  have any := lenient_anyChar
  unfold Reduction.declared? at declares
  dsimp only at declares
  split at declares
  · rename_i last type types reversed
    have split : words text =
        (words text).takeWhile Reduction.isModifier ++ ((type :: types).reverse ++ [last]) := by
      conv_lhs => rw [← List.takeWhile_append_dropWhile (p := Reduction.isModifier)
        (l := words text)]
      rw [← List.reverse_reverse (List.dropWhile _ _), reversed, List.reverse_cons]
    have modify : ∀ word ∈ (words text).takeWhile Reduction.isModifier,
        Reduction.isModifier word = true := fun word among => List.mem_takeWhile_imp among
    generalize (words text).takeWhile Reduction.isModifier = front at split modify declares
    generalize (type :: types).reverse = typeWords at split declares
    split at declares
    · rename_i typed
      obtain ⟨taken, trimmed, closed, unquoted⟩ := strip_split last
      generalize TypeName.strip last = stripped at trimmed declares
      obtain ⟨bare, dimensions⟩ := stripped
      dsimp only at trimmed declares
      split at declares
      · rename_i named
        simp only [Option.some.injEq, Reduction.Declared.variable.injEq] at declares
        obtain ⟨rfl, rfl, -, -⟩ := declares
        simp only [Reduction.isVariableName, Bool.and_eq_true, List.all_eq_true] at named
        simp only [areTypeWords, Bool.and_eq_true, List.all_eq_true] at typed
        have unblanked (c : Char) (blank : isBlank c = true) := isQuoteMark_of_isBlank blank
        have bareShut {kind : Char → Bool} (lenient : Lenient kind) : Shut kind bare :=
          lenient.shut fun c among => isPlain_of_isWordChar (named.2 c among)
        have inTypes : ∀ c ∈ typeWords.flatMap squeeze, isQuoteMark c = false ∧ c ≠ ';' :=
          forall_squeeze fun word member c inside =>
            isQuoteMark_of_isTypeChar (typed.2 word member c inside)
        obtain ⟨before, behind, around, blank, blank'⟩ := exists_trim last
        rw [trimmed] at around
        have inLast : ∀ c ∈ last, isQuoteMark c = false := by
          intro c among
          rw [around] at among
          simp only [List.mem_append] at among
          rcases among with (inBefore | inBare | inTaken) | inBehind
          · exact unblanked c (blank c inBefore)
          · exact (isPlain_eq (isPlain_of_isWordChar (named.2 c inBare)).1).1
          · exact unquoted c inTaken
          · exact unblanked c (blank' c inBehind)
        have inFront : ∀ c ∈ front.flatMap squeeze, isPlain c = true ∧ c ≠ ';' :=
          forall_squeeze fun word member => isPlain_of_isModifier (modify word member)
        have whole : squeeze text =
            front.flatMap squeeze ++ (typeWords.flatMap squeeze ++ squeeze last) := by
          rw [← squeeze_words, split]
          simp
        have inText : ∀ c ∈ text, isQuoteMark c = false := by
          refine forall_of_squeeze unblanked fun c among => ?_
          rw [whole] at among
          rcases List.mem_append.1 among with front | behind
          · exact (isPlain_eq (inFront c front).1).1
          · exact (List.mem_append.1 behind).elim (fun type => (inTypes c type).1)
              fun last => inLast c (List.mem_filter.1 last).1
        have shutWhole := (shut_squeeze any inText).2 shut
        rw [whole] at shutWhole
        have lastShut : Shut anyChar (squeeze last) := by
          refine (shut_squeeze any inLast).2 ?_
          rw [around]
          exact ((any.shut_blank blank).append ((bareShut any).append closed)).append
            (any.shut_blank blank')
        have typesShut := (shutWhole.behind (any.shut inFront)).2.before lastShut
          fun c among => inLast c (List.mem_filter.1 among).1
        rw [← squeeze_intercalate] at typesShut inTypes
        have typeShut := (shut_squeeze any
          (forall_of_squeeze unblanked fun c among => (inTypes c among).1)).1 typesShut
        rw [String.toList_ofList]
        refine ⟨bareShut lenient, (typeShut.strict ?_).addDimensions dimensions⟩
        exact forall_of_squeeze (fun c blank => lenient c (ne_semicolon_of_isBlank blank))
          fun c among => lenient c (inTypes c among).2
      · contradiction
    · cases declares
  · contradiction

end Text
end MethodLowering
