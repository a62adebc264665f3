import MethodLowering.Proofs.Text.Shutting
import MethodLowering.Proofs.Text.Splitting

/-!
# Text without line breaks

Text that is cut out of text without line breaks has none, and neither have the type names and
spelled types that are made from it.
-/

namespace MethodLowering
namespace Text

/-- The text has no line break. -/
def Unbroken (text : List Char) : Prop := '\n' ∉ text

instance (text : List Char) : Decidable (Unbroken text) := inferInstanceAs (Decidable (_ ∉ _))

section

variable {text other front back name : List Char} {c separator : Char} {span : Span}
  {pieces : List (List Char)}

theorem unbroken_nil : Unbroken [] := List.not_mem_nil

@[simp]
theorem unbroken_append : Unbroken (front ++ back) ↔ Unbroken front ∧ Unbroken back := by
  simp [Unbroken]

@[simp]
theorem unbroken_cons : Unbroken (c :: text) ↔ c ≠ '\n' ∧ Unbroken text := by
  simp [Unbroken, eq_comm]

section

variable (unbroken : Unbroken text)
include unbroken

theorem Unbroken.subset (inside : other ⊆ text) : Unbroken other :=
  fun member => unbroken (inside member)

theorem Unbroken.take (count : Nat) : Unbroken (text.take count) :=
  unbroken.subset (List.take_subset count text)

theorem Unbroken.drop (count : Nat) : Unbroken (text.drop count) :=
  unbroken.subset (List.drop_subset count text)

theorem Unbroken.slice (span : Span) : Unbroken (span.slice text) :=
  (unbroken.drop span.start).take span.length

theorem Unbroken.trimStart : Unbroken (Text.trimStart text) :=
  unbroken.subset (List.dropWhile_suffix isBlank).subset

theorem Unbroken.trim : Unbroken (Text.trim text) := by
  obtain ⟨front, back, around, -, -⟩ := exists_trim text
  rw [around, unbroken_append, unbroken_append] at unbroken
  exact unbroken.1.2

end

theorem Unbroken.trimmed {word : String} (unbroken : Unbroken word.toList) :
    Unbroken (Text.trimmed word).toList := by
  rw [trimmed_eq, String.toList_ofList]
  exact unbroken.trim

theorem Unbroken.takeWhile (unbroken : Unbroken text) (p : Char → Bool) :
    Unbroken (text.takeWhile p) :=
  unbroken.subset (List.takeWhile_prefix p).subset

theorem Unbroken.dropWhile (unbroken : Unbroken text) (p : Char → Bool) :
    Unbroken (text.dropWhile p) :=
  unbroken.subset (List.dropWhile_suffix p).subset

@[simp]
theorem unbroken_reverse : Unbroken text.reverse ↔ Unbroken text := by
  simp [Unbroken]

theorem Unbroken.trimEnd (unbroken : Unbroken text) : Unbroken (Text.trimEnd text) := by
  rw [Text.trimEnd, unbroken_reverse]
  exact (unbroken_reverse.2 unbroken).dropWhile _

theorem isDigit_of_mem_toString {count : Nat} {c : Char} (member : c ∈ (toString count).toList) :
    c.isDigit = true := by
  rw [Nat.toString_eq_repr, Nat.toList_repr] at member
  exact Nat.isDigit_of_mem_toDigits (by decide) (by decide) member

theorem eq_of_toString {first second : Nat}
    (same : (toString first).toList = (toString second).toList) :
    first = second := by
  rw [Nat.toString_eq_repr, Nat.toString_eq_repr, Nat.toList_repr, Nat.toList_repr] at same
  simpa using congrArg (fun digits => Nat.ofDigitChars 10 digits 0) same

theorem unbroken_toString (count : Nat) : Unbroken (toString count).toList :=
  fun member => absurd (isDigit_of_mem_toString member) (by decide)

/-! ## Parts -/

theorem Unbroken.words (unbroken : Unbroken text) : ∀ word ∈ Text.words text, Unbroken word :=
  List.forall_mem_map.2 fun span _ => unbroken.slice span

/-- What is joined is unbroken when the parts are. -/
theorem unbroken_intercalate (solid : Unbroken other) (each : ∀ piece ∈ pieces, Unbroken piece) :
    Unbroken (other.intercalate pieces) := by
  induction pieces with
  | nil => exact unbroken_nil
  | cons piece rest induction =>
      have later := induction fun other member => each other (List.mem_cons_of_mem _ member)
      cases rest with
      | nil => simpa [List.intercalate] using each piece List.mem_cons_self
      | cons next rest =>
          rw [List.intercalate_cons_cons, unbroken_append, unbroken_append]
          exact ⟨⟨each piece List.mem_cons_self, solid⟩, later⟩

/-- Strings that are joined are unbroken when the parts are. -/
theorem unbroken_joined {joint : String} {parts : List String} (solid : Unbroken joint.toList)
    (each : ∀ part ∈ parts, Unbroken part.toList) :
    Unbroken (String.intercalate joint parts).toList := by
  rw [String.toList_intercalate]
  exact unbroken_intercalate solid (List.forall_mem_map.2 each)

theorem subset_of_mem_intercalate {parts : List (List Char)} {part : List Char}
    (member : part ∈ parts) : part ⊆ [separator].intercalate parts := by
  induction parts with
  | nil => contradiction
  | cons first rest induction =>
      cases rest with
      | nil =>
          obtain rfl := List.mem_singleton.1 member
          simp [List.intercalate]
      | cons next rest =>
          rw [List.intercalate_cons_cons, List.append_assoc]
          rcases List.mem_cons.1 member with rfl | later
          · exact List.subset_append_left _ _
          · exact List.subset_append_of_subset_right _
              (List.subset_append_of_subset_right _ (induction later))

theorem Unbroken.splitTop (unbroken : Unbroken text) (separator : Char) :
    ∀ part ∈ Text.splitTop separator text, Unbroken part := by
  intro part member
  have inside := @subset_of_mem_intercalate separator _ part member
  rw [Text.splitTop, intercalate_splitFrom] at inside
  exact unbroken.subset inside

/-- What is left of a text when pieces are taken out. -/
theorem Unbroken.removeFrom? {spans : List Span} {start : Nat} (unbroken : Unbroken text)
    (removed : Text.removeFrom? text start spans = some other) : Unbroken other := by
  induction spans generalizing start other with
  | nil =>
      rw [Text.removeFrom?] at removed
      split at removed
      · obtain rfl := Option.some.inj removed
        exact unbroken.drop start
      · contradiction
  | cons span rest induction =>
      rw [Text.removeFrom?] at removed
      split at removed
      · obtain ⟨tail, others, rfl⟩ := Option.map_eq_some_iff.1 removed
        exact unbroken_append.2 ⟨unbroken.slice _, induction others⟩
      · contradiction

/-! ## Types -/

theorem Unbroken.element (unbroken : Unbroken name) : Unbroken (TypeName.strip name).1 := by
  obtain ⟨taken, split, -, -⟩ := strip_split name
  have trimmed := unbroken.trim
  rw [split, unbroken_append] at trimmed
  exact trimmed.1

theorem Unbroken.base (unbroken : Unbroken name) : Unbroken (TypeName.base name) :=
  (unbroken.trim.takeWhile _).trimEnd

theorem unbroken_scopeMarked (unbroken : Unbroken name) : Unbroken (TypeName.scopeMarked name) := by
  induction name with
  | nil => exact unbroken_nil
  | cons c rest induction =>
      rw [unbroken_cons] at unbroken
      rw [TypeName.scopeMarked]
      split
      · simp [induction unbroken.2]
      · exact unbroken_cons.2 ⟨unbroken.1, induction unbroken.2⟩

theorem Unbroken.qualified (unbroken : Unbroken name) :
    Unbroken (TypeName.qualified name).toList := by
  rw [TypeName.qualified, String.toList_ofList, unbroken_append]
  exact ⟨unbroken_scopeMarked (unbroken.trim.takeWhile _), unbroken.trim.dropWhile _⟩

theorem unbroken_targetPrimitive? {primitive : String}
    (found : TypeName.targetPrimitive? name = some primitive) : Unbroken primitive.toList := by
  unfold TypeName.targetPrimitive? at found
  split at found <;> first
    | contradiction
    | (obtain rfl := Option.some.inj found
       decide)

theorem Unbroken.spellPlain (unbroken : Unbroken name) :
    Unbroken (TypeName.spellPlain name).toList := by
  unfold TypeName.spellPlain
  split
  · exact unbroken_targetPrimitive? ‹_›
  · exact unbroken.qualified

theorem unbroken_spellDimensions {spelled : String} (unbroken : Unbroken spelled.toList)
    (count : Nat) :
    Unbroken (TypeName.spellDimensions spelled count).toList := by
  induction count generalizing spelled with
  | zero => exact unbroken
  | succ count induction =>
      refine induction ?_
      simp only [String.toList_append, unbroken_append]
      exact ⟨⟨by decide, unbroken⟩, by decide⟩

/-- An unbroken type has an unbroken target form. -/
theorem Unbroken.spell (unbroken : Unbroken name) (extra : List String) :
    Unbroken (TypeName.spell extra name).toList := by
  unfold TypeName.spell
  dsimp only
  refine unbroken_spellDimensions ?_ _
  unfold TypeName.spellElement
  split
  · exact unbroken_targetPrimitive? ‹_›
  · split
    · exact unbroken.element.qualified
    · simp only [String.toList_append, unbroken_append]
      exact ⟨⟨by decide, unbroken.element.qualified⟩, by decide⟩

theorem unbroken_addDimensions {typeName : String} (unbroken : Unbroken typeName.toList)
    (count : Nat) :
    Unbroken (TypeName.addDimensions typeName count).toList := by
  induction count generalizing typeName with
  | zero => exact unbroken
  | succ count induction =>
      refine induction ?_
      rw [String.toList_append, unbroken_append]
      exact ⟨unbroken, by decide⟩

end
end Text
end MethodLowering
