import MethodLowering.Proofs.Text.Dimensions

/-!
# Type terms

A declared type is text, and it is taken apart by searches for brackets and commas.  Here types are
terms, and the searches in the printed text of a term find the parts of the term.
-/

namespace MethodLowering
namespace TypeName

open Text

/-! ## Terms -/

/-- The character is no blank, no dot and none of the other marks that types are composed of. -/
def isNameChar (c : Char) : Bool := !isBlank c && !"<>,[]?.".toList.contains c

/-- A part of a dotted name. -/
structure NamePart where
  chars : List Char
  isSome : chars ≠ []
  plain : ∀ c ∈ chars, isNameChar c = true

/-- Parts with dots between them, the first one starting with an ASCII letter or an underscore. -/
structure DottedName where
  first : NamePart
  others : List NamePart
  starts : first.chars.head?.any (fun c => isLetter c || c == '_') = true

/-- What stands in front of the type in a type argument. -/
inductive Bound where
  | exact
  | upper
  | lower
deriving DecidableEq, Repr

mutual

/-- A name with type arguments and array dimensions. -/
inductive TypeTerm where
  | named (name : DottedName) (arguments : List TypeArgument) (dimensions : Nat)

/-- A wildcard alone, or a type with or without a wildcard in front of it. -/
inductive TypeArgument where
  | wildcard
  | type (bound : Bound) (term : TypeTerm)

end

/-- Blanks behind a comma. -/
structure Blanks where
  chars : List Char
  blank : ∀ c ∈ chars, isBlank c = true

/-! ## Printing -/

/-- The text of a dotted name. -/
def DottedName.chars (name : DottedName) : List Char :=
  name.first.chars ++ name.others.flatMap fun part => '.' :: part.chars

/-- The text of a bound. -/
def Bound.chars : Bound → List Char
  | exact => []
  | upper => "? extends ".toList
  | lower => "? super ".toList

/-- The texts with commas between them. -/
def commaed (blanks : Blanks) (parts : List (List Char)) : List Char :=
  (',' :: blanks.chars).intercalate parts

/-- Arguments in angle brackets; nothing when there are none. -/
def bracketed (blanks : Blanks) (parts : List (List Char)) : List Char :=
  if parts.isEmpty then [] else '<' :: commaed blanks parts ++ ['>']

mutual

/-- The text of a type. -/
def TypeTerm.print (blanks : Blanks) : TypeTerm → List Char
  | .named name arguments dimensions =>
      (addDimensions (String.ofList (name.chars ++ bracketed blanks (printAll blanks arguments)))
        dimensions).toList

/-- The text of a type argument. -/
def TypeArgument.print (blanks : Blanks) : TypeArgument → List Char
  | .wildcard => ['?']
  | .type bound term => bound.chars ++ term.print blanks

/-- The texts of type arguments. -/
def printAll (blanks : Blanks) : List TypeArgument → List (List Char)
  | [] => []
  | argument :: rest => argument.print blanks :: printAll blanks rest

end

mutual

/-- The names in a type: those of its arguments, from left to right, in front of its own. -/
def TypeTerm.bases : TypeTerm → List String
  | .named name arguments _ => basesOf arguments ++ [String.ofList name.chars]

/-- The names in a type argument. -/
def TypeArgument.bases : TypeArgument → List String
  | .wildcard => []
  | .type _ term => term.bases

/-- The names in type arguments. -/
def basesOf : List TypeArgument → List String
  | [] => []
  | argument :: rest => argument.bases ++ basesOf rest

end

theorem printAll_eq (blanks : Blanks) (arguments : List TypeArgument) :
    printAll blanks arguments = arguments.map (·.print blanks) := by
  induction arguments with
  | nil => rw [printAll, List.map_nil]
  | cons argument rest induction => rw [printAll, induction, List.map_cons]

theorem basesOf_eq (arguments : List TypeArgument) :
    basesOf arguments = arguments.flatMap (·.bases) := by
  induction arguments with
  | nil => rw [basesOf, List.flatMap_nil]
  | cons argument rest induction => rw [basesOf, induction, List.flatMap_cons]

section

variable {blanks : Blanks} {name : DottedName} {part rest text : List Char}
  {parts : List (List Char)}
  {depth count : Nat} {c : Char}

/-! ## Names -/

theorem isNameChar_iff : isNameChar c = true ↔ isBlank c = false ∧ c ∉ "<>,[]?.".toList := by
  simp [isNameChar]

/-- The characters of a name are those of identifiers, and dots. -/
theorem DottedName.mem_chars (member : c ∈ name.chars) : isNameChar c = true ∨ c = '.' := by
  rcases List.mem_append.1 member with first | other
  · exact .inl (name.first.plain c first)
  · obtain ⟨part, -, inside⟩ := List.mem_flatMap.1 other
    rcases List.mem_cons.1 inside with dot | later
    · exact .inr dot
    · exact .inl (part.plain c later)

theorem DottedName.not_mem_chars (mark : c ∈ "<>,[]?".toList) : c ∉ name.chars := by
  intro member
  rcases mem_chars member with plain | rfl
  · exact (isNameChar_iff.1 plain).2 (List.mem_append_left ['.'] mark)
  · simp at mark

theorem DottedName.solid (member : c ∈ name.chars) : isBlank c = false := by
  rcases mem_chars member with plain | rfl
  · exact (isNameChar_iff.1 plain).1
  · rfl

theorem DottedName.chars_ne_nil (name : DottedName) : name.chars ≠ [] :=
  fun none => name.first.isSome (List.append_eq_nil_iff.1 none).1

theorem DottedName.head_chars (name : DottedName) :
    name.chars.head?.any (fun c => isLetter c || c == '_') = true := by
  have starts := name.starts
  obtain ⟨c, rest, same⟩ := List.exists_cons_of_ne_nil name.first.isSome
  rw [same] at starts
  rw [chars, same]
  exact starts

/-- A name ends with a character of an identifier. -/
theorem DottedName.exists_snoc (name : DottedName) :
    ∃ front c, name.chars = front ++ [c] ∧ isNameChar c = true := by
  have ends (part : NamePart) (front : List Char) :
      ∃ before c, front ++ part.chars = before ++ [c] ∧ isNameChar c = true := by
    obtain ⟨before, c, same⟩ := List.eq_nil_or_concat part.chars |>.resolve_left part.isSome
    exact ⟨front ++ before, c, by simp [same], part.plain c (by simp [same])⟩
  rcases List.eq_nil_or_concat name.others with none | ⟨before, part, same⟩
  · simpa [chars, none] using ends name.first []
  · simpa [chars, same] using ends part
      (name.first.chars ++ (before.flatMap fun part => '.' :: part.chars) ++ ['.'])

/-! ## Commas at depth zero -/

/-- No comma of the text separates arguments, and brackets in it are closed. -/
def Passes (depth : Nat) (part : List Char) : Prop :=
  ∀ rest, splitArguments depth (part ++ rest) = (splitArguments depth rest).modifyHead (part ++ ·)

theorem splitArguments_ne_nil (depth : Nat) (text : List Char) :
    splitArguments depth text ≠ [] := by
  cases text with
  | nil => exact List.cons_ne_nil _ _
  | cons c rest =>
      rw [splitArguments]
      split
      · exact List.cons_ne_nil _ _
      · dsimp only
        split <;> exact List.cons_ne_nil _ _

/-- A character that does not separate stands in front of the first part. -/
theorem splitArguments_cons (kept : (c == ',' && depth == 0) = false) (rest : List Char) :
    splitArguments depth (c :: rest) =
      (splitArguments (if c == '<' then depth + 1 else if c == '>' then depth - 1 else depth)
        rest).modifyHead (c :: ·) := by
  rw [splitArguments, kept, if_neg Bool.false_ne_true]
  dsimp only
  split
  · rename_i none
    exact absurd none (splitArguments_ne_nil _ _)
  · rename_i first others same
    rw [same]
    rfl

theorem passes_nil (depth : Nat) : Passes depth [] := by
  intro rest
  cases shown : splitArguments depth rest <;> simp [shown]

theorem Passes.append {other : List Char} (first : Passes depth part)
    (second : Passes depth other) :
    Passes depth (part ++ other) := by
  intro rest
  rw [List.append_assoc, first, second, List.modifyHead_modifyHead]
  simp [Function.comp_def]

theorem passes_of_plain (plain : ∀ c ∈ part, c ∉ ",<>".toList) : Passes depth part := by
  induction part with
  | nil => exact passes_nil depth
  | cons c part induction =>
      obtain ⟨noComma, noOpening, noClosing⟩ : c ≠ ',' ∧ c ≠ '<' ∧ c ≠ '>' := by
        simpa using plain c (List.mem_cons_self ..)
      intro rest
      have kept : (c == ',' && depth == 0) = false := by simp [noComma]
      rw [List.cons_append, splitArguments_cons kept, if_neg (by simpa using noOpening),
        if_neg (by simpa using noClosing), induction (fun other member =>
        plain other (List.mem_cons_of_mem _ member)),
        List.modifyHead_modifyHead]
      rfl

/-- Inside brackets, commas do not separate. -/
theorem passes_comma (depth : Nat) : Passes (depth + 1) [','] := by
  intro rest
  exact splitArguments_cons rfl rest

theorem Passes.enclose (inner : Passes (depth + 1) part) : Passes depth ('<' :: part ++ ['>']) := by
  intro rest
  have closing : splitArguments (depth + 1) ('>' :: rest) =
      (splitArguments depth rest).modifyHead ('>' :: ·) := splitArguments_cons rfl rest
  have opening : splitArguments depth ('<' :: (part ++ '>' :: rest)) =
      (splitArguments (depth + 1) (part ++ '>' :: rest)).modifyHead ('<' :: ·) :=
    splitArguments_cons rfl _
  have whole : '<' :: part ++ ['>'] ++ rest = '<' :: (part ++ '>' :: rest) := by simp
  rw [whole, opening, inner, closing, List.modifyHead_modifyHead, List.modifyHead_modifyHead]
  simp [Function.comp_def]

theorem Blanks.passes (blanks : Blanks) (depth : Nat) : Passes depth blanks.chars := by
  refine passes_of_plain fun c member mark => ?_
  have blank := blanks.blank c member
  obtain rfl | rfl | rfl : c = ',' ∨ c = '<' ∨ c = '>' := by simpa using mark
  all_goals contradiction

theorem DottedName.passes (name : DottedName) (depth : Nat) : Passes depth name.chars := by
  refine passes_of_plain fun c member mark => not_mem_chars ?_ member
  have among : ",<>".toList ⊆ "<>,[]?".toList := by decide
  exact among mark

theorem commaed_cons (first second : List Char) :
    commaed blanks (first :: second :: parts) =
      first ++ ([','] ++ (blanks.chars ++ commaed blanks (second :: parts))) := by
  simp [commaed, List.intercalate_cons_cons]

theorem passes_commaed (passes : ∀ part ∈ parts, Passes (depth + 1) part) :
    Passes (depth + 1) (commaed blanks parts) := by
  induction parts with
  | nil => exact passes_nil _
  | cons part parts induction =>
      have own := passes part (List.mem_cons_self ..)
      have later := induction fun other member => passes other (List.mem_cons_of_mem _ member)
      cases parts with
      | nil => rwa [commaed, List.intercalate_singleton]
      | cons second parts =>
          rw [commaed_cons]
          exact own.append ((passes_comma depth).append ((blanks.passes _).append later))

/-- The parts come back, with the blanks in front of the later ones. -/
theorem splitArguments_commaed (passes : ∀ other ∈ part :: parts, Passes 0 other) :
    splitArguments 0 (commaed blanks (part :: parts)) = part :: parts.map (blanks.chars ++ ·) := by
  induction parts generalizing part with
  | nil =>
      have own := passes part (List.mem_cons_self ..) []
      rw [List.append_nil] at own
      rw [commaed, List.intercalate_singleton, own]
      simp [splitArguments]
  | cons second parts induction =>
      have own := passes part (List.mem_cons_self ..)
      have later := induction fun other member => passes other (List.mem_cons_of_mem _ member)
      have separates (rest : List Char) :
          splitArguments 0 (',' :: rest) = [] :: splitArguments 0 rest := rfl
      rw [commaed_cons, own, List.singleton_append, separates, blanks.passes, later]
      simp

/-! ## Solid texts -/

/-- The text starts and ends with characters that are not blank. -/
structure IsSolid (text : List Char) : Prop where
  isSome : text ≠ []
  front : text.head?.any isBlank = false
  back : text.getLast?.any isBlank = false

theorem IsSolid.trim_eq (solid : IsSolid text) : trim text = text := by
  rw [trim, trimStart_eq_self (by simp [solid.front]), trimEnd_eq_self (by simp [solid.back])]

/-- Blanks in front of a solid text are taken off. -/
theorem IsSolid.trim_append (solid : IsSolid text) (blanks : Blanks) :
    trim (blanks.chars ++ text) = text := by
  have start : trimStart (blanks.chars ++ text) = trimStart text :=
    List.dropWhile_append_of_pos blanks.blank
  rw [trim, start]
  exact solid.trim_eq

/-- The text ends with neither a blank nor a bracket of dimensions nor a dot. -/
def EndsPlain (text : List Char) : Prop :=
  ∃ front c, text = front ++ [c] ∧ isBlank c = false ∧ c ≠ ']' ∧ c ≠ '.'

theorem EndsPlain.append (ends : EndsPlain text) (front : List Char) :
    EndsPlain (front ++ text) := by
  obtain ⟨before, c, rfl, plain⟩ := ends
  exact ⟨front ++ before, c, (List.append_assoc ..).symm, plain⟩

theorem EndsPlain.isSolid (ends : EndsPlain text) (front : text.head?.any isBlank = false) :
    IsSolid text := by
  obtain ⟨before, c, same, solid, -⟩ := ends
  exact ⟨by simp [same], front, by simp [same, solid]⟩

/-- A text that ends so has no dimensions, and those that are added come off again. -/
theorem EndsPlain.element_addDimensions (ends : EndsPlain text)
    (front : text.head?.any isBlank = false)
    (count : Nat) : element (addDimensions (String.ofList text) count).toList = text := by
  have solid := (ends.isSolid front).trim_eq
  obtain ⟨before, c, same, -, noBracket, noDot⟩ := ends
  have turned : text.reverse = c :: before.reverse := by simp [same]
  have stays : stripPairs text.reverse = (text.reverse, 0) := by
    rw [turned, stripPairs, if_neg (by simpa using noBracket)]
  cases count with
  | zero =>
      rw [addDimensions, String.toList_ofList, element, strip, solid]
      dsimp only
      split
      · rename_i rest dots
        rw [turned] at dots
        exact absurd (List.cons.inj dots).1 noDot
      · rw [stays, List.reverse_reverse]
  | succ count => rw [element, strip_addDimensions, solid, stays, List.reverse_reverse]

/-! ## Names with arguments -/

theorem DottedName.front (name : DottedName) (rest : List Char) :
    ∃ c others, name.chars ++ rest = c :: others ∧ (isLetter c || c == '_') = true := by
  have head := name.head_chars
  obtain ⟨c, others, same⟩ := List.exists_cons_of_ne_nil name.chars_ne_nil
  rw [same] at head ⊢
  exact ⟨c, others ++ rest, rfl, head⟩

theorem endsPlain_element (name : DottedName) (parts : List (List Char)) :
    EndsPlain (name.chars ++ bracketed blanks parts) := by
  rw [bracketed]
  split
  · obtain ⟨front, c, same, plain⟩ := name.exists_snoc
    obtain ⟨solid, unmarked⟩ := isNameChar_iff.1 plain
    rw [List.append_nil]
    exact ⟨front, c, same, solid, by rintro rfl; exact unmarked (by decide),
      by rintro rfl; exact unmarked (by decide)⟩
  · exact ⟨_, '>', (List.append_assoc ..).symm, by decide⟩

theorem takeWhile_element (name : DottedName) (parts : List (List Char)) :
    (name.chars ++ bracketed blanks parts).takeWhile (· != '<') = name.chars ∧
      (name.chars ++ bracketed blanks parts).dropWhile (· != '<') = bracketed blanks parts := by
  have noBracket : ∀ c ∈ name.chars, (c != '<') = true := fun c member =>
    bne_iff_ne.2 fun same => DottedName.not_mem_chars (by simp [same]) member
  rw [List.takeWhile_append_of_pos noBracket, List.dropWhile_append_of_pos noBracket, bracketed]
  split
  · simp
  · simp

theorem isSolid_element (name : DottedName) (parts : List (List Char)) :
    IsSolid (name.chars ++ bracketed blanks parts) := by
  refine (endsPlain_element name parts).isSolid ?_
  obtain ⟨c, others, same, -⟩ := name.front (bracketed blanks parts)
  obtain ⟨own, rest, chars⟩ := List.exists_cons_of_ne_nil name.chars_ne_nil
  have inside : own ∈ name.chars := by simp [chars]
  simp [chars, DottedName.solid inside]

theorem base_element (name : DottedName) (parts : List (List Char)) :
    base (name.chars ++ bracketed blanks parts) = name.chars := by
  rw [base, (isSolid_element name parts).trim_eq, (takeWhile_element name parts).1]
  refine trimEnd_eq_self ?_
  obtain ⟨front, c, same, plain⟩ := name.exists_snoc
  simp [same, (isNameChar_iff.1 plain).1]

/-- What an argument has to be so that it is found among others. -/
structure IsArgument (part : List Char) : Prop where
  solid : IsSolid part
  passes : ∀ depth, Passes depth part

/-- The arguments between the brackets are found. -/
theorem arguments_element (name : DottedName) (each : ∀ part ∈ parts, IsArgument part) :
    arguments (name.chars ++ bracketed blanks parts) = parts := by
  have text : argumentText? (name.chars ++ bracketed blanks parts) =
      if parts.isEmpty then none else some (commaed blanks parts) := by
    rw [argumentText?, (isSolid_element name parts).trim_eq,
      (takeWhile_element name parts).2, bracketed]
    cases parts with
    | nil => rfl
    | cons part parts => simp
  cases parts with
  | nil => rw [arguments, text]; rfl
  | cons part parts =>
      have split : splitArguments 0 (commaed blanks (part :: parts)) = _ :=
        splitArguments_commaed fun other member => (each other member).passes 0
      have trimmed : (part :: parts.map (blanks.chars ++ ·)).map trim = part :: parts := by
        rw [List.map_cons, (each part (List.mem_cons_self ..)).solid.trim_eq, List.map_map]
        refine congrArg _ ((List.map_congr_left fun other member => ?_).trans (List.map_id parts))
        exact (each other (List.mem_cons_of_mem _ member)).solid.trim_append blanks
      rw [arguments, text]
      dsimp only [List.isEmpty_cons]
      rw [if_neg Bool.false_ne_true]
      dsimp only
      rw [split, trimmed]
      split
      · rename_i last
        exact absurd rfl (each _ (List.mem_of_getLast? last)).solid.isSome
      · rfl

/-! ## Printed terms -/

theorem addDimensions_append (front : List Char) (element : List Char) (count : Nat) :
    front ++ (addDimensions (String.ofList element) count).toList =
      (addDimensions (String.ofList (front ++ element)) count).toList := by
  rw [← List.reverse_inj, List.reverse_append, addDimensions_backwards, addDimensions_backwards]
  simp

theorem passes_addDimensions (passes : Passes depth text) (count : Nat) :
    Passes depth (addDimensions (String.ofList text) count).toList := by
  induction count generalizing text with
  | zero => rwa [addDimensions, String.toList_ofList]
  | succ count induction =>
      have pair : Passes depth "[]".toList := passes_of_plain (by decide)
      have step := induction (passes.append pair)
      rwa [String.ofList_append] at step

theorem Bound.passes (bound : Bound) (depth : Nat) : Passes depth bound.chars :=
  passes_of_plain (by cases bound <;> decide)

theorem isSolid_addDimensions (solid : IsSolid text) (count : Nat) :
    IsSolid (addDimensions (String.ofList text) count).toList := by
  induction count generalizing text with
  | zero => rwa [addDimensions, String.toList_ofList]
  | succ count induction =>
      have pair : IsSolid (text ++ "[]".toList) := by
        obtain ⟨c, rest, rfl⟩ := List.exists_cons_of_ne_nil solid.isSome
        refine ⟨List.cons_ne_nil _ _, solid.front, ?_⟩
        rw [List.getLast?_append]
        rfl
      have step := induction pair
      rwa [String.ofList_append] at step

/-- A bound and an element, as they stand in front of the dimensions. -/
theorem front_bound (bound : Bound) (name : DottedName) (rest : List Char) :
    ∃ c others, bound.chars ++ (name.chars ++ rest) = c :: others ∧ isBlank c = false := by
  cases bound with
  | exact =>
      obtain ⟨c, others, same⟩ := List.exists_cons_of_ne_nil name.chars_ne_nil
      exact ⟨c, others ++ rest,
        by rw [same]; rfl, DottedName.solid (by rw [same]; exact List.mem_cons_self ..)⟩
  | upper | lower => exact ⟨'?', _, rfl, rfl⟩

theorem isSolid_bound (bound : Bound) (name : DottedName) (parts : List (List Char)) :
    IsSolid (bound.chars ++ (name.chars ++ bracketed blanks parts)) := by
  refine ((endsPlain_element name parts).append bound.chars).isSolid ?_
  obtain ⟨c, others, same, solid⟩ := front_bound bound name (bracketed blanks parts)
  simp [same, solid]

/-- The element of a printed argument is its bound and its name with arguments. -/
theorem element_print (bound : Bound) (name : DottedName) (arguments : List TypeArgument)
    (dimensions : Nat) :
    element ((TypeArgument.type bound (.named name arguments dimensions)).print blanks) =
      bound.chars ++ (name.chars ++ bracketed blanks (printAll blanks arguments)) := by
  rw [TypeArgument.print, TypeTerm.print, addDimensions_append]
  exact ((endsPlain_element name _).append bound.chars).element_addDimensions
    (isSolid_bound bound name _).front dimensions

theorem isSolid_print (argument : TypeArgument) : IsSolid (argument.print blanks) := by
  cases argument with
  | wildcard => exact ⟨List.cons_ne_nil _ _, rfl, rfl⟩
  | type bound term =>
      obtain ⟨name, arguments, dimensions⟩ := term
      rw [TypeArgument.print, TypeTerm.print, addDimensions_append]
      exact isSolid_addDimensions (isSolid_bound bound name _) dimensions

mutual

/-- No comma of a printed type separates arguments. -/
theorem TypeTerm.passes_print (blanks : Blanks) (depth : Nat) :
    ∀ term : TypeTerm, Passes depth (term.print blanks)
  | .named name arguments dimensions => by
      rw [TypeTerm.print, bracketed]
      refine passes_addDimensions ((name.passes depth).append ?_) dimensions
      split
      · exact passes_nil depth
      · exact (passes_commaed (passes_printAll blanks (depth + 1) arguments)).enclose

theorem TypeArgument.passes_print (blanks : Blanks) (depth : Nat) :
    ∀ argument : TypeArgument, Passes depth (argument.print blanks)
  | .wildcard => passes_of_plain (by simp [TypeArgument.print])
  | .type bound term => (bound.passes depth).append (TypeTerm.passes_print blanks depth term)

theorem passes_printAll (blanks : Blanks) (depth : Nat) :
    ∀ arguments : List TypeArgument, ∀ part ∈ printAll blanks arguments, Passes depth part
  | [] => by simp [printAll]
  | argument :: rest => by
      rw [printAll]
      exact List.forall_mem_cons.2
        ⟨TypeArgument.passes_print blanks depth argument, passes_printAll blanks depth rest⟩

end

theorem isArgument_of_mem_printAll {arguments : List TypeArgument}
    (member : part ∈ printAll blanks arguments) :
    IsArgument part := by
  refine ⟨?_, fun depth => passes_printAll blanks depth arguments part member⟩
  rw [printAll_eq] at member
  obtain ⟨argument, -, rfl⟩ := List.mem_map.1 member
  exact isSolid_print argument

theorem length_le_commaed (member : part ∈ parts) :
    part.length ≤ (commaed blanks parts).length := by
  induction parts with
  | nil => contradiction
  | cons first parts induction =>
      cases parts with
      | nil => rw [List.mem_singleton.1 member, commaed, List.intercalate_singleton]
      | cons second parts =>
          have length : (commaed blanks (first :: second :: parts)).length =
              first.length + (blanks.chars.length + (commaed blanks (second :: parts)).length +
                1) := by
            simp [commaed_cons]
          rcases List.mem_cons.1 member with rfl | later
          · omega
          · have inside := induction later
            omega

/-- An argument is shorter than the type that it stands in. -/
theorem length_lt_of_mem_printAll {arguments : List TypeArgument} (bound : Bound) (dimensions : Nat)
    (member : part ∈ printAll blanks arguments) :
    part.length < ((TypeArgument.type bound (.named name arguments dimensions)).print
      blanks).length := by
  have inside : part.length ≤ (commaed blanks (printAll blanks arguments)).length :=
    length_le_commaed member
  have some_ : (printAll blanks arguments).isEmpty = false :=
    List.isEmpty_eq_false_iff.2 (List.ne_nil_of_mem member)
  have backwards := congrArg List.length (addDimensions_backwards
    (String.ofList (name.chars ++ ('<' :: commaed blanks (printAll blanks arguments) ++ ['>'])))
      dimensions)
  simp only [String.toList_ofList, List.length_append, List.length_reverse, List.length_cons]
    at backwards
  rw [TypeArgument.print, TypeTerm.print, bracketed, some_, if_neg Bool.false_ne_true,
    List.length_append]
  omega

end
end TypeName
end MethodLowering
