import Mathlib.Data.List.Basic
import MethodLowering.Lowering.Basic
import MethodLowering.Proofs.Text.TypeTerms

/-!
# Reported types

What is reported for the text of a type are the names in the type term, those of the arguments in
front of the name that they belong to, except for the names that need no declaration.  The report
keeps each of them where it was met first.
-/

namespace MethodLowering

open Text MethodLowering.TypeName

/-! ## Reports -/

namespace TypeReport

variable {report : TypeReport} {name : String}

theorem contains_iff : report.contains name = true ↔ name ∈ report.toList := by
  rw [contains, Array.contains_iff_mem, toList, Array.mem_toList_iff]

theorem toList_add (report : TypeReport) (name : String) :
    (report.add name).toList = if name ∈ report.toList then report.toList else
      report.toList ++ [name] := by
  rw [add]
  by_cases known : report.contains name = true
  · rw [if_pos known, if_pos (contains_iff.1 known)]
  · rw [if_neg known, if_neg (known ∘ contains_iff.2), toList, Array.toList_push, toList]

/-- Behind what is reported already stand the names that are new, each where it comes first. -/
theorem toList_foldl_add (names : List String) (report : TypeReport) :
    (names.foldl add report).toList =
      report.toList ++ (names.filter fun name => !report.contains name).eraseDups := by
  induction names generalizing report with
  | nil => simp
  | cons name rest induction =>
      rw [List.foldl_cons, induction, toList_add]
      by_cases known : name ∈ report.toList
      · have same : report.add name = report := if_pos (contains_iff.2 known)
        rw [if_pos known, same, List.filter_cons_of_neg (by simpa using contains_iff.2 known)]
      · have fresh : report.contains name = false := by simpa using known ∘ contains_iff.1
        have grows (other : String) :
            (report.add name).contains other = (report.contains other || other == name) := by
          rw [Bool.eq_iff_iff, contains_iff, toList_add, if_neg known]
          simp [contains_iff]
        rw [if_neg known, List.filter_cons_of_pos (by simp [fresh]), List.eraseDups_cons,
          List.filter_filter,
          List.append_assoc, List.singleton_append]
        refine congrArg _ (congrArg _ (congrArg _ (List.filter_congr fun other _ => ?_)))
        rw [grows, Bool.not_or, Bool.and_comm]

end TypeReport

/-! ## Names -/

namespace Body

/-- The name is no primitive type, not the text type, none of the ignored names, no container, not
the name of a type made from a class body, and none of an enclosing class. -/
def needsDeclaration (body : Body) (name : String) : Bool :=
  !(primitives.contains name || name == textType || ignored.contains name ||
    containers.contains name ||
    body.extraContainers.contains name || Limits.liftedStem.toList.isPrefixOf name.toList ||
    body.context.classes.any fun type => type.name == name)

section

variable {body : Body} {blanks : Blanks} {word : List Char}

theorem isUnseen_chars (body : Body) (name : DottedName) :
    body.isUnseen name.chars = body.needsDeclaration (String.ofList name.chars) := by
  let none : Blanks := ⟨[], nofun⟩
  have plain : EndsPlain (name.chars ++ bracketed none []) := endsPlain_element name []
  have solid : IsSolid (name.chars ++ bracketed none []) := isSolid_element name []
  have based : base (name.chars ++ bracketed none []) = name.chars := base_element name []
  rw [bracketed, List.isEmpty_nil, if_pos rfl, List.append_nil] at plain solid based
  have element_eq : element name.chars = name.chars := by
    have stripped := plain.element_addDimensions solid.front 0
    rwa [addDimensions, String.toList_ofList] at stripped
  have isSome : name.chars.isEmpty = false := List.isEmpty_eq_false_iff.2 name.chars_ne_nil
  rw [isUnseen, isReportable, element_eq, based, isSome, name.head_chars, isPrimitive,
    solid.trim_eq,
    isContainer, based, Context.classDepth?, ← Option.not_isSome, List.findIdx?_isSome,
    needsDeclaration,
    String.toList_ofList]
  generalize String.ofList name.chars = text
  simp only [Bool.not_or, Bool.not_false, Bool.true_and, Bool.and_true, bne]
  ac_rfl

/-! ## Bounds -/

/-- No name starts with a word and a blank. -/
theorem isPrefixOf_element (name : DottedName) (parts : List (List Char)) (front : List Char)
    (plain : front.all isNameChar = true) (ends : word = front ++ [' ']) :
    word.isPrefixOf (name.chars ++ bracketed blanks parts) = false := by
  rw [Bool.eq_false_iff]
  intro starts
  obtain ⟨rest, same⟩ := List.isPrefixOf_iff_prefix.1 starts
  let inName (c : Char) : Bool := isNameChar c || c == '.'
  have named (c : Char) (member : c ∈ name.chars) : inName c = true := by
    simpa [inName] using DottedName.mem_chars member
  have inFront (c : Char) (member : c ∈ front) : inName c = true := by
    simp [inName, List.all_eq_true.1 plain c member]
  -- behind the characters of names stands a bracket or nothing on one side, and a blank on the
  -- other
  have left : (name.chars ++ bracketed blanks parts).dropWhile inName = bracketed blanks parts := by
    rw [List.dropWhile_append_of_pos named, bracketed]
    split
    · rfl
    · exact List.dropWhile_cons_of_neg (by decide)
  have right : (word ++ rest).dropWhile inName = ' ' :: rest := by
    rw [ends, List.append_assoc, List.dropWhile_append_of_pos inFront]
    exact List.dropWhile_cons_of_neg (by decide)
  rw [same, left, bracketed] at right
  split at right
  · contradiction
  · exact absurd (List.cons.inj right).1 (by decide)

/-- Without dimensions, wildcard and bound, the name and its arguments are left. -/
theorem bareType_print (bound : Bound) (name : DottedName) (arguments : List TypeArgument)
    (dimensions : Nat) :
    bareType ((TypeArgument.type bound (.named name arguments dimensions)).print blanks) =
      name.chars ++ bracketed blanks (printAll blanks arguments) := by
  have solid : IsSolid (name.chars ++ bracketed blanks (printAll blanks arguments)) :=
    isSolid_element name _
  have noUpper :
      "extends ".toList.isPrefixOf (name.chars ++ bracketed blanks (printAll blanks arguments)) =
      false := isPrefixOf_element name _ "extends".toList (by decide) (by decide)
  have noLower :
      "super ".toList.isPrefixOf (name.chars ++ bracketed blanks (printAll blanks arguments)) =
      false := isPrefixOf_element name _ "super".toList (by decide) (by decide)
  have starts : (name.chars ++ bracketed blanks (printAll blanks arguments)).head?.any (· == '?') =
      false := by
    obtain ⟨c, others, same, starts⟩ := name.front (bracketed blanks (printAll blanks arguments))
    rw [same, List.head?_cons, Option.any_some, beq_eq_false_iff_ne]
    rintro rfl
    contradiction
  rw [bareType, element_print]
  generalize name.chars ++ bracketed blanks (printAll blanks arguments) = inner at *
  cases bound with
  | exact =>
      have unmarked : inner.dropWhile (· == '?') = inner := by
        cases inner with
        | nil => rfl
        | cons c rest => exact List.dropWhile_cons_of_neg (Bool.eq_false_iff.1 starts)
      have start : trimStart ((Bound.exact.chars ++ inner).dropWhile (· == '?')) = inner :=
        (congrArg trimStart unmarked).trans (trimStart_eq_self (Bool.eq_false_iff.1 solid.front))
      rw [start, noUpper, if_neg Bool.false_ne_true, noLower,
        if_neg Bool.false_ne_true, solid.trim_eq]
  | upper =>
      have start : trimStart ((Bound.upper.chars ++ inner).dropWhile (· == '?')) =
          "extends ".toList ++ inner := rfl
      rw [start, if_pos (List.isPrefixOf_iff_prefix.2 (List.prefix_append _ _)),
        List.drop_left' (by decide), solid.trim_eq]
  | lower =>
      have start : trimStart ((Bound.lower.chars ++ inner).dropWhile (· == '?')) =
          "super ".toList ++ inner := rfl
      have noUpper : "extends ".toList.isPrefixOf ("super ".toList ++ inner) = false := rfl
      rw [start, noUpper, if_neg Bool.false_ne_true,
        if_pos (List.isPrefixOf_iff_prefix.2 (List.prefix_append _ _)),
        List.drop_left' (by decide), solid.trim_eq]

/-! ## Mentioned names -/

theorem mentionedFrom_wildcard (body : Body) (nesting : Nat) :
    body.mentionedFrom nesting ['?'] = [] := by
  cases nesting with
  | zero => rfl
  | succ nesting =>
      have plain : EndsPlain ['?'] := ⟨[], '?', rfl, by decide⟩
      have stripped : element ['?'] = ['?'] := plain.element_addDimensions rfl 0
      have bare : bareType ['?'] = [] := by
        rw [bareType, stripped]
        decide
      have unseen : body.isUnseen (base []) = false :=
        by simp [isUnseen, isReportable, element, strip,
        stripPairs, base, trim]
      rw [mentionedFrom, bare, unseen]
      rfl

/-- With nesting enough for its text, the names that an argument mentions are those in it that need
a declaration. -/
theorem mentionedFrom_print (body : Body) {nesting : Nat} (argument : TypeArgument)
    (enough : (argument.print blanks).length < nesting) :
    body.mentionedFrom nesting (argument.print blanks) =
      argument.bases.filter body.needsDeclaration := by
  induction nesting generalizing argument with
  | zero => contradiction
  | succ nesting induction =>
      cases argument with
      | wildcard => exact mentionedFrom_wildcard body _
      | type bound term =>
          obtain ⟨name, arguments, dimensions⟩ := term
          have inner : (printAll blanks arguments).flatMap (body.mentionedFrom nesting) =
              (basesOf arguments).filter body.needsDeclaration := by
            rw [printAll_eq, basesOf_eq, List.flatMap_map, List.filter_flatMap]
            refine List.flatMap_congr fun argument member => induction argument ?_
            have part : argument.print blanks ∈ printAll blanks arguments :=
              printAll_eq blanks arguments ▸ List.mem_map_of_mem member
            have shorter : _ < ((TypeArgument.type bound (.named name arguments dimensions)).print
                blanks).length := length_lt_of_mem_printAll bound dimensions part
            omega
          rw [mentionedFrom, bareType_print,
            arguments_element name fun part => isArgument_of_mem_printAll, base_element, inner,
            isUnseen_chars, TypeArgument.bases, TypeTerm.bases, List.filter_append,
            List.filter_singleton]
          cases body.needsDeclaration (String.ofList name.chars) <;> rfl

end
end Body

namespace Lowering

/-- **Type reports.**  What is reported for the text of a type term are the names in it, arguments
in front of the name that they belong to, without those that need no declaration, however much
nesting is allowed for.  They stand behind what is reported already, each of them once, in the order
in which they come first, and nothing else is changed. -/
theorem reportType_print (body : Body) (blanks : Blanks) (term : TypeTerm) (before : Lowering) :
    ∃ types, reportType body (String.ofList (term.print blanks)) before =
      .ok ((), { before with types }) ∧
      (∀ further, body.mentionedFrom ((term.print blanks).length + 1 + further)
        (term.print blanks) = term.bases.filter body.needsDeclaration) ∧
      types.toList = before.types.toList ++
        ((term.bases.filter body.needsDeclaration).filter fun name =>
          !before.types.contains name).eraseDups := by
  have mentioned (further : Nat) :
      body.mentionedFrom ((term.print blanks).length + 1 + further) (term.print blanks) =
        term.bases.filter body.needsDeclaration :=
    body.mentionedFrom_print (.type .exact term) (by
      change (term.print blanks).length < _
      omega)
  refine ⟨_, rfl, mentioned, ?_⟩
  rw [Body.mentionedTypes, String.toList_ofList, mentioned 0, TypeReport.toList_foldl_add]

/-- The text and the names of a term with nested arguments, wildcards and dimensions. -/
example :
    let name (text : String) (isSome : text.toList ≠ [])
    (plain : ∀ c ∈ text.toList, isNameChar c = true)
        (starts : text.toList.head?.any (fun c => isLetter c || c == '_') = true) : DottedName :=
      ⟨⟨text.toList, isSome, plain⟩, [], starts⟩
    let inner := TypeTerm.named (name "B" (by decide) (by decide) (by decide)) [] 1
    let term := TypeTerm.named (name "Map" (by decide) (by decide) (by decide))
      [.wildcard, .type .upper (.named (name "A" (by decide) (by decide) (by decide))
        [.type .exact inner, .type .lower inner] 0)] 2
    term.print ⟨[' '], by decide⟩ = "Map<?, ? extends A<B[], ? super B[]>>[][]".toList ∧
      term.bases = ["B", "B", "A", "Map"] := by
  decide

end Lowering
end MethodLowering
