import MethodLowering.Proofs.Rendering.Unbroken

/-!
# Indentation

Writing unbroken lines some levels further in is the same as putting that many levels in front of
every line of the text that is not empty.
-/

namespace MethodLowering

/-- The text with the margin in front of every line that is not empty. -/
def Text.indented (margin text : List Char) : List Char :=
  ['\n'].intercalate
    ((text.splitOn '\n').map fun line => if line.isEmpty then [] else margin ++ line)

namespace Page

section

variable {unit : String} {steps : List Step} {line : Line} {level : Nat}

theorem unbroken_margin (solid : Text.Unbroken unit.toList) (level : Nat) :
    Text.Unbroken (margin unit level) := by
  intro member
  obtain ⟨part, among, inside⟩ := List.mem_flatten.1 member
  rw [List.eq_of_mem_replicate among] at inside
  exact solid inside

theorem mem_of_mem_lines (member : line ∈ lines level steps) : .line line.text ∈ steps := by
  induction steps generalizing level with
  | nil => contradiction
  | cons step rest induction =>
      cases step with
      | line text =>
          rcases List.mem_cons.1 member with rfl | later
          · exact List.mem_cons_self
          · exact List.mem_cons_of_mem _ (induction later)
      | indent => exact List.mem_cons_of_mem _ (induction member)
      | outdent => exact List.mem_cons_of_mem _ (induction member)

theorem intercalate_written (lines : List Line) :
    printed unit lines = ['\n'].intercalate (lines.map (Line.written unit) ++ [[]]) := by
  induction lines with
  | nil => rfl
  | cons line rest induction =>
      rw [printed, List.flatMap_cons, ← printed, induction, List.map_cons, List.cons_append]
      cases rest with
      | nil => simp [List.intercalate]
      | cons next rest => rw [List.map_cons, List.cons_append, List.intercalate_cons_cons]

/-- The lines of unbroken lines are what is written for them, and an empty one behind the last
end. -/
theorem splitOn_printed (solid : Text.Unbroken unit.toList)
    (unbroken : Rendering.UnbrokenLines steps) (level : Nat) :
    (printed unit (lines level steps)).splitOn '\n' =
      (lines level steps).map (Line.written unit) ++ [[]] := by
  rw [intercalate_written, List.splitOn_intercalate]
  · refine List.forall_mem_append.2 ⟨List.forall_mem_map.2 fun line member => ?_, by simp⟩
    unfold Line.written
    split
    · exact List.not_mem_nil
    · exact Text.unbroken_append.2
        ⟨unbroken_margin solid _, unbroken line.text (mem_of_mem_lines member)⟩
  · simp

/-- **Indentation.**  Further in, unbroken lines have the same text with the margin in front of
every line that is not empty. -/
theorem printed_indented (solid : Text.Unbroken unit.toList)
    (unbroken : Rendering.UnbrokenLines steps) (balanced : Balanced steps) (base level : Nat) :
    printed unit (lines (base + level) steps) =
      Text.indented (margin unit base) (printed unit (lines level steps)) := by
  rw [Text.indented, splitOn_printed solid unbroken, List.map_append, List.map_map,
    intercalate_written, balanced.lines_add, List.map_map]
  have same (line : Line) : Line.written unit { line with level := base + line.level } =
      if (line.written unit).isEmpty then [] else margin unit base ++ line.written unit := by
    by_cases blank : line.text.isEmpty = true
    · simp [Line.written, blank]
    · have filled : ¬(line.written unit).isEmpty = true := by
        rw [Line.written, if_neg blank, List.isEmpty_iff, List.append_eq_nil_iff,
          String.toList_eq_nil_iff]
        exact fun none => blank (String.isEmpty_iff.2 none.2)
      rw [if_neg filled, Line.written, Line.written, if_neg blank, if_neg blank, margin_add,
        List.append_assoc]
  exact congrArg (fun lines => ['\n'].intercalate (lines ++ [[]]))
    (List.map_congr_left fun line _ => same line)

end
end Page

theorem Options.unbroken_indentUnit (options : Options) :
    Text.Unbroken options.indentUnit.toList := by
  rw [Options.indentUnit, String.toList_ofList]
  intro member
  have blank := List.eq_of_mem_replicate member
  contradiction

end MethodLowering
