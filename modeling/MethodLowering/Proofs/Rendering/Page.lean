import Mathlib.Data.List.Basic
import MethodLowering.Rendering.Page

/-!
# Pages as lines

What steps write is a list of lines, each at the level that the steps before it lead to.  Writing
succeeds exactly when no level on the way is above the highest one.  Steps that lower every level
they raise leave the level as it was, and further in they write the same lines further in.
-/

namespace MethodLowering
namespace Page

/-- So many levels of indentation. -/
def margin (unit : String) (level : Nat) : List Char := (List.replicate level unit.toList).flatten

/-- A line of a page with its level. -/
structure Line where
  level : Nat
  text : String

/-- What is written for a line in front of its end.  Nothing is put in front of an empty text. -/
def Line.written (unit : String) (line : Line) : List Char :=
  if line.text.isEmpty then [] else margin unit line.level ++ line.text.toList

/-- The text of lines. -/
def printed (unit : String) (lines : List Line) : List Char :=
  lines.flatMap fun line => line.written unit ++ ['\n']

/-- The lines that steps write from a level on. -/
def lines (level : Nat) : List Step → List Line
  | [] => []
  | .line text :: rest => ⟨level, text⟩ :: lines level rest
  | .indent :: rest => lines (level + 1) rest
  | .outdent :: rest => lines (level - 1) rest

/-- The highest level on the way from a level through steps. -/
def peak (level : Nat) : List Step → Nat
  | [] => level
  | .line _ :: rest => peak level rest
  | .indent :: rest => peak (level + 1) rest
  | .outdent :: rest => max level (peak (level - 1) rest)

/-- How far in steps lead. -/
def height (steps : List Step) : Nat := peak 0 steps

section

variable {unit text : String} {page next : Page} {level base : Nat}
  {steps first second inner : List Step}

theorem margin_add (first second : Nat) :
    margin unit (first + second) = margin unit first ++ margin unit second := by
  rw [margin, List.replicate_add, List.flatten_append]
  rfl

theorem toList_indentBy (level : Nat) (output : String) :
    (indentBy unit level output).toList = output.toList ++ margin unit level := by
  induction level generalizing output with
  | zero => simp [indentBy, margin]
  | succ level induction =>
      rw [indentBy, induction, String.toList_append, Nat.add_comm, margin_add, List.append_assoc]
      simp [margin]

theorem margin_of_isEmpty (empty : unit.isEmpty = true) (level : Nat) : margin unit level = [] := by
  rw [margin, String.isEmpty_iff.1 empty]
  simp

/-! ## Writing -/

/-- A line is its text behind the margin, and its end. -/
theorem line_eq (fresh : page.atLineStart = true) (text : String) :
    page.line text =
      { page with output := page.output ++
          String.ofList (Line.written page.unit ⟨page.level, text⟩ ++ ['\n']) } := by
  have start : (if page.atLineStart && !page.unit.isEmpty then
      indentBy page.unit page.level page.output else page.output) =
      page.output ++ String.ofList (margin page.unit page.level) := by
    rw [fresh, Bool.true_and]
    cases empty : page.unit.isEmpty with
    | true => simp [margin_of_isEmpty empty]
    | false => exact String.toList_inj.1 (by simp [toList_indentBy])
  unfold line write newline Line.written
  rw [start]
  split
  · simp [fresh]
  · simp [fresh, String.append_assoc]

theorem le_peak (level : Nat) (steps : List Step) : level ≤ peak level steps := by
  induction steps generalizing level with
  | nil => exact Nat.le_refl _
  | cons step rest induction =>
      cases step with
      | line text => exact induction level
      | indent => exact Nat.le_trans (Nat.le_succ level) (induction (level + 1))
      | outdent => exact Nat.le_max_left ..

/-- **Writing.**  Steps write their lines one after another, unless they lead too far in. -/
theorem run_eq (within : page.level ≤ highest) (fresh : page.atLineStart = true) :
    (page.run steps).map (·.output) = if peak page.level steps ≤ highest then
        .ok (page.output ++ String.ofList (printed page.unit (lines page.level steps)))
      else .error .unwritable := by
  induction steps generalizing page with
  | nil => simp [run, peak, within, printed, lines, Except.map]
  | cons step rest induction =>
      cases step with
      | line text =>
          have next := @induction (page.line text)
          rw [line_eq fresh] at next
          simp only [run, take, line_eq fresh]
          rw [next within fresh]
          simp [peak, lines, printed, String.append_assoc]
      | indent =>
          by_cases below : page.level < highest
          · have raised : page.indent = .ok { page with level := page.level + 1 } := by
              rw [indent, if_pos below]
            simp only [run, take, raised]
            exact induction below fresh
          · have above : ¬peak (page.level + 1) rest ≤ highest :=
              fun most => below (Nat.le_trans (le_peak _ rest) most)
            have stuck : page.indent = .error .unwritable := by rw [indent, if_neg below]
            simp only [run, take, stuck, peak]
            exact (if_neg above).symm
      | outdent =>
          have lowered : page.outdent.level ≤ highest := Nat.le_trans (Nat.sub_le ..) within
          have same : max page.level (peak (page.level - 1) rest) ≤ highest ↔
              peak (page.level - 1) rest ≤ highest := by omega
          simp only [run, take, peak, same]
          exact induction lowered fresh

theorem text_eq (unit : String) (within : level ≤ highest) (steps : List Step) :
    Page.text unit level steps = if peak level steps ≤ highest then
        .ok (String.ofList (printed unit (lines level steps)))
      else .error .unwritable := by
  have written := @run_eq { unit, level } steps within rfl
  rw [String.empty_append] at written
  exact written

theorem text_eq_ok (fits : peak level steps ≤ highest) :
    Page.text unit level steps = .ok (String.ofList (printed unit (lines level steps))) := by
  rw [text_eq unit (Nat.le_trans (le_peak level steps) fits), if_pos fits]

theorem text_eq_error (within : level ≤ highest) (above : highest < peak level steps) :
    Page.text unit level steps = .error .unwritable := by
  rw [text_eq unit within, if_neg (Nat.not_le.2 above)]

/-- Where all steps are taken, the first of them are, and what they write comes first. -/
theorem text_append (within : level ≤ highest)
    (written : Page.text unit level (first ++ second) = .ok text) :
    ∃ front rest, Page.text unit level first = .ok front ∧ text = front ++ rest := by
  have lower : peak level first ≤ peak level (first ++ second) := by
    clear written within
    induction first generalizing level with
    | nil => exact le_peak ..
    | cons step rest induction =>
        cases step with
        | line text => exact induction
        | indent => exact induction
        | outdent =>
            have behind := @induction (level - 1)
            simp only [List.cons_append, peak]
            omega
  have further : ∃ more, lines level (first ++ second) = lines level first ++ more := by
    clear written within lower
    induction first generalizing level with
    | nil => exact ⟨_, rfl⟩
    | cons step rest induction =>
        cases step with
        | line text => exact induction.imp fun more same => congrArg (_ :: ·) same
        | indent => exact induction
        | outdent => exact induction
  obtain ⟨more, same⟩ := further
  rw [text_eq unit within] at written
  split at written
  · rename_i fits
    refine ⟨_, String.ofList (printed unit more), text_eq_ok (Nat.le_trans lower fits), ?_⟩
    rw [← Except.ok.inj written, same, printed, List.flatMap_append, String.ofList_append]
    rfl
  · contradiction

/-! ## Balanced steps -/

/-- Every level that is raised is lowered again. -/
inductive Balanced : List Step → Prop where
  | nil : Balanced []
  | line {rest} (text : String) : Balanced rest → Balanced (.line text :: rest)
  | nested {inner rest} : Balanced inner → Balanced rest → Balanced (nested inner ++ rest)

theorem nested_append (inner back : List Step) :
    nested inner ++ back = .indent :: (inner ++ .outdent :: back) := by
  simp [nested]

theorem Balanced.append (balanced : Balanced first) (other : Balanced second) :
    Balanced (first ++ second) := by
  induction balanced with
  | nil => exact other
  | line text _ induction => exact .line text induction
  | nested inner _ _ induction => exact List.append_assoc .. ▸ .nested inner induction

theorem Balanced.nest (balanced : Balanced steps) : Balanced (Page.nested steps) :=
  List.append_nil (Page.nested steps) ▸ .nested balanced .nil

/-- Balanced steps hand the page on at the level that it had. -/
theorem Balanced.run_append (balanced : Balanced first)
    (done : page.run (first ++ second) = .ok next) :
    ∃ between : Page, between.level = page.level ∧ between.run second = .ok next := by
  induction balanced generalizing page next second with
  | nil => exact ⟨page, rfl, done⟩
  | line text _ induction =>
      obtain ⟨between, same, rest⟩ := induction done
      refine ⟨between, same.trans ?_, rest⟩
      unfold Page.line write newline
      split <;> rfl
  | @nested inner rest _ _ within behind =>
      rw [List.append_assoc, nested_append] at done
      simp only [run, take, indent] at done
      split at done
      · rename_i raised stepped
        split at stepped
        · obtain rfl := Except.ok.inj stepped
          obtain ⟨between, same, done⟩ := within done
          obtain ⟨last, level, done⟩ := behind done
          refine ⟨last, level.trans ?_, done⟩
          rw [outdent, same]
          rfl
        · contradiction
      · contradiction

theorem Balanced.run_level (balanced : Balanced steps) (done : page.run steps = .ok next) :
    next.level = page.level := by
  obtain ⟨between, same, done⟩ := balanced.run_append (steps.append_nil.symm ▸ done)
  rw [← Except.ok.inj done, same]

theorem Balanced.lines_append (balanced : Balanced first) (level : Nat) (second : List Step) :
    lines level (first ++ second) = lines level first ++ lines level second := by
  induction balanced generalizing level second with
  | nil => rfl
  | line text _ induction => exact congrArg (_ :: ·) (induction level second)
  | nested _ _ within behind =>
      rw [List.append_assoc, nested_append, nested_append]
      simp only [lines]
      rw [within, within, lines, lines, Nat.add_sub_cancel, behind, List.append_assoc]

theorem Balanced.lines_nested (balanced : Balanced inner) (level : Nat) :
    lines level (Page.nested inner) = lines (level + 1) inner := by
  rw [Page.nested, List.cons_append, lines, balanced.lines_append]
  exact List.append_nil _

/-- Further in, balanced steps write the same lines further in. -/
theorem Balanced.lines_add (balanced : Balanced steps) (level base : Nat) :
    lines (base + level) steps =
      (lines level steps).map fun line => { line with level := base + line.level } := by
  induction balanced generalizing level with
  | nil => rfl
  | line text _ induction => exact congrArg (_ :: ·) (induction level)
  | nested inner _ within behind =>
      rw [inner.nest.lines_append, inner.nest.lines_append, inner.lines_nested, inner.lines_nested,
        Nat.add_assoc, within, behind, List.map_append]

theorem Balanced.peak_append (balanced : Balanced first) (level : Nat) (second : List Step) :
    peak level (first ++ second) = max (peak level first) (peak level second) := by
  induction balanced generalizing level second with
  | nil => exact (Nat.max_eq_right (le_peak level second)).symm
  | line text _ induction => exact induction level second
  | nested _ _ within behind =>
      rw [List.append_assoc, nested_append, nested_append]
      simp only [peak]
      rw [within, within, peak, peak, Nat.add_sub_cancel, behind, Nat.max_assoc, Nat.max_assoc]

theorem Balanced.peak_nested (balanced : Balanced inner) (level : Nat) :
    peak level (Page.nested inner) = peak (level + 1) inner := by
  have least := le_peak (level + 1) inner
  rw [Page.nested, List.cons_append, peak, balanced.peak_append]
  simp only [peak]
  omega

theorem Balanced.peak_eq (balanced : Balanced steps) (level : Nat) :
    peak level steps = level + height steps := by
  unfold height
  induction balanced generalizing level with
  | nil => rfl
  | line text _ induction => exact induction level
  | nested inner _ within behind =>
      rw [inner.nest.peak_append, inner.nest.peak_append, inner.peak_nested, inner.peak_nested,
        within, within (0 + 1), behind, behind 0]
      omega

end
end Page
end MethodLowering
