import MethodLowering.Proofs.Body.Answers
import MethodLowering.Proofs.Lowering.Footprint
import MethodLowering.Proofs.Reader.Stability

/-!
# Faults of lowering

Lowering a tree asks only about parts of the tree.  It fails where a comparison lacks the operand
that tells what is compared, or where it asks for a member of a class that is missing, and nowhere
else.
-/

namespace MethodLowering

open MethodLowering.Expr Body

namespace Expr

/-- Nothing, or an expression of the tree. -/
def Inside (tree expr : Expr) : Prop := expr = absent ∨ expr ∈ tree.preorder

section

variable {tree expr : Expr}

/-- The parts of an expression inside a tree are inside the tree. -/
theorem Inside.part (items : List Expr) {part : Expr} (inside : tree.Inside expr)
    (parts : expr.children = items.filter isPresent) (member : part ∈ items) :
    tree.Inside part := by
  cases present : part.isPresent with
  | false => exact .inl (by cases part <;> first | rfl | contradiction)
  | true =>
      have child : part ∈ expr.children := parts ▸ List.mem_filter.2 ⟨member, present⟩
      rcases inside with rfl | within
      · contradiction
      · exact .inr (mem_preorder_of_child within child)

theorem Whole.inside (whole : tree.Whole) (inside : tree.Inside expr) : expr.Whole := by
  rcases inside with rfl | within
  · exact everywhere_absent
  · exact Everywhere.inside whole within

end
end Expr

namespace Body

end Body

namespace Lowering

/-- The faults of the computation are of this kind. -/
def Faults {α : Type} (blamed : Fault → Prop) (computation : LowerM α) : Prop :=
  ∀ state, Blames blamed (computation state)

section

variable {α β : Type} {blamed : Fault → Prop} {computation : LowerM α}

theorem Faults.never (succeeds : ∀ state, ∃ result, computation state = .ok result) :
    Faults blamed computation := by
  intro state fault fails
  obtain ⟨result, same⟩ := succeeds state
  rw [same] at fails
  contradiction

theorem Faults.pure {value : α} : Faults blamed (Pure.pure value : LowerM α) :=
  .never fun state => ⟨(value, state), rfl⟩

theorem Faults.get : Faults blamed (MonadState.get : LowerM Lowering) :=
  .never fun state => ⟨(state, state), rfl⟩

theorem Faults.modify {change : Lowering → Lowering} :
    Faults blamed (modify change : LowerM Unit) :=
  .never fun state => ⟨((), change state), rfl⟩

/-- What follows may use that its argument is a value of the first computation. -/
theorem Faults.bind_of {next : α → LowerM β} (first : Faults blamed computation)
    (later : ∀ value, (∃ before after, computation before = .ok (value, after)) →
      Faults blamed (next value)) : Faults blamed (computation >>= next) := by
  intro state fault fails
  cases result : computation state with
  | error other =>
      simp only [Bind.bind, StateT.bind, Except.bind, result, Except.error.injEq] at fails
      exact first state fault (fails ▸ result)
  | ok pair =>
      simp only [Bind.bind, StateT.bind, Except.bind, result] at fails
      exact later pair.1 ⟨state, pair.2, result⟩ pair.2 fault fails

theorem Faults.bind {next : α → LowerM β} (first : Faults blamed computation)
    (later : ∀ value, Faults blamed (next value)) : Faults blamed (computation >>= next) :=
  first.bind_of fun value _ => later value

theorem Faults.lift {answer : Except Fault α} (blames : Blames blamed answer) :
    Faults blamed (liftM answer : LowerM α) := by
  intro state fault fails
  cases answer with
  | ok value => contradiction
  | error other =>
      obtain rfl : other = fault := Except.error.inj fails
      exact blames other rfl

/-- What follows a question may use its answer. -/
theorem Faults.ask {answer : Except Fault α} {next : α → LowerM β} (blames : Blames blamed answer)
    (later : ∀ value, answer = .ok value → Faults blamed (next value)) :
    Faults blamed ((liftM answer : LowerM α) >>= next) := by
  cases answer with
  | error other =>
      intro state fault fails
      obtain rfl : other = fault := Except.error.inj fails
      exact blames other rfl
  | ok value => exact later value rfl

theorem Faults.forM {items : List β} {act : β → LowerM Unit}
    (each : ∀ item ∈ items, Faults blamed (act item)) : Faults blamed (items.forM act) := by
  induction items with
  | nil => exact .pure
  | cons item rest induction =>
      apply Faults.bind (each item (List.mem_cons_self ..))
      intro _
      exact induction fun other member => each other (List.mem_cons_of_mem _ member)

end

/-! ## Expressions -/

section

variable {body : Body} {placed : Placed} {expr left right : Expr} {standing : Standing}

end

/-! ## Paragraphs -/

section

variable {body : Body} {blamed : Fault → Prop} {paragraph : ParagraphId → LowerM Unit}

end
end Lowering

end MethodLowering
