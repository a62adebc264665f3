import MethodLowering.Proofs.Reader.Stability

/-!
# The clauses of loop headers

The header of a loop with three clauses is read from its parts between semicolons.  In every body
that the reader reaches, and in the finished one, they are clauses.
-/

namespace MethodLowering

open Body Reader

/-- Where it is a loop with three clauses, they are clauses of the body. -/
def Detail.IsHeaded (body : Body) : Detail → Prop
  | counted init condition update _ => ∀ clause ∈ [init, condition, update], clause.IsClause body
  | _ => True

/-- The headers of all loops with three clauses are made of clauses. -/
def Body.HasClauses (body : Body) : Prop :=
  ∀ construct ∈ body.constructs, construct.detail.IsHeaded body

section

variable {before after body : Body} {scope : ParagraphId} {placed : Placed} {id : ConstructId}

theorem Detail.IsHeaded.mono {detail : Detail} (headed : detail.IsHeaded before)
    (kept : ∀ (id : VariableId) entry, before.vars[id]? = some entry →
      after.vars[id]? = some entry) :
    detail.IsHeaded after := by
  cases detail with
  | counted init condition update slot => exact fun clause among => (headed clause among).mono kept
  | _ => trivial

namespace Body

theorem HasClauses.keep (has : before.HasClauses)
    (constructs : after.constructs = before.constructs)
    (kept : ∀ (id : VariableId) entry, before.vars[id]? = some entry →
      after.vars[id]? = some entry) :
    after.HasClauses := by
  intro construct member
  rw [constructs] at member
  exact (has construct member).mono kept

/-- A construct may change to one that is headed too. -/
theorem HasClauses.modifyDetail (has : body.HasClauses) {change : Detail → Detail}
    (headed : ∀ detail, detail.IsHeaded body → (change detail).IsHeaded body) :
    (body.modifyDetail id change).HasClauses := by
  intro construct member
  obtain ⟨position, shown⟩ := Array.mem_iff_getElem?.1 member
  rw [Body.modifyDetail, Array.getElem?_modify] at shown
  split at shown
  · obtain ⟨old, known, rfl⟩ := Option.map_eq_some_iff.1 shown
    exact (headed old.detail (has old (Array.mem_of_getElem? known))).mono fun _ _ known => known
  · exact (has construct (Array.mem_of_getElem? shown)).mono fun _ _ known => known

theorem Declares.hasClauses (declares : Declares scope before after) (has : before.HasClauses) :
    after.HasClauses :=
  has.keep declares.sizes.2 fun _ _ => declares.getElem?_vars

theorem ReadsAll.hasClauses {clauses : List Placed} (reads : ReadsAll scope before clauses after)
    (has : before.HasClauses) : after.HasClauses := by
  induction reads with
  | nil body => exact has
  | cons first others induction => exact induction (first.declares.hasClauses has)

theorem ReadsCut.hasClauses (reads : ReadsCut scope before placed after) (has : before.HasClauses) :
    after.HasClauses := by
  obtain ⟨between, first, added, rfl, -⟩ := reads
  exact (first.declares.hasClauses has).keep rfl fun _ _ known => known

end Body

/-! ## Steps and runs -/

/-- A construct that opens a body is headed. -/
theorem Reader.Opens.isHeaded {frame : ConstructFrame} {slot : ParagraphId} {keyword : Keyword}
    {stage next : Stage} {outer inner : List Placed} {kind : ParagraphKind}
    {change : Detail → Detail}
    (opens : Opens frame slot body keyword stage outer inner kind change next) {detail : Detail}
    (headed : detail.IsHeaded body) : (change detail).IsHeaded body := by
  cases opens with
  | counted init condition update clauses => exact clauses
  | branch condition => cases detail <;> trivial
  | otherwise keyword => cases detail <;> trivial
  | handler keyword declarations present => cases detail <;> exact headed
  | cleanup keyword => cases detail <;> exact headed
  | _ => trivial

theorem Reader.Transition.hasClauses {text rest : List Char} {frame : Frame} {frames : List Frame}
    (transition : Transition text body frame frames rest after) (has : body.HasClauses) :
    after.HasClauses := by
  cases transition with
  | brace mode | empty mode | block mode starts => exact has.keep rfl fun _ _ known => known
  | unbraced mode starts solid | close mode | label mode | elseIf stage | doWhile stage
  | leave stage => exact has
  | statement mode reads => exact (reads.hasClauses has).keep rfl fun _ _ known => known
  | keyword mode =>
      intro construct member
      rcases Array.mem_push.1 member with old | rfl
      · exact (has construct old).mono fun _ _ known => known
      · trivial
  | slot known reads readsInner opens =>
      have inner := readsInner.hasClauses ((reads.hasClauses has).keep rfl fun _ _ known => known)
      exact inner.modifyDetail fun _ headed => opens.isHeaded headed
  | doCondition stage reads =>
      refine (reads.declares.hasClauses has).modifyDetail fun detail headed => ?_
      cases detail <;> exact headed
  | value stage known exits reads handles =>
      refine HasClauses.modifyDetail ?_ fun _ _ => trivial
      exact (reads.hasClauses has).keep rfl fun _ _ known => known
  | caseLabel stage known reads =>
      exact (reads.declares.hasClauses has).modifyDetail fun _ _ => trivial
  | jump stage known jumps => exact has.modifyDetail fun _ _ => trivial
  | defaultLabel stage known => exact has.modifyDetail fun _ _ => trivial

theorem Reader.Reaches.hasClauses {reader next : Reader} (reached : Reaches reader next)
    (has : reader.body.HasClauses) : next.body.HasClauses := by
  induction reached with
  | refl => exact has
  | tail _ moves induction =>
      cases moves.advances with
      | step transition => exact transition.hasClauses induction
      | feed reader line => exact induction

/-- In a finished body the headers of all loops with three clauses are made of clauses. -/
theorem Body.ofLines_hasClauses {context : Context} {options : Options} {lines : List String}
    (read : Body.ofLines context options lines = .ok body) : body.HasClauses := by
  obtain ⟨reader, reached, -, rfl⟩ := Body.ofLines_reaches read
  have start : (Reader.initial context options).body.HasClauses := by
    have none := Array.eq_empty_of_size_eq_zero (Body.initial_blank context options).1
    intro construct member
    rw [show (Reader.initial context options).body.constructs = #[] from none] at member
    exact absurd member (Array.not_mem_empty construct)
  exact (reached.hasClauses start).keep rfl fun _ _ known => known

end
end MethodLowering
