import MethodLowering.Proofs.Reduction.BracketTightness

/-!
# Clauses without semicolons

A clause of a loop header is what stands between two semicolons.  Its tree is tight, its text has no
semicolon outside brackets, and the variables that it declares have shut names and types, those of a
continued declaration included.
-/

namespace MethodLowering

open Text MethodLowering.Expr

/-- The expression stands on its own in a text that is one part between semicolons. -/
structure Placed.IsClause (body : Body) (placed : Placed) : Prop where
  formed : ∃ text, placed.expr.Formed text
  /-- Its text has no semicolon outside brackets. -/
  single : Shut noSemicolon placed.expr.text.toList
  /-- What it declares has a shut name and a shut type. -/
  declared : placed.expr.Everywhere fun inner => ∀ id, inner.ownVariable? = some id →
    ∃ entry, body.vars[id]? = some entry ∧ entry.IsTight

/-- What is declared later does not change the variables that a clause declares. -/
theorem Placed.IsClause.mono {placed : Placed} {before after : Body}
    (clause : placed.IsClause before)
    (kept : ∀ (id : VariableId) entry, before.vars[id]? = some entry →
      after.vars[id]? = some entry) :
    placed.IsClause after := by
  refine ⟨clause.formed, clause.single, Everywhere.mono clause.declared
    fun inner declared id own => ?_⟩
  obtain ⟨entry, known, tight⟩ := declared id own
  exact ⟨entry, kept id entry known, tight⟩

/-! ## Declarations of several variables -/

namespace Body

section

variable {base : VariableId} {scope : ParagraphId} {shared : SharedDeclaration}
  {isFirst isFirst' : Bool}
  {before after : Body} {text : List Char} {expr result : Expr} {placed : Placed}

theorem continueName_tight (typed : Shut noSemicolon shared.typeName.toList)
    (single : Shut noSemicolon expr.text.toList) (tight : before.TightFrom base)
    (read : continueName shared expr before = .ok result after) : after.TightFrom base := by
  unfold continueName at read
  split at read
  · rename_i node
    obtain ⟨-, rfl⟩ := EStateM.Result.ok.inj read
    refine tight.declare ⟨?_, typed⟩
    change Shut noSemicolon (Text.trimmed node.text).toList
    rw [Text.trimmed_eq, String.toList_ofList]
    exact Shut.trim single
  · obtain ⟨-, rfl⟩ := EStateM.Result.ok.inj read
    exact tight

section

variable (typed : Shut noSemicolon shared.typeName.toList) (formed : expr.Formed text)
  (single : Shut noSemicolon expr.text.toList) (tight : before.TightFrom base)
include typed formed single tight

theorem continueItem_tight (read : continueItem shared expr before = .ok result after) :
    after.TightFrom base := by
  unfold continueItem at read
  split at read
  · rename_i node op target value
    obtain ⟨renamed, body, named, ended⟩ := bind_eq_ok.1 read
    obtain ⟨-, rfl⟩ := EStateM.Result.ok.inj ended
    have split : (Expr.assignment node op target value).parts =
        [] ++ .child target :: [.token op.spelling, .child value] := rfl
    exact continueName_tight typed (formed.exposed split framed_nil _ lenient_noSemicolon single)
      tight
      named
  · exact continueName_tight typed single tight read

theorem continueItems_tight
    (read : continueItems shared isFirst expr before = .ok (result, isFirst') after) :
    after.TightFrom base := by
  induction isFirst, expr using continueItems.induct generalizing before after result isFirst' with
  | case1 isFirst =>
      rw [continueItems] at read
      obtain ⟨-, rfl⟩ := EStateM.Result.ok.inj read
      exact tight
  | case2 isFirst node left right leftInduction rightInduction =>
      have part {inner : Expr} (member : inner ∈ [left, right]) : inner.Formed text :=
        formed.part [left, right] rfl rfl member
      have toLeft : (Expr.operation node .comma left right).parts =
          [] ++ .child left :: [.token Op.comma.spelling, .child right] := rfl
      have toRight : (Expr.operation node .comma left right).parts =
          [.child left, .token Op.comma.spelling] ++ .child right :: [] := rfl
      have comma : Framed (skeleton [.child left, .token Op.comma.spelling]) :=
        framed_spelling (show Op.comma.isBracket = false from rfl)
      rw [continueItems] at read
      obtain ⟨⟨newLeft, between⟩, middle, first, behind⟩ := bind_eq_ok.1 read
      obtain ⟨⟨newRight, last⟩, final, second, ended⟩ := bind_eq_ok.1 behind
      obtain ⟨-, rfl⟩ := EStateM.Result.ok.inj ended
      have inLeft := formed.exposed toLeft framed_nil _ lenient_noSemicolon single
      have inRight := formed.exposed toRight comma _ lenient_noSemicolon single
      have tightBetween := leftInduction (part (by simp)) inLeft tight first
      exact rightInduction _ (part (by simp)) inRight tightBetween second
  | case3 item notAbsent notComma =>
      rw [continueItems] at read
      · obtain ⟨-, rfl⟩ := EStateM.Result.ok.inj read
        exact tight
      · exact notAbsent
      · exact notComma
  | case4 item notAbsent notComma =>
      rw [continueItems] at read
      · obtain ⟨renamed, body, named, ended⟩ := bind_eq_ok.1 read
        obtain ⟨-, rfl⟩ := EStateM.Result.ok.inj ended
        exact continueItem_tight typed formed single tight named
      · exact notAbsent
      · exact notComma

end

theorem continueDeclaration_tight {low high : Mark} (within : expr.Within low high)
    (above : base ≤ low.vars) (formed : expr.Formed text)
    (single : Shut noSemicolon expr.text.toList) (tight : before.TightFrom base)
    (read : continueDeclaration expr before = .ok result after) : after.TightFrom base := by
  rw [continueDeclaration] at read
  cases found : expr.commaItems.head?.bind Expr.declaredVariable? with
  | none =>
      rw [found] at read
      obtain ⟨-, rfl⟩ := EStateM.Result.ok.inj read
      exact tight
  | some lead =>
      obtain ⟨item, head, leads⟩ := Option.bind_eq_some_iff.1 found
      have member : item ∈ expr.commaItems := List.mem_of_mem_head? head
      have recent :=
        Expr.declaredVariable?_within (Expr.Everywhere.commaItems within item member) leads
      rw [found] at read
      obtain ⟨_, _, asked, behind⟩ := bind_eq_ok.1 read
      obtain ⟨rfl, rfl⟩ := EStateM.Result.ok.inj asked
      cases known : before.vars[lead]? with
      | none =>
          rw [known] at behind
          obtain ⟨-, rfl⟩ := EStateM.Result.ok.inj behind
          exact tight
      | some entry =>
          rw [known] at behind
          obtain ⟨⟨renamed, isFirst⟩, body, continued, ended⟩ := bind_eq_ok.1 behind
          obtain ⟨-, rfl⟩ := EStateM.Result.ok.inj ended
          have typed :
              Shut noSemicolon (String.ofList (TypeName.element entry.typeName.toList)).toList := by
            rw [String.toList_ofList]
            exact (tight lead entry (Nat.le_trans above recent.1) known).typeName.element
          -- the shared declaration is that of the reading, so the reading comes first
          refine continueItems_tight ?_ formed single tight continued
          exact typed

/-! ## Clauses -/

theorem Declares.getElem?_vars {id : VariableId} {entry : Variable}
    (declares : Declares scope before after) (known : before.vars[id]? = some entry) :
    after.vars[id]? = some entry := by
  obtain ⟨added, nextNode, effort, rfl, -, -⟩ := declares
  obtain ⟨inside, -⟩ := Array.getElem?_eq_some_iff.1 known
  rw [extended, Array.getElem?_append_left inside]
  exact known

/-- The variables that a tight reading declares are tight. -/
theorem Reads.declared (reads : Reads scope before placed after)
    (tight : after.TightFrom before.vars.size) :
    placed.expr.Everywhere fun inner => ∀ id, inner.ownVariable? = some id →
      ∃ entry, after.vars[id]? = some entry ∧ entry.IsTight := by
  refine Everywhere.mono reads.within fun inner numbered id own => ?_
  obtain ⟨above, below⟩ := numbered.declared id own
  obtain ⟨entry, known⟩ : ∃ entry, after.vars[id]? = some entry :=
    ⟨_, Array.getElem?_eq_getElem below⟩
  exact ⟨entry, known, tight id entry above known⟩

variable (ends : Quote.outside.after text = .outside)
  (part : Shut anyChar text → Shut noSemicolon text)
include ends part

theorem readExpression_isClause (read : readExpression scope text before = .ok placed after) :
    placed.IsClause after ∧ after.TightFrom before.vars.size := by
  obtain ⟨secured, shut, tight⟩ := readExpression_secures read ends
  refine ⟨⟨⟨text, secured.tight, secured.faithful⟩, ?_, (readExpression_reads read).declared tight⟩,
    tight⟩
  rw [Expr.text]
  split
  · rename_i node known
    rw [secured.root node known, String.toList_ofList]
    exact (part shut).trim
  · exact shut_nil

/-- The first clause, which may declare several variables. -/
theorem readStatement_isClause (read : readStatement scope text before = .ok placed after) :
    placed.IsClause after := by
  have reads := readStatement_reads read
  obtain ⟨root, body, first, behind⟩ := bind_eq_ok.1 read
  obtain ⟨expr, final, second, ended⟩ := bind_eq_ok.1 behind
  obtain ⟨rfl, rfl⟩ := EStateM.Result.ok.inj ended
  obtain ⟨⟨⟨source, formed⟩, single, -⟩, tight⟩ := readExpression_isClause ends part first
  have vars : before.vars.size ≤ before.mark.vars := Nat.le_refl _
  have tightAfter :=
    continueDeclaration_tight (readExpression_reads first).within vars formed single
    tight second
  obtain ⟨same, isTight⟩ :=
    continueDeclaration_carries isTight_survives formed.tight body expr _ second
  obtain ⟨-, faithful⟩ :=
    continueDeclaration_carries (faithful_survives source) formed.faithful body expr _ second
  refine ⟨⟨source, isTight, faithful⟩, ?_, reads.declared tightAfter⟩
  rw [Expr.text, same]
  exact single

end
end Body
end MethodLowering
