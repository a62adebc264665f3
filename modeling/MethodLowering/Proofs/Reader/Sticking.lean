import MethodLowering.Proofs.Reader.Chunking
import MethodLowering.Proofs.Reader.Stacking
import MethodLowering.Proofs.Reduction.Renumbering

/-!
# Errors stay

A reader that has rejected its text rejects it again, with the same error, whatever follows: the
failing step is taken again on the same text from a body that only has more variables and nodes, and
neither these nor the text behind change what it complains about.
-/

namespace MethodLowering

open Body

/-! ## Computations that are run again -/

/-- Both computations fail for the same reason, or both succeed with related values. -/
def Resumes {α : Type} (gap : Mark) (related : α → α → Prop) :
    EStateM.Result Failure Body α → EStateM.Result Failure Body α → Prop
  | .ok value body, .ok other body' => related value other ∧ body.Behind gap body'
  | .error failure _, .error failure' _ => failure' = failure
  | _, _ => False

/-- Where the first computation rejects the text, the second one does so with the same error, from
every body with more variables and nodes. -/
def Insists {α : Type} (gap : Mark) (first second : ReadM α) : Prop :=
  ∀ body later error after, body.Behind gap later →
    first body = .error (.malformed error) after →
      ∃ again, second later = .error (.malformed error) again

section

variable {α β : Type} {gap : Mark} {body later : Body} {related : α → α → Prop}
  {first second : ReadM α} {next again : α → ReadM β}

theorem Resumes.bind {final : β → β → Prop}
    (resumes : Resumes gap related (first body) (second later))
    (then_ : ∀ value other body later, related value other → body.Behind gap later →
      Resumes gap final (next value body) (again other later)) :
    Resumes gap final ((first >>= next) body) ((second >>= again) later) := by
  simp only [Bind.bind, EStateM.bind]
  generalize first body = begun at resumes
  generalize second later = resumed at resumes
  cases begun with
  | ok value between =>
      cases resumed with
      | ok other between' => exact then_ value other between between' resumes.1 resumes.2
      | error failure between' => exact resumes.elim
  | error failure between =>
      cases resumed with
      | ok other between' => exact resumes.elim
      | error failure' between' => exact resumes

theorem Insists.bind (resumes : ∀ body later, body.Behind gap later →
      Resumes gap related (first body) (second later))
    (then_ : ∀ value other, related value other → Insists gap (next value) (again other)) :
    Insists gap (first >>= next) (second >>= again) := by
  intro body later error after behind failed
  have begun := resumes body later behind
  simp only [Bind.bind, EStateM.bind] at failed ⊢
  cases result : first body with
  | ok value between =>
      cases resumed : second later with
      | ok other between' =>
          rw [result, resumed] at begun
          rw [result] at failed
          exact then_ value other begun.1 between between' error after begun.2 failed
      | error failure between' =>
          rw [result, resumed] at begun
          exact begun.elim
  | error failure between =>
      cases resumed : second later with
      | ok other between' =>
          rw [result, resumed] at begun
          exact begun.elim
      | error failure' between' =>
          rw [result, resumed] at begun
          rw [result] at failed
          obtain ⟨rfl, rfl⟩ := EStateM.Result.error.inj failed
          exact ⟨between', by rw [show failure' = .malformed error from begun]⟩

/-- A computation that never rejects anything. -/
theorem Insists.of_quiet (quiet : ∀ body error after, first body ≠
      .error (.malformed error) after) :
    Insists gap first second :=
  fun body _ error after _ failed => absurd failed (quiet body error after)

/-- A computation that succeeds. -/
theorem Insists.of_ok (succeeds : ∀ body, ∃ value after, first body = .ok value after) :
    Insists gap first second := by
  refine .of_quiet fun body error after failed => ?_
  obtain ⟨value, last, result⟩ := succeeds body
  rw [result] at failed
  contradiction

/-- Only the first part of the computation may reject the text. -/
theorem Insists.bind_quiet (insists : Insists gap first second)
    (quiet : ∀ value body error after, next value body ≠ .error (.malformed error) after) :
    Insists gap (first >>= next) (second >>= again) := by
  intro body later error after behind failed
  simp only [Bind.bind, EStateM.bind] at failed ⊢
  cases begun : first body with
  | ok value between =>
      rw [begun] at failed
      exact absurd failed (quiet value between error after)
  | error failure between =>
      rw [begun] at failed
      obtain ⟨rfl, rfl⟩ := EStateM.Result.error.inj failed
      obtain ⟨last, resumed⟩ := insists body later error between behind begun
      exact ⟨last, by rw [resumed]⟩

theorem Insists.reject {error : SourceError} :
    Insists gap (Reader.reject error : ReadM α) (Reader.reject error) := by
  intro body later other after behind failed
  obtain ⟨same, rfl⟩ := EStateM.Result.error.inj failed
  exact ⟨later, by rw [← same]; rfl⟩

theorem Insists.pure {value other : α} :
    Insists gap (Pure.pure value : ReadM α) (Pure.pure other) :=
  .of_ok fun body => ⟨value, body, rfl⟩

/-- Looking at the bodies. -/
theorem Resumes.get {next again : Body → ReadM α}
    (resumes : Resumes gap related (next body body) (again later later)) :
    Resumes gap related ((MonadState.get >>= next) body) ((MonadState.get >>= again) later) :=
  resumes

theorem Resumes.pure {value other : α} (holds : related value other)
    (behind : body.Behind gap later) :
    Resumes gap related ((Pure.pure value : ReadM α) body) ((Pure.pure other : ReadM α) later) :=
  ⟨holds, behind⟩

end

namespace Body

/-- A body from which nothing is lost has at least as many variables and nodes. -/
theorem Keeps.behind {before after : Body} (keeps : before.Keeps after) :
    ∃ gap, before.Behind gap after := by
  have vars : before.vars.size ≤ after.vars.size := keeps.mark.1
  have nodes : before.nextNode ≤ after.nextNode := keeps.mark.2
  refine ⟨⟨after.vars.size - before.vars.size, after.nextNode - before.nextNode⟩, ?_, ?_⟩
  · dsimp only
    omega
  · dsimp only
    omega

/-- The second tree is the first one with later numbers. -/
def RenumbersTo (gap : Mark) (placed other : Placed) : Prop := other.expr = placed.expr.renumber gap

section

variable {gap : Mark} {body later : Body}

section

variable (behind : body.Behind gap later)
include behind

theorem readExpression_resumes (scope scope' : ParagraphId) (text : List Char) :
    Resumes gap (RenumbersTo gap) (readExpression scope text body)
      (readExpression scope' text later) := by
  have beside : Reduction.Beside gap
      { ledger := Ledger.scan text, scope, body }
      { ledger := Ledger.scan text, scope := scope', body := later } := ⟨rfl, by simp, behind⟩
  have repeats := Reduction.statement_repeats beside
  rw [readExpression, readExpression]
  generalize Reduction.statement _ = first at repeats
  generalize Reduction.statement _ = second at repeats
  cases first with
  | ok expr state =>
      cases second with
      | ok other state' => exact ⟨repeats.1, repeats.2.body⟩
      | error failure state' => exact repeats.elim
  | error failure state =>
      cases second with
      | ok other state' => exact repeats.elim
      | error failure' state' => exact repeats

theorem continueName_resumes (shared shared' : SharedDeclaration) (expr : Expr) :
    Resumes gap (fun value other => other = value.renumber gap) (continueName shared expr body)
      (continueName shared' (expr.renumber gap) later) := by
  cases expr with
  | leaf node form =>
      cases form with
      | identifier =>
          refine ⟨?_, behind.declare _ _⟩
          change Expr.declaration _ later.vars.size true =
            .declaration _ (body.vars.size + gap.vars) true
          rw [behind.vars]
      | _ => exact .pure rfl behind
  | _ => exact .pure rfl behind

theorem continueItem_resumes (shared shared' : SharedDeclaration) (expr : Expr) :
    Resumes gap (fun value other => other = value.renumber gap) (continueItem shared expr body)
      (continueItem shared' (expr.renumber gap) later) := by
  have name := continueName_resumes behind shared shared' expr
  cases expr with
  | assignment node op target value =>
      refine (continueName_resumes behind shared shared' target).bind ?_
      rintro renamed _ body later rfl behind
      exact .pure rfl behind
  | _ => exact name

theorem continueItems_resumes (shared shared' : SharedDeclaration) (isFirst : Bool) (expr : Expr) :
    Resumes gap (fun value other => other = (value.1.renumber gap, value.2))
      (continueItems shared isFirst expr body)
      (continueItems shared' isFirst (expr.renumber gap) later) := by
  induction isFirst, expr using continueItems.induct generalizing body later with
  | case1 isFirst =>
      rw [Expr.renumber, continueItems, continueItems]
      exact .pure rfl behind
  | case2 isFirst node left right leftInduction rightInduction =>
      rw [Expr.renumber, continueItems, continueItems]
      refine (leftInduction behind).bind ?_
      rintro first _ body later rfl behind
      refine (rightInduction first.2 behind).bind ?_
      rintro second _ body later rfl behind
      exact .pure rfl behind
  | case3 item notAbsent notComma =>
      have absent := Expr.renumber_ne_absent gap notAbsent
      have comma := Expr.renumber_ne_comma gap notComma
      rw [continueItems, continueItems]
      · exact .pure rfl behind
      · exact absent
      · exact comma
      · exact notAbsent
      · exact notComma
  | case4 item notAbsent notComma =>
      have absent := Expr.renumber_ne_absent gap notAbsent
      have comma := Expr.renumber_ne_comma gap notComma
      rw [continueItems, continueItems]
      · refine (continueItem_resumes behind shared shared' item).bind ?_
        rintro renamed _ body later rfl behind
        exact .pure rfl behind
      · exact absent
      · exact comma
      · exact notAbsent
      · exact notComma

theorem continueDeclaration_resumes (root : Expr) :
    Resumes gap (fun value other => other = value.renumber gap) (continueDeclaration root body)
      (continueDeclaration (root.renumber gap) later) := by
  have lead : ((root.renumber gap).commaItems.head?.bind Expr.declaredVariable?) =
      (root.commaItems.head?.bind Expr.declaredVariable?).map (· + gap.vars) := by
    rw [Expr.commaItems_renumber, List.head?_map]
    cases root.commaItems.head? with
    | none => rfl
    | some item => exact Expr.declaredVariable?_renumber gap item
  unfold continueDeclaration
  rw [lead]
  cases root.commaItems.head?.bind Expr.declaredVariable? with
  | none => exact .pure rfl behind
  | some lead =>
      have size := behind.vars
      refine .get ?_
      cases known : body.vars[lead]? with
      | none =>
          have unknown : later.vars[lead + gap.vars]? = none := by
            rw [Array.getElem?_eq_none_iff] at known ⊢
            omega
          rw [unknown]
          exact .pure rfl behind
      | some entry =>
          have inside := (Array.getElem?_eq_some_iff.1 known).1
          obtain ⟨entry', found⟩ : ∃ entry, later.vars[lead + gap.vars]? = some entry :=
            ⟨_, Array.getElem?_eq_getElem (by omega)⟩
          rw [found]
          refine (continueItems_resumes behind _ _ true root).bind ?_
          rintro value _ body later rfl behind
          exact .pure rfl behind

theorem readStatement_resumes (scope scope' : ParagraphId) (text : List Char) :
    Resumes gap (RenumbersTo gap) (readStatement scope text body)
      (readStatement scope' text later) := by
  refine (readExpression_resumes behind scope scope' text).bind
    fun placed other _ _ same behind => ?_
  have continues := continueDeclaration_resumes behind placed.expr
  rw [← show other.expr = placed.expr.renumber gap from same] at continues
  refine continues.bind ?_
  rintro expr _ body later rfl behind
  exact ⟨rfl, behind⟩

end

end
end Body

namespace Reader

section

variable {gap : Mark} {body later : Body} {text : List Char}

theorem constructionEndingAt?_renumber (root : Expr) (position : Nat) :
    constructionEndingAt? (root.renumber gap) position =
      (constructionEndingAt? root position).map (Expr.renumber gap) := by
  rw [constructionEndingAt?, constructionEndingAt?, Expr.preorder_renumber, List.find?_map]
  congr 2
  funext expr
  simp only [Function.comp_apply, Expr.isConstructorCall_renumber, Expr.node?_renumber]
  cases expr.node? <;> rfl

theorem noteSites_resumes (behind : body.Behind gap later) (head source : List Char)
    {root other : Placed} (same : RenumbersTo gap root other) (removed : Nat) (spans : List Span) :
    Resumes gap (fun _ _ => True) (noteSites head source root removed spans body)
      (noteSites head source other removed spans later) := by
  induction spans generalizing removed body later with
  | nil => exact .pure trivial behind
  | cons span rest induction =>
      rw [noteSites, noteSites]
      dsimp only
      rw [same, constructionEndingAt?_renumber]
      generalize constructionEndingAt? root.expr _ = found
      cases found with
      | none => exact rfl
      | some call => exact induction (by exact ⟨behind.vars, behind.nodes⟩) _

theorem readCut_resumes {read : List Char → ReadM Placed}
    (reads : ∀ text body later, body.Behind gap later →
      Resumes gap (RenumbersTo gap) (read text body) (read text later))
    (behind : body.Behind gap later) (cut : Text.Cut) :
    Resumes gap (RenumbersTo gap) (readCut read text cut body) (readCut read text cut later) := by
  unfold readCut
  cases Text.removeSpans? (text.take cut.stop) cut.classBodies with
  | none => exact rfl
  | some source =>
      refine (reads source body later behind).bind fun root other _ _ same behind => ?_
      have absent : other.isAbsent = root.isAbsent := by
        rw [Placed.isAbsent, same, Expr.isAbsent_renumber, Placed.isAbsent]
      rw [absent]
      cases root.isAbsent with
      | true => exact .pure same behind
      | false =>
          refine (noteSites_resumes behind _ _ same 0 cut.classBodies).bind ?_
          exact fun _ _ _ _ _ behind => .pure same behind

theorem openBody_resumes (behind : body.Behind gap later) (frame : ConstructFrame)
    (kind : ParagraphKind) :
    Resumes gap (fun _ _ => True) (openBody frame kind body) (openBody frame kind later) :=
  ⟨trivial, behind.vars, behind.nodes⟩

theorem addHandlers_resumes (behind : body.Behind gap later) (frame : ConstructFrame)
    (slot slot' : ParagraphId) (texts : List (List Char)) :
    Resumes gap (fun _ _ => True) (addHandlers frame slot texts body)
      (addHandlers frame slot' texts later) := by
  induction texts generalizing body later with
  | nil => exact .pure trivial behind
  | cons first rest induction =>
      refine (readExpression_resumes behind slot slot' first).bind fun _ _ _ _ _ behind => ?_
      exact induction (by exact ⟨behind.vars, behind.nodes⟩)

/-- A question without answer is no fault of the text. -/
theorem ask_quiet {α : Type} (question : Body → Except Fault α) (error : SourceError)
    (after : Body) :
    ask question body ≠ .error (.malformed error) after := by
  intro failed
  obtain ⟨-, fault, same, -⟩ := ask_eq_error.1 failed
  contradiction

/-- What comes behind a question and does not fail is no fault of the text either. -/
theorem ask_bind_quiet {α β : Type} (question : Body → Except Fault α) {next : α → ReadM β}
    (quiet : ∀ value between error after, next value between ≠ .error (.malformed error) after)
    (error : SourceError) (after : Body) :
    (ask question >>= next) body ≠ .error (.malformed error) after := by
  simp only [Bind.bind, EStateM.bind]
  cases asked : ask question body with
  | ok answer between => exact quiet answer between error after
  | error failure between =>
      intro failed
      obtain ⟨rfl, rfl⟩ := EStateM.Result.error.inj failed
      exact ask_quiet question error between asked

theorem pure_quiet {α : Type} (value : α) (error : SourceError) (after : Body) :
    (Pure.pure value : ReadM α) body ≠ .error (.malformed error) after := by
  intro failed
  contradiction

theorem iteratesElements_insists {header other : Placed} (same : RenumbersTo gap header other) :
    Insists gap (iteratesElements header) (iteratesElements other) := by
  have rejects (expr : Expr) :
      Insists gap
        (reject (α := Bool) (.unexpectedToken expr.trimmedText "as a for-each header"))
        (reject (.unexpectedToken (expr.renumber gap).trimmedText "as a for-each header")) := by
    rw [Expr.trimmedText_renumber]
    exact .reject
  unfold iteratesElements
  rw [same]
  generalize header.expr = expr
  have rejected := rejects expr
  cases expr with
  | absent => exact .reject
  | operation node op left right =>
      cases op with
      | colon =>
          refine .of_quiet fun body => ?_
          exact ask_bind_quiet _ fun value between error after => pure_quiet _ error after
      | _ => exact rejected
  | _ => exact rejected

/-! ## Steps that are taken again -/

section

variable {frame : ConstructFrame} {own : ParagraphFrame}

theorem stepStatement_insists : Insists gap (stepStatement own text) (stepStatement own text) := by
  unfold stepStatement
  split
  · exact .pure
  · exact .reject
  · have reads (text : List Char) (body later : Body) (behind : body.Behind gap later) :=
      readStatement_resumes behind own.id own.id text
    refine .bind (fun body later behind => readCut_resumes reads behind _) fun _ _ _ => ?_
    exact .of_ok fun body => ⟨_, _, rfl⟩

theorem stepLabel_insists : Insists gap (stepLabel false own text) (stepLabel false own text) := by
  unfold stepLabel
  split
  · exact stepStatement_insists
  · dsimp only
    split
    · exact .pure
    · split
      · exact .pure
      · exact stepStatement_insists

theorem stepParagraph_insists :
    Insists gap (stepParagraph false own text) (stepParagraph false own text) := by
  have word : Insists gap (stepWord false own text) (stepWord false own text) := by
    unfold stepWord
    split
    · exact .reject
    · split
      · exact .of_ok fun body => ⟨_, _, rfl⟩
      · split
        · exact stepStatement_insists
        · exact stepLabel_insists
  have item : Insists gap (stepItem false own text) (stepItem false own text) := by
    unfold stepItem
    split
    · exact .pure
    · split
      · split
        · exact .pure
        · exact .reject
      · split
        · exact .of_ok fun body => ⟨_, _, rfl⟩
        · split
          · exact .of_ok fun body => ⟨_, _, rfl⟩
          · exact word
  unfold stepParagraph
  split
  · unfold stepOpening
    split
    · exact .pure
    · split
      · exact .of_ok fun body => ⟨_, _, rfl⟩
      · exact .pure
  · exact .pure
  · exact item

theorem parenthesized_resumes (behind : body.Behind gap later) (keyword : Keyword) :
    Resumes gap Eq (parenthesized keyword text body) (parenthesized keyword text later) := by
  unfold parenthesized
  cases text with
  | nil => exact .pure rfl behind
  | cons c rest =>
      dsimp only
      cases c == '(' with
      | true => exact .pure rfl behind
      | false => exact rfl

theorem withHeader_insists {keyword : Keyword} {go : List Char → List Char → ReadM Step}
    (insists : ∀ inner rest, Insists gap (go inner rest) (go inner rest)) :
    Insists gap (withHeader keyword text go) (withHeader keyword text go) := by
  refine .bind (fun body later behind => parenthesized_resumes behind keyword) ?_
  rintro found _ rfl
  cases found with
  | none => exact .pure
  | some parts => exact insists _ _

theorem stepFor_insists : Insists gap (stepFor frame text) (stepFor frame text) := by
  refine withHeader_insists fun inner rest =>
    .bind (fun body later behind => openBody_resumes behind frame .body) fun slot slot' _ => ?_
  split
  · refine .bind (fun body later behind => readStatement_resumes behind slot slot' _)
      fun _ _ _ => ?_
    refine .bind (fun body later behind => readExpression_resumes behind slot slot' _)
      fun _ _ _ => ?_
    refine .bind (fun body later behind => readExpression_resumes behind slot slot' _)
      fun _ _ _ => ?_
    exact .of_ok fun body => ⟨_, _, rfl⟩
  · refine .bind (fun body later behind => readExpression_resumes behind slot slot' _)
      fun header other same => (iteratesElements_insists same).bind_quiet ?_
    exact fun value body error after failed => by contradiction
  · exact .reject

theorem stepHeader_insists {keyword : Keyword} {kind : ParagraphKind}
    {detail : Placed → ParagraphId → Detail} :
    Insists gap (stepHeader keyword kind detail frame text)
      (stepHeader keyword kind detail frame text) := by
  refine withHeader_insists fun inner rest => .bind
    (fun body later behind => readExpression_resumes behind frame.scope frame.scope inner)
      fun _ _ _ => ?_
  exact .of_ok fun body => ⟨_, _, rfl⟩

theorem stepValue_insists {keyword : Keyword} :
    Insists gap (stepValue frame keyword text) (stepValue frame keyword text) := by
  unfold stepValue
  split
  · exact .pure
  · exact .reject
  · have reads (text : List Char) (body later : Body) (behind : body.Behind gap later) :=
      readExpression_resumes behind frame.scope frame.scope text
    refine .bind (fun body later behind => readCut_resumes reads behind _)
      fun value other same => ?_
    refine .of_quiet fun body error after => ?_
    split
    · refine ask_bind_quiet _ (fun category between error after failed => ?_) error after
      split at failed <;> contradiction
    · intro failed
      contradiction

theorem stepKeyword_insists (keyword : Keyword) :
    Insists gap (stepKeyword frame text keyword) (stepKeyword frame text keyword) := by
  have reading (inner : List Char) (body later : Body) (behind : body.Behind gap later) :=
    readExpression_resumes behind frame.scope frame.scope inner
  cases keyword with
  | ifThen =>
      refine withHeader_insists fun inner rest => .bind (reading inner) fun _ _ _ => ?_
      exact .of_ok fun body => ⟨_, _, rfl⟩
  | forLoop => exact stepFor_insists
  | whileLoop | switch | synchronized => exact stepHeader_insists
  | doLoop | tryBlock => exact .of_ok fun body => ⟨_, _, rfl⟩
  | returns | throws => exact stepValue_insists
  | breaks | continues =>
      unfold stepKeyword stepJump
      dsimp only
      split
      · exact .pure
      · exact .of_ok fun body => ⟨_, _, rfl⟩
  | caseLabel =>
      unfold stepKeyword stepCase
      dsimp only
      split
      · exact .pure
      · exact .reject
      · exact .bind (reading _) fun _ _ _ => .of_ok fun body => ⟨_, _, rfl⟩
  | defaultLabel =>
      unfold stepKeyword stepDefault
      dsimp only
      split
      · exact .pure
      · split
        · exact .of_ok fun body => ⟨_, _, rfl⟩
        · exact .reject

theorem stepAfterBranch_insists :
    Insists gap (stepAfterBranch false frame text) (stepAfterBranch false frame text) := by
  unfold stepAfterBranch
  split
  · exact .pure
  · split
    · dsimp only
      split
      · exact .pure
      · split
        · exact .pure
        · exact .of_ok fun body => ⟨_, _, rfl⟩
    · exact .pure

theorem stepAfterDo_insists :
    Insists gap (stepAfterDo false frame text) (stepAfterDo false frame text) := by
  unfold stepAfterDo
  split
  · exact .pure
  · split
    · exact .pure
    · exact .reject

theorem stepDoCondition_insists :
    Insists gap (stepDoCondition false frame text) (stepDoCondition false frame text) := by
  refine .bind (fun body later behind => parenthesized_resumes behind .doLoop) ?_
  rintro header _ rfl
  cases header with
  | none => exact .pure
  | some parts =>
      obtain ⟨inner, rest⟩ := parts
      dsimp only
      split
      · exact .pure
      · refine .bind (fun body later behind =>
          readExpression_resumes behind frame.scope frame.scope inner) fun _ _ _ => ?_
        exact .of_ok fun body => ⟨_, _, rfl⟩

/-- A handler is read again. -/
theorem stepAfterTry_insists (handler : Text.startsWithWord "catch".toList text = true) :
    Insists gap (stepAfterTry false frame text) (stepAfterTry false frame text) := by
  unfold stepAfterTry
  rw [if_pos handler]
  split
  · exact .pure
  · refine withHeader_insists fun inner rest =>
      .bind (fun body later behind => openBody_resumes behind frame .body) fun slot slot' _ => ?_
    refine .bind (fun body later behind => addHandlers_resumes behind frame slot slot' _)
      fun _ _ _ => ?_
    exact .of_ok fun body => ⟨_, _, rfl⟩

/-- A `try` that lacks a clause is not changed by the step that notices it. -/
theorem stepAfterTry_same {failure : Failure} {after : Body}
    (other : ¬ Text.startsWithWord "catch".toList text = true)
    (failed : stepAfterTry false frame text body = .error failure after) : after = body := by
  have silent : Declines (fun before after => after = before) (fun _ _ => True)
      (stepAfterTry false frame text) := by
    unfold stepAfterTry
    rw [if_neg other]
    split
    · exact .of_ok fun before => ⟨_, _, rfl⟩
    · split
      · exact .of_ok fun before => ⟨_, _, rfl⟩
      · intro before failure after rejected
        simp only [Bind.bind, EStateM.bind, get_apply] at rejected
        split at rejected
        · contradiction
        · exact ⟨(EStateM.Result.error.inj rejected).2.symm, trivial⟩
  exact (silent body failure after failed).1

/-- A step that rejects its text rejects it again. -/
theorem step_again (frame : Frame) {error : SourceError} {after : Body}
    (failed : step false frame text body = .error (.malformed error) after) :
    ∃ again, step false frame text after = .error (.malformed error) again := by
  have keeps := (step_declines frame body _ after failed).1
  obtain ⟨gap, behind⟩ := keeps.behind
  cases frame with
  | paragraph own => exact stepParagraph_insists body after error after behind failed
  | construct frame =>
      simp only [step, stepConstruct] at failed ⊢
      cases stage : frame.stage with
      | done =>
          rw [stage] at failed
          contradiction
      | afterBranch =>
          rw [stage] at failed
          exact stepAfterBranch_insists body after error after behind failed
      | afterDoBody =>
          rw [stage] at failed
          exact stepAfterDo_insists body after error after behind failed
      | doCondition =>
          rw [stage] at failed
          exact stepDoCondition_insists body after error after behind failed
      | afterTryClause =>
          rw [stage] at failed
          by_cases handler : Text.startsWithWord "catch".toList text = true
          · exact stepAfterTry_insists handler body after error after behind failed
          · have same := stepAfterTry_same handler failed
            exact ⟨after, same ▸ failed⟩
      | header =>
          rw [stage] at failed
          simp only [Bind.bind, EStateM.bind, get_apply] at failed ⊢
          cases known : body.constructs[frame.id]? with
          | none =>
              rw [known] at failed
              contradiction
          | some construct =>
              obtain ⟨added, found⟩ := keeps.constructs _ _ known
              rw [known] at failed
              rw [found]
              exact stepKeyword_insists construct.keyword body after error after behind failed

/-! ## The end of the text -/

/-- The first computation waits, or the end of the text changes nothing. -/
def Closes (waiting ended : ReadM Step) : Prop :=
  ∀ body, (∃ after, waiting body = .ok .needMore after) ∨ ended body = waiting body

theorem Closes.refl (computation : ReadM Step) : Closes computation computation :=
  fun _ => .inr rfl

theorem Closes.wait (ended : ReadM Step) : Closes (Pure.pure .needMore) ended :=
  fun body => .inl ⟨body, rfl⟩

theorem Closes.ite {condition : Prop} [Decidable condition]
    {first second waiting ended : ReadM Step}
    (yes : condition → Closes first waiting) (no : ¬ condition → Closes second ended) :
    Closes (if condition then first else second) (if condition then waiting else ended) := by
  by_cases holds : condition
  · rw [if_pos holds, if_pos holds]
    exact yes holds
  · rw [if_neg holds, if_neg holds]
    exact no holds

/-- More text is waited for only while more may come. -/
theorem Closes.unlessEnded {condition : Bool} {waiting ended : ReadM Step}
    (no : Closes waiting ended) :
    Closes (if (condition && !false) = true then Pure.pure .needMore else waiting)
      (if (condition && !true) = true then Pure.pure .needMore else ended) := by
  cases condition with
  | true => exact .wait _
  | false => exact no

theorem Closes.bind {α : Type} {first : ReadM α} {next again : α → ReadM Step}
    (closes : ∀ value, Closes (next value) (again value)) :
    Closes (first >>= next) (first >>= again) := by
  intro body
  simp only [Bind.bind, EStateM.bind]
  cases first body with
  | ok value between => exact closes value between
  | error failure between => exact .inr rfl

theorem stepParagraph_closes : Closes (stepParagraph false own text)
    (stepParagraph true own text) := by
  have label : Closes (stepLabel false own text) (stepLabel true own text) := by
    unfold stepLabel
    cases leadingLabel? text with
    | none => exact .refl _
    | some labelled => exact .unlessEnded (.refl _)
  have word : Closes (stepWord false own text) (stepWord true own text) := by
    unfold stepWord
    split
    · exact .refl _
    · split
      · exact .refl _
      · split
        · exact .refl _
        · exact label
  have item : Closes (stepItem false own text) (stepItem true own text) := by
    unfold stepItem
    split
    · exact .refl _
    · exact .ite (fun _ => .refl _) fun _ => .ite (fun _ => .refl _) fun _ =>
        .ite (fun _ => .refl _) fun _ => word
  unfold stepParagraph
  split
  · exact .refl _
  · exact .refl _
  · exact item

theorem stepConstruct_closes :
    Closes (stepConstruct false frame text) (stepConstruct true frame text) := by
  unfold stepConstruct
  split
  · exact .refl _
  · unfold stepAfterBranch
    refine .ite (fun _ => .wait _) fun _ => .ite (fun _ => ?_) fun _ => .refl _
    exact .unlessEnded (.refl _)
  · exact .unlessEnded (.refl _)
  · unfold stepDoCondition
    refine .bind fun header => ?_
    cases header with
    | none => exact .wait _
    | some parts => exact .unlessEnded (.refl _)
  · exact .unlessEnded (.refl _)
  · exact .refl _

/-- A step that fails while more text may come fails at the end of the text as well. -/
theorem step_ended (frame : Frame) {failure : Failure} {after : Body}
    (failed : step false frame text body = .error failure after) :
    step true frame text body = .error failure after := by
  have closes : Closes (step false frame text) (step true frame text) := by
    cases frame with
    | paragraph own => exact stepParagraph_closes
    | construct frame => exact stepConstruct_closes
  rcases closes body with ⟨last, waits⟩ | same
  · rw [waits] at failed
    contradiction
  · rw [same, failed]

end

/-! ## Readers that are stuck -/

/-- The next step rejects the text. -/
def IsStuck (error : SourceError) (reader : Reader) : Prop :=
  ∃ next, reader.turn false = .fail (.malformed error) next

variable {reader next : Reader} {error : SourceError}

/-- A reader whose step failed stays where it is and is stuck. -/
theorem isStuck_of_turn (failed : reader.turn false = .fail (.malformed error) next) :
    next.IsStuck error := by
  obtain ⟨body, stack, leftover⟩ := reader
  cases stack with
  | nil => contradiction
  | cons frame stack =>
      simp only [turn] at failed
      cases taken : step false frame (Text.trimStart leftover) body with
      | ok outcome after => cases outcome <;> simp [taken] at failed
      | error reason after =>
          rw [taken] at failed
          obtain ⟨rfl, rfl⟩ := Turn.fail.inj failed
          obtain ⟨again, repeated⟩ := step_again frame taken
          refine ⟨{ body := again, stack := frame :: stack, leftover }, ?_⟩
          simp only [turn, repeated]

theorem IsStuck.fed (stuck : reader.IsStuck error) (line : List Char) :
    (reader.fed line).IsStuck error := by
  obtain ⟨next, failed⟩ := stuck
  have later : ReaderExtends line reader (reader.fed line) := by
    refine ⟨rfl, rfl, ?_⟩
    unfold Reader.fed
    cases reader.leftover with
    | nil => exact (Text.trimStart_space line).symm
    | cons c rest => exact Text.extends_append line (c :: rest)
  have turns := turn_extends later
  rw [failed] at turns
  generalize taken : (reader.fed line).turn false = turn at turns
  cases turns with
  | fail failure left right => exact ⟨right, taken⟩

/-- Every line that a stuck reader gets fails, and leaves it stuck. -/
theorem IsStuck.feed (stuck : reader.IsStuck error) (line : List Char) :
    ∃ last, feed line reader = .error (.malformed error) last ∧ last.IsStuck error := by
  obtain ⟨last, failed⟩ := stuck.fed line
  refine ⟨last, ?_, isStuck_of_turn failed⟩
  rw [feed_eq_run, show Limits.stepsPerFeed = 999999 + 1 from rfl, run_succ, failed]

/-- The end of the text does not help a stuck reader. -/
theorem IsStuck.finish (stuck : reader.IsStuck error) :
    ∃ last, finish reader = .error (.malformed error) last := by
  obtain ⟨next, failed⟩ := stuck
  have ended : reader.turn true = .fail (.malformed error) next := by
    obtain ⟨body, stack, leftover⟩ := reader
    cases stack with
    | nil => contradiction
    | cons frame stack =>
        simp only [turn] at failed ⊢
        cases taken : step false frame (Text.trimStart leftover) body with
        | ok outcome after => cases outcome <;> simp [taken] at failed
        | error reason after =>
            rw [taken] at failed
            rw [step_ended frame taken]
            exact failed
  have ran : run true Limits.stepsPerFeed reader = .error (.malformed error) next := by
    rw [show Limits.stepsPerFeed = 999999 + 1 from rfl, run_succ, ended]
  refine ⟨next, ?_⟩
  have drained : drain Limits.finishRetries reader = .error (.malformed error) next := by
    rw [show Limits.finishRetries = 1 + 1 from rfl, drain]
    simp only [Bind.bind, EStateM.bind, ran]
  simp only [Reader.finish, Bind.bind, EStateM.bind, drained]

theorem IsStuck.afterFeeds (stuck : reader.IsStuck error) (lines : List (List Char)) :
    (lines.foldl afterFeed reader).IsStuck error := by
  induction lines generalizing reader with
  | nil => exact stuck
  | cons line rest induction =>
      obtain ⟨last, failed, still⟩ := stuck.feed line
      refine induction ?_
      rw [afterFeed, failed]
      exact still

/-- A run that does not reach its limit fails in a turn that fails. -/
theorem exists_turn_of_run {count : Nat} {failure : Failure} {after : Reader}
    (failed : run false count reader = .error failure after)
    (settled : settles false count reader = true) :
    ∃ before, Relation.ReflTransGen (fun reader next =>
      reader.turn false = .move next) reader before ∧ before.turn false = .fail failure after := by
  induction count generalizing reader with
  | zero => simp [settles] at settled
  | succ count induction =>
      rw [run_succ] at failed
      rw [settles] at settled
      cases taken : reader.turn false with
      | rest next => simp [taken] at failed
      | fail reason next =>
          rw [taken] at failed
          obtain ⟨rfl, rfl⟩ := EStateM.Result.error.inj failed
          exact ⟨reader, .refl, taken⟩
      | move next =>
          rw [taken] at failed settled
          obtain ⟨before, moves, last⟩ := induction failed settled
          exact ⟨before, .head taken moves, last⟩

end
end Reader

/-- The bodies have the same statements; further paragraphs of the second one have none. -/
structure Body.SameItems (before after : Body) : Prop where
  kept : ∀ (id : ParagraphId) (paragraph : Paragraph), before.paragraphs[id]? = some paragraph →
    ∃ found : Paragraph, after.paragraphs[id]? = some found ∧ found.items = paragraph.items
  added : ∀ (id : ParagraphId) (paragraph : Paragraph), before.paragraphs.size ≤ id →
    after.paragraphs[id]? = some paragraph → paragraph.items = #[]

namespace Reader

theorem exists_of_rejection {result : EStateM.Result Failure Reader Unit} {failure : Failure}
    {size : Nat} (rejects : (match result with
      | .ok _ _ => none
      | .error failure after => some (failure, after.body.paragraphs.size)) =
          some (failure, size)) :
    ∃ after, result = .error failure after ∧ after.body.paragraphs.size = size := by
  cases result with
  | ok _ _ => contradiction
  | error _ after =>
      obtain ⟨rfl, rfl⟩ := Prod.mk.inj (Option.some.inj rejects)
      exact ⟨after, rfl, rfl⟩

/-- **Errors stay.**  A line that is rejected leaves the stack, the waiting text and the statements
as they were before the step that rejects it, and every later line and the end of the text are
rejected with the same error. -/
theorem feed_rejected {reader after : Reader} {line : List Char} {error : SourceError}
    (failed : feed line reader = .error (.malformed error) after)
    (settled : settles false Limits.stepsPerFeed (reader.fed line) = true) :
    (∃ before,
      Relation.ReflTransGen (fun reader next => reader.turn false = .move next) (reader.fed line)
        before ∧ before.turn false = .fail (.malformed error) after ∧ after.stack = before.stack ∧
      after.leftover = before.leftover ∧ before.body.SameItems after.body) ∧
    ∀ lines : List (List Char),
      (∀ line, ∃ last,
        feed line (lines.foldl afterFeed after) = .error (.malformed error) last) ∧
      ∃ last, finish (lines.foldl afterFeed after) = .error (.malformed error) last := by
  rw [feed_eq_run] at failed
  obtain ⟨before, moves, last⟩ := exists_turn_of_run failed settled
  obtain ⟨stack, leftover, keeps⟩ := turn_fail last
  refine ⟨⟨before, moves, last, stack, leftover, fun id paragraph known => ?_, keeps.blank⟩,
    fun lines => ?_⟩
  · obtain ⟨vars, found⟩ := keeps.paragraphs id paragraph known
    exact ⟨_, found, rfl⟩
  · have stuck := (isStuck_of_turn last).afterFeeds lines
    refine ⟨fun line => ?_, stuck.finish⟩
    obtain ⟨last, failed, -⟩ := stuck.feed line
    exact ⟨last, failed⟩

/-- A handler whose second alternative is malformed: the body that was opened for it stays, and so
does the error. -/
theorem feed_rejected_handler :
    ∃ after last,
      feed "try \x7b a(); \x7d catch (E | ? e) \x7b".toList (Reader.initial {} {}) =
        .error (.malformed (.missingClause "?" "`:` branch")) after ∧
      after.body.paragraphs.size = 3 ∧
      feed "b();".toList after = .error (.malformed (.missingClause "?" "`:` branch")) last := by
  obtain ⟨after, rejects, size⟩ : ∃ after,
      feed "try \x7b a(); \x7d catch (E | ? e) \x7b".toList (Reader.initial {} {}) =
        .error (.malformed (.missingClause "?" "`:` branch")) after ∧
      after.body.paragraphs.size = 3 := exists_of_rejection (by decide +kernel)
  obtain ⟨last, again⟩ := ((feed_rejected rejects (by decide +kernel)).2 []).1 "b();".toList
  exact ⟨after, last, rejects, size, again⟩

end Reader
end MethodLowering
