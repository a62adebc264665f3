import MethodLowering.Proofs.Body.Answers
import MethodLowering.Proofs.Body.Shape
import MethodLowering.Proofs.Reduction.Rounds
import MethodLowering.Proofs.Text.Cutting
import MethodLowering.Reader.Basic

/-!
# What a step that fails leaves behind

A step that rejects its text may have read clauses and opened bodies before.  Nothing that was there
is lost by this: every paragraph keeps its statements, every construct its header and bodies, and
the paragraphs that were opened have no statements yet.  A step fails because the text is malformed,
or because the header of a loop asks for a member of a class that is missing, and for no other
reason.
-/

namespace MethodLowering

open Body

/-! ## Computations that fail -/

/-- Where the computation fails, the states before and behind it are related, and the failure and
the state it leaves are of this kind. -/
def Declines {σ α : Type} (kept : σ → σ → Prop) (fails : Failure → σ → Prop)
    (computation : EStateM Failure σ α) : Prop :=
  ∀ before failure after, computation before = .error failure after →
    kept before after ∧ fails failure after

section

variable {σ α β : Type} {kept : σ → σ → Prop} {fails : Failure → σ → Prop}
  {computation : EStateM Failure σ α} {next : α → EStateM Failure σ β}

theorem Preserves.declines (preserves : Preserves kept fails computation) :
    Declines kept fails computation := by
  intro before failure after result
  have known := preserves before
  rwa [result] at known

/-- What follows may use what the first computation gave, and where. -/
theorem Declines.bind_of [IsTrans σ kept] (first : Preserves kept fails computation)
    (later : ∀ value before between, computation before = .ok value between → ∀ failure after,
      next value between = .error failure after → kept between after ∧ fails failure after) :
    Declines kept fails (computation >>= next) := by
  intro before failure after failed
  have begun := first before
  simp only [Bind.bind, EStateM.bind] at failed
  cases result : computation before with
  | error reason between =>
      rw [result] at begun failed
      obtain ⟨rfl, rfl⟩ := EStateM.Result.error.inj failed
      exact begun
  | ok value between =>
      rw [result] at begun failed
      obtain ⟨kept', fails'⟩ := later value before between result failure after failed
      exact ⟨trans_of kept begun kept', fails'⟩

theorem Declines.bind [IsTrans σ kept] (first : Preserves kept fails computation)
    (later : ∀ value, Declines kept fails (next value)) :
    Declines kept fails (computation >>= next) :=
  .bind_of first fun value _ between _ => later value between

/-- A computation that never fails. -/
theorem Declines.of_ok (succeeds : ∀ before, ∃ value after, computation before = .ok value after) :
    Declines kept fails computation := by
  intro before failure after failed
  obtain ⟨value, last, result⟩ := succeeds before
  rw [result] at failed
  contradiction

end

/-! ## Reductions -/

namespace Reduction

/-- The reduction only declares variables and counts nodes. -/
structure Spares (before after : Reduction) : Prop where
  context : after.body.context = before.body.context
  shape : after.body.shape = before.body.shape
  mark : before.body.mark ≤ after.body.mark

instance : IsPreorder Reduction Spares where
  refl _ := ⟨rfl, rfl, Mark.le_refl _⟩
  trans _ _ _ first second :=
    ⟨second.context.trans first.context, second.shape.trans first.shape,
      Mark.le_trans first.mark second.mark⟩

/-- The text is malformed, or a span strays from it. -/
def Rejects (failure : Failure) (_ : Reduction) : Prop :=
  (∃ error, failure = .malformed error) ∨ failure = .undefined .badRange

theorem shape_declare (body : Body) (entry : Variable) :
    (body.declare entry).shape = body.shape := by
  rw [declare]
  cases entry.scope with
  | none => rfl
  | some scope =>
      simp only [Body.shape, modifyParagraph, Array.toList_modify, Shape.mk.injEq, and_true]
      apply List.ext_getElem?
      intro id
      rw [List.getElem?_map, List.getElem?_modify, List.getElem?_map]
      cases body.paragraphs.toList[id]? with
      | none => rfl
      | some paragraph =>
          simp only [Option.map_eq_map, Option.map_some, Option.some.injEq]
          split <;> rfl

theorem context_declare (body : Body) (entry : Variable) :
    (body.declare entry).context = body.context := by
  rw [declare]
  cases entry.scope <;> rfl

theorem mark_declare (body : Body) (entry : Variable) : body.mark ≤ (body.declare entry).mark := by
  rw [declare]
  cases entry.scope with
  | none => exact ⟨by simp [mark], Nat.le_refl _⟩
  | some scope => exact ⟨by simp [mark, modifyParagraph], Nat.le_refl _⟩

theorem steady_spares : Steady Spares Rejects where
  quiet _ _ _ same := ⟨by rw [same], by rw [same], by rw [same]; exact Mark.le_refl _⟩
  mark _ _ _ _ := ⟨rfl, rfl, Mark.le_refl _⟩
  count _ _ := ⟨rfl, rfl, Mark.le_refl _⟩
  number _ := ⟨rfl, rfl, Nat.le_refl _, Nat.le_succ _⟩
  declare _ _ := ⟨context_declare _ _, shape_declare _ _, mark_declare _ _⟩
  retype _ _ _ := ⟨rfl, rfl, by simp [mark, retype], Nat.le_refl _⟩
  reject error _ _ := .inl ⟨error, rfl⟩
  stray _ := .inr rfl

theorem statement_spares : Preserves Spares Rejects statement :=
  statement_preserves steady_spares fun error _ => .inl ⟨error, rfl⟩

end Reduction

/-! ## Bodies -/

namespace Detail

/-- With further handlers of a `try`, whatever their bodies. -/
def handledBy (added : List Handler) : Detail → Detail
  | tryBlock guarded handlers cleanup => tryBlock guarded (handlers ++ added) cleanup
  | other => other

@[simp] theorem handledBy_nil (detail : Detail) : detail.handledBy [] = detail := by
  cases detail <;> simp [handledBy]

@[simp] theorem handledBy_handledBy (detail : Detail) (first second : List Handler) :
    (detail.handledBy first).handledBy second = detail.handledBy (first ++ second) := by
  cases detail <;> simp [handledBy]

/-- Further handlers take no body away. -/
theorem mem_bodies_handledBy {detail : Detail} {id : ParagraphId} (added : List Handler)
    (member : id ∈ detail.bodies) : id ∈ (detail.handledBy added).bodies := by
  cases detail with
  | tryBlock guarded handlers cleanup =>
      simp only [bodies, handledBy, List.mem_cons, List.mem_append] at member ⊢
      refine member.imp_right (Or.imp_left fun inside => ?_)
      obtain ⟨handler, among, rfl⟩ := List.mem_map.1 (mem_of_mem_handlerBodies inside)
      exact handlerBodies_mem (List.mem_append_left _ among)
  | _ => exact member

end Detail

namespace Body

/-- Nothing of the first body is lost in the second one, and no statement is added. -/
structure Keeps (before after : Body) : Prop where
  context : after.context = before.context
  paragraphs : ∀ (id : ParagraphId) (paragraph : Paragraph), before.paragraphs[id]? =
    some paragraph →
    ∃ vars, after.paragraphs[id]? = some { paragraph with vars }
  constructs : ∀ (id : ConstructId) (construct : Construct), before.constructs[id]? =
    some construct →
    ∃ added, after.constructs[id]? =
      some { construct with detail := construct.detail.handledBy added }
  blank : ∀ (id : ParagraphId) (paragraph : Paragraph), before.paragraphs.size ≤ id →
    after.paragraphs[id]? = some paragraph → paragraph.items = #[]
  mark : before.mark ≤ after.mark

theorem Keeps.refl (body : Body) : body.Keeps body :=
  ⟨rfl, fun _ paragraph known => ⟨paragraph.vars, known⟩,
    fun _ construct known => ⟨[], by simpa using known⟩,
    fun id _ above known => absurd (Array.getElem?_eq_some_iff.1 known).1 (Nat.not_lt.2 above),
    Mark.le_refl _⟩

theorem Keeps.trans {before between after : Body} (first : before.Keeps between)
    (second : between.Keeps after) : before.Keeps after := by
  refine ⟨second.context.trans first.context, fun id paragraph known => ?_,
    fun id construct known => ?_, fun id paragraph above known => ?_,
    Mark.le_trans first.mark second.mark⟩
  · obtain ⟨vars, middle⟩ := first.paragraphs id paragraph known
    obtain ⟨last, final⟩ := second.paragraphs id _ middle
    exact ⟨last, final⟩
  · obtain ⟨added, middle⟩ := first.constructs id construct known
    obtain ⟨further, final⟩ := second.constructs id _ middle
    exact ⟨added ++ further, by simpa using final⟩
  · by_cases inside : id < between.paragraphs.size
    · have middle : between.paragraphs[id]? = some between.paragraphs[id] := by simp [inside]
      obtain ⟨vars, final⟩ := second.paragraphs id _ middle
      obtain rfl := Option.some.inj (known.symm.trans final)
      exact first.blank id between.paragraphs[id] above middle
    · exact second.blank id paragraph (Nat.le_of_not_lt inside) known

instance : IsPreorder Body Keeps where
  refl := Keeps.refl
  trans _ _ _ := Keeps.trans

/-- Variables and counters do not matter. -/
theorem keeps_of_shape {before after : Body} (context : after.context = before.context)
    (shape : after.shape = before.shape) (mark : before.mark ≤ after.mark) :
    before.Keeps after := by
  have outlines : after.paragraphs.toList.map Paragraph.outline =
      before.paragraphs.toList.map Paragraph.outline := congrArg Shape.paragraphs shape
  have constructs : after.constructs = before.constructs :=
    Array.toList_inj.1 (congrArg Shape.constructs shape)
  refine ⟨context, fun id paragraph known => ?_,
    fun id construct known => ⟨[], by simpa [constructs] using known⟩,
    fun id paragraph above known => ?_, mark⟩
  · have same := congrArg (fun entries => entries[id]?) outlines
    simp only [List.getElem?_map, Array.getElem?_toList, known, Option.map_some,
      Option.map_eq_some_iff] at same
    obtain ⟨found, shown, outline⟩ := same
    refine ⟨found.vars, shown.trans (congrArg some ?_)⟩
    simp only [Paragraph.outline, Paragraph.mk.injEq] at outline
    obtain ⟨kind, parent, items, -, label, braced⟩ := outline
    rw [← kind, ← parent, ← items, ← label, ← braced]
  · have same := congrArg List.length outlines
    simp only [List.length_map, Array.length_toList] at same
    exact absurd (Array.getElem?_eq_some_iff.1 known).1 (by omega)

/-- A paragraph without statements is added. -/
theorem keeps_addParagraph {body : Body} {paragraph : Paragraph} (blank : paragraph.items = #[]) :
    body.Keeps (body.addParagraph paragraph) := by
  refine ⟨rfl, fun id found known => ⟨found.vars, ?_⟩,
    fun id construct known => ⟨[], by simpa [addParagraph] using known⟩,
    fun id found above known => ?_, Mark.le_refl _⟩
  · have inside := (Array.getElem?_eq_some_iff.1 known).1
    rw [addParagraph, Array.getElem?_push, if_neg (Nat.ne_of_lt inside), known]
  · rw [addParagraph, Array.getElem?_push] at known
    split at known
    · exact Option.some.inj known ▸ blank
    · exact absurd (Array.getElem?_eq_some_iff.1 known).1 (Nat.not_lt.2 above)

/-- Handlers are added. -/
theorem keeps_handledBy {body : Body} {id : ConstructId} (added : List Handler) :
    body.Keeps (body.modifyDetail id (Detail.handledBy added)) := by
  refine ⟨rfl, fun other found known => ⟨found.vars, known⟩, fun other construct known => ?_,
    fun other found above known => ?_, Mark.le_refl _⟩
  · rw [modifyDetail, Array.getElem?_modify, known]
    split
    · exact ⟨added, rfl⟩
    · exact ⟨[], by simp⟩
  · exact absurd (Array.getElem?_eq_some_iff.1 known).1 (Nat.not_lt.2 above)

/-- Why reading stops: the text is malformed, or the tree that was just read asks for a member of a
class that is missing. -/
inductive Stops : Failure → Body → Prop where
  | malformed (error : SourceError) (body : Body) : Stops (.malformed error) body
  | undefined {scope : ParagraphId} {text : List Char} {before body : Body} {placed : Placed}
      {fault : Fault} (read : readExpression scope text before = .ok placed body)
      (stumbles : body.Stumbles placed.sight placed.expr fault) : Stops (.undefined fault) body

theorem readExpression_keeps (scope : ParagraphId) (text : List Char) :
    Preserves Keeps Stops (readExpression scope text) := by
  intro before
  have spares := Reduction.statement_spares { ledger := Ledger.scan text, scope, body := before }
  rw [readExpression]
  cases result : Reduction.statement { ledger := Ledger.scan text, scope, body := before } with
  | ok expr state =>
      rw [result] at spares
      exact keeps_of_shape spares.context spares.shape spares.mark
  | error failure state =>
      rw [result] at spares
      obtain ⟨error, rfl⟩ := Reduction.statement_malformed result
      obtain ⟨spares, -⟩ := spares
      exact ⟨keeps_of_shape spares.context spares.shape spares.mark, .malformed error _⟩

theorem continueName_keeps (shared : SharedDeclaration) (expr : Expr) :
    Preserves Keeps Stops (continueName shared expr) := by
  unfold continueName
  split
  · refine Preserves.get.bind fun body => Preserves.bind (fun before => ?_) fun _ => .pure
    exact keeps_of_shape (Reduction.context_declare _ _) (Reduction.shape_declare _ _)
      (Reduction.mark_declare _ _)
  · exact .pure

theorem continueItem_keeps (shared : SharedDeclaration) (expr : Expr) :
    Preserves Keeps Stops (continueItem shared expr) := by
  unfold continueItem
  split
  · exact (continueName_keeps shared _).bind fun _ => .pure
  · exact continueName_keeps shared _

theorem continueItems_keeps (shared : SharedDeclaration) (isFirst : Bool) (expr : Expr) :
    Preserves Keeps Stops (continueItems shared isFirst expr) := by
  induction isFirst, expr using continueItems.induct with
  | case1 isFirst =>
      rw [continueItems]
      exact .pure
  | case2 isFirst node left right leftInduction rightInduction =>
      rw [continueItems]
      refine leftInduction.bind fun first => ?_
      exact (rightInduction first.2).bind fun second => .pure
  | case3 item notAbsent notComma =>
      rw [continueItems]
      · exact .pure
      · exact notAbsent
      · exact notComma
  | case4 item notAbsent notComma =>
      rw [continueItems]
      · exact (continueItem_keeps shared item).bind fun _ => .pure
      · exact notAbsent
      · exact notComma

theorem continueDeclaration_keeps (root : Expr) :
    Preserves Keeps Stops (continueDeclaration root) := by
  unfold continueDeclaration
  split
  · exact .pure
  · refine Preserves.get.bind fun body => ?_
    split
    · exact .pure
    · exact (continueItems_keeps _ _ _).bind fun _ => .pure

theorem readStatement_keeps (scope : ParagraphId) (text : List Char) :
    Preserves Keeps Stops (readStatement scope text) :=
  (readExpression_keeps scope text).bind fun placed =>
    (continueDeclaration_keeps placed.expr).bind fun _ => Preserves.get.bind fun _ => .pure

end Body

/-! ## Steps -/

namespace Reader

section

variable {α : Type} {frame : ConstructFrame}

theorem reject_keeps {error : SourceError} : Preserves Keeps Stops (reject error : ReadM α) :=
  .throw fun body => .malformed error body

theorem ask_of_ok {question : Body → Except Fault α} {body : Body} {answer : α}
    (answered : question body = .ok answer) : ask question body = .ok answer body := by
  simp only [ask, bind, EStateM.bind, get_apply, answered]
  rfl

theorem ask_of_error {question : Body → Except Fault α} {body : Body} {fault : Fault}
    (asked : question body = .error fault) :
    ask question body = .error (.undefined fault) body := by
  simp only [ask, bind, EStateM.bind, get_apply, asked]
  rfl

theorem ask_eq_error {question : Body → Except Fault α} {body after : Body} {failure : Failure} :
    ask question body = .error failure after ↔
      after = body ∧ ∃ fault, failure = .undefined fault ∧ question body = .error fault := by
  cases asked : question body with
  | ok answer =>
      rw [ask_of_ok asked]
      refine iff_of_false (fun failed => by contradiction) ?_
      rintro ⟨-, _, -, fails⟩
      contradiction
  | error fault =>
      rw [ask_of_error asked]
      constructor
      · intro failed
        obtain ⟨rfl, rfl⟩ := EStateM.Result.error.inj failed
        exact ⟨rfl, fault, rfl, rfl⟩
      · rintro ⟨rfl, _, rfl, same⟩
        rw [Except.error.inj same]

/-- A question that has an answer. -/
theorem ask_keeps {question : Body → Except Fault α}
    (answers : ∀ body, ∃ answer, question body = .ok answer) :
    Preserves Keeps Stops (ask question) := by
  intro body
  obtain ⟨answer, answered⟩ := answers body
  rw [ask_of_ok answered]
  exact .refl body

theorem openBody_keeps (kind : ParagraphKind) : Preserves Keeps Stops (openBody frame kind) :=
  Preserves.get.bind fun _ => Preserves.bind (fun _ => keeps_addParagraph rfl) fun _ => .pure

theorem noteSites_keeps (head source : List Char) (root : Placed) (removed : Nat)
    (spans : List Span) : Preserves Keeps Stops (noteSites head source root removed spans) := by
  induction spans generalizing removed with
  | nil => exact .pure
  | cons span rest induction =>
      rw [noteSites]
      dsimp only
      split
      · exact reject_keeps
      · refine Preserves.bind (fun _ => ?_) fun _ => induction _
        exact keeps_of_shape rfl rfl (Mark.le_refl _)

theorem readCut_keeps {read : List Char → ReadM Placed} {terminator : Char} {text : List Char}
    {cut : Text.Cut} (keeps : ∀ text, Preserves Keeps Stops (read text))
    (found : Text.findCut terminator text = .found cut) :
    Preserves Keeps Stops (readCut read text cut) := by
  obtain ⟨source, removed⟩ := Option.isSome_iff_exists.1 (Text.removeSpans?_isSome found)
  unfold readCut
  simp only [removed]
  refine (keeps _).bind fun root => ?_
  split
  · exact .pure
  · exact (noteSites_keeps _ _ _ _ _).bind fun _ => .pure

theorem parenthesized_keeps (keyword : Keyword) (text : List Char) :
    Preserves Keeps Stops (parenthesized keyword text) := by
  unfold parenthesized
  split
  · exact .pure
  · split
    · exact .pure
    · exact reject_keeps

theorem withHeader_declines {keyword : Keyword} {text : List Char}
    {go : List Char → List Char → ReadM Step}
    (declines : ∀ inner rest, Declines Keeps Stops (go inner rest)) :
    Declines Keeps Stops (withHeader keyword text go) := by
  refine Declines.bind (parenthesized_keeps keyword text) fun header => ?_
  cases header with
  | none => exact Preserves.pure.declines
  | some parts => exact declines _ _

theorem addHandlers_keeps (body : ParagraphId) (texts : List (List Char)) :
    Preserves Keeps Stops (addHandlers frame body texts) := by
  induction texts with
  | nil => exact .pure
  | cons first rest induction =>
      refine (readExpression_keeps body first).bind fun declaration => ?_
      exact Preserves.bind (fun _ => keeps_handledBy [⟨declaration, body⟩]) fun _ => induction

theorem iteratesElements_eq (header : Placed) :
    (∃ error, iteratesElements header = reject error) ∨ ∃ node left right,
      header.expr = .operation node .colon left right ∧ iteratesElements header = (do
        let category ← ask fun body =>
          match left with
          | .declaration .. => body.category header.sight right
          | _ => .ok .none
        return category == .container) := by
  unfold iteratesElements
  split
  · exact .inl ⟨_, rfl⟩
  · exact .inr ⟨_, _, _, ‹_›, rfl⟩
  · exact .inl ⟨_, rfl⟩

/-- Whether a loop goes over elements is asked right behind its header. -/
theorem iteratesElements_declines {scope : ParagraphId} {text : List Char} {before between : Body}
    {header : Placed} (read : readExpression scope text before = .ok header between)
    {failure : Failure} {after : Body}
    (failed : iteratesElements header between = .error failure after) :
    between.Keeps after ∧ Stops failure after := by
  rcases iteratesElements_eq header with ⟨error, rejects⟩ | ⟨node, left, right, same, asks⟩
  · rw [rejects] at failed
    exact reject_keeps.declines _ _ _ failed
  · rw [asks] at failed
    rcases bind_eq_error.1 failed with asked | ⟨_, _, _, rest⟩
    · obtain ⟨rfl, fault, rfl, answered⟩ := ask_eq_error.1 asked
      refine ⟨.refl _, .undefined read ?_⟩
      have whole : header.expr.Whole := fun inner inside =>
        (readExpression_settled read inner inside).whole
      rw [same] at whole ⊢
      have inner : right.Whole := whole.part [left, right] rfl rfl (by simp)
      have stumbles (fails : after.category header.sight right = .error fault) :
          after.Stumbles header.sight (.operation node .colon left right) fault :=
        (category_blames inner fault fails).whole [left, right] rfl (by simp)
      split at answered
      · exact stumbles answered
      · contradiction
    · contradiction

/-! ### Paragraphs -/

variable {own : ParagraphFrame} {text : List Char} {finishing : Bool}

theorem stepStatement_declines : Declines Keeps Stops (stepStatement own text) := by
  unfold stepStatement
  split
  · exact Preserves.pure.declines
  · exact reject_keeps.declines
  · next found =>
    refine Declines.bind (readCut_keeps (readStatement_keeps _) found) fun root => ?_
    exact .of_ok fun before => ⟨_, _, rfl⟩

theorem stepLabel_declines : Declines Keeps Stops (stepLabel finishing own text) := by
  unfold stepLabel
  split
  · exact stepStatement_declines
  · dsimp only
    split
    · exact Preserves.pure.declines
    · split
      · exact Preserves.pure.declines
      · exact stepStatement_declines

theorem stepWord_declines : Declines Keeps Stops (stepWord finishing own text) := by
  unfold stepWord
  split
  · exact reject_keeps.declines
  · split
    · exact .of_ok fun before => ⟨_, _, rfl⟩
    · split
      · exact stepStatement_declines
      · exact stepLabel_declines

theorem stepItem_declines : Declines Keeps Stops (stepItem finishing own text) := by
  unfold stepItem
  split
  · exact Preserves.pure.declines
  · split
    · split
      · exact Preserves.pure.declines
      · exact reject_keeps.declines
    · split
      · exact .of_ok fun before => ⟨_, _, rfl⟩
      · split
        · exact .of_ok fun before => ⟨_, _, rfl⟩
        · exact stepWord_declines

theorem stepParagraph_declines : Declines Keeps Stops (stepParagraph finishing own text) := by
  unfold stepParagraph
  split
  · unfold stepOpening
    split
    · exact Preserves.pure.declines
    · split
      · exact .of_ok fun before => ⟨_, _, rfl⟩
      · exact Preserves.pure.declines
  · exact Preserves.pure.declines
  · exact stepItem_declines

/-! ### Constructs -/

theorem stepCondition_declines : Declines Keeps Stops (stepCondition frame text) := by
  refine withHeader_declines fun inner rest => Declines.bind (readExpression_keeps _ _) fun _ => ?_
  exact .of_ok fun before => ⟨_, _, rfl⟩

theorem stepAfterBranch_declines : Declines Keeps Stops (stepAfterBranch finishing frame text) := by
  unfold stepAfterBranch
  split
  · split <;> exact Preserves.pure.declines
  · split
    · dsimp only
      split
      · exact Preserves.pure.declines
      · split
        · exact Preserves.pure.declines
        · exact .of_ok fun before => ⟨_, _, rfl⟩
    · exact Preserves.pure.declines

theorem stepFor_declines : Declines Keeps Stops (stepFor frame text) := by
  refine withHeader_declines fun inner rest => Declines.bind (openBody_keeps _) fun body => ?_
  split
  · refine Declines.bind (readStatement_keeps _ _) fun _ => ?_
    refine Declines.bind (readExpression_keeps _ _) fun _ => ?_
    refine Declines.bind (readExpression_keeps _ _) fun _ => ?_
    exact .of_ok fun before => ⟨_, _, rfl⟩
  · refine Declines.bind_of (readExpression_keeps _ _)
      fun header before between read failure after failed => ?_
    rcases bind_eq_error.1 failed with asked | ⟨_, _, _, rest⟩
    · exact iteratesElements_declines read asked
    · contradiction
  · exact reject_keeps.declines

theorem stepHeader_declines {keyword : Keyword} {kind : ParagraphKind}
    {detail : Placed → ParagraphId → Detail} :
    Declines Keeps Stops (stepHeader keyword kind detail frame text) := by
  refine withHeader_declines fun inner rest => Declines.bind (readExpression_keeps _ _) fun _ => ?_
  exact .of_ok fun before => ⟨_, _, rfl⟩

theorem stepAfterDo_declines : Declines Keeps Stops (stepAfterDo finishing frame text) := by
  unfold stepAfterDo
  split
  · exact Preserves.pure.declines
  · split
    · exact Preserves.pure.declines
    · exact reject_keeps.declines

theorem stepDoCondition_declines : Declines Keeps Stops (stepDoCondition finishing frame text) := by
  refine Declines.bind (parenthesized_keeps _ _) fun header => ?_
  cases header with
  | none =>
      dsimp only
      split
      · exact reject_keeps.declines
      · exact Preserves.pure.declines
  | some parts =>
      obtain ⟨inner, rest⟩ := parts
      dsimp only
      split
      · exact Preserves.pure.declines
      · refine Declines.bind (readExpression_keeps _ _) fun _ => ?_
        exact .of_ok fun before => ⟨_, _, rfl⟩

theorem stepAfterTry_declines : Declines Keeps Stops (stepAfterTry finishing frame text) := by
  unfold stepAfterTry
  split
  · exact Preserves.pure.declines
  · split
    · refine withHeader_declines fun inner rest => Declines.bind (openBody_keeps _) fun body => ?_
      refine Declines.bind (addHandlers_keeps _ _) fun _ => ?_
      exact .of_ok fun before => ⟨_, _, rfl⟩
    · split
      · exact .of_ok fun before => ⟨_, _, rfl⟩
      · refine Declines.bind .get fun body => ?_
        split
        · exact Preserves.pure.declines
        · exact reject_keeps.declines

theorem stepValue_declines {keyword : Keyword} :
    Declines Keeps Stops (stepValue frame keyword text) := by
  unfold stepValue
  split
  · exact Preserves.pure.declines
  · exact reject_keeps.declines
  · next found =>
    refine Declines.bind (readCut_keeps (readExpression_keeps _) found) fun value => ?_
    split
    · next named =>
      have answers (body : Body) : ∃ answer, body.category value.sight value.expr = .ok answer := by
        cases shape : value.expr with
        | leaf node form => exact ⟨_, rfl⟩
        | _ => simp [shape, Expr.isIdentifier] at named
      refine Declines.bind (ask_keeps answers) fun category => .of_ok fun before => ?_
      split <;> exact ⟨_, _, rfl⟩
    · exact .of_ok fun before => ⟨_, _, rfl⟩

theorem stepKeyword_declines (keyword : Keyword) :
    Declines Keeps Stops (stepKeyword frame text keyword) := by
  cases keyword with
  | ifThen => exact stepCondition_declines
  | forLoop => exact stepFor_declines
  | whileLoop | switch | synchronized => exact stepHeader_declines
  | doLoop | tryBlock => exact .of_ok fun before => ⟨_, _, rfl⟩
  | returns | throws => exact stepValue_declines
  | breaks | continues =>
      unfold stepKeyword stepJump
      dsimp only
      split
      · exact Preserves.pure.declines
      · exact .of_ok fun before => ⟨_, _, rfl⟩
  | caseLabel =>
      unfold stepKeyword stepCase
      dsimp only
      split
      · exact Preserves.pure.declines
      · exact reject_keeps.declines
      · refine Declines.bind (readExpression_keeps _ _) fun _ => .of_ok fun before => ⟨_, _, rfl⟩
  | defaultLabel =>
      unfold stepKeyword stepDefault
      dsimp only
      split
      · exact Preserves.pure.declines
      · split
        · exact .of_ok fun before => ⟨_, _, rfl⟩
        · exact reject_keeps.declines

theorem stepConstruct_declines : Declines Keeps Stops (stepConstruct finishing frame text) := by
  unfold stepConstruct
  split
  · exact Preserves.pure.declines
  · exact stepAfterBranch_declines
  · exact stepAfterDo_declines
  · exact stepDoCondition_declines
  · exact stepAfterTry_declines
  · refine Declines.bind .get fun body => ?_
    split
    · exact stepKeyword_declines _
    · exact Preserves.pure.declines

/-- A step that fails loses nothing. -/
theorem step_declines (frame : Frame) : Declines Keeps Stops (step finishing frame text) := by
  cases frame with
  | paragraph frame => exact stepParagraph_declines
  | construct frame => exact stepConstruct_declines

end
end Reader
end MethodLowering
