import MethodLowering.Proofs.Reader.Forest
import MethodLowering.Proofs.Reader.Stability

/-!
# Bodies without line breaks

Lines have no line breaks, and the reader joins them with blanks.  So no text that is waiting has
one, and neither has anything that a finished body keeps of its text: trees, labels, names of
variables and of the types made from class bodies.
-/

namespace MethodLowering

open Body

/-- From a state with the invariant, where the computation succeeds, the state behind it has it too,
and the value has the property. -/
def Maintains {σ α : Type} (invariant : σ → Prop) (computation : EStateM Failure σ α)
    (property : α → Prop) : Prop :=
  ∀ state, invariant state → Gives computation state fun value after =>
    invariant after ∧ property value

section

variable {σ α β : Type} {invariant : σ → Prop} {computation : EStateM Failure σ α}
  {property : α → Prop}

theorem Maintains.bind {next : α → EStateM Failure σ β} {final : β → Prop}
    (maintains : Maintains invariant computation property)
    (later : ∀ value, property value → Maintains invariant (next value) final) :
    Maintains invariant (computation >>= next) final :=
  fun state kept => (maintains state kept).bind fun value between made =>
    later value made.2 between made.1

/-- The value does not matter. -/
theorem Maintains.then {next : α → EStateM Failure σ β} {final : β → Prop}
    (maintains : Maintains invariant computation property)
    (later : ∀ value, Maintains invariant (next value) final) :
    Maintains invariant (computation >>= next) final :=
  maintains.bind fun value _ => later value

theorem Maintains.pure {value : α} (holds : property value) :
    Maintains invariant (Pure.pure value : EStateM Failure σ α) property :=
  fun _ kept => .pure ⟨kept, holds⟩

theorem Maintains.throw {failure : Failure} :
    Maintains invariant (MonadExcept.throw failure : EStateM Failure σ α) property :=
  fun _ _ => .throw

theorem Maintains.get : Maintains invariant (MonadState.get : EStateM Failure σ σ) invariant :=
  fun _ kept => .of_ok rfl ⟨kept, kept⟩

theorem Maintains.change {change : σ → σ}
    (keeps : ∀ state, invariant state → invariant (change state)) :
    Maintains invariant (modify change : EStateM Failure σ PUnit) fun _ => True :=
  fun state kept => .of_ok rfl ⟨keeps state kept, trivial⟩

end

/-- The label, where there is one, is unbroken. -/
def UnbrokenLabel (label : Option String) : Prop := Text.Unbroken (label.getD "").toList

theorem unbrokenLabel_none : UnbrokenLabel none := Text.unbroken_nil

/-- The statements and the label of the paragraph are unbroken. -/
structure Paragraph.IsUnbroken (paragraph : Paragraph) : Prop where
  items : ∀ placed, .expression placed ∈ paragraph.items → placed.expr.Unbroken
  label : UnbrokenLabel paragraph.label

/-- The label of a jump. -/
def Detail.target? : Detail → Option String
  | jump _ label => label
  | _ => none

/-- The clauses of the construct and the label that it jumps to are unbroken. -/
structure Detail.IsUnbroken (detail : Detail) : Prop where
  clauses : ∀ clause ∈ detail.clauses, clause.expr.Unbroken
  target : UnbrokenLabel detail.target?

/-- The construct and its label are unbroken. -/
structure Construct.IsUnbroken (construct : Construct) : Prop where
  detail : construct.detail.IsUnbroken
  label : UnbrokenLabel construct.label

/-- The class body and the type that it is of are unbroken. -/
structure Site.IsUnbroken (site : Site) : Prop where
  baseType : Text.Unbroken site.baseType.toList
  body : Text.Unbroken site.body.toList

/-- All that was read is unbroken; so are the variables from a number on, those of the method
itself. -/
structure Body.IsUnbroken (base : VariableId) (body : Body) : Prop where
  reaches : base ≤ body.vars.size
  vars : body.UnbrokenFrom base
  paragraphs : ∀ paragraph ∈ body.paragraphs, paragraph.IsUnbroken
  constructs : ∀ construct ∈ body.constructs, construct.IsUnbroken
  sites : ∀ site ∈ body.sites, site.IsUnbroken

/-- The label that waits in the frame is unbroken. -/
def Frame.IsUnbroken : Frame → Prop
  | .paragraph frame => UnbrokenLabel frame.label
  | .construct _ => True

/-- What a step leaves is unbroken. -/
def Step.IsUnbroken : Step → Prop
  | .needMore => True
  | .advance frame rest => frame.IsUnbroken ∧ Text.Unbroken rest
  | .enter frame child rest => frame.IsUnbroken ∧ child.IsUnbroken ∧ Text.Unbroken rest
  | .leave rest => Text.Unbroken rest

theorem Array.forall_mem_modify {α : Type} {property : α → Prop} {items : Array α}
    (each : ∀ item ∈ items, property item) (id : Nat) (change : α → α)
    (keeps : ∀ item, property item → property (change item)) :
    ∀ item ∈ items.modify id change, property item := by
  intro item member
  obtain ⟨position, inside, rfl⟩ := Array.mem_iff_getElem.1 member
  rw [Array.getElem_modify]
  rw [Array.size_modify] at inside
  split
  · exact keeps _ (each _ (Array.getElem_mem inside))
  · exact each _ (Array.getElem_mem inside)

namespace Detail

variable {placed : Placed} {slot : ParagraphId} {detail : Detail}

/-- What is no jump has no label to jump to. -/
theorem isUnbroken_of_clauses (plain : detail.target? = none)
    (clauses : ∀ clause ∈ detail.clauses, clause.expr.Unbroken) : detail.IsUnbroken :=
  ⟨clauses, plain ▸ unbrokenLabel_none⟩

theorem isUnbroken_unread : unread.IsUnbroken :=
  isUnbroken_of_clauses rfl (List.forall_mem_nil _)

end Detail

namespace Body

section

variable {base : VariableId} {before after body : Body} {scope : ParagraphId}

theorem IsUnbroken.declares (unbroken : before.IsUnbroken base)
    (declares : Declares scope before after)
    (vars : after.UnbrokenFrom base) : after.IsUnbroken base := by
  obtain ⟨added, nextNode, effort, rfl, -, -⟩ := declares
  refine ⟨?_, vars, ?_, unbroken.constructs, unbroken.sites⟩
  · rw [extended, Array.size_append]
    exact Nat.le_trans unbroken.reaches (Nat.le_add_right ..)
  · unfold extended
    dsimp only
    refine Array.forall_mem_modify unbroken.paragraphs _ _ fun paragraph own => ?_
    exact ⟨own.items, own.label⟩

section

variable (unbroken : body.IsUnbroken base)
include unbroken

theorem IsUnbroken.addParagraph {paragraph : Paragraph}
    (isUnbroken : paragraph.IsUnbroken) : (body.addParagraph paragraph).IsUnbroken base :=
  ⟨unbroken.reaches, unbroken.vars,
    Array.forall_mem_push.2 ⟨isUnbroken, unbroken.paragraphs⟩, unbroken.constructs, unbroken.sites⟩

theorem IsUnbroken.addConstruct {construct : Construct}
    (isUnbroken : construct.IsUnbroken) : (body.addConstruct construct).IsUnbroken base :=
  ⟨unbroken.reaches, unbroken.vars, unbroken.paragraphs,
    Array.forall_mem_push.2 ⟨isUnbroken, unbroken.constructs⟩, unbroken.sites⟩

theorem IsUnbroken.modifyParagraph {change : Paragraph → Paragraph}
    (keeps : ∀ paragraph : Paragraph, paragraph.IsUnbroken → (change paragraph).IsUnbroken)
    (id : ParagraphId) : (body.modifyParagraph id change).IsUnbroken base :=
  ⟨unbroken.reaches, unbroken.vars, Array.forall_mem_modify unbroken.paragraphs id change keeps,
    unbroken.constructs, unbroken.sites⟩

theorem IsUnbroken.modifyDetail {change : Detail → Detail}
    (keeps : ∀ detail : Detail, detail.IsUnbroken → (change detail).IsUnbroken) (id : ConstructId) :
    (body.modifyDetail id change).IsUnbroken base := by
  refine ⟨unbroken.reaches, unbroken.vars, unbroken.paragraphs, ?_, unbroken.sites⟩
  unfold Body.modifyDetail
  dsimp only
  refine Array.forall_mem_modify unbroken.constructs id _ fun construct own => ?_
  exact ⟨keeps _ own.detail, own.label⟩

theorem IsUnbroken.hasTree {placed : Placed}
    (has : body.HasTree placed) : placed.expr.Unbroken := by
  rcases has with ⟨paragraph, member, inside⟩ | ⟨construct, member, inside⟩
  · exact (unbroken.paragraphs paragraph member).items placed inside
  · exact (unbroken.constructs construct member).detail.clauses placed inside

end

end
end Body

namespace Reader

section

variable {α : Type} {base : VariableId} {scope : ParagraphId} {text head rest : List Char}
  {frame : ParagraphFrame} {construct : ConstructFrame} {placed : Placed}

/-- The computation keeps the body unbroken. -/
abbrev Keeps (base : VariableId) (computation : ReadM α) (property : α → Prop) : Prop :=
  Maintains (Body.IsUnbroken base) computation property

theorem reject_unbroken {error : SourceError} {property : α → Prop} :
    Keeps base (reject error) property := .throw

theorem ask_unbroken (question : Body → Except Fault α) :
    Keeps base (ask question) fun _ => True := by
  refine Maintains.get.then fun body => ?_
  split
  · exact .pure trivial
  · exact .throw

/-! ## Trees -/

theorem readExpression_unbroken (solid : Text.Unbroken text) :
    Keeps base (Body.readExpression scope text) fun placed => placed.expr.Unbroken := by
  intro before unbroken placed after read
  have continues := Body.readExpression_continues read
  exact ⟨unbroken.declares continues.declares (continues.vars solid base unbroken.vars),
    continues.made.unbroken solid⟩

theorem readStatement_unbroken (solid : Text.Unbroken text) :
    Keeps base (Body.readStatement scope text) fun placed => placed.expr.Unbroken := by
  intro before unbroken placed after read
  have continues := (Body.readStatement_continues read).1
  exact ⟨unbroken.declares continues.declares (continues.vars solid base unbroken.vars),
    continues.made.unbroken solid⟩

theorem unbroken_constructedBase {call : Expr} (solid : call.Unbroken) :
    Text.Unbroken (constructedBase call).toList := by
  cases call with
  | call node callee arguments =>
      have part := solid.part (callee :: arguments) rfl rfl List.mem_cons_self
      simp only [constructedBase, String.toList_ofList]
      cases named : callee.constructedType? with
      | none => decide
      | some typeName => exact (part.constructed named).base
  | _ => exact Text.unbroken_nil

theorem noteSites_unbroken {spans : List Span} {source : List Char} (solid : Text.Unbroken head)
    (tree : placed.expr.Unbroken) (removed : Nat) :
    Keeps base (noteSites head source placed removed spans) fun _ => True := by
  induction spans generalizing removed with
  | nil => exact .pure trivial
  | cons span rest induction =>
      rw [noteSites]
      dsimp only
      split
      · exact reject_unbroken
      · rename_i call found
        have inside := tree.inside (List.mem_of_find?_eq_some found)
        refine Maintains.then (.change fun body unbroken => ?_) fun _ => induction _
        refine ⟨unbroken.reaches, unbroken.vars, unbroken.paragraphs, unbroken.constructs, ?_⟩
        refine Array.forall_mem_push.2 ⟨⟨unbroken_constructedBase inside, ?_⟩, unbroken.sites⟩
        rw [String.toList_ofList]
        exact solid.slice span

/-- A statement or value is read in front of a cut. -/
theorem readCut_unbroken {read : List Char → ReadM Placed} (reads : ∀ source, Text.Unbroken source →
      Keeps base (read source) fun placed => placed.expr.Unbroken)
    (solid : Text.Unbroken text) (cut : Text.Cut) :
    Keeps base (readCut read text cut) fun placed => placed.expr.Unbroken := by
  unfold readCut
  dsimp only
  split
  · exact .throw
  · rename_i source removed
    refine (reads source ((solid.take _).removeFrom? removed)).bind fun root tree => ?_
    split
    · exact .pure tree
    · exact (noteSites_unbroken (solid.take _) tree _).then fun _ => .pure tree

/-! ## Changes of the body -/

theorem addParagraph_unbroken {paragraph : Paragraph} (isUnbroken : paragraph.IsUnbroken) :
    Keeps base (addParagraph paragraph) fun _ => True :=
  Maintains.get.then fun _ =>
    Maintains.then (.change fun _ unbroken => unbroken.addParagraph isUnbroken) fun _ =>
      .pure trivial

theorem addConstruct_unbroken {construct : Construct} (isUnbroken : construct.IsUnbroken) :
    Keeps base (addConstruct construct) fun _ => True :=
  Maintains.get.then fun _ =>
    Maintains.then (.change fun _ unbroken => unbroken.addConstruct isUnbroken) fun _ =>
      .pure trivial

theorem modifyDetail_unbroken (id : ConstructId) {change : Detail → Detail}
    (keeps : ∀ detail : Detail, detail.IsUnbroken → (change detail).IsUnbroken) :
    Keeps base (modify fun body => body.modifyDetail id change) fun _ => True :=
  .change fun _ unbroken => unbroken.modifyDetail keeps id

theorem setDetail_unbroken {detail : Detail} (isUnbroken : detail.IsUnbroken) :
    Keeps base (setDetail construct detail) fun _ => True :=
  modifyDetail_unbroken construct.id fun _ _ => isUnbroken

theorem openBody_unbroken (kind : ParagraphKind) :
    Keeps base (openBody construct kind) fun _ => True :=
  addParagraph_unbroken ⟨by simp, unbrokenLabel_none⟩

theorem enterBody_isUnbroken {stage : Stage} {body : ParagraphId} (solid : Text.Unbroken rest) :
    (enterBody construct stage body rest).IsUnbroken :=
  ⟨trivial, unbrokenLabel_none, solid⟩

/-- Steps that leave unbroken text. -/
abbrev KeepsStep (base : VariableId) (step : ReadM Step) : Prop := Keeps base step Step.IsUnbroken

theorem needMore_unbroken : KeepsStep base (pure .needMore) := .pure trivial

theorem leave_unbroken (solid : Text.Unbroken rest) : KeepsStep base (pure (.leave rest)) :=
  .pure solid

/-! ## Headers -/

theorem parenthesized_unbroken (keyword : Keyword) (solid : Text.Unbroken text) :
    Keeps base (parenthesized keyword text) fun found =>
      ∀ inner rest, found = some (inner, rest) → Text.Unbroken inner ∧ Text.Unbroken rest := by
  unfold parenthesized
  split
  · refine .pure fun inner rest found => ?_
    contradiction
  · rename_i c rest
    split
    · refine .pure fun inner behind found => ?_
      obtain ⟨close, -, same⟩ := Option.map_eq_some_iff.1 found
      obtain ⟨rfl, rfl⟩ := Prod.mk.inj same
      exact ⟨(Text.unbroken_cons.1 solid).2.take _, solid.drop _⟩
    · exact reject_unbroken

theorem withHeader_unbroken (keyword : Keyword) {go : List Char → List Char → ReadM Step}
    (goes : ∀ inner rest, Text.Unbroken inner → Text.Unbroken rest → KeepsStep base (go inner rest))
    (solid : Text.Unbroken text) : KeepsStep base (withHeader keyword text go) := by
  refine (parenthesized_unbroken keyword solid).bind fun found parts => ?_
  split
  · obtain ⟨inner, rest⟩ := parts _ _ rfl
    exact goes _ _ inner rest
  · exact needMore_unbroken

theorem addBranch_unbroken {branch : Branch} (condition : branch.condition.expr.Unbroken) :
    Keeps base (addBranch construct branch) fun _ => True := by
  refine modifyDetail_unbroken construct.id fun detail isUnbroken => ?_
  split
  · rename_i branches
    refine Detail.isUnbroken_of_clauses rfl fun clause member => ?_
    rw [Detail.clauses, List.map_append, List.mem_append] at member
    rcases member with old | new
    · exact isUnbroken.clauses clause old
    · exact List.mem_singleton.1 new ▸ condition
  · exact Detail.isUnbroken_of_clauses rfl (List.forall_mem_singleton.2 condition)

theorem stepCondition_unbroken (solid : Text.Unbroken text) :
    KeepsStep base (stepCondition construct text) := by
  refine withHeader_unbroken .ifThen (fun inner rest header behind => ?_) solid
  refine (readExpression_unbroken header).bind fun condition tree => ?_
  refine (openBody_unbroken .body).then fun body => (addBranch_unbroken tree).then fun _ => .pure ?_
  exact enterBody_isUnbroken behind

theorem stepAfterBranch_unbroken (finishing : Bool) (solid : Text.Unbroken text) :
    KeepsStep base (stepAfterBranch finishing construct text) := by
  unfold stepAfterBranch
  dsimp only
  split_ifs with ended finishes continues waits again
  · exact leave_unbroken solid
  · exact needMore_unbroken
  · exact needMore_unbroken
  · exact .pure ⟨trivial, (solid.drop 4).trimStart.drop 2⟩
  · refine (openBody_unbroken .body).then fun body => ?_
    exact (addBranch_unbroken Expr.unbroken_absent).then fun _ =>
      .pure (enterBody_isUnbroken (solid.drop 4))
  · exact leave_unbroken solid

theorem iteratesElements_unbroken : Keeps base (iteratesElements placed) fun _ => True := by
  unfold iteratesElements
  split
  · exact reject_unbroken
  · exact (ask_unbroken _).then fun _ => .pure trivial
  · exact reject_unbroken

theorem stepFor_unbroken (solid : Text.Unbroken text) :
    KeepsStep base (stepFor construct text) := by
  refine withHeader_unbroken .forLoop (fun inner rest header behind => ?_) solid
  refine (openBody_unbroken .body).then fun body => ?_
  have each := header.splitTop ';'
  split
  · rename_i init condition update parts
    rw [parts] at each
    refine (readStatement_unbroken (each init (by simp))).bind fun first treeFirst => ?_
    refine (readExpression_unbroken (each condition (by simp))).bind fun second treeSecond => ?_
    refine (readExpression_unbroken (each update (by simp))).bind fun third treeThird => ?_
    refine .then (setDetail_unbroken (Detail.isUnbroken_of_clauses rfl ?_)) fun _ =>
      .pure (enterBody_isUnbroken behind)
    exact List.forall_mem_cons.2 ⟨treeFirst,
      List.forall_mem_cons.2 ⟨treeSecond, List.forall_mem_singleton.2 treeThird⟩⟩
  · rename_i only parts
    rw [parts] at each
    refine (readExpression_unbroken (each only (by simp))).bind fun clause tree => ?_
    refine iteratesElements_unbroken.then fun byElement => ?_
    refine .then (setDetail_unbroken (Detail.isUnbroken_of_clauses rfl ?_)) fun _ =>
      .pure (enterBody_isUnbroken behind)
    exact List.forall_mem_singleton.2 tree
  · exact reject_unbroken

theorem stepHeader_unbroken (keyword : Keyword) (kind : ParagraphKind)
    {detail : Placed → ParagraphId → Detail}
    (keeps : ∀ clause body, clause.expr.Unbroken → (detail clause body).IsUnbroken)
    (solid : Text.Unbroken text) :
    KeepsStep base (stepHeader keyword kind detail construct text) := by
  refine withHeader_unbroken keyword (fun inner rest header behind => ?_) solid
  refine (readExpression_unbroken header).bind fun clause tree =>
    (openBody_unbroken kind).then fun body => ?_
  exact (setDetail_unbroken (keeps clause body tree)).then fun _ =>
    .pure (enterBody_isUnbroken behind)

theorem stepDo_unbroken (solid : Text.Unbroken text) : KeepsStep base (stepDo construct text) := by
  refine (openBody_unbroken .body).then fun body => (setDetail_unbroken ?_).then fun _ =>
    .pure (enterBody_isUnbroken solid)
  exact Detail.isUnbroken_of_clauses rfl (List.forall_mem_singleton.2 Expr.unbroken_absent)

theorem stepAfterDo_unbroken (finishing : Bool) (solid : Text.Unbroken text) :
    KeepsStep base (stepAfterDo finishing construct text) := by
  unfold stepAfterDo
  split_ifs
  · exact needMore_unbroken
  · exact .pure ⟨trivial, solid.drop 5⟩
  · exact reject_unbroken

theorem stepDoCondition_unbroken (finishing : Bool) (solid : Text.Unbroken text) :
    KeepsStep base (stepDoCondition finishing construct text) := by
  refine (parenthesized_unbroken .doLoop solid).bind fun found parts => ?_
  split
  · split
    · exact reject_unbroken
    · exact needMore_unbroken
  · obtain ⟨header, behind⟩ := parts _ _ rfl
    dsimp only
    split
    · exact needMore_unbroken
    · refine (readExpression_unbroken header).bind fun condition tree => ?_
      refine (modifyDetail_unbroken construct.id fun detail isUnbroken => ?_).then fun _ =>
        leave_unbroken ?_
      · split
        · exact Detail.isUnbroken_of_clauses rfl (List.forall_mem_singleton.2 tree)
        · exact isUnbroken
      · split
        · exact behind.trimStart.drop 1
        · exact behind

/-! ## Exceptions -/

theorem stepTry_unbroken (solid : Text.Unbroken text) : KeepsStep base (stepTry construct text) :=
  (openBody_unbroken .body).then fun _ =>
    .then (setDetail_unbroken (Detail.isUnbroken_of_clauses rfl (List.forall_mem_nil _))) fun _ =>
      .pure (enterBody_isUnbroken solid)

theorem unbroken_alternatives (solid : Text.Unbroken text) :
    ∀ part ∈ alternatives text, Text.Unbroken part := by
  have trimmed := solid.trim
  have each := trimmed.splitTop '|'
  have alone : ∀ part ∈ [Text.trim text], Text.Unbroken part := List.forall_mem_singleton.2 trimmed
  unfold alternatives
  dsimp only
  split
  · rename_i last type types reversed
    have among {part : List Char} (member : part ∈ last :: type :: types) : Text.Unbroken part := by
      rw [← reversed, List.mem_reverse] at member
      exact each part member
    have final := Text.unbroken_reverse.2 (among List.mem_cons_self).trim
    split
    · refine List.forall_mem_map.2 fun front member => ?_
      refine Text.unbroken_append.2 ⟨?_, ?_⟩
      · rcases List.mem_append.1 member with early | own
        · obtain ⟨part, listed, rfl⟩ := List.mem_map.1 early
          exact (among (List.mem_cons_of_mem _ (List.mem_reverse.1 listed))).trim
        · rw [List.mem_singleton.1 own]
          exact (Text.unbroken_reverse.2 (final.dropWhile _)).trim
      · exact Text.unbroken_cons.2 ⟨by decide, Text.unbroken_reverse.2 (final.takeWhile _)⟩
    · exact alone
  · exact alone

theorem addHandlers_unbroken (body : ParagraphId) {texts : List (List Char)}
    (each : ∀ text ∈ texts, Text.Unbroken text) :
    Keeps base (addHandlers construct body texts) fun _ => True := by
  induction texts with
  | nil => exact .pure trivial
  | cons text rest induction =>
      rw [addHandlers]
      refine (readExpression_unbroken (each text List.mem_cons_self)).bind
        fun declaration tree => ?_
      refine (modifyDetail_unbroken construct.id fun detail isUnbroken => ?_).then fun _ =>
        induction fun other member => each other (List.mem_cons_of_mem _ member)
      split
      · refine Detail.isUnbroken_of_clauses rfl fun clause member => ?_
        rw [Detail.clauses, List.map_append, List.mem_append] at member
        rcases member with old | new
        · exact isUnbroken.clauses clause old
        · exact List.mem_singleton.1 new ▸ tree
      · exact isUnbroken

theorem stepAfterTry_unbroken (finishing : Bool) (solid : Text.Unbroken text) :
    KeepsStep base (stepAfterTry finishing construct text) := by
  unfold stepAfterTry
  split_ifs
  · exact needMore_unbroken
  · refine withHeader_unbroken .tryBlock (fun inner rest header behind => ?_)
      (solid.drop 5).trimStart
    refine (openBody_unbroken .body).then fun body => ?_
    refine (addHandlers_unbroken body (unbroken_alternatives header)).then fun _ => .pure ?_
    exact enterBody_isUnbroken behind
  · refine (openBody_unbroken .body).then fun body => ?_
    refine (modifyDetail_unbroken construct.id fun detail isUnbroken => ?_).then fun _ =>
      .pure (enterBody_isUnbroken (solid.drop 7))
    split
    · exact Detail.isUnbroken_of_clauses rfl isUnbroken.clauses
    · exact isUnbroken
  · refine Maintains.get.then fun body => ?_
    split
    · exact leave_unbroken solid
    · exact reject_unbroken

/-! ## Jumps and labels of a switch -/

theorem stepValue_unbroken (keyword : Keyword) (solid : Text.Unbroken text) :
    KeepsStep base (stepValue construct keyword text) := by
  unfold stepValue
  split
  · exact needMore_unbroken
  · exact reject_unbroken
  · rename_i cut found
    refine (readCut_unbroken (fun _ => readExpression_unbroken) solid cut).bind fun value tree => ?_
    have ends : KeepsStep base (do
        setDetail construct (.jump value none)
        return .leave (text.drop (cut.stop + 1))) := by
      refine .then (setDetail_unbroken ⟨?_, unbrokenLabel_none⟩) fun _ =>
        leave_unbroken (solid.drop _)
      exact List.forall_mem_singleton.2 tree
    split
    · refine (ask_unbroken _).then fun category => ?_
      split
      · refine Maintains.then (.change fun body unbroken => ?_) fun _ => ends
        exact ⟨unbroken.reaches, unbroken.vars, unbroken.paragraphs, unbroken.constructs,
          unbroken.sites⟩
      · exact ends
    · exact ends

theorem stepJump_unbroken (solid : Text.Unbroken text) :
    KeepsStep base (stepJump construct text) := by
  unfold stepJump
  dsimp only
  split
  · exact needMore_unbroken
  · refine .then (setDetail_unbroken ⟨?_, ?_⟩) fun _ => leave_unbroken (solid.drop _)
    · exact List.forall_mem_singleton.2 Expr.unbroken_absent
    · dsimp only [Detail.target?]
      split
      · exact unbrokenLabel_none
      · simp only [UnbrokenLabel, Option.getD_some, String.toList_ofList]
        exact (solid.takeWhile _).trim

theorem stepCase_unbroken (solid : Text.Unbroken text) :
    KeepsStep base (stepCase construct text) := by
  unfold stepCase
  split
  · exact needMore_unbroken
  · exact reject_unbroken
  · refine (readExpression_unbroken (solid.take _)).bind fun value tree => ?_
    refine .then (setDetail_unbroken (Detail.isUnbroken_of_clauses rfl ?_)) fun _ =>
      leave_unbroken (solid.drop _)
    exact List.forall_mem_singleton.2 tree

theorem stepDefault_unbroken (solid : Text.Unbroken text) :
    KeepsStep base (stepDefault construct text) := by
  unfold stepDefault
  split
  · exact needMore_unbroken
  · split
    · refine .then (setDetail_unbroken
        (Detail.isUnbroken_of_clauses rfl (List.forall_mem_nil _))) ?_
      exact fun _ => leave_unbroken (Text.unbroken_cons.1 solid).2
    · exact reject_unbroken

theorem stepKeyword_unbroken (solid : Text.Unbroken text) (keyword : Keyword) :
    KeepsStep base (stepKeyword construct text keyword) := by
  have one {clause : Placed} (tree : clause.expr.Unbroken) :
      ∀ other ∈ [clause], other.expr.Unbroken :=
    List.forall_mem_singleton.2 tree
  cases keyword with
  | ifThen => exact stepCondition_unbroken solid
  | forLoop => exact stepFor_unbroken solid
  | whileLoop =>
      exact stepHeader_unbroken _ _ (fun _ _ tree =>
        Detail.isUnbroken_of_clauses rfl (one tree)) solid
  | doLoop => exact stepDo_unbroken solid
  | switch =>
      exact stepHeader_unbroken _ _ (fun _ _ tree =>
        Detail.isUnbroken_of_clauses rfl (one tree)) solid
  | tryBlock => exact stepTry_unbroken solid
  | synchronized =>
      exact stepHeader_unbroken _ _ (fun _ _ tree =>
        Detail.isUnbroken_of_clauses rfl (one tree)) solid
  | returns => exact stepValue_unbroken _ solid
  | throws => exact stepValue_unbroken _ solid
  | breaks => exact stepJump_unbroken solid
  | continues => exact stepJump_unbroken solid
  | caseLabel => exact stepCase_unbroken solid
  | defaultLabel => exact stepDefault_unbroken solid

theorem stepConstruct_unbroken (finishing : Bool) (solid : Text.Unbroken text) :
    KeepsStep base (stepConstruct finishing construct text) := by
  unfold stepConstruct
  split
  · exact leave_unbroken solid
  · exact stepAfterBranch_unbroken finishing solid
  · exact stepAfterDo_unbroken finishing solid
  · exact stepDoCondition_unbroken finishing solid
  · exact stepAfterTry_unbroken finishing solid
  · refine Maintains.get.then fun body => ?_
    split
    · exact stepKeyword_unbroken solid _
    · exact needMore_unbroken

/-! ## Paragraphs -/

theorem addItem_unbroken {item : Item} (labelled : UnbrokenLabel frame.label)
    (trees : ∀ tree ∈ item.trees, tree.Unbroken) :
    Keeps base (addItem frame item) fun next => (Frame.paragraph next).IsUnbroken := by
  refine Maintains.then (.change fun body unbroken => ?_) fun _ => .pure ?_
  · refine unbroken.modifyParagraph (fun paragraph own => ?_) _
    refine ⟨fun placed member => ?_, own.label⟩
    rcases Array.mem_push.1 member with old | new
    · exact own.items placed old
    · exact trees placed.expr (by simp [← new, Item.trees])
  · split <;> exact labelled

theorem openBlock_unbroken (labelled : UnbrokenLabel frame.label) (solid : Text.Unbroken rest) :
    KeepsStep base (openBlock frame rest) := by
  refine (addParagraph_unbroken ⟨by simp, labelled⟩).then fun block => ?_
  refine (addItem_unbroken unbrokenLabel_none (List.forall_mem_nil _)).bind fun next isUnbroken =>
    .pure ?_
  exact ⟨isUnbroken, unbrokenLabel_none, solid⟩

theorem openConstruct_unbroken (keyword : Keyword) (labelled : UnbrokenLabel frame.label)
    (solid : Text.Unbroken rest) : KeepsStep base (openConstruct frame keyword rest) := by
  refine (addConstruct_unbroken ⟨Detail.isUnbroken_unread, labelled⟩).then fun id => ?_
  refine (addItem_unbroken unbrokenLabel_none (List.forall_mem_nil _)).bind fun next isUnbroken =>
    .pure ?_
  exact ⟨isUnbroken, trivial, solid⟩

theorem stepStatement_unbroken (labelled : UnbrokenLabel frame.label) (solid : Text.Unbroken text) :
    KeepsStep base (stepStatement frame text) := by
  unfold stepStatement
  split
  · exact needMore_unbroken
  · exact reject_unbroken
  · rename_i cut found
    refine (readCut_unbroken (fun _ => readStatement_unbroken) solid cut).bind fun root tree => ?_
    refine (addItem_unbroken labelled ?_).bind fun next isUnbroken =>
      .pure ⟨isUnbroken, solid.drop _⟩
    split
    · exact List.forall_mem_nil _
    · exact List.forall_mem_singleton.2 tree

theorem unbroken_leadingLabel? {label : List Char} {taken : Nat} (solid : Text.Unbroken text)
    (found : leadingLabel? text = some (label, taken)) : Text.Unbroken label := by
  unfold leadingLabel? at found
  dsimp only at found
  split_ifs at found
  obtain ⟨rfl, -⟩ := Prod.mk.inj (Option.some.inj found)
  exact solid.takeWhile _

section

variable (finishing : Bool) (labelled : UnbrokenLabel frame.label) (solid : Text.Unbroken text)
include finishing labelled solid

theorem stepLabel_unbroken : KeepsStep base (stepLabel finishing frame text) := by
  unfold stepLabel
  split
  · exact stepStatement_unbroken labelled solid
  · rename_i label taken found
    dsimp only
    split_ifs
    · exact needMore_unbroken
    · refine .pure ⟨?_, solid.drop _⟩
      simp only [Frame.IsUnbroken, UnbrokenLabel, Option.getD_some, String.toList_ofList]
      exact unbroken_leadingLabel? solid found
    · exact stepStatement_unbroken labelled solid

theorem stepWord_unbroken : KeepsStep base (stepWord finishing frame text) := by
  unfold stepWord
  split
  · exact reject_unbroken
  · split
    · exact openConstruct_unbroken _ labelled (solid.drop _)
    · split
      · exact stepStatement_unbroken labelled solid
      · exact stepLabel_unbroken finishing labelled solid

theorem stepItem_unbroken : KeepsStep base (stepItem finishing frame text) := by
  unfold stepItem
  split
  · exact needMore_unbroken
  · have behind := (Text.unbroken_cons.1 solid).2
    split_ifs
    · exact leave_unbroken behind
    · exact reject_unbroken
    · exact openBlock_unbroken labelled behind
    · exact (addItem_unbroken labelled (List.forall_mem_nil _)).bind fun next isUnbroken =>
        .pure ⟨isUnbroken, behind⟩
    · exact stepWord_unbroken finishing labelled solid

end

theorem stepOpening_unbroken (labelled : UnbrokenLabel frame.label) (solid : Text.Unbroken text) :
    KeepsStep base (stepOpening frame text) := by
  unfold stepOpening
  split
  · exact needMore_unbroken
  · split
    · refine Maintains.then (.change fun body unbroken => ?_) fun _ =>
        .pure ⟨labelled, (Text.unbroken_cons.1 solid).2⟩
      refine unbroken.modifyParagraph (fun paragraph own => ?_) _
      exact ⟨own.items, own.label⟩
    · exact .pure ⟨labelled, solid⟩

theorem stepParagraph_unbroken (finishing : Bool) (labelled : UnbrokenLabel frame.label)
    (solid : Text.Unbroken text) : KeepsStep base (stepParagraph finishing frame text) := by
  unfold stepParagraph
  split
  · exact stepOpening_unbroken labelled solid
  · exact leave_unbroken solid
  · exact stepItem_unbroken finishing labelled solid

/-- One step of the reader keeps all that it knows unbroken. -/
theorem step_unbroken (finishing : Bool) {frame : Frame} (own : frame.IsUnbroken)
    (solid : Text.Unbroken text) : KeepsStep base (step finishing frame text) := by
  cases frame with
  | paragraph frame => exact stepParagraph_unbroken finishing own solid
  | construct frame => exact stepConstruct_unbroken finishing solid

/-! ## Whole bodies -/

/-- The body, the frames and the text that waits are unbroken. -/
structure IsUnbroken (base : VariableId) (reader : Reader) : Prop where
  body : reader.body.IsUnbroken base
  stack : ∀ frame ∈ reader.stack, frame.IsUnbroken
  leftover : Text.Unbroken reader.leftover

theorem run_unbroken (finishing : Bool) (count : Nat) :
    Maintains (IsUnbroken base) (run finishing count) fun _ => True := by
  induction count with
  | zero => exact fun reader unbroken value after ran => by cases ran
  | succ count induction =>
      intro reader unbroken value after ran
      obtain ⟨body, stack, leftover⟩ := reader
      obtain ⟨kept, frames, solid⟩ := unbroken
      cases stack with
      | nil =>
          obtain ⟨rfl, rfl⟩ := EStateM.Result.ok.inj ran
          exact ⟨⟨kept, frames, solid⟩, trivial⟩
      | cons frame stack =>
          obtain ⟨own, others⟩ := List.forall_mem_cons.1 frames
          have steps := step_unbroken finishing own solid.trimStart body kept
          unfold run at ran
          dsimp only at ran
          cases stepped : step finishing frame (Text.trimStart leftover) body with
          | error failure later => simp [stepped] at ran
          | ok next later =>
              rw [stepped] at ran
              obtain ⟨keptLater, isUnbroken⟩ := steps next later stepped
              cases next with
              | needMore =>
                  obtain ⟨rfl, rfl⟩ := EStateM.Result.ok.inj ran
                  exact ⟨⟨keptLater, frames, solid⟩, trivial⟩
              | advance frame rest =>
                  obtain ⟨first, behind⟩ := isUnbroken
                  exact induction _ ⟨keptLater, List.forall_mem_cons.2 ⟨first, others⟩, behind⟩ _ _
                    ran
              | enter frame child rest =>
                  obtain ⟨first, second, behind⟩ := isUnbroken
                  exact induction _ ⟨keptLater, List.forall_mem_cons.2 ⟨second,
                    List.forall_mem_cons.2 ⟨first, others⟩⟩, behind⟩ _ _ ran
              | leave rest =>
                  have behind : Text.Unbroken rest := isUnbroken
                  exact induction _ ⟨keptLater, others, behind⟩ _ _ ran

theorem feed_unbroken {line : List Char} (solid : Text.Unbroken line) :
    Maintains (IsUnbroken base) (feed line) fun _ => True := by
  refine Maintains.then (.change fun reader unbroken => ⟨unbroken.body, unbroken.stack, ?_⟩)
    fun _ =>
    run_unbroken false _
  dsimp only
  split
  · exact solid
  · exact Text.unbroken_append.2 ⟨unbroken.leftover, Text.unbroken_cons.2 ⟨by decide, solid⟩⟩

theorem drain_unbroken (retries : Nat) :
    Maintains (IsUnbroken base) (drain retries) fun _ => True := by
  induction retries with
  | zero => exact run_unbroken true _
  | succ retries induction =>
      refine (run_unbroken true _).then fun _ => Maintains.get.then fun reader => ?_
      split
      · exact .pure trivial
      · exact induction

theorem feedAll_unbroken {lines : List String} (solid : ∀ line ∈ lines, Text.Unbroken line.toList) :
    Maintains (IsUnbroken base) (feedAll lines) fun _ => True := by
  induction lines with
  | nil => exact .pure trivial
  | cons line rest induction =>
      refine (feed_unbroken (solid line List.mem_cons_self)).then fun _ => ?_
      exact induction fun other member => solid other (List.mem_cons_of_mem _ member)

end
end Reader

/-! ## Types made from class bodies -/

/-- The name of the type and the names that it captures are unbroken. -/
structure Lifted.IsUnbroken (lifted : Lifted) : Prop where
  name : Text.Unbroken lifted.name.toList
  captures : ∀ capture ∈ lifted.captures, Text.Unbroken capture.name.toList

namespace Body

/-- The word that is being read and the names found so far are unbroken. -/
structure NameScan.IsUnbroken (scan : NameScan) : Prop where
  word : Text.Unbroken scan.word
  names : ∀ name ∈ scan.names, Text.Unbroken name.toList

section

variable {base : VariableId} {body : Body} {text : List Char} {scan : NameScan} {c : Char}

theorem NameScan.IsUnbroken.endWord (unbroken : scan.IsUnbroken) : scan.endWord.IsUnbroken := by
  unfold NameScan.endWord
  split
  · exact unbroken
  · refine ⟨Text.unbroken_nil, ?_⟩
    dsimp only
    split
    · exact unbroken.names
    · refine List.forall_mem_cons.2 ⟨?_, unbroken.names⟩
      rw [String.toList_ofList, Text.unbroken_reverse]
      exact unbroken.word

theorem NameScan.IsUnbroken.read (unbroken : scan.IsUnbroken) (solid : c ≠ '\n') :
    (scan.read c).IsUnbroken := by
  have next : ({ scan with quote := scan.quote.next c } : NameScan).IsUnbroken :=
    ⟨unbroken.word, unbroken.names⟩
  unfold NameScan.read
  dsimp only
  split
  · exact ⟨Text.unbroken_cons.2 ⟨solid, unbroken.word⟩, unbroken.names⟩
  · split
    · exact ⟨next.endWord.word, next.endWord.names⟩
    · exact next.endWord

theorem unbroken_referencedNames (solid : Text.Unbroken text) :
    ∀ name ∈ referencedNames text, Text.Unbroken name.toList := by
  have scanned (scan : NameScan) (unbroken : scan.IsUnbroken) :
      (text.foldl NameScan.read scan).IsUnbroken := by
    induction text generalizing scan with
    | nil => exact unbroken
    | cons c rest induction =>
        rw [Text.unbroken_cons] at solid
        exact induction solid.2 _ (unbroken.read solid.1)
  exact (scanned {} ⟨Text.unbroken_nil, List.forall_mem_nil _⟩).endWord.names

/-- What is captured is referred to. -/
theorem referenced_of_mem_captureFrom {referenced seen : List String} {entries : List Variable}
    {capture : Capture} (member : capture ∈ (captureFrom referenced seen entries).1) :
    capture.name ∈ referenced := by
  induction entries generalizing seen with
  | nil => contradiction
  | cons entry rest induction =>
      rw [captureFrom] at member
      dsimp only at member
      split_ifs at member with known refers
      · exact induction member
      · rcases List.mem_append.1 member with outer | own
        · exact induction outer
        · rw [List.mem_singleton.1 own]
          exact List.contains_iff_mem.1 (Bool.and_eq_true_iff.1 refers).2
      · exact induction member

theorem unbroken_liftedName {baseType : String} (solid : Text.Unbroken baseType.toList)
    (count : Nat) :
    Text.Unbroken (liftedName (liftedStem baseType) count).toList := by
  have stem : Text.Unbroken (liftedStem baseType).toList := by
    rw [liftedStem, String.toList_append, String.toList_ofList, Text.unbroken_append]
    refine ⟨by decide, fun member => ?_⟩
    obtain ⟨c, inside, same⟩ := List.mem_map.1 member
    split at same
    · contradiction
    · exact solid (same ▸ inside)
  unfold liftedName
  split
  · exact stem
  · simp only [String.toList_append, Text.unbroken_append]
    exact ⟨⟨stem, by decide⟩, Text.unbroken_toString count⟩

theorem unbroken_liftFrom {stems : List String} {sites : List Site}
    (each : ∀ site ∈ sites, site.IsUnbroken) :
    ∀ lifted ∈ liftFrom body stems sites, lifted.IsUnbroken := by
  induction sites generalizing stems with
  | nil => exact List.forall_mem_nil _
  | cons site rest induction =>
      obtain ⟨own, others⟩ := List.forall_mem_cons.1 each
      rw [liftFrom]
      refine List.forall_mem_cons.2 ⟨⟨unbroken_liftedName own.baseType _, ?_⟩, induction others⟩
      intro capture member
      exact unbroken_referencedNames own.body _ (referenced_of_mem_captureFrom member)

/-- At the start there are only the parameters. -/
theorem isUnbroken_initial (context : Context) (options : Options) :
    (initial context options).IsUnbroken (initial context options).vars.size := by
  obtain ⟨added, nextNode, effort, same, -, -⟩ := declares_initial context options
  refine ⟨Nat.le_refl _, fun id entry above known => ?_, ?_, by simp [same, extended],
    by simp [same, extended]⟩
  · exact absurd (Array.getElem?_eq_some_iff.1 known).1 (Nat.not_lt.2 above)
  · rw [same]
    unfold extended
    dsimp only
    refine Array.forall_mem_modify ?_ _ _ fun paragraph own => ⟨own.items, own.label⟩
    rintro paragraph member
    obtain rfl : paragraph = { kind := .root, parent := none } := by simpa using member
    exact ⟨by simp, unbrokenLabel_none⟩

/-- What a finished body keeps of text is unbroken. -/
theorem finish_unbroken : Maintains (Reader.IsUnbroken base) Reader.finish fun body =>
    body.IsUnbroken base ∧ ∀ lifted ∈ body.lifted, lifted.IsUnbroken := by
  refine (Reader.drain_unbroken _).then fun _ => Maintains.get.bind fun reader unbroken => ?_
  obtain ⟨reaches, vars, paragraphs, constructs, sites⟩ := unbroken.body
  split
  · refine .pure ⟨⟨reaches, vars, paragraphs, constructs, sites⟩, fun lifted member => ?_⟩
    refine unbroken_liftFrom (fun site among => ?_) lifted (List.mem_toArray.1 member)
    exact sites site (Array.mem_toList_iff.1 among)
  · exact .throw

end

/-- **Unbroken lines.**  What is kept of lines without line breaks has none.  Of the variables, only
the parameters of the method need not come from the lines. -/
theorem ofLines_unbroken {context : Context} {options : Options} {lines : List String} {body : Body}
    (solid : ∀ line ∈ lines, Text.Unbroken line.toList)
    (read : Body.ofLines context options lines = .ok body) :
    body.IsUnbroken (initial context options).vars.size ∧
      ∀ lifted ∈ body.lifted, lifted.IsUnbroken := by
  have start : (Reader.initial context options).IsUnbroken (initial context options).vars.size :=
    ⟨isUnbroken_initial context options, List.forall_mem_singleton.2 unbrokenLabel_none,
      Text.unbroken_nil⟩
  unfold Body.ofLines at read
  split at read
  · rename_i found last ran
    obtain rfl := Except.ok.inj read
    exact ((Reader.feedAll_unbroken solid).then (fun _ => finish_unbroken) _ start found last ran).2
  · contradiction

end Body
end MethodLowering
