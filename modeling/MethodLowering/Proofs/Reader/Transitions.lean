import Mathlib.Logic.Relation
import MethodLowering.Proofs.Reader.Turns
import MethodLowering.Proofs.Reduction.Clauses

/-!
# What a step of the reader can do

A step replaces the top frame by other frames and changes the body.  The relation `Transition` says
once, for every kind of frame, what these changes are; invariants of the reader follow from it.
-/

namespace MethodLowering

open Body

/-! ## Reading several clauses -/

namespace Body

/-- Clauses that are read one after another in the scope of a paragraph. -/
inductive ReadsAll (scope : ParagraphId) : Body → List Placed → Body → Prop where
  | nil (body : Body) : ReadsAll scope body [] body
  | cons {before between after : Body} {placed : Placed} {rest : List Placed}
      (first : Reads scope before placed between) (others : ReadsAll scope between rest after) :
      ReadsAll scope before (placed :: rest) after

/-- A single clause. -/
theorem Reads.single {scope : ParagraphId} {before after : Body} {placed : Placed}
    (reads : Reads scope before placed after) : ReadsAll scope before [placed] after :=
  .cons reads (.nil after)

/-- What is read does not depend on a construct, so the change of a construct may come later. -/
theorem ReadsAll.of_modifyDetail {scope : ParagraphId} {before after : Body} {id : ConstructId}
    {change : Detail → Detail} {clauses : List Placed}
    (reads : ReadsAll scope (before.modifyDetail id change) clauses after) :
    ∃ between, ReadsAll scope before clauses between ∧ after = between.modifyDetail id change := by
  generalize start : before.modifyDetail id change = changed at reads
  induction reads generalizing before with
  | nil body => exact ⟨before, .nil before, start.symm⟩
  | cons first others induction =>
      subst start
      obtain ⟨declares, within, sight, isRead⟩ := first
      obtain ⟨added, nextNode, effort, rfl, above, owned⟩ := declares
      obtain ⟨between, rest, same⟩ :=
        @induction (before.extended scope added nextNode effort) rfl
      have reads : Reads scope before _ (before.extended scope added nextNode effort) :=
        ⟨⟨added, nextNode, effort, rfl, above, owned⟩, within, sight, isRead⟩
      exact ⟨between, .cons reads rest, same⟩

/-- The class bodies behind constructions of a tree are noted. -/
def Notes (placed : Placed) (before after : Body) : Prop :=
  ∃ added : List Site, after = { before with sites := before.sites ++ added.toArray } ∧
    ∀ site ∈ added, site.call.expr ∈ placed.expr.preorder ∧ site.call.sight = placed.sight

/-- The tree was read with class bodies taken out of its text. -/
def ReadsCut (scope : ParagraphId) (before : Body) (placed : Placed) (after : Body) : Prop :=
  ∃ between, Reads scope before placed between ∧ Notes placed between after

end Body

/-! ## Changes of a construct -/

namespace Detail

/-- With a further branch. -/
def withBranch (branch : Branch) : Detail → Detail
  | conditional branches => conditional (branches ++ [branch])
  | _ => conditional [branch]

/-- With the condition of a `do`. -/
def withCondition (condition : Placed) : Detail → Detail
  | doLoop body _ => doLoop body condition
  | other => other

/-- With further handlers of a `try`. -/
def withHandlers (declarations : List Placed) (body : ParagraphId) : Detail → Detail
  | tryBlock guarded handlers cleanup =>
      tryBlock guarded (handlers ++ declarations.map fun declaration => ⟨declaration, body⟩) cleanup
  | other => other

/-- With the cleanup of a `try`. -/
def withCleanup (body : ParagraphId) : Detail → Detail
  | tryBlock guarded handlers _ => tryBlock guarded handlers (some body)
  | other => other

end Detail

namespace Reader

/-- How a construct opens a body: the keyword and the stage decide which clauses are read, outside
and inside the scope of the body, how the construct changes, and which stage follows. -/
inductive Opens (frame : ConstructFrame) (slot : ParagraphId) (body : Body) :
    Keyword → Stage → List Placed → List Placed → ParagraphKind → (Detail → Detail) → Stage → Prop
    where
  | branch (condition : Placed) :
      Opens frame slot body .ifThen .header [condition] [] .body
        (Detail.withBranch ⟨condition, slot⟩) .afterBranch
  | otherwise (keyword : Keyword) :
      Opens frame slot body keyword .afterBranch [] [] .body
        (Detail.withBranch ⟨noClause frame, slot⟩) .done
  | counted (init condition update : Placed)
      (clauses : ∀ clause ∈ [init, condition, update], clause.IsClause body) :
      Opens frame slot body .forLoop .header [] [init, condition, update] .body
        (fun _ => .counted init condition update slot) .done
  | iterator (header : Placed) (byElement : Bool)
      (iterates : iteratesElements header body = .ok byElement body) :
      Opens frame slot body .forLoop .header [] [header] .body
        (fun _ => .iterator header byElement slot) .done
  | whileLoop (condition : Placed) :
      Opens frame slot body .whileLoop .header [condition] [] .body
        (fun _ => .whileLoop condition slot) .done
  | switch (subject : Placed) :
      Opens frame slot body .switch .header [subject] [] .switchBody
        (fun _ => .switch subject slot) .done
  | synchronized (lock : Placed) :
      Opens frame slot body .synchronized .header [lock] [] .body
        (fun _ => .synchronized lock slot) .done
  | doLoop :
      Opens frame slot body .doLoop .header [] [] .body
        (fun _ => .doLoop slot (noClause frame)) .afterDoBody
  | tryBlock :
      Opens frame slot body .tryBlock .header [] [] .body (fun _ => .tryBlock slot [] none)
        .afterTryClause
  | handler (keyword : Keyword) (declarations : List Placed) (some_ : declarations ≠ []) :
      Opens frame slot body keyword .afterTryClause [] declarations .body
        (Detail.withHandlers declarations slot) .afterTryClause
  | cleanup (keyword : Keyword) :
      Opens frame slot body keyword .afterTryClause [] [] .body (Detail.withCleanup slot) .done

/-- The value of a `return` hands back an object held by a smart handle. -/
def ReturnsHandle (keyword : Keyword) (value : Placed) (body : Body) : Prop :=
  keyword = .returns ∧ value.expr.isIdentifier = true ∧
    body.category value.sight value.expr = .ok .ownedValue

/-- The frame after its paragraph took a statement. -/
def taking (frame : ParagraphFrame) : ParagraphFrame :=
  match frame.mode with
  | .single _ => { frame with mode := .single true }
  | _ => frame

/-- The paragraph takes statements. -/
def takesItems (mode : ParagraphMode) : Prop :=
  mode = .root ∨ mode = .braced ∨ mode = .single false

/-- A step with the text that is left: the top frame is replaced by others, the first of them on
top, and the body is changed. -/
inductive Transition (text : List Char) (body : Body) :
    Frame → List Frame → List Char → Body → Prop where
  /-- A body in brackets begins. -/
  | brace {frame : ParagraphFrame} {rest : List Char} (mode : frame.mode = .awaitOpen) :
      Transition text body (.paragraph frame) [.paragraph { frame with mode := .braced }] rest
        (body.modifyParagraph frame.id fun paragraph => { paragraph with braced := true })
  /-- A body of one statement begins. -/
  | unbraced {frame : ParagraphFrame} {first : Char} {rest : List Char}
      (mode : frame.mode = .awaitOpen) (starts : text = first :: rest) (solid : first ≠ '{') :
      Transition text body (.paragraph frame) [.paragraph { frame with mode := .single false }] text
        body
  /-- A paragraph ends. -/
  | close {frame : ParagraphFrame} {rest : List Char}
      (mode : frame.mode = .braced ∨ frame.mode = .single true) :
      Transition text body (.paragraph frame) [] rest body
  /-- A statement without anything. -/
  | empty {frame : ParagraphFrame} {rest : List Char} (mode : takesItems frame.mode) :
      Transition text body (.paragraph frame) [.paragraph (taking frame)] rest
        (body.addItem frame.id .empty)
  /-- An expression statement. -/
  | statement {frame : ParagraphFrame} {rest : List Char} {placed : Placed} {after : Body}
      (mode : takesItems frame.mode) (reads : ReadsCut frame.id body placed after) :
      Transition text body (.paragraph frame) [.paragraph (taking frame)] rest
        (after.addItem frame.id (if placed.isAbsent then .empty else .expression placed))
  /-- A block begins. -/
  | block {frame : ParagraphFrame} {rest : List Char} (mode : takesItems frame.mode)
      (starts : text = '{' :: rest) :
      Transition text body (.paragraph frame)
        [.ofParagraph body.paragraphs.size .braced,
          .paragraph (taking { frame with label := none })]
        rest
        ((body.addParagraph
          { kind := .block, parent := some frame.id, label := frame.label, braced := true }).addItem
          frame.id (.block body.paragraphs.size))
  /-- A construct begins. -/
  | keyword {frame : ParagraphFrame} {rest : List Char} {keyword : Keyword}
      (mode : takesItems frame.mode) :
      Transition text body (.paragraph frame)
        [.construct { id := body.constructs.size, scope := frame.id, stage := .header },
          .paragraph (taking { frame with label := none })]
        rest
        ((body.addConstruct { keyword, label := frame.label, scope := frame.id }).addItem frame.id
          (.construct body.constructs.size))
  /-- A label. -/
  | label {frame : ParagraphFrame} {rest : List Char} {label : String}
      (mode : frame.mode = .root ∨ frame.mode = .braced) :
      Transition text body (.paragraph frame) [.paragraph { frame with label := some label }] rest
        body
  /-- A body of a construct begins. -/
  | slot {frame : ConstructFrame} {rest : List Char} {keyword : Keyword}
      {outer inner : List Placed} {kind : ParagraphKind} {change : Detail → Detail} {next : Stage}
      {first second : Body}
      (known : frame.stage = .header →
        body.constructs[frame.id]?.map (·.keyword) = some keyword)
      (reads : ReadsAll frame.scope body outer first)
      (readsInner : ReadsAll first.paragraphs.size
        (first.addParagraph { kind, parent := some frame.scope }) inner second)
      (opens : Opens frame first.paragraphs.size second keyword frame.stage outer inner kind change
        next) :
      Transition text body (.construct frame)
        [.ofParagraph first.paragraphs.size .awaitOpen, .construct { frame with stage := next }]
        rest (second.modifyDetail frame.id change)
  /-- An `else if` follows. -/
  | elseIf {frame : ConstructFrame} {rest : List Char} (stage : frame.stage = .afterBranch) :
      Transition text body (.construct frame) [.construct { frame with stage := .header }] rest body
  /-- The `while` of a `do` follows. -/
  | doWhile {frame : ConstructFrame} {rest : List Char} (stage : frame.stage = .afterDoBody) :
      Transition text body (.construct frame) [.construct { frame with stage := .doCondition }] rest
        body
  /-- The condition of a `do` follows. -/
  | doCondition {frame : ConstructFrame} {rest : List Char} {condition : Placed} {after : Body}
      (stage : frame.stage = .doCondition) (reads : Reads frame.scope body condition after) :
      Transition text body (.construct frame) [] rest
        (after.modifyDetail frame.id (Detail.withCondition condition))
  /-- A construct ends without further text of its own. -/
  | leave {frame : ConstructFrame} {rest : List Char}
      (stage : frame.stage = .done ∨ frame.stage = .afterBranch ∨
        (frame.stage = .afterTryClause ∧ hasClause body frame.id = true)) :
      Transition text body (.construct frame) [] rest body
  /-- A `return` or `throw`. -/
  | value {frame : ConstructFrame} {rest : List Char} {keyword : Keyword} {value : Placed}
      {after : Body} {handle : Bool} (stage : frame.stage = .header)
      (known : body.constructs[frame.id]?.map (·.keyword) = some keyword)
      (exits : keyword = .returns ∨ keyword = .throws)
      (reads : ReadsCut frame.scope body value after)
      (handles : handle = true ↔ ReturnsHandle keyword value after) :
      Transition text body (.construct frame) [] rest
        ({ after with returnsHandle := after.returnsHandle || handle }.modifyDetail frame.id
          fun _ => .jump value none)
  /-- A `break` or `continue`. -/
  | jump {frame : ConstructFrame} {rest : List Char} {keyword : Keyword} {label : Option String}
      (stage : frame.stage = .header)
      (known : body.constructs[frame.id]?.map (·.keyword) = some keyword)
      (jumps : keyword = .breaks ∨ keyword = .continues) :
      Transition text body (.construct frame) [] rest
        (body.modifyDetail frame.id fun _ => .jump (noClause frame) label)
  /-- A `case`. -/
  | caseLabel {frame : ConstructFrame} {rest : List Char} {value : Placed} {after : Body}
      (stage : frame.stage = .header)
      (known : body.constructs[frame.id]?.map (·.keyword) = some .caseLabel)
      (reads : Reads frame.scope body value after) :
      Transition text body (.construct frame) [] rest
        (after.modifyDetail frame.id fun _ => .caseLabel value)
  /-- A `default`. -/
  | defaultLabel {frame : ConstructFrame} {rest : List Char} (stage : frame.stage = .header)
      (known : body.constructs[frame.id]?.map (·.keyword) = some .defaultLabel) :
      Transition text body (.construct frame) [] rest
        (body.modifyDetail frame.id fun _ => .defaultLabel)

/-- The frames that replace the top one, and the text that is left; nothing when the step waits. -/
def taken? : Step → Option (List Frame × List Char)
  | .needMore => none
  | .advance frame rest => some ([frame], rest)
  | .enter frame child rest => some ([child, frame], rest)
  | .leave rest => some ([], rest)

/-- A step that waits leaves the body as it is, and every other step is a transition. -/
def Obeys (text : List Char) (body : Body) (frame : Frame) (outcome : Step) (after : Body) : Prop :=
  match taken? outcome with
  | none => after = body
  | some (frames, rest) => Transition text body frame frames rest after

/-- The step, where it succeeds, waits or is a transition. -/
def Steps (text : List Char) (body : Body) (frame : Frame) (computation : ReadM Step) : Prop :=
  Gives computation body (Obeys text body frame)

section

variable {text : List Char} {before after body : Body} {finishing : Bool}

theorem Steps.wait {frame : Frame} : Steps text body frame (pure .needMore) := .pure rfl

theorem Steps.reject {frame : Frame} {error : SourceError} :
    Steps text body frame (reject error) :=
  .throw

/-! ## Statements -/

theorem noteSites_notes {head source : List Char} {root : Placed} (removed : Nat)
    (spans : List Span) :
    Gives (noteSites head source root removed spans) body fun _ after => Notes root body after := by
  induction spans generalizing removed body with
  | nil => exact .pure ⟨[], by simp, by simp⟩
  | cons span rest induction =>
      rw [noteSites]
      dsimp only
      split
      · exact .throw
      · rename_i call found
        have inside : call ∈ root.expr.preorder := List.mem_of_find?_eq_some found
        refine .next rfl fun _ after behind => ?_
        obtain ⟨added, rfl, places⟩ := induction _ _ _ behind
        let site : Site :=
          { call := ⟨call, root.sight⟩
            baseType := constructedBase call
            body := String.ofList (span.slice head) }
        refine ⟨site :: added, by simp [site], fun other member => ?_⟩
        rcases List.mem_cons.1 member with rfl | later
        · exact ⟨inside, rfl⟩
        · exact places other later

theorem readCut_reads {scope : ParagraphId} {read : List Char → ReadM Placed} {cut : Text.Cut}
    (reads : ∀ source body, Gives (read source) body (Reads scope body)) :
    Gives (readCut read text cut) body (ReadsCut scope body) := by
  rw [readCut]
  split
  · exact .throw
  · refine (reads _ _).bind fun root between readsRoot => ?_
    split
    · exact .pure ⟨between, readsRoot, [], by simp, by simp⟩
    · refine (noteSites_notes _ _).bind fun _ final noted => ?_
      exact .pure ⟨between, readsRoot, noted⟩

/-! ## Paragraphs -/

variable {frame : ParagraphFrame}

theorem addItem_eq (item : Item) :
    addItem frame item before = .ok (taking frame) (before.addItem frame.id item) := by
  rw [addItem, taking]
  cases frame.mode <;> rfl

theorem openBlock_steps {rest : List Char} (mode : takesItems frame.mode)
    (starts : text = '{' :: rest) : Steps text body (.paragraph frame) (openBlock frame rest) :=
  .next rfl (.next (addItem_eq _) (.pure (.block mode starts)))

theorem openConstruct_steps {rest : List Char} {keyword : Keyword} (mode : takesItems frame.mode) :
    Steps text body (.paragraph frame) (openConstruct frame keyword rest) := by
  have same : (taking { frame with label := none }).id = frame.id := by
    rw [taking]
    split <;> rfl
  refine .next rfl (.next (addItem_eq _) ?_)
  rw [same]
  exact .pure (.keyword mode)

theorem stepStatement_steps (mode : takesItems frame.mode) :
    Steps text body (.paragraph frame) (stepStatement frame text) := by
  rw [stepStatement]
  split
  · exact .wait
  · exact .reject
  · refine (readCut_reads fun _ _ _ _ => readStatement_reads).bind fun placed between reads => ?_
    exact .next (addItem_eq _) (.pure (.statement mode reads))

theorem stepLabel_steps (mode : frame.mode = .root ∨ frame.mode = .braced) :
    Steps text body (.paragraph frame) (stepLabel finishing frame text) := by
  have takes : takesItems frame.mode := by
    rcases mode with root | braced
    · exact .inl root
    · exact .inr (.inl braced)
  rw [stepLabel]
  split
  · exact stepStatement_steps takes
  · dsimp only
    split
    · exact .wait
    · split
      · exact .pure (.label mode)
      · exact stepStatement_steps takes

theorem stepWord_steps (mode : takesItems frame.mode) :
    Steps text body (.paragraph frame) (stepWord finishing frame text) := by
  unfold stepWord
  split
  · exact .reject
  · split
    · exact openConstruct_steps mode
    · split
      · exact stepStatement_steps mode
      · rename_i notSingle
        refine stepLabel_steps ?_
        rcases mode with root | braced | single
        · exact .inl root
        · exact .inr braced
        · exact absurd single (notSingle false)

theorem stepItem_steps (mode : takesItems frame.mode) :
    Steps text body (.paragraph frame) (stepItem finishing frame text) := by
  unfold stepItem
  split
  · exact .wait
  · split
    · split
      · rename_i braced
        exact .pure (.close (.inl (eq_of_beq braced)))
      · exact .reject
    · split
      · rename_i opening
        exact openBlock_steps mode (by rw [eq_of_beq opening])
      · split
        · exact .next (addItem_eq _) (.pure (.empty mode))
        · exact stepWord_steps mode

theorem stepOpening_steps (mode : frame.mode = .awaitOpen) :
    Steps text body (.paragraph frame) (stepOpening frame text) := by
  unfold stepOpening
  split
  · exact .wait
  · split
    · exact .next rfl (.pure (.brace mode))
    · rename_i other
      exact .pure (.unbraced mode rfl (by simpa using other))

theorem stepParagraph_steps :
    Steps text body (.paragraph frame) (stepParagraph finishing frame text) := by
  unfold stepParagraph
  split
  · rename_i mode
    exact stepOpening_steps mode
  · rename_i mode
    exact .pure (.close (.inr mode))
  · rename_i notAwait notTaken
    refine stepItem_steps ?_
    cases mode : frame.mode with
    | root => exact .inl rfl
    | awaitOpen => exact absurd mode notAwait
    | braced => exact .inr (.inl rfl)
    | single done =>
        cases done with
        | true => exact absurd mode notTaken
        | false => exact .inr (.inr rfl)

/-! ## Constructs -/

section

variable {frame : ConstructFrame} {source : List Char}

/-- What stands in round brackets ends outside literals. -/
theorem parenthesized_silent (keyword : Keyword) :
    Gives (parenthesized keyword source) body fun found after => after = body ∧
      ∀ inner rest, found = some (inner, rest) → Text.Quote.outside.after inner = .outside := by
  unfold parenthesized
  split
  · refine .pure ⟨rfl, fun inner rest found => ?_⟩
    contradiction
  · split
    · rename_i opens
      obtain rfl := eq_of_beq opens
      refine .pure ⟨rfl, fun inner rest found => ?_⟩
      obtain ⟨close, matched, same⟩ := Option.map_eq_some_iff.1 found
      obtain ⟨rfl, -⟩ := Prod.mk.inj same
      exact Text.outside_of_matchingClose? matched
    · exact .throw

theorem withHeader_steps {keyword : Keyword} {go : List Char → List Char → ReadM Step}
    (steps : ∀ inner rest, Text.Quote.outside.after inner = .outside →
      Steps text body (.construct frame) (go inner rest)) :
    Steps text body (.construct frame) (withHeader keyword source go) := by
  refine (parenthesized_silent keyword).bind ?_
  rintro found _ ⟨rfl, ends⟩
  split
  · exact steps _ _ (ends _ _ rfl)
  · exact Steps.wait

theorem modifyDetail_eq {id : ConstructId} {change : Detail → Detail} (other : Detail → Detail)
    (same : ∀ detail, change detail = other detail) :
    (modify fun body => body.modifyDetail id change : ReadM Unit) body =
      .ok () (body.modifyDetail id other) := by
  rw [← funext same]
  rfl

theorem addBranch_eq (branch : Branch) :
    addBranch frame branch body = .ok () (body.modifyDetail frame.id (Detail.withBranch branch)) :=
  modifyDetail_eq (Detail.withBranch branch) fun detail => by cases detail <;> rfl

theorem stepCondition_steps (stage : frame.stage = .header)
    (known : body.constructs[frame.id]?.map (·.keyword) = some .ifThen) :
    Steps text body (.construct frame) (stepCondition frame source) := by
  refine withHeader_steps fun inner rest _ => ?_
  refine Gives.bind (fun _ _ => readExpression_reads) fun condition between reads => ?_
  refine .next rfl (.next (addBranch_eq _) (.pure ?_))
  refine .slot (fun _ => known) reads.single (.nil _) ?_
  rw [stage]
  exact .branch condition

theorem stepAfterBranch_steps (stage : frame.stage = .afterBranch) :
    Steps text body (.construct frame) (stepAfterBranch finishing frame source) := by
  have ends (rest : List Char) : Steps text body (.construct frame) (pure (.leave rest)) :=
    .pure (.leave (.inr (.inl stage)))
  rw [stepAfterBranch]
  split
  · cases finishing with
    | true => exact ends source
    | false => exact Steps.wait
  · split
    · dsimp only
      split
      · exact Steps.wait
      · split
        · exact .pure (.elseIf stage)
        · refine .next rfl (.next (addBranch_eq _) (.pure ?_))
          have opens (after : Body) :
              Opens frame body.paragraphs.size after .ifThen frame.stage [] [] .body
              (Detail.withBranch ⟨noClause frame, body.paragraphs.size⟩) .done := by
            rw [stage]
            exact .otherwise .ifThen
          exact .slot (by simp [stage]) (.nil _) (.nil _) (opens _)
    · exact ends source

theorem ask_answer {α : Type} (question : Body → Except Fault α) :
    Gives (ask question) body fun answer after => after = body ∧ question body = .ok answer := by
  refine .next rfl ?_
  split
  · rename_i found
    exact .pure ⟨rfl, found⟩
  · exact .throw

theorem iteratesElements_silent (header : Placed) :
    Gives (iteratesElements header) body fun byElement after =>
      after = body ∧ iteratesElements header body = .ok byElement body := by
  have silent : Gives (iteratesElements header) body fun _ after => after = body := by
    unfold iteratesElements
    split
    · exact .throw
    · exact (ask_answer _).bind fun category between answered => .pure answered.1
    · exact .throw
  intro byElement after result
  obtain rfl := silent byElement after result
  exact ⟨rfl, result⟩

theorem stepFor_steps (stage : frame.stage = .header)
    (known : body.constructs[frame.id]?.map (·.keyword) = some .forLoop) :
    Steps text body (.construct frame) (stepFor frame source) := by
  refine withHeader_steps fun inner rest ends => ?_
  refine .next rfl ?_
  split
  · rename_i initText conditionText updateText parts
    have part {other : List Char} (among : other ∈ [initText, conditionText, updateText]) :=
      Text.isPart_of_mem_splitTop ends (parts ▸ among)
    have readsFirst (slot : ParagraphId) (start : Body) : Gives (readStatement slot initText) start
        fun placed after => Reads slot start placed after ∧ placed.IsClause after :=
      fun _ _ read => ⟨readStatement_reads read,
        readStatement_isClause (part (by simp)).1 (part (by simp)).2 read⟩
    have readsOther {other : List Char} (among : other ∈ [initText, conditionText, updateText])
        (slot : ParagraphId) (start : Body) : Gives (readExpression slot other) start
        fun placed after => Reads slot start placed after ∧ placed.IsClause after :=
      fun _ _ read => ⟨readExpression_reads read,
        (readExpression_isClause (part among).1 (part among).2 read).1⟩
    refine (readsFirst _ _).bind fun init first ⟨readsInit, isInit⟩ => ?_
    refine (readsOther (by simp) _ _).bind fun condition second ⟨readsCondition, isCondition⟩ => ?_
    refine (readsOther (by simp) _ _).bind fun update third ⟨readsUpdate, isUpdate⟩ => ?_
    have clauses : ∀ clause ∈ [init, condition, update], clause.IsClause third := by
      have later := (isInit.mono fun _ _ => readsCondition.declares.getElem?_vars).mono
        fun _ _ => readsUpdate.declares.getElem?_vars
      simpa using ⟨later, isCondition.mono fun _ _ => readsUpdate.declares.getElem?_vars, isUpdate⟩
    refine .next rfl (.pure (.slot (fun _ => known) (.nil _)
      (.cons readsInit (.cons readsCondition readsUpdate.single)) ?_))
    rw [stage]
    exact .counted init condition update clauses
  · refine Gives.bind (fun _ _ => readExpression_reads) fun header between reads => ?_
    refine (iteratesElements_silent header).bind fun byElement after silent => ?_
    obtain ⟨rfl, iterates⟩ := silent
    refine .next rfl (.pure (.slot (fun _ => known) (.nil _) reads.single ?_))
    rw [stage]
    exact .iterator header byElement iterates
  · exact .throw

/-- A header of one clause in front of a single body. -/
theorem stepHeader_steps {keyword : Keyword} {kind : ParagraphKind}
    {detail : Placed → ParagraphId → Detail}
    (known : body.constructs[frame.id]?.map (·.keyword) = some keyword)
    (opens : ∀ clause slot after, Opens frame slot after keyword frame.stage [clause] [] kind
      (fun _ => detail clause slot) .done) :
    Steps text body (.construct frame) (stepHeader keyword kind detail frame source) := by
  refine withHeader_steps fun inner rest _ => ?_
  refine Gives.bind (fun _ _ => readExpression_reads) fun clause between reads => ?_
  refine .next rfl (.next rfl (.pure ?_))
  exact .slot (fun _ => known) reads.single (.nil _) (opens _ _ _)

theorem stepDo_steps (stage : frame.stage = .header)
    (known : body.constructs[frame.id]?.map (·.keyword) = some .doLoop) :
    Steps text body (.construct frame) (stepDo frame source) := by
  refine .next rfl (.next rfl (.pure (.slot (fun _ => known) (.nil _) (.nil _) ?_)))
  rw [stage]
  exact .doLoop

theorem stepAfterDo_steps (stage : frame.stage = .afterDoBody) :
    Steps text body (.construct frame) (stepAfterDo finishing frame source) := by
  rw [stepAfterDo]
  split
  · exact Steps.wait
  · split
    · exact .pure (.doWhile stage)
    · exact Steps.reject

theorem stepDoCondition_steps (stage : frame.stage = .doCondition) :
    Steps text body (.construct frame) (stepDoCondition finishing frame source) := by
  refine (parenthesized_silent _).bind ?_
  rintro found _ ⟨rfl, -⟩
  split
  · split
    · exact Steps.reject
    · exact Steps.wait
  · dsimp only
    split
    · exact Steps.wait
    · refine Gives.bind (fun _ _ => readExpression_reads) fun condition after reads => ?_
      refine .next (modifyDetail_eq (Detail.withCondition condition) fun detail => ?_)
        (.pure (.doCondition stage reads))
      cases detail <;> rfl

theorem stepTry_steps (stage : frame.stage = .header)
    (known : body.constructs[frame.id]?.map (·.keyword) = some .tryBlock) :
    Steps text body (.construct frame) (stepTry frame source) := by
  refine .next rfl (.next rfl (.pure (.slot (fun _ => known) (.nil _) (.nil _) ?_)))
  rw [stage]
  exact .tryBlock

theorem alternatives_ne_nil (inner : List Char) : alternatives inner ≠ [] := by
  unfold alternatives
  dsimp only
  split
  · split
    · simp
    · simp
  · simp

theorem modifyDetail_modifyDetail (id : ConstructId) (first second : Detail → Detail) :
    (body.modifyDetail id first).modifyDetail id second =
      body.modifyDetail id (second ∘ first) := by
  rw [modifyDetail, modifyDetail, modify_modify]
  rfl

theorem addHandlers_reads {slot : ParagraphId} (texts : List (List Char)) :
    Gives (addHandlers frame slot texts) body fun _ after =>
      ∃ declarations between, ReadsAll slot body declarations between ∧
        declarations.length = texts.length ∧
        after = between.modifyDetail frame.id (Detail.withHandlers declarations slot) := by
  induction texts generalizing body with
  | nil =>
      refine .pure ⟨[], body, .nil body, rfl, ?_⟩
      have same : Detail.withHandlers [] slot = fun detail => detail := by
        funext detail
        cases detail <;> simp [Detail.withHandlers]
      rw [same]
      exact congrArg (fun constructs => { body with constructs }) (modify_id ..).symm
  | cons first rest induction =>
      refine Gives.bind (fun _ _ => readExpression_reads) fun declaration between reads => ?_
      refine .next (modifyDetail_eq (Detail.withHandlers [declaration] slot) fun detail => ?_)
        fun _ after behind => ?_
      · cases detail <;> rfl
      obtain ⟨declarations, final, readsRest, count, rfl⟩ := induction _ _ behind
      obtain ⟨last, readsLast, rfl⟩ := readsRest.of_modifyDetail
      have joins : Detail.withHandlers declarations slot ∘ Detail.withHandlers [declaration] slot =
          Detail.withHandlers (declaration :: declarations) slot := by
        funext detail
        cases detail <;> simp [Detail.withHandlers]
      refine ⟨declaration :: declarations, last, .cons reads readsLast, by simp [count], ?_⟩
      rw [modifyDetail_modifyDetail, joins]

theorem stepAfterTry_steps (stage : frame.stage = .afterTryClause) :
    Steps text body (.construct frame) (stepAfterTry finishing frame source) := by
  rw [stepAfterTry]
  split
  · exact Steps.wait
  · split
    · refine withHeader_steps fun inner rest _ => ?_
      refine .next rfl ((addHandlers_reads _).bind fun _ after read => ?_)
      obtain ⟨declarations, between, reads, count, rfl⟩ := read
      have some_ : declarations ≠ [] := by
        rw [← List.length_pos_iff, count, List.length_pos_iff]
        exact alternatives_ne_nil inner
      have opens : Opens frame body.paragraphs.size between .tryBlock frame.stage [] declarations
          .body (Detail.withHandlers declarations body.paragraphs.size) frame.stage := by
        rw [stage]
        exact .handler .tryBlock declarations some_
      exact .pure (.slot (by simp [stage]) (.nil _) reads opens)
    · split
      · refine .next rfl (.next (modifyDetail_eq (Detail.withCleanup body.paragraphs.size)
          fun detail => ?_) (.pure ?_))
        · cases detail <;> rfl
        · have opens (after : Body) :
              Opens frame body.paragraphs.size after .tryBlock frame.stage [] [] .body
              (Detail.withCleanup body.paragraphs.size) .done := by
            rw [stage]
            exact .cleanup .tryBlock
          exact .slot (by simp [stage]) (.nil _) (.nil _) (opens _)
      · refine .next rfl ?_
        split
        · rename_i closed
          exact .pure (.leave (.inr (.inr ⟨stage, closed⟩)))
        · exact Steps.reject

section

variable (stage : frame.stage = .header)
include stage

theorem stepValue_steps {keyword : Keyword}
    (known : body.constructs[frame.id]?.map (·.keyword) = some keyword)
    (exits : keyword = .returns ∨ keyword = .throws) :
    Steps text body (.construct frame) (stepValue frame keyword source) := by
  rw [stepValue]
  split
  · exact Steps.wait
  · exact Steps.reject
  · refine (readCut_reads fun _ _ _ _ => readExpression_reads).bind fun value between reads => ?_
    have handled (yes : ReturnsHandle keyword value between) (rest : List Char) :
        Transition text body (.construct frame) [] rest
          ({ between with returnsHandle := true }.modifyDetail frame.id
            fun _ => .jump value none) := by
      rw [← Bool.or_true between.returnsHandle]
      exact .value stage known exits reads (iff_of_true rfl yes)
    have plain (no : ¬ ReturnsHandle keyword value between) (rest : List Char) :
        Transition text body (.construct frame) [] rest
          (between.modifyDetail frame.id fun _ => .jump value none) := by
      have same : { between with returnsHandle := between.returnsHandle || false } = between := by
        rw [Bool.or_false]
      rw [← same]
      exact .value stage known exits reads (iff_of_false Bool.false_ne_true no)
    split
    · rename_i asked
      rw [Bool.and_eq_true] at asked
      refine (ask_answer _).bind ?_
      rintro category _ ⟨rfl, found⟩
      split
      · rename_i owned
        rw [eq_of_beq owned] at found
        exact .next rfl (.next rfl (.pure (handled ⟨eq_of_beq asked.1, asked.2, found⟩ _)))
      · rename_i other
        refine .next rfl (.next rfl (.pure (plain ?_ _)))
        rintro ⟨-, -, same⟩
        rw [same] at found
        exact other (by rw [← Except.ok.inj found]; rfl)
    · rename_i other
      refine .next rfl (.next rfl (.pure (plain ?_ _)))
      rintro ⟨rfl, same, -⟩
      exact other (by simp [same])

theorem stepJump_steps {keyword : Keyword}
    (known : body.constructs[frame.id]?.map (·.keyword) = some keyword)
    (jumps : keyword = .breaks ∨ keyword = .continues) :
    Steps text body (.construct frame) (stepJump frame source) := by
  rw [stepJump]
  dsimp only
  split
  · exact Steps.wait
  · exact .next rfl (.pure (.jump stage known jumps))

theorem stepCase_steps (known : body.constructs[frame.id]?.map (·.keyword) = some .caseLabel) :
    Steps text body (.construct frame) (stepCase frame source) := by
  rw [stepCase]
  split
  · exact Steps.wait
  · exact Steps.reject
  · refine Gives.bind (fun _ _ => readExpression_reads) fun value between reads => ?_
    exact .next rfl (.pure (.caseLabel stage known reads))

theorem stepDefault_steps
    (known : body.constructs[frame.id]?.map (·.keyword) = some .defaultLabel) :
    Steps text body (.construct frame) (stepDefault frame source) := by
  unfold stepDefault
  split
  · exact Steps.wait
  · split
    · exact .next rfl (.pure (.defaultLabel stage known))
    · exact Steps.reject

theorem stepKeyword_steps {keyword : Keyword}
    (known : body.constructs[frame.id]?.map (·.keyword) = some keyword) :
    Steps text body (.construct frame) (stepKeyword frame source keyword) := by
  cases keyword with
  | ifThen => exact stepCondition_steps stage known
  | forLoop => exact stepFor_steps stage known
  | whileLoop =>
      refine stepHeader_steps known fun clause slot after => ?_
      rw [stage]
      exact .whileLoop clause
  | doLoop => exact stepDo_steps stage known
  | switch =>
      refine stepHeader_steps known fun clause slot after => ?_
      rw [stage]
      exact .switch clause
  | tryBlock => exact stepTry_steps stage known
  | synchronized =>
      refine stepHeader_steps known fun clause slot after => ?_
      rw [stage]
      exact .synchronized clause
  | returns => exact stepValue_steps stage known (.inl rfl)
  | throws => exact stepValue_steps stage known (.inr rfl)
  | breaks => exact stepJump_steps stage known (.inl rfl)
  | continues => exact stepJump_steps stage known (.inr rfl)
  | caseLabel => exact stepCase_steps stage known
  | defaultLabel => exact stepDefault_steps stage known

end

theorem stepConstruct_steps :
    Steps text body (.construct frame) (stepConstruct finishing frame source) := by
  unfold stepConstruct
  split
  · rename_i stage
    exact .pure (.leave (.inl stage))
  · rename_i stage
    exact stepAfterBranch_steps stage
  · rename_i stage
    exact stepAfterDo_steps stage
  · rename_i stage
    exact stepDoCondition_steps stage
  · rename_i stage
    exact stepAfterTry_steps stage
  · rename_i stage
    refine .next rfl ?_
    split
    · rename_i construct found
      exact stepKeyword_steps stage (by simp [found])
    · exact Steps.wait

end

/-- A step that succeeds waits or is a transition. -/
theorem step_steps (frame : Frame) : Steps text body frame (step finishing frame text) := by
  cases frame with
  | paragraph frame => exact stepParagraph_steps
  | construct frame => exact stepConstruct_steps

/-! ## Runs -/

/-- The reader takes one step of its top frame, or gets one more line. -/
inductive Advances : Reader → Reader → Prop where
  | step {frame : Frame} {stack frames : List Frame} {text rest : List Char} {body after : Body}
      (transition : Transition (Text.trimStart text) body frame frames rest after) :
      Advances ⟨body, frame :: stack, text⟩ ⟨after, frames ++ stack, rest⟩
  | feed (reader : Reader) (line : List Char) : Advances reader (reader.fed line)

/-- The reader takes a step that succeeds, with more text to come or not, or gets one more line. -/
inductive Moves : Reader → Reader → Prop where
  | turn {reader next : Reader} (finishing : Bool) (taken : reader.turn finishing = .move next) :
      Moves reader next
  | feed (reader : Reader) (line : List Char) : Moves reader (reader.fed line)

/-- The second reader is the first one after steps that succeed. -/
def Reaches : Reader → Reader → Prop := Relation.ReflTransGen Moves

/-- The same without new lines. -/
def Turns : Reader → Reader → Prop :=
  Relation.ReflTransGen fun reader next => ∃ finishing, reader.turn finishing = .move next

variable {reader next : Reader}

theorem Turns.reaches (turns : Turns reader next) : Reaches reader next :=
  Relation.ReflTransGen.mono (fun _ _ ⟨finishing, taken⟩ => .turn finishing taken) _ _ turns

theorem turn_rest (rests : reader.turn finishing = .rest next) : next = reader := by
  obtain ⟨body, stack, leftover⟩ := reader
  cases stack with
  | nil => exact (Turn.rest.inj rests).symm
  | cons frame stack =>
      simp only [turn] at rests
      cases taken : step finishing frame (Text.trimStart leftover) body with
      | error failure after => simp [taken] at rests
      | ok outcome after =>
          have obeys := step_steps frame outcome after taken
          cases outcome with
          | needMore =>
              rw [taken] at rests
              rw [← Turn.rest.inj rests, show after = body from obeys]
          | _ => simp [taken] at rests

theorem turn_advances (moves : reader.turn finishing = .move next) : Advances reader next := by
  obtain ⟨body, stack, leftover⟩ := reader
  cases stack with
  | nil => contradiction
  | cons frame stack =>
      simp only [turn] at moves
      cases taken : step finishing frame (Text.trimStart leftover) body with
      | error failure after => simp [taken] at moves
      | ok outcome after =>
          have obeys := step_steps frame outcome after taken
          cases outcome with
          | needMore => simp [taken] at moves
          | _ =>
              rw [taken] at moves
              obtain rfl := Turn.move.inj moves
              exact .step obeys

/-- What a step that succeeds can do. -/
theorem Moves.advances (moves : Moves reader next) : Advances reader next := by
  cases moves with
  | turn finishing taken => exact turn_advances taken
  | feed line => exact .feed reader line

theorem run_turns {count : Nat} (ran : run finishing count reader = .ok () next) :
    Turns reader next := by
  induction count generalizing reader with
  | zero => contradiction
  | succ count induction =>
      rw [run_succ] at ran
      cases taken : reader.turn finishing with
      | rest last =>
          simp only [taken, EStateM.Result.ok.injEq, true_and] at ran
          rw [← ran, turn_rest taken]
          exact .refl
      | fail failure last => simp [taken] at ran
      | move between =>
          rw [taken] at ran
          exact .head ⟨finishing, taken⟩ (induction ran)

theorem feed_reaches {line : List Char} (fed : feed line reader = .ok () next) :
    Reaches reader next :=
  .head (.feed reader line) (run_turns fed).reaches

theorem feedAll_reaches {lines : List String} (fed : feedAll lines reader = .ok () next) :
    Reaches reader next := by
  induction lines generalizing reader with
  | nil =>
      obtain ⟨-, rfl⟩ := EStateM.Result.ok.inj fed
      exact .refl
  | cons line rest induction =>
      obtain ⟨_, between, first, others⟩ := bind_eq_ok.1 fed
      exact (feed_reaches first).trans (induction others)

theorem drain_turns {retries : Nat} (drained : drain retries reader = .ok () next) :
    Turns reader next := by
  induction retries generalizing reader with
  | zero => exact run_turns drained
  | succ retries induction =>
      obtain ⟨_, between, first, behind⟩ := bind_eq_ok.1 drained
      obtain ⟨_, _, asked, rest⟩ := bind_eq_ok.1 behind
      obtain ⟨rfl, rfl⟩ := EStateM.Result.ok.inj asked
      refine (run_turns first).trans ?_
      cases idle : between.isIdle with
      | true =>
          simp only [idle, if_true] at rest
          obtain ⟨-, rfl⟩ := EStateM.Result.ok.inj rest
          exact .refl
      | false =>
          simp only [idle, Bool.false_eq_true, if_false] at rest
          exact induction rest

/-- A finished body is the lifted body of an idle reader that was reached. -/
theorem finish_reaches (finished : finish reader = .ok body next) :
    Reaches reader next ∧ next.isIdle = true ∧ body = next.body.lift := by
  obtain ⟨_, between, drained, behind⟩ := bind_eq_ok.1 finished
  obtain ⟨_, _, asked, rest⟩ := bind_eq_ok.1 behind
  obtain ⟨rfl, rfl⟩ := EStateM.Result.ok.inj asked
  cases idle : between.isIdle with
  | true =>
      simp only [idle, if_true] at rest
      obtain ⟨rfl, rfl⟩ := EStateM.Result.ok.inj rest
      exact ⟨(drain_turns drained).reaches, idle, rfl⟩
  | false =>
      simp only [idle, Bool.false_eq_true, if_false] at rest
      contradiction

end
end Reader

/-- The body of a method is the lifted body of an idle reader that was reached from the start. -/
theorem Body.ofLines_reaches {context : Context} {options : Options} {lines : List String}
    {body : Body} (read : Body.ofLines context options lines = .ok body) :
    ∃ reader, Reader.Reaches (Reader.initial context options) reader ∧ reader.isIdle = true ∧
      body = reader.body.lift := by
  rw [Body.ofLines] at read
  split at read
  · rename_i result reader finished
    obtain rfl := Except.ok.inj read
    obtain ⟨_, between, fed, behind⟩ := bind_eq_ok.1 finished
    obtain ⟨reaches, idle, same⟩ := Reader.finish_reaches behind
    exact ⟨reader, (Reader.feedAll_reaches fed).trans reaches, idle, same⟩
  · contradiction

end MethodLowering
