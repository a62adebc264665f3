import MethodLowering.Proofs.Body.Shape
import MethodLowering.Proofs.Reader.Transitions

/-!
# Nesting of paragraphs and constructs

While a body is read, its references form a tree, each open frame fits its paragraph or construct,
and whatever has no open frame is complete.  One step of the top frame keeps all of this, so every
reader that is reached has it.
-/

namespace MethodLowering

open Body

/-! ## Shapes of changed bodies -/

section

variable {scope : ParagraphId} {before after body : Body} {placed : Placed} {clauses : List Placed}

theorem Body.Declares.shape (declares : Declares scope before after) :
    after.shape = before.shape := by
  obtain ⟨added, nextNode, effort, rfl, -, -⟩ := declares
  simp only [Body.shape, extended, Array.toList_modify, Shape.mk.injEq, and_true]
  apply List.ext_getElem?
  intro id
  rw [List.getElem?_map, List.getElem?_modify, List.getElem?_map]
  cases before.paragraphs.toList[id]? with
  | none => rfl
  | some paragraph =>
      simp only [Option.map_eq_map, Option.map_some, Option.some.injEq]
      split <;> rfl

theorem Body.ReadsAll.shape (reads : ReadsAll scope before clauses after) :
    after.shape = before.shape := by
  induction reads with
  | nil body => rfl
  | cons first others induction => rw [induction, first.declares.shape]

theorem Body.ReadsCut.shape (reads : ReadsCut scope before placed after) :
    after.shape = before.shape := by
  obtain ⟨between, first, added, rfl, -⟩ := reads
  exact first.declares.shape

theorem shape_addParagraph {paragraph : Paragraph} (blank : paragraph.vars = #[]) :
    (body.addParagraph paragraph).shape = body.shape.addParagraph paragraph := by
  have same : paragraph.outline = paragraph := by
    rw [Paragraph.outline, ← blank]
  simp [Body.shape, Body.addParagraph, Shape.addParagraph, same]

theorem shape_addConstruct {construct : Construct} :
    (body.addConstruct construct).shape = body.shape.addConstruct construct := by
  simp [Body.shape, Body.addConstruct, Shape.addConstruct]

theorem shape_modifyParagraph {id : ParagraphId} {change : Paragraph → Paragraph}
    (commutes : ∀ paragraph, (change paragraph).outline = change paragraph.outline) :
    (body.modifyParagraph id change).shape = body.shape.modifyParagraph id change := by
  simp only [Body.shape, Body.modifyParagraph, Shape.modifyParagraph, Array.toList_modify,
    Shape.mk.injEq, and_true]
  apply List.ext_getElem?
  intro other
  simp only [List.getElem?_map, List.getElem?_modify]
  cases body.paragraphs.toList[other]? with
  | none => rfl
  | some paragraph =>
      simp only [Option.map_eq_map, Option.map_some, Option.some.injEq]
      split
      · exact commutes paragraph
      · rfl

theorem shape_addItem {id : ParagraphId} {item : Item} :
    (body.addItem id item).shape = body.shape.addItem id item :=
  shape_modifyParagraph fun _ => rfl

theorem shape_setBraced {id : ParagraphId} :
    (body.modifyParagraph id fun paragraph => { paragraph with braced := true }).shape =
      body.shape.modifyParagraph id fun paragraph => { paragraph with braced := true } :=
  shape_modifyParagraph fun _ => rfl

theorem shape_returnsHandle (returnsHandle : Bool) :
    { body with returnsHandle }.shape = body.shape :=
  rfl

theorem shape_modifyDetail {id : ConstructId} {change : Detail → Detail} :
    (body.modifyDetail id change).shape = body.shape.modifyDetail id change := by
  simp [Body.shape, Body.modifyDetail, Shape.modifyDetail]

theorem length_shape_paragraphs : body.shape.paragraphs.length = body.paragraphs.size := by
  simp [Body.shape]

theorem getElem?_shape_constructs (id : Nat) :
    body.shape.constructs[id]? = body.constructs[id]? := by
  simp [Body.shape]

end

/-! ## Frames -/

/-- What a frame is about. -/
inductive Target where
  | paragraph (id : ParagraphId)
  | construct (id : ConstructId)
deriving DecidableEq

/-- The paragraph or construct of a frame. -/
def Frame.target : Frame → Target
  | .paragraph frame => .paragraph frame.id
  | .construct frame => .construct frame.id

/-- The paragraph is as far as the mode of its frame says. -/
def ParagraphFrame.Fits (frame : ParagraphFrame) (paragraph : Paragraph) : Prop :=
  match frame.mode with
  | .root => paragraph.kind = .root
  | .awaitOpen | .single false => paragraph.items = #[]
  | .braced => paragraph.braced = true
  | .single true => ∃ item, paragraph.items = #[item] ∧ item.block? = none

/-- The construct is a conditional with branches. -/
def Construct.HasBranches (construct : Construct) : Prop :=
  construct.keyword = .ifThen ∧ ∃ branches, branches ≠ [] ∧ construct.detail = .conditional branches

/-- The construct is as far as the stage of its frame says. -/
def ConstructFrame.Fits (frame : ConstructFrame) (construct : Construct) : Prop :=
  construct.scope = frame.scope ∧ match frame.stage with
    | .header => construct.detail = .unread ∨ construct.HasBranches
    | .afterBranch => construct.HasBranches
    | .afterDoBody | .doCondition => ∃ body condition, construct.detail = .doLoop body condition
    | .afterTryClause => ∃ body handlers, construct.detail = .tryBlock body handlers none
    | .done => construct.detail.IsComplete

namespace Shape

/-- The frame fits its paragraph or construct. -/
def Holds (shape : Shape) : Frame → Prop
  | .paragraph frame => ∃ paragraph, shape.paragraphs[frame.id]? = some paragraph ∧
      frame.Fits paragraph
  | .construct frame => ∃ construct, shape.constructs[frame.id]? = some construct ∧
      frame.Fits construct

/-- The paragraph or construct is complete. -/
def Settled (shape : Shape) : Target → Prop
  | .paragraph id => ∀ paragraph, shape.paragraphs[id]? = some paragraph → paragraph.IsClosed
  | .construct id => ∀ construct, shape.constructs[id]? = some construct →
      construct.detail.IsComplete

/-- The paragraph or construct is the same in both shapes. -/
def SameAt (before after : Shape) : Target → Prop
  | .paragraph id => after.paragraphs[id]? = before.paragraphs[id]?
  | .construct id => after.constructs[id]? = before.constructs[id]?

/-- The open frames fit, no two are about the same, and everything else is complete. -/
structure IsOpen (shape : Shape) (stack : List Frame) : Prop where
  holds : ∀ frame ∈ stack, shape.Holds frame
  apart : (stack.map Frame.target).Nodup
  settled : ∀ target, target ∉ stack.map Frame.target → shape.Settled target

section

variable {shape before between after : Shape} {frame : Frame} {stack frames : List Frame}
  {target : Target}

theorem SameAt.trans (first : SameAt before between target) (second : SameAt between after target) :
    SameAt before after target := by
  cases target with
  | paragraph id => exact Eq.trans second first
  | construct id => exact Eq.trans second first

theorem SameAt.holds (same : SameAt before after frame.target) (holds : before.Holds frame) :
    after.Holds frame := by
  cases frame with
  | paragraph frame =>
      obtain ⟨paragraph, known, fits⟩ := holds
      exact ⟨paragraph, Eq.trans same known, fits⟩
  | construct frame =>
      obtain ⟨construct, known, fits⟩ := holds
      exact ⟨construct, Eq.trans same known, fits⟩

theorem SameAt.settled (same : SameAt before after target) (settled : before.Settled target) :
    after.Settled target := by
  cases target with
  | paragraph id => exact fun paragraph known => settled paragraph (Eq.trans same.symm known)
  | construct id => exact fun construct known => settled construct (Eq.trans same.symm known)

section

variable (opened : before.IsOpen (frame :: stack))
include opened

/-- The top frame is replaced by frames that fit, and only their paragraphs and constructs and the
one of the top frame are changed. -/
theorem IsOpen.replace (same : ∀ target, target ≠ frame.target → target ∉ frames.map Frame.target →
      SameAt before after target)
    (holds : ∀ frame ∈ frames, after.Holds frame) (apart : (frames.map Frame.target).Nodup)
    (fresh : ∀ other ∈ frames, other.target ∉ stack.map Frame.target)
    (settled : frame.target ∈ frames.map Frame.target ∨ after.Settled frame.target) :
    after.IsOpen (frames ++ stack) := by
  obtain ⟨holdsAll, apartAll, settledAll⟩ := opened
  obtain ⟨own, rest⟩ := List.nodup_cons.1 apartAll
  have outside {target : Target} (member : target ∈ stack.map Frame.target) :
      target ∉ frames.map Frame.target := by
    intro inside
    obtain ⟨other, among, rfl⟩ := List.mem_map.1 inside
    exact fresh other among member
  refine ⟨?_, ?_, ?_⟩
  · intro other member
    rcases List.mem_append.1 member with new | old
    · exact holds other new
    · have listed : other.target ∈ stack.map Frame.target := List.mem_map_of_mem old
      refine (same other.target ?_ (outside listed)).holds (holdsAll other (by simp [old]))
      rintro equal
      exact own (equal ▸ listed)
  · rw [List.map_append, List.nodup_append]
    refine ⟨apart, rest, fun target new other old equal => outside old ?_⟩
    exact equal ▸ new
  · intro target missing
    rw [List.map_append, List.mem_append, not_or] at missing
    by_cases equal : target = frame.target
    · subst equal
      exact settled.resolve_left missing.1
    · refine (same target equal missing.1).settled (settledAll target ?_)
      rw [List.map_cons, List.mem_cons, not_or]
      exact ⟨equal, missing.2⟩

/-- The top frame goes on, and only its own paragraph or construct is changed. -/
theorem IsOpen.advance {next : Frame}
    (same : ∀ target, target ≠ frame.target → SameAt before after target)
    (holds : after.Holds next) (target : next.target = frame.target) :
    after.IsOpen ([next] ++ stack) := by
  have own := (List.nodup_cons.1 opened.apart).1
  refine opened.replace (fun target other _ => same target other) ?_ (by simp) ?_ ?_
  · simpa using holds
  · simpa [target] using own
  · simp [target]

/-- The top frame is finished. -/
theorem IsOpen.leave (same : ∀ target, target ≠ frame.target → SameAt before after target)
    (settled : after.Settled frame.target) : after.IsOpen ([] ++ stack) :=
  opened.replace (fun target other _ => same target other) (by simp) (by simp) (by simp)
    (.inr settled)

/-- The top frame waits while a new frame is on top. -/
theorem IsOpen.enter {next child : Frame}
    (same : ∀ target, target ≠ frame.target → target ≠ child.target → SameAt before after target)
    (holds : after.Holds next) (holdsChild : after.Holds child)
    (target : next.target = frame.target)
    (fresh : child.target ∉ (frame :: stack).map Frame.target) :
    after.IsOpen ([child, next] ++ stack) := by
  have own := (List.nodup_cons.1 opened.apart).1
  rw [List.map_cons, List.mem_cons, not_or] at fresh
  refine opened.replace (fun other away missing => same other away ?_) ?_ ?_ ?_ ?_
  · rintro rfl
    simp at missing
  · simpa using ⟨holdsChild, holds⟩
  · simpa [target] using fresh.1
  · intro other among
    rcases List.mem_cons.1 among with rfl | last
    · exact fresh.2
    · rw [List.mem_singleton.1 last, target]
      exact own
  · simp [target]

end

/-! ### What a change leaves alone -/

theorem SameAt.refl (shape : Shape) (target : Target) : SameAt shape shape target := by
  cases target <;> rfl

theorem sameAt_modifyParagraph {id : ParagraphId} {change : Paragraph → Paragraph}
    (other : target ≠ .paragraph id) : SameAt shape (shape.modifyParagraph id change) target := by
  cases target with
  | paragraph otherId =>
      have away : id ≠ otherId := fun same => other (congrArg _ same.symm)
      simp [SameAt, modifyParagraph, away]
  | construct otherId => rfl

theorem sameAt_modifyDetail {id : ConstructId} {change : Detail → Detail}
    (other : target ≠ .construct id) : SameAt shape (shape.modifyDetail id change) target := by
  cases target with
  | paragraph otherId => rfl
  | construct otherId =>
      have away : id ≠ otherId := fun same => other (congrArg _ same.symm)
      simp [SameAt, modifyDetail, away]

theorem getElem?_concat_of_ne {α : Type} {entries : List α} {entry : α} {id : Nat}
    (other : id ≠ entries.length) : (entries ++ [entry])[id]? = entries[id]? := by
  rw [List.getElem?_append]
  split
  · rfl
  · rw [List.getElem?_eq_none (by simp; omega), List.getElem?_eq_none (by omega)]

theorem sameAt_addParagraph {paragraph : Paragraph}
    (other : target ≠ .paragraph shape.paragraphs.length) :
    SameAt shape (shape.addParagraph paragraph) target := by
  cases target with
  | paragraph id => exact getElem?_concat_of_ne fun same => other (congrArg _ same)
  | construct id => rfl

theorem sameAt_addConstruct {construct : Construct}
    (other : target ≠ .construct shape.constructs.length) :
    SameAt shape (shape.addConstruct construct) target := by
  cases target with
  | paragraph id => rfl
  | construct id => exact getElem?_concat_of_ne fun same => other (congrArg _ same)

theorem IsOpen.fresh_paragraph (opened : shape.IsOpen stack) :
    Target.paragraph shape.paragraphs.length ∉ stack.map Frame.target := by
  intro member
  obtain ⟨frame, among, same⟩ := List.mem_map.1 member
  cases frame with
  | paragraph frame =>
      obtain ⟨paragraph, known, -⟩ := opened.holds _ among
      rw [Frame.target, Target.paragraph.injEq] at same
      rw [same] at known
      simp at known
  | construct frame => simp [Frame.target] at same

theorem IsOpen.fresh_construct (opened : shape.IsOpen stack) :
    Target.construct shape.constructs.length ∉ stack.map Frame.target := by
  intro member
  obtain ⟨frame, among, same⟩ := List.mem_map.1 member
  cases frame with
  | paragraph frame => simp [Frame.target] at same
  | construct frame =>
      obtain ⟨construct, known, -⟩ := opened.holds _ among
      rw [Frame.target, Target.construct.injEq] at same
      rw [same] at known
      simp at known

theorem getElem?_modifyParagraph {id : ParagraphId} {paragraph : Paragraph}
    {change : Paragraph → Paragraph} (known : shape.paragraphs[id]? = some paragraph) :
    (shape.modifyParagraph id change).paragraphs[id]? = some (change paragraph) := by
  simp [modifyParagraph, known]

theorem getElem?_modifyDetail {id : ConstructId} {construct : Construct} {change : Detail → Detail}
    (known : shape.constructs[id]? = some construct) :
    (shape.modifyDetail id change).constructs[id]? =
      some { construct with detail := change construct.detail } := by
  simp [modifyDetail, known]

theorem getElem?_addParagraph {id : ParagraphId} {paragraph further : Paragraph}
    (known : shape.paragraphs[id]? = some paragraph) :
    (shape.addParagraph further).paragraphs[id]? = some paragraph := by
  rw [addParagraph, List.getElem?_append_left (List.getElem?_eq_some_iff.1 known).1, known]

end
end Shape

/-! ## Steps -/

namespace Reader

section

variable {text rest : List Char} {body after : Body} {frame : Frame} {frames stack : List Frame}
  {shape : Shape}

theorem target_taking (frame : ParagraphFrame) :
    (Frame.paragraph (taking frame)).target = .paragraph frame.id := by
  rw [taking]
  split <;> rfl

/-- A paragraph that takes a statement fits the frame behind it. -/
theorem taking_fits (item : Item) {frame : ParagraphFrame} {paragraph : Paragraph}
    (mode : takesItems frame.mode) (fits : frame.Fits paragraph)
    (plain : frame.mode = .single false → item.block? = none) :
    (taking frame).Fits { paragraph with items := paragraph.items.push item } := by
  rcases mode with root | braced | single
  · simp only [taking, root, ParagraphFrame.Fits] at fits ⊢
    exact fits
  · simp only [taking, braced, ParagraphFrame.Fits] at fits ⊢
    exact fits
  · simp only [taking, single, ParagraphFrame.Fits] at fits ⊢
    exact ⟨item, by simp [fits], plain single⟩

/-- A statement that refers to nothing keeps the nesting. -/
theorem addItem_nests {frame : ParagraphFrame} {item : Item} (tree : shape.IsTree)
    (opened : shape.IsOpen (.paragraph frame :: stack)) (mode : takesItems frame.mode)
    (noBlock : item.block? = none) (noConstruct : item.construct? = none) :
    (shape.addItem frame.id item).IsTree ∧
      (shape.addItem frame.id item).IsOpen ([.paragraph (taking frame)] ++ stack) := by
  refine ⟨tree.addItem frame.id noBlock noConstruct, ?_⟩
  obtain ⟨paragraph, known, fits⟩ := opened.holds _ (List.mem_cons_self ..)
  have same : (taking frame).id = frame.id := Target.paragraph.inj (target_taking frame)
  refine opened.advance (fun target other => Shape.sameAt_modifyParagraph other) ?_
    (target_taking frame)
  refine ⟨_, ?_, taking_fits _ mode fits fun _ => noBlock⟩
  rw [same]
  exact Shape.getElem?_modifyParagraph known

/-- A new block keeps the nesting. -/
theorem block_nests {frame : ParagraphFrame} (tree : shape.IsTree)
    (opened : shape.IsOpen (.paragraph frame :: stack)) (mode : takesItems frame.mode)
    (allowed : frame.mode ≠ .single false) {block : Paragraph}
    (parent : block.parent = some frame.id) (blank : block.items = #[])
    (braced : block.braced = true) :
    ((shape.addParagraph block).addItem frame.id (.block shape.paragraphs.length)).IsTree ∧
      ((shape.addParagraph block).addItem frame.id (.block shape.paragraphs.length)).IsOpen
        ([.ofParagraph shape.paragraphs.length .braced,
          .paragraph (taking { frame with label := none })] ++ stack) := by
  obtain ⟨paragraph, known, fits⟩ := opened.holds _ (List.mem_cons_self ..)
  have inside : frame.id < shape.paragraphs.length := (List.getElem?_eq_some_iff.1 known).1
  have same : (taking { frame with label := none }).id = frame.id :=
    Target.paragraph.inj (target_taking { frame with label := none })
  refine ⟨tree.addBlock inside parent blank, ?_⟩
  refine opened.enter (fun target other new => ?_) ?_ ?_
    (target_taking { frame with label := none }) opened.fresh_paragraph
  · exact (Shape.sameAt_addParagraph new).trans (Shape.sameAt_modifyParagraph other)
  · refine ⟨_, ?_, taking_fits (.block shape.paragraphs.length) mode fits fun single =>
      absurd single allowed⟩
    rw [same]
    exact Shape.getElem?_modifyParagraph (Shape.getElem?_addParagraph known)
  · refine ⟨block, ?_, braced⟩
    have away : frame.id ≠ shape.paragraphs.length := Nat.ne_of_lt inside
    simp [Shape.addItem, Shape.modifyParagraph, Shape.addParagraph, away]

/-- A new construct keeps the nesting. -/
theorem keyword_nests {frame : ParagraphFrame} {construct : Construct} (tree : shape.IsTree)
    (opened : shape.IsOpen (.paragraph frame :: stack)) (mode : takesItems frame.mode)
    (scope : construct.scope = frame.id) (unread : construct.detail = .unread) :
    ((shape.addConstruct construct).addItem frame.id (.construct shape.constructs.length)).IsTree ∧
      ((shape.addConstruct construct).addItem frame.id (.construct shape.constructs.length)).IsOpen
        ([.construct { id := shape.constructs.length, scope := frame.id, stage := .header },
          .paragraph (taking { frame with label := none })] ++ stack) := by
  obtain ⟨paragraph, known, fits⟩ := opened.holds _ (List.mem_cons_self ..)
  have inside : construct.scope < shape.paragraphs.length := by
    rw [scope]
    exact (List.getElem?_eq_some_iff.1 known).1
  have same : (taking { frame with label := none }).id = frame.id :=
    Target.paragraph.inj (target_taking { frame with label := none })
  refine ⟨scope ▸ tree.addKeyword inside (by rw [unread]; rfl), ?_⟩
  refine opened.enter (fun target other new => ?_) ?_ ?_
    (target_taking { frame with label := none }) opened.fresh_construct
  · exact (Shape.sameAt_addConstruct new).trans (Shape.sameAt_modifyParagraph other)
  · refine ⟨_, ?_, taking_fits (.construct shape.constructs.length) mode fits fun _ => rfl⟩
    rw [same]
    exact Shape.getElem?_modifyParagraph known
  · exact ⟨construct, by simp [Shape.addItem, Shape.modifyParagraph, Shape.addConstruct], scope,
      .inl unread⟩

/-- A body that opens is added to the bodies of its construct, which then fits the next stage. -/
theorem Opens.fits {frame : ConstructFrame} {slot : ParagraphId} {keyword : Keyword}
    {outer inner : List Placed} {kind : ParagraphKind} {change : Detail → Detail} {next : Stage}
    {construct : Construct}
    (opens : Opens frame slot body keyword frame.stage outer inner kind change next)
    (known : frame.stage = .header → construct.keyword = keyword) (fits : frame.Fits construct)
    (fresh : slot ∉ construct.detail.bodies) :
    (change construct.detail).bodies = construct.detail.bodies ++ [slot] ∧
      ConstructFrame.Fits { frame with stage := next }
        { construct with detail := change construct.detail } := by
  obtain ⟨scope, fits⟩ := fits
  generalize stage : frame.stage = current at opens known fits
  have unread (other : keyword ≠ .ifThen)
      (reads : construct.detail = .unread ∨ construct.HasBranches)
      (known : construct.keyword = keyword) : construct.detail.bodies = [] := by
    rcases reads with blank | ⟨named, -⟩
    · rw [blank]
      rfl
    · exact absurd (known.symm.trans named) other
  cases opens with
  | branch condition =>
      rcases fits with blank | ⟨named, branches, -, shown⟩
      · rw [blank]
        exact ⟨rfl, scope, known rfl, [⟨condition, slot⟩], by simp, rfl⟩
      · rw [shown]
        exact ⟨by simp [Detail.withBranch, Detail.bodies], scope, named,
          branches ++ [⟨condition, slot⟩], by simp, rfl⟩
  | otherwise keyword =>
      obtain ⟨named, branches, -, shown⟩ := fits
      refine ⟨?_, scope, ?_⟩
      · rw [shown]
        simp [Detail.withBranch, Detail.bodies]
      · dsimp only
        rw [shown]
        simp [Detail.withBranch, Detail.IsComplete]
  | counted init condition update =>
      rw [unread (by simp) fits (known rfl)]
      exact ⟨rfl, scope, trivial⟩
  | iterator header byElement iterates =>
      rw [unread (by simp) fits (known rfl)]
      exact ⟨rfl, scope, trivial⟩
  | whileLoop condition =>
      rw [unread (by simp) fits (known rfl)]
      exact ⟨rfl, scope, trivial⟩
  | switch subject =>
      rw [unread (by simp) fits (known rfl)]
      exact ⟨rfl, scope, trivial⟩
  | synchronized lock =>
      rw [unread (by simp) fits (known rfl)]
      exact ⟨rfl, scope, trivial⟩
  | doLoop =>
      rw [unread (by simp) fits (known rfl)]
      exact ⟨rfl, scope, slot, noClause frame, rfl⟩
  | tryBlock =>
      rw [unread (by simp) fits (known rfl)]
      exact ⟨rfl, scope, slot, [], rfl⟩
  | handler keyword declarations some_ =>
      obtain ⟨guarded, handlers, shown⟩ := fits
      have freshHandlers : ∀ handler ∈ handlers, handler.body ≠ slot := by
        rintro handler member rfl
        rw [shown] at fresh
        simp [Detail.bodies, Detail.handlerBodies_mem member] at fresh
      refine ⟨?_, scope, guarded, _, by dsimp only; rw [shown]; rfl⟩
      rw [shown]
      simp [Detail.withHandlers, Detail.bodies, Detail.handlerBodies_append some_ freshHandlers]
  | cleanup keyword =>
      obtain ⟨guarded, handlers, shown⟩ := fits
      refine ⟨?_, scope, ?_⟩
      · rw [shown]
        simp [Detail.withCleanup, Detail.bodies]
      · dsimp only
        rw [shown]
        simp [Detail.withCleanup, Detail.IsComplete]

/-- A construct that ends with a detail of its own keeps the nesting. -/
theorem settle_nests {frame : ConstructFrame} {construct : Construct} {change : Detail → Detail}
    (tree : shape.IsTree) (opened : shape.IsOpen (.construct frame :: stack))
    (known : shape.constructs[frame.id]? = some construct)
    (same : (change construct.detail).bodies = construct.detail.bodies)
    (complete : (change construct.detail).IsComplete) :
    (shape.modifyDetail frame.id change).IsTree ∧
      (shape.modifyDetail frame.id change).IsOpen ([] ++ stack) := by
  refine ⟨tree.modifyDetail known same, ?_⟩
  refine opened.leave (fun target other => Shape.sameAt_modifyDetail other) fun found shown => ?_
  rw [Shape.getElem?_modifyDetail known, Option.some.injEq] at shown
  exact shown ▸ complete

/-- A construct without header has no bodies yet, conditionals excepted. -/
theorem unread_of_fits {frame : ConstructFrame} {construct : Construct} {keyword : Keyword}
    (fits : frame.Fits construct) (stage : frame.stage = .header)
    (named : construct.keyword = keyword) (other : keyword ≠ .ifThen) :
    construct.detail = .unread := by
  obtain ⟨-, fits⟩ := fits
  rw [stage] at fits
  rcases fits with blank | ⟨conditional, -⟩
  · exact blank
  · exact absurd (named.symm.trans conditional) other

theorem keyword_of_known {id : ConstructId} {construct : Construct} {keyword : Keyword}
    (found : body.shape.constructs[id]? = some construct)
    (known : body.constructs[id]?.map (·.keyword) = some keyword) :
    construct.keyword = keyword := by
  rw [getElem?_shape_constructs] at found
  rw [found] at known
  exact Option.some.inj known

theorem isComplete_of_hasClause {id : ConstructId} {construct : Construct}
    (found : body.shape.constructs[id]? = some construct) (closed : hasClause body id = true) :
    construct.detail.IsComplete := by
  rw [getElem?_shape_constructs] at found
  unfold hasClause at closed
  split at closed
  · rename_i known
    rw [found, Option.some.injEq] at known
    rw [known]
    simpa [Detail.IsComplete] using closed
  · contradiction

/-- A paragraph that ends is closed. -/
theorem isClosed_of_fits {frame : ParagraphFrame} {paragraph : Paragraph}
    (mode : frame.mode = .braced ∨ frame.mode = .single true) (fits : frame.Fits paragraph) :
    paragraph.IsClosed := by
  intro kind unbraced
  rcases mode with braced | single
  · simp [ParagraphFrame.Fits, braced, unbraced] at fits
  · simpa [ParagraphFrame.Fits, single] using fits

/-- One step keeps the tree of references and the open frames. -/
theorem Transition.nests (transition : Transition text body frame frames rest after)
    (tree : body.shape.IsTree) (opened : body.shape.IsOpen (frame :: stack))
    (noBlock : ∀ single rest, frame = .paragraph single → single.mode = .single false →
      text ≠ '{' :: rest) :
    after.shape.IsTree ∧ after.shape.IsOpen (frames ++ stack) := by
  have unchanged (target : Target) : Shape.SameAt body.shape body.shape target := .refl _ target
  have holds := opened.holds frame (List.mem_cons_self ..)
  cases transition with
  | brace mode =>
      obtain ⟨paragraph, known, fits⟩ := holds
      rw [shape_setBraced]
      refine ⟨tree.modifyParagraph _ (fun _ => rfl) (fun _ => rfl) fun _ => rfl, ?_⟩
      refine opened.advance (fun target other => Shape.sameAt_modifyParagraph other) ?_ rfl
      exact ⟨_, Shape.getElem?_modifyParagraph known, rfl⟩
  | unbraced mode starts solid =>
      obtain ⟨paragraph, known, fits⟩ := holds
      rw [ParagraphFrame.Fits, mode] at fits
      exact ⟨tree, opened.advance (fun target _ => unchanged target) ⟨paragraph, known, fits⟩ rfl⟩
  | close mode =>
      obtain ⟨paragraph, known, fits⟩ := holds
      refine ⟨tree, opened.leave (fun target _ => unchanged target) fun found shown => ?_⟩
      rw [known, Option.some.injEq] at shown
      exact shown ▸ isClosed_of_fits mode fits
  | empty mode =>
      rw [shape_addItem]
      exact addItem_nests tree opened mode rfl rfl
  | statement mode reads =>
      rw [shape_addItem, reads.shape]
      refine addItem_nests tree opened mode ?_ ?_
      · split <;> rfl
      · split <;> rfl
  | block mode starts =>
      rw [shape_addItem, shape_addParagraph rfl, ← length_shape_paragraphs]
      exact block_nests tree opened mode (fun single => noBlock _ _ rfl single starts) rfl rfl rfl
  | keyword mode =>
      rw [shape_addItem, shape_addConstruct]
      have size : body.constructs.size = body.shape.constructs.length := by simp [Body.shape]
      rw [size]
      exact keyword_nests tree opened mode rfl rfl
  | label mode =>
      obtain ⟨paragraph, known, fits⟩ := holds
      exact ⟨tree, opened.advance (fun target _ => unchanged target) ⟨paragraph, known, fits⟩ rfl⟩
  | slot named reads readsInner opens =>
      rename_i frame keyword outer inner kind change next first second
      obtain ⟨construct, known, fits⟩ := holds
      have size : first.paragraphs.size = body.shape.paragraphs.length := by
        rw [← reads.shape, length_shape_paragraphs]
      have fresh : first.paragraphs.size ∉ construct.detail.bodies := by
        intro inside
        have below := tree.lt_of_mem_bodies (List.mem_of_getElem? known) inside
        exact absurd below (size ▸ Nat.lt_irrefl _)
      obtain ⟨adds, fitsNext⟩ := opens.fits
        (fun stage => keyword_of_known known (named stage)) fits fresh
      have blank : (Paragraph.mk kind (some frame.scope) #[] #[] none false).vars = #[] := rfl
      rw [shape_modifyDetail, readsInner.shape, shape_addParagraph blank, reads.shape, size]
      rw [size] at adds
      have parent : some frame.scope = some construct.scope := congrArg some fits.1.symm
      refine ⟨tree.addSlot known parent rfl adds, ?_⟩
      refine opened.enter (fun target other new => ?_) ?_ ?_ rfl opened.fresh_paragraph
      · exact (Shape.sameAt_addParagraph new).trans (Shape.sameAt_modifyDetail other)
      · exact ⟨_, Shape.getElem?_modifyDetail known, fitsNext⟩
      · exact ⟨⟨kind, some frame.scope, #[], #[], none, false⟩,
          by simp [Shape.modifyDetail, Shape.addParagraph], rfl⟩
  | elseIf stage =>
      obtain ⟨construct, known, scope, fits⟩ := holds
      rw [stage] at fits
      exact ⟨tree, opened.advance (fun target _ => unchanged target)
        ⟨construct, known, scope, .inr fits⟩ rfl⟩
  | doWhile stage =>
      obtain ⟨construct, known, scope, fits⟩ := holds
      rw [stage] at fits
      exact ⟨tree, opened.advance (fun target _ => unchanged target)
        ⟨construct, known, scope, fits⟩ rfl⟩
  | doCondition stage reads =>
      obtain ⟨construct, known, -, fits⟩ := holds
      rw [stage] at fits
      obtain ⟨loop, condition, shown⟩ := fits
      rw [shape_modifyDetail, reads.declares.shape]
      exact settle_nests tree opened known (by rw [shown]; rfl) (by rw [shown]; trivial)
  | leave stage =>
      obtain ⟨construct, known, -, fits⟩ := holds
      refine ⟨tree, opened.leave (fun target _ => unchanged target) fun found shown => ?_⟩
      rw [known, Option.some.injEq] at shown
      subst shown
      rcases stage with done | branch | ⟨-, closed⟩
      · rw [done] at fits
        exact fits
      · rw [branch] at fits
        obtain ⟨-, branches, some_, detail⟩ := fits
        rw [detail]
        exact some_
      · exact isComplete_of_hasClause known closed
  | value stage named exits reads handles =>
      obtain ⟨construct, known, fits⟩ := holds
      have blank := unread_of_fits fits stage (keyword_of_known known named)
        (by rcases exits with rfl | rfl <;> simp)
      rw [shape_modifyDetail, shape_returnsHandle, reads.shape]
      exact settle_nests tree opened known (by rw [blank]; rfl) trivial
  | jump stage named jumps =>
      obtain ⟨construct, known, fits⟩ := holds
      have blank := unread_of_fits fits stage (keyword_of_known known named)
        (by rcases jumps with rfl | rfl <;> simp)
      rw [shape_modifyDetail]
      exact settle_nests tree opened known (by rw [blank]; rfl) trivial
  | caseLabel stage named reads =>
      obtain ⟨construct, known, fits⟩ := holds
      have blank := unread_of_fits fits stage (keyword_of_known known named) (by simp)
      rw [shape_modifyDetail, reads.declares.shape]
      exact settle_nests tree opened known (by rw [blank]; rfl) trivial
  | defaultLabel stage named =>
      obtain ⟨construct, known, fits⟩ := holds
      have blank := unread_of_fits fits stage (keyword_of_known known named) (by simp)
      rw [shape_modifyDetail]
      exact settle_nests tree opened known (by rw [blank]; rfl) trivial

/-! ## Whole runs -/

/-- The frame of a body without brackets whose statement is still to come. -/
def IsBare (frame : Frame) : Prop :=
  ∃ single, frame = .paragraph single ∧ single.mode = .single false

/-- The frame of the method body. -/
def IsRoot (frame : Frame) : Prop :=
  ∃ own, frame = .paragraph own ∧ own.mode = .root ∧ own.id = Body.root

theorem not_isBare_taking (frame : ParagraphFrame) (mode : takesItems frame.mode) :
    ¬ IsBare (.paragraph (taking frame)) := by
  rintro ⟨single, same, bare⟩
  obtain rfl := Frame.paragraph.inj same
  rcases mode with root | braced | single
  · simp [taking, root] at bare
  · simp [taking, braced] at bare
  · simp [taking, single] at bare

theorem not_isBare_construct (frame : ConstructFrame) : ¬ IsBare (.construct frame) := by
  rintro ⟨single, same, -⟩
  contradiction

/-- Only a body that turns out to be without brackets is left with its statement to come, and this
statement does not start with a bracket. -/
theorem Transition.isBare (transition : Transition text body frame frames rest after)
    {other : Frame} (member : other ∈ frames) (bare : IsBare other) :
    frames = [other] ∧ rest = text ∧ ∃ first behind, text = first :: behind ∧ first ≠ '{' := by
  have notBare {frame : ParagraphFrame} {mode : ParagraphMode} (away : mode ≠ .single false)
      (known : frame.mode = mode) : ¬ IsBare (.paragraph frame) := by
    rintro ⟨single, same, bare⟩
    obtain rfl := Frame.paragraph.inj same
    exact away (known.symm.trans bare)
  cases transition with
  | brace mode =>
      obtain rfl := List.mem_singleton.1 member
      exact absurd bare (notBare (by simp) rfl)
  | unbraced mode starts solid =>
      obtain rfl := List.mem_singleton.1 member
      exact ⟨rfl, rfl, _, _, starts, solid⟩
  | empty mode =>
      obtain rfl := List.mem_singleton.1 member
      exact absurd bare (not_isBare_taking _ mode)
  | statement mode reads =>
      obtain rfl := List.mem_singleton.1 member
      exact absurd bare (not_isBare_taking _ mode)
  | block mode starts =>
      rcases List.mem_cons.1 member with rfl | later
      · exact absurd bare (notBare (by simp) rfl)
      · obtain rfl := List.mem_singleton.1 later
        exact absurd bare (not_isBare_taking _ mode)
  | keyword mode =>
      rcases List.mem_cons.1 member with rfl | later
      · exact absurd bare (not_isBare_construct _)
      · obtain rfl := List.mem_singleton.1 later
        exact absurd bare (not_isBare_taking _ mode)
  | label mode =>
      obtain rfl := List.mem_singleton.1 member
      rcases mode with root | braced
      · exact absurd bare (notBare (by simp) root)
      · exact absurd bare (notBare (by simp) braced)
  | slot named reads readsInner opens =>
      rcases List.mem_cons.1 member with rfl | later
      · exact absurd bare (notBare (by simp) rfl)
      · obtain rfl := List.mem_singleton.1 later
        exact absurd bare (not_isBare_construct _)
  | elseIf stage =>
      obtain rfl := List.mem_singleton.1 member
      exact absurd bare (not_isBare_construct _)
  | doWhile stage =>
      obtain rfl := List.mem_singleton.1 member
      exact absurd bare (not_isBare_construct _)
  | _ => simp at member

/-- The frame of the method body stays at the bottom. -/
theorem Transition.isRoot (transition : Transition text body frame frames rest after)
    (root : IsRoot frame) : ∃ last, frames.getLast? = some last ∧ IsRoot last := by
  obtain ⟨own, rfl, mode, first⟩ := root
  have taken (label : Option String) : IsRoot (.paragraph (taking { own with label })) := by
    refine ⟨_, rfl, ?_, ?_⟩
    · simp [taking, mode]
    · simp [taking, mode, first]
  cases transition with
  | brace await => simp [mode] at await
  | unbraced await => simp [mode] at await
  | close done => simp [mode] at done
  | empty takes => exact ⟨_, rfl, taken own.label⟩
  | statement takes reads => exact ⟨_, rfl, taken own.label⟩
  | block takes starts => exact ⟨_, rfl, taken none⟩
  | keyword takes => exact ⟨_, rfl, taken none⟩
  | label either => exact ⟨_, rfl, _, rfl, mode, first⟩

/-- What holds of every reader on its way. -/
structure Sound (reader : Reader) : Prop where
  tree : reader.body.shape.IsTree
  opened : reader.body.shape.IsOpen reader.stack
  bottom : ∃ last, reader.stack.getLast? = some last ∧ IsRoot last
  top : ∀ frame, reader.stack.head? = some frame → IsBare frame →
    ∃ first behind, Text.trimStart reader.leftover = first :: behind ∧ first ≠ '{'
  below : ∀ frame ∈ reader.stack.tail, ¬ IsBare frame

/-- At the start, the method body is the only paragraph, and it has no statements. -/
theorem shape_initial (context : Context) (options : Options) :
    (Body.initial context options).shape = ⟨[{ kind := .root, parent := none }], []⟩ :=
  (declares_initial context options).shape

theorem sound_initial (context : Context) (options : Options) :
    Sound (Reader.initial context options) := by
  have shape := shape_initial context options
  refine ⟨?_, ?_, ⟨_, rfl, _, rfl, rfl, rfl⟩, ?_, by simp [Reader.initial]⟩
  · rw [Reader.initial, shape]
    refine ⟨by simp [Shape.blockPlaces, Shape.bodyPlaces, Shape.parentPlaces, numbered,
      Paragraph.blocks], by simp [Shape.constructPlaces, Shape.scopePlaces, numbered,
      Paragraph.constructs], ?_, by simp⟩
    intro id paragraph known
    rw [List.getElem?_singleton] at known
    split at known
    · rename_i first
      obtain rfl := Option.some.inj known
      exact .inl ⟨first, rfl⟩
    · contradiction
  · rw [Reader.initial, shape]
    refine ⟨?_, by simp, ?_⟩
    · intro frame member
      rw [List.mem_singleton.1 member]
      exact ⟨_, rfl, rfl⟩
    · intro target missing
      cases target with
      | paragraph id =>
          intro paragraph known
          rw [List.getElem?_singleton] at known
          split at known
          · obtain rfl := Option.some.inj known
            rintro (kind | kind) <;> contradiction
          · contradiction
      | construct id => simp [Shape.Settled]
  · intro frame head bare
    obtain rfl := Option.some.inj head
    obtain ⟨single, same, mode⟩ := bare
    obtain rfl := Frame.paragraph.inj same
    contradiction

theorem Advances.sound {reader next : Reader} (advances : Advances reader next)
    (sound : Sound reader) : Sound next := by
  obtain ⟨tree, opened, bottom, top, below⟩ := sound
  cases advances with
  | feed reader line =>
      refine ⟨tree, opened, bottom, fun frame head bare => ?_, below⟩
      obtain ⟨first, behind, starts, solid⟩ := top frame head bare
      have some_ : Text.trimStart reader.leftover ≠ [] := by simp [starts]
      have used : reader.leftover ≠ [] := by
        intro blank
        simp [blank] at some_
      refine ⟨first, behind ++ ' ' :: line, ?_, solid⟩
      simp only [fed, List.isEmpty_iff, used, if_false]
      rw [Text.trimStart_append_of_solid some_, starts, List.cons_append]
  | step transition =>
      rename_i frame stack frames text rest body after
      obtain ⟨treeAfter, openedAfter⟩ := transition.nests tree opened (by
        rintro single behind rfl mode starts
        obtain ⟨first, _, begins, solid⟩ := top _ rfl ⟨single, rfl, mode⟩
        rw [begins] at starts
        exact solid (List.cons.inj starts).1)
      refine ⟨treeAfter, openedAfter, ?_, ?_, ?_⟩
      · cases stack with
        | nil =>
            obtain ⟨last, same, root⟩ := bottom
            obtain rfl := Option.some.inj same
            rw [List.append_nil]
            exact transition.isRoot root
        | cons second stack =>
            obtain ⟨last, same, root⟩ := bottom
            rw [List.getLast?_cons_cons] at same
            refine ⟨last, ?_, root⟩
            rw [List.getLast?_append, same]
            rfl
      · intro other head bare
        cases frames with
        | nil => exact absurd bare (below other (List.mem_of_mem_head? head))
        | cons first others =>
            obtain rfl := Option.some.inj head
            obtain ⟨-, rfl, begins⟩ := transition.isBare (List.mem_cons_self ..) bare
            rw [Text.trimStart_trimStart]
            exact begins
      · intro other member bare
        cases frames with
        | nil => exact below other (List.mem_of_mem_tail member) bare
        | cons first others =>
            rcases List.mem_append.1 member with new | old
            · have only := (transition.isBare (List.mem_cons_of_mem _ new) bare).1
              rw [(List.cons.inj only).2] at new
              simp at new
            · exact below other old bare

/-- Every reader that is reached from the start is sound. -/
theorem Reaches.sound {reader next : Reader} (reaches : Reaches reader next)
    (sound : Sound reader) :
    Sound next := by
  induction reaches with
  | refl => exact sound
  | tail _ moves induction => exact moves.advances.sound induction

/-- When only one frame is open, it is the one of the method body. -/
theorem Sound.root {reader : Reader} (sound : Sound reader) (idle : reader.isIdle = true) :
    ∃ root, reader.stack = [root] ∧ IsRoot root := by
  obtain ⟨last, same, root⟩ := sound.bottom
  rw [isIdle, Bool.and_eq_true, beq_iff_eq] at idle
  obtain ⟨frame, single⟩ := List.length_eq_one_iff.1 idle.1
  rw [single] at same
  obtain rfl := Option.some.inj same
  exact ⟨frame, single, root⟩

/-- The shape of an idle reader is complete. -/
theorem Sound.settled {reader : Reader} (sound : Sound reader) (idle : reader.isIdle = true)
    (target : Target) : reader.body.shape.Settled target := by
  obtain ⟨_, stack, own, rfl, mode, -⟩ := sound.root idle
  by_cases same : target = .paragraph own.id
  · subst same
    intro paragraph known kind
    obtain ⟨found, shown, fits⟩ := sound.opened.holds (.paragraph own) (by simp [stack])
    rw [known, Option.some.injEq] at shown
    rw [ParagraphFrame.Fits, mode, ← shown] at fits
    rw [fits] at kind
    rcases kind with body | switch <;> contradiction
  · refine sound.opened.settled target ?_
    simpa [stack, Frame.target] using same

end
end Reader
end MethodLowering
