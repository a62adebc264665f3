import Mathlib.Data.List.Chain
import Mathlib.Data.List.Perm.Subperm
import MethodLowering.Proofs.Reader.Failing
import MethodLowering.Proofs.Reader.Nesting

/-!
# The stack of open frames

Each open frame stands on the one that opened it, down to the frame of the method body, and the open
paragraphs are the paragraph of the topmost of them with those around it.  Every step keeps this,
whether it is taken or fails, so it holds of a reader that goes on after an error as well.
-/

namespace MethodLowering

open Body

/-! ## Frames on frames -/

namespace Frame

/-- The paragraph of a frame, or the one its construct stands in. -/
def innermost : Frame → ParagraphId
  | .paragraph frame => frame.id
  | .construct frame => frame.scope

/-- The paragraph or construct of the upper frame exists, and says that it stands in the innermost
paragraph of the lower one. -/
def PointsTo (body : Body) (lower : Frame) : Frame → Prop
  | .paragraph upper => ∃ paragraph, body.paragraphs[upper.id]? = some paragraph ∧
      paragraph.parent = some lower.innermost
  | .construct upper => ∃ construct, body.constructs[upper.id]? = some construct ∧
      construct.scope = upper.scope ∧ upper.scope = lower.innermost

/-- The lower frame has opened the paragraph or construct of the upper one: it is the latest
statement of the paragraph below, or a body of the construct below. -/
def Opened (body : Body) (upper : Frame) : Frame → Prop
  | .paragraph lower => ∃ paragraph, body.paragraphs[lower.id]? = some paragraph ∧ match upper with
      | .paragraph upper => paragraph.items.back? = some (.block upper.id)
      | .construct upper => paragraph.items.back? = some (.construct upper.id)
  | .construct lower => ∃ own, upper = .paragraph own ∧
      ∃ construct, body.constructs[lower.id]? = some construct ∧ own.id ∈ construct.detail.bodies

/-- The upper frame stands on the lower one, which opened it. -/
structure SitsOn (body : Body) (upper lower : Frame) : Prop where
  points : PointsTo body lower upper
  opened : Opened body upper lower

/-- The paragraph or construct of the upper frame came later. -/
def Above : Frame → Frame → Prop
  | .paragraph upper, .paragraph lower => lower.id < upper.id
  | .construct upper, .construct lower => lower.id < upper.id
  | _, _ => True

/-- The paragraph or construct of the frame exists, and behind the body of a `try` it is one. -/
def IsKnown (body : Body) : Frame → Prop
  | .paragraph frame => frame.id < body.paragraphs.size
  | .construct frame => ∃ construct, body.constructs[frame.id]? = some construct ∧
      (frame.stage = .afterTryClause →
        ∃ guarded handlers cleanup, construct.detail = .tryBlock guarded handlers cleanup)

end Frame

/-- Frames that stand on each other, down to the frame of the method body. -/
structure Stacked (body : Body) (stack : List Frame) : Prop where
  bottom : ∃ last, stack.getLast? = some last ∧ Reader.IsRoot last
  seated : stack.IsChain (Frame.SitsOn body)
  apart : stack.Pairwise Frame.Above
  known : ∀ frame ∈ stack, frame.IsKnown body
  outermost : ∃ paragraph, body.paragraphs[root]? = some paragraph ∧ paragraph.parent = none

/-! ## What a change of the body leaves alone -/

namespace Body

/-- Paragraphs and constructs stay where they are. -/
structure Places (before after : Body) : Prop where
  paragraphs : ∀ (id : ParagraphId) (paragraph : Paragraph), before.paragraphs[id]? =
    some paragraph →
    ∃ found : Paragraph, after.paragraphs[id]? = some found ∧ found.parent = paragraph.parent
  constructs : ∀ (id : ConstructId) (construct : Construct), before.constructs[id]? =
    some construct →
    ∃ found : Construct, after.constructs[id]? = some found ∧ found.scope = construct.scope

/-- The statements of a paragraph, or the header and bodies of a construct, are not lost. -/
def Spares (before after : Body) : Target → Prop
  | .paragraph id => ∀ paragraph, before.paragraphs[id]? = some paragraph →
      ∃ found, after.paragraphs[id]? = some found ∧ found.items = paragraph.items
  | .construct id => ∀ construct, before.constructs[id]? = some construct →
      ∃ found added, after.constructs[id]? = some found ∧
        found.detail = construct.detail.handledBy added

section

variable {before between after body : Body} {target : Target}

theorem Places.refl (body : Body) : body.Places body :=
  ⟨fun _ paragraph known => ⟨paragraph, known, rfl⟩, fun _ construct known =>
    ⟨construct, known, rfl⟩⟩

theorem Places.trans (first : before.Places between) (second : between.Places after) :
    before.Places after := by
  constructor
  · intro id paragraph known
    obtain ⟨middle, shown, same⟩ := first.paragraphs id paragraph known
    obtain ⟨last, found, equal⟩ := second.paragraphs id middle shown
    exact ⟨last, found, equal.trans same⟩
  · intro id construct known
    obtain ⟨middle, shown, same⟩ := first.constructs id construct known
    obtain ⟨last, found, equal⟩ := second.constructs id middle shown
    exact ⟨last, found, equal.trans same⟩

theorem Spares.trans (first : before.Spares between target) (second : between.Spares after target) :
    before.Spares after target := by
  cases target with
  | paragraph id =>
      intro paragraph known
      obtain ⟨middle, shown, same⟩ := first paragraph known
      obtain ⟨last, found, equal⟩ := second middle shown
      exact ⟨last, found, equal.trans same⟩
  | construct id =>
      intro construct known
      obtain ⟨middle, added, shown, same⟩ := first construct known
      obtain ⟨last, further, found, equal⟩ := second middle shown
      exact ⟨last, added ++ further, found, by rw [equal, same, Detail.handledBy_handledBy]⟩

theorem Places.lt_size {id : ParagraphId} (places : before.Places after)
    (inside : id < before.paragraphs.size) : id < after.paragraphs.size := by
  obtain ⟨found, shown, -⟩ :=
    places.paragraphs id before.paragraphs[id] (Array.getElem?_eq_getElem inside)
  exact (Array.getElem?_eq_some_iff.1 shown).1

theorem Places.size_le (places : before.Places after) :
    before.paragraphs.size ≤ after.paragraphs.size := by
  by_contra smaller
  exact absurd (places.lt_size (Nat.lt_of_not_le smaller)) (Nat.lt_irrefl _)

theorem Keeps.places (keeps : before.Keeps after) : before.Places after := by
  constructor
  · intro id paragraph known
    obtain ⟨vars, found⟩ := keeps.paragraphs id paragraph known
    exact ⟨_, found, rfl⟩
  · intro id construct known
    obtain ⟨added, found⟩ := keeps.constructs id construct known
    exact ⟨_, found, rfl⟩

theorem Keeps.spares (keeps : before.Keeps after) (target : Target) :
    before.Spares after target := by
  cases target with
  | paragraph id =>
      intro paragraph known
      obtain ⟨vars, found⟩ := keeps.paragraphs id paragraph known
      exact ⟨_, found, rfl⟩
  | construct id =>
      intro construct known
      obtain ⟨added, found⟩ := keeps.constructs id construct known
      exact ⟨_, added, found, rfl⟩

theorem places_modifyParagraph (id : ParagraphId) {change : Paragraph → Paragraph}
    (same : ∀ paragraph, (change paragraph).parent = paragraph.parent) :
    body.Places (body.modifyParagraph id change) := by
  refine ⟨fun other paragraph known => ?_, fun other construct known => ⟨construct, known, rfl⟩⟩
  rw [modifyParagraph, Array.getElem?_modify, known]
  split
  · exact ⟨_, rfl, same paragraph⟩
  · exact ⟨_, rfl, rfl⟩

theorem places_addItem (id : ParagraphId) (item : Item) : body.Places (body.addItem id item) :=
  places_modifyParagraph id fun _ => rfl

/-- The latest statement of a paragraph is the one that was added. -/
theorem back?_addItem {id : ParagraphId} (inside : id < body.paragraphs.size) (item : Item) :
    ∃ paragraph, (body.addItem id item).paragraphs[id]? = some paragraph ∧
      paragraph.items.back? = some item := by
  rw [addItem, modifyParagraph, Array.getElem?_modify, if_pos rfl, Array.getElem?_eq_getElem inside]
  exact ⟨_, rfl, Array.back?_push⟩

theorem places_modifyDetail (id : ConstructId) (change : Detail → Detail) :
    body.Places (body.modifyDetail id change) := by
  refine ⟨fun other paragraph known => ⟨paragraph, known, rfl⟩, fun other construct known => ?_⟩
  rw [modifyDetail, Array.getElem?_modify, known]
  split
  · exact ⟨_, rfl, rfl⟩
  · exact ⟨_, rfl, rfl⟩

theorem getElem?_addConstruct {id : ConstructId} {construct further : Construct}
    (known : body.constructs[id]? = some construct) :
    (body.addConstruct further).constructs[id]? = some construct := by
  have inside := (Array.getElem?_eq_some_iff.1 known).1
  rw [addConstruct, Array.getElem?_push, if_neg (Nat.ne_of_lt inside), known]

theorem getElem?_addConstruct_size (construct : Construct) :
    (body.addConstruct construct).constructs[body.constructs.size]? = some construct := by
  simp [addConstruct]

theorem getElem?_addParagraph_size (paragraph : Paragraph) :
    (body.addParagraph paragraph).paragraphs[body.paragraphs.size]? = some paragraph := by
  simp [addParagraph]

theorem places_addConstruct (construct : Construct) : body.Places (body.addConstruct construct) :=
  ⟨fun _ paragraph known => ⟨paragraph, known, rfl⟩,
    fun _ found known => ⟨found, getElem?_addConstruct known, rfl⟩⟩

theorem spares_addConstruct (construct : Construct) (target : Target) :
    body.Spares (body.addConstruct construct) target := by
  cases target with
  | paragraph id => exact fun paragraph known => ⟨paragraph, known, rfl⟩
  | construct id => exact fun found known => ⟨found, [], getElem?_addConstruct known, by simp⟩

theorem spares_modifyParagraph {id : ParagraphId} {change : Paragraph → Paragraph}
    (other : target ≠ .paragraph id) : body.Spares (body.modifyParagraph id change) target := by
  cases target with
  | paragraph otherId =>
      intro paragraph known
      have away : id ≠ otherId := fun same => other (congrArg _ same.symm)
      exact ⟨paragraph, by rw [modifyParagraph, Array.getElem?_modify, if_neg away, known], rfl⟩
  | construct otherId => exact fun construct known => ⟨construct, [], known, by simp⟩

theorem spares_modifyDetail {id : ConstructId} {change : Detail → Detail}
    (other : target ≠ .construct id) : body.Spares (body.modifyDetail id change) target := by
  cases target with
  | paragraph otherId => exact fun paragraph known => ⟨paragraph, known, rfl⟩
  | construct otherId =>
      intro construct known
      have away : id ≠ otherId := fun same => other (congrArg _ same.symm)
      exact ⟨construct, [],
        by rw [modifyDetail, Array.getElem?_modify, if_neg away, known], by simp⟩

theorem Declares.keeps {scope : ParagraphId} (declares : Declares scope before after) :
    before.Keeps after :=
  keeps_of_shape declares.context declares.shape declares.mark_le

theorem ReadsAll.keeps {scope : ParagraphId} {clauses : List Placed}
    (reads : ReadsAll scope before clauses after) : before.Keeps after := by
  induction reads with
  | nil body => exact .refl body
  | cons first others induction => exact first.declares.keeps.trans induction

theorem ReadsCut.keeps {scope : ParagraphId} {placed : Placed}
    (reads : ReadsCut scope before placed after) : before.Keeps after := by
  obtain ⟨between, first, added, rfl, -⟩ := reads
  exact first.declares.keeps.trans (keeps_of_shape rfl rfl (Mark.le_refl _))

end
end Body

/-! ## Steps -/

section

variable {before after body : Body} {upper lower frame : Frame} {frames stack : List Frame}

theorem Frame.SitsOn.mono (sits : upper.SitsOn before lower) (places : before.Places after)
    (spares : before.Spares after lower.target) : upper.SitsOn after lower := by
  obtain ⟨points, opened⟩ := sits
  constructor
  · cases upper with
    | paragraph upper =>
        obtain ⟨paragraph, known, parent⟩ := points
        obtain ⟨found, shown, same⟩ := places.paragraphs _ _ known
        exact ⟨found, shown, same.trans parent⟩
    | construct upper =>
        obtain ⟨construct, known, scope, inner⟩ := points
        obtain ⟨found, shown, same⟩ := places.constructs _ _ known
        exact ⟨found, shown, same.trans scope, inner⟩
  · cases lower with
    | paragraph lower =>
        obtain ⟨paragraph, known, last⟩ := opened
        obtain ⟨found, shown, same⟩ := spares paragraph known
        exact ⟨found, shown, same ▸ last⟩
    | construct lower =>
        obtain ⟨own, rfl, construct, known, member⟩ := opened
        obtain ⟨found, added, shown, same⟩ := spares construct known
        exact ⟨own, rfl, found, shown, same ▸ Detail.mem_bodies_handledBy added member⟩

theorem Frame.IsKnown.mono (known : frame.IsKnown before) (places : before.Places after)
    (spares : before.Spares after frame.target) : frame.IsKnown after := by
  cases frame with
  | paragraph frame => exact places.lt_size known
  | construct frame =>
      obtain ⟨construct, known, guards⟩ := known
      obtain ⟨found, added, shown, same⟩ := spares construct known
      refine ⟨found, shown, fun stage => ?_⟩
      obtain ⟨guarded, handlers, cleanup, detail⟩ := guards stage
      exact ⟨guarded, handlers ++ added, cleanup, by rw [same, detail, Detail.handledBy]⟩

/-- A stack on which nothing was lost. -/
theorem Stacked.mono (stacked : Stacked before stack) (places : before.Places after)
    (spares : ∀ frame ∈ stack, before.Spares after frame.target) : Stacked after stack := by
  obtain ⟨bottom, seated, apart, known, paragraph, first, outermost⟩ := stacked
  refine ⟨bottom, ?_, apart, fun frame member =>
    (known frame member).mono places (spares frame member),
    ?_⟩
  · refine List.IsChain.imp_of_mem_imp ?_ seated
    exact fun upper lower _ member sits => sits.mono places (spares lower member)
  · obtain ⟨found, shown, same⟩ := places.paragraphs _ _ first
    exact ⟨found, shown, same.trans outermost⟩

theorem Frame.target_ne_of_above (above : upper.Above lower) : lower.target ≠ upper.target := by
  cases upper with
  | paragraph upper =>
      cases lower with
      | paragraph lower => exact fun same => Nat.ne_of_lt above (Target.paragraph.inj same)
      | construct lower => exact nofun
  | construct upper =>
      cases lower with
      | paragraph lower => exact nofun
      | construct lower => exact fun same => Nat.ne_of_lt above (Target.construct.inj same)

/-- The frames are about the same paragraph or construct, in the same place. -/
def Frame.SameSeat (frame next : Frame) : Prop :=
  next.target = frame.target ∧ next.innermost = frame.innermost

theorem Frame.SameSeat.sitsOn {next : Frame} (same : frame.SameSeat next)
    (sits : frame.SitsOn body lower) : next.SitsOn body lower := by
  obtain ⟨target, innermost⟩ := same
  obtain ⟨points, opened⟩ := sits
  cases frame with
  | paragraph frame =>
      cases next with
      | construct next => contradiction
      | paragraph next =>
          rw [Frame.target, Frame.target, Target.paragraph.injEq] at target
          refine ⟨by rw [PointsTo, target]; exact points, ?_⟩
          cases lower with
          | paragraph lower => simpa only [Opened, target] using opened
          | construct lower =>
              obtain ⟨own, equal, construct, known, member⟩ := opened
              obtain rfl := Frame.paragraph.inj equal
              exact ⟨next, rfl, construct, known, target ▸ member⟩
  | construct frame =>
      cases next with
      | paragraph next => contradiction
      | construct next =>
          rw [Frame.target, Frame.target, Target.construct.injEq] at target
          rw [Frame.innermost, Frame.innermost] at innermost
          refine ⟨by rw [PointsTo, target, innermost]; exact points, ?_⟩
          cases lower with
          | paragraph lower => simpa only [Opened, target] using opened
          | construct lower =>
              obtain ⟨own, equal, -⟩ := opened
              contradiction

theorem Frame.SameSeat.above {next : Frame} (same : frame.SameSeat next)
    (above : frame.Above lower) : next.Above lower := by
  have target := same.1
  cases frame <;> cases next <;> cases lower <;> simp_all [Frame.Above, Frame.target]

section

variable (stacked : Stacked before (frame :: stack)) (places : before.Places after)
  (spares : ∀ target, target ≠ frame.target → before.Spares after target)
include stacked places spares

/-- The top frame goes on. -/
theorem Stacked.advance {next : Frame} (same : frame.SameSeat next) (known : next.IsKnown after)
    (root : Reader.IsRoot frame → Reader.IsRoot next) : Stacked after (next :: stack) := by
  obtain ⟨⟨last, final, isRoot⟩, seated, apart, knownAll, paragraph, first, outermost⟩ := stacked
  obtain ⟨above, apart⟩ := List.pairwise_cons.1 apart
  have away (other : Frame) (member : other ∈ stack) : before.Spares after other.target :=
    spares _ (Frame.target_ne_of_above (above other member))
  refine ⟨?_, ?_, List.pairwise_cons.2 ⟨fun other member => same.above (above other member), apart⟩,
    ?_, ?_⟩
  · cases stack with
    | nil =>
        obtain rfl := Option.some.inj final
        exact ⟨next, rfl, root isRoot⟩
    | cons lower rest => exact ⟨last, by simpa using final, isRoot⟩
  · rw [List.isChain_cons] at seated ⊢
    refine ⟨fun lower head => ?_, ?_⟩
    · have member := List.mem_of_mem_head? head
      exact same.sitsOn ((seated.1 lower head).mono places (away lower member))
    · refine List.IsChain.imp_of_mem_imp ?_ seated.2
      exact fun upper lower _ member sits => sits.mono places (away lower member)
  · intro other member
    rcases List.mem_cons.1 member with rfl | later
    · exact known
    · exact (knownAll other (List.mem_cons_of_mem _ later)).mono places (away other later)
  · obtain ⟨found, shown, equal⟩ := places.paragraphs _ _ first
    exact ⟨found, shown, equal.trans outermost⟩

/-- The top frame is finished. -/
theorem Stacked.leave (inner : ¬ Reader.IsRoot frame) : Stacked after stack := by
  obtain ⟨⟨last, final, isRoot⟩, seated, apart, known, first⟩ := stacked
  obtain ⟨above, apart⟩ := List.pairwise_cons.1 apart
  have below : Stacked before stack := by
    refine ⟨?_, (List.isChain_cons.1 seated).2, apart,
      fun other member => known other (List.mem_cons_of_mem _ member), first⟩
    cases stack with
    | nil =>
        obtain rfl := Option.some.inj final
        exact absurd isRoot inner
    | cons lower rest => exact ⟨last, by simpa using final, isRoot⟩
  exact below.mono places fun other member =>
    spares _ (Frame.target_ne_of_above (above other member))

end

/-- A new frame is put on top. -/
theorem Stacked.push (stacked : Stacked body (lower :: stack)) (sits : upper.SitsOn body lower)
    (known : upper.IsKnown body) (above : ∀ other ∈ lower :: stack, upper.Above other) :
    Stacked body (upper :: lower :: stack) := by
  obtain ⟨⟨last, final, isRoot⟩, seated, apart, knownAll, first⟩ := stacked
  refine ⟨⟨last, by simpa using final, isRoot⟩, List.isChain_cons_cons.2 ⟨sits, seated⟩,
    List.pairwise_cons.2 ⟨above, apart⟩, fun other member => ?_, first⟩
  rcases List.mem_cons.1 member with rfl | later
  · exact known
  · exact knownAll other later

theorem Frame.above_of_known {id : ParagraphId} {mode : ParagraphMode} (known : frame.IsKnown body)
    (fresh : body.paragraphs.size ≤ id) : (Frame.ofParagraph id mode).Above frame := by
  cases frame with
  | paragraph frame => exact Nat.lt_of_lt_of_le known fresh
  | construct frame => trivial

theorem Frame.above_of_known_construct {own : ConstructFrame} (known : frame.IsKnown body)
    (fresh : body.constructs.size ≤ own.id) : (Frame.construct own).Above frame := by
  cases frame with
  | paragraph frame => trivial
  | construct frame =>
      obtain ⟨construct, shown, -⟩ := known
      exact Nat.lt_of_lt_of_le (Array.getElem?_eq_some_iff.1 shown).1 fresh

end

namespace Reader

section

variable {text rest : List Char} {body after : Body} {frame : Frame} {frames stack : List Frame}

/-- The body that is opened is one of the construct, and behind the body of a `try` it is one. -/
theorem Opens.mem_bodies {own : ConstructFrame} {slot : ParagraphId} {keyword : Keyword}
    {stage next : Stage} {outer inner : List Placed} {kind : ParagraphKind}
    {change : Detail → Detail}
    (opens : Opens own slot body keyword stage outer inner kind change next) {detail : Detail}
    (guards : stage = .afterTryClause →
      ∃ guarded handlers cleanup, detail = .tryBlock guarded handlers cleanup) :
    slot ∈ (change detail).bodies ∧ (next = .afterTryClause →
      ∃ guarded handlers cleanup, change detail = .tryBlock guarded handlers cleanup) := by
  cases opens with
  | branch condition => cases detail <;> simp [Detail.withBranch, Detail.bodies]
  | otherwise keyword => cases detail <;> simp [Detail.withBranch, Detail.bodies]
  | handler keyword declarations some_ =>
      obtain ⟨guarded, handlers, cleanup, rfl⟩ := guards rfl
      refine ⟨?_, fun _ => ⟨_, _, _, rfl⟩⟩
      obtain ⟨first, others, rfl⟩ := List.exists_cons_of_ne_nil some_
      have member : (⟨first, slot⟩ : Handler) ∈
          handlers ++ (first :: others).map fun declaration => ⟨declaration, slot⟩ := by simp
      simp only [Detail.withHandlers, Detail.bodies, List.mem_cons, List.mem_append]
      exact .inr (.inl (Detail.handlerBodies_mem member))
  | cleanup keyword =>
      obtain ⟨guarded, handlers, cleanup, rfl⟩ := guards rfl
      simp [Detail.withCleanup, Detail.bodies]
  | tryBlock => exact ⟨by simp [Detail.bodies], fun _ => ⟨_, _, _, rfl⟩⟩
  | _ => simp [Detail.bodies]

theorem sameSeat_taking (own : ParagraphFrame) (label : Option String) :
    (Frame.paragraph own).SameSeat (.paragraph (taking { own with label })) := by
  rw [taking]
  split <;> exact ⟨rfl, rfl⟩

theorem taking_id (own : ParagraphFrame) : (taking own).id = own.id := by
  rw [taking]
  split <;> rfl

theorem isRoot_taking {own : ParagraphFrame} (label : Option String)
    (root : IsRoot (.paragraph own)) : IsRoot (.paragraph (taking { own with label })) := by
  obtain ⟨_, same, mode, first⟩ := root
  obtain rfl := Frame.paragraph.inj same
  refine ⟨_, rfl, ?_, ?_⟩
  · simp [taking, mode]
  · simp [taking, mode, first]

theorem not_isRoot_construct (own : ConstructFrame) : ¬ IsRoot (.construct own) := by
  rintro ⟨_, same, -⟩
  contradiction

/-- Every step that is taken keeps the frames on each other. -/
theorem Transition.stacked (transition : Transition text body frame frames rest after)
    (stacked : Stacked body (frame :: stack)) : Stacked after (frames ++ stack) := by
  have known := stacked.known frame (List.mem_cons_self ..)
  have same (target : Target) (_ : target ≠ frame.target) : body.Spares body target :=
    (Keeps.refl body).spares target
  -- a frame of a construct changes its stage only
  have restaged {own : ConstructFrame} {stage : Stage} (isFrame : frame = .construct own)
      (other : stage ≠ .afterTryClause) :
      Stacked body (.construct { own with stage } :: stack) := by
    subst isFrame
    obtain ⟨construct, shown, -⟩ := known
    exact stacked.advance (.refl body) same ⟨rfl, rfl⟩
      ⟨construct, shown, fun stage => absurd stage other⟩ fun root =>
        absurd root (not_isRoot_construct _)
  -- a construct ends with a change of its header
  have settles {own : ConstructFrame} {between : Body} {change : Detail → Detail}
      (isFrame : frame = .construct own) (keeps : body.Keeps between) :
      Stacked (between.modifyDetail own.id change) stack := by
    subst isFrame
    refine stacked.leave (keeps.places.trans (places_modifyDetail ..)) (fun target other => ?_)
      (not_isRoot_construct _)
    exact (keeps.spares target).trans (spares_modifyDetail other)
  -- a paragraph takes a statement
  have takes {own : ParagraphFrame} {between : Body} {item : Item} (label : Option String)
      (isFrame : frame = .paragraph own) (places : body.Places between)
      (spares : ∀ target, body.Spares between target) :
      Stacked (between.addItem own.id item) (.paragraph (taking { own with label }) :: stack) := by
    subst isFrame
    have placesAll := places.trans (places_addItem own.id item)
    refine stacked.advance placesAll
      (fun target other => (spares target).trans (spares_modifyParagraph other))
      (sameSeat_taking own label) ?_ (isRoot_taking label)
    rw [Frame.IsKnown, taking_id]
    exact placesAll.lt_size known
  have below (own : ParagraphFrame) (label : Option String) (inside : own.id < body.paragraphs.size)
      (other : Frame) (member : other ∈ .paragraph (taking { own with label }) :: stack) :
      other.IsKnown body := by
    rcases List.mem_cons.1 member with rfl | later
    · rw [Frame.IsKnown, taking_id]
      exact inside
    · exact stacked.known other (List.mem_cons_of_mem _ later)
  cases transition with
  | @brace own rest mode =>
      have places : body.Places (body.modifyParagraph own.id
          fun paragraph => { paragraph with braced := true }) :=
        places_modifyParagraph own.id fun _ => rfl
      refine stacked.advance places (fun target other => spares_modifyParagraph other) ⟨rfl, rfl⟩
        (places.lt_size known) ?_
      rintro ⟨_, same, root, -⟩
      obtain rfl := Frame.paragraph.inj same
      rw [mode] at root
      contradiction
  | @unbraced own first rest mode starts solid =>
      refine stacked.advance (.refl body) same ⟨rfl, rfl⟩ known ?_
      rintro ⟨_, same, root, -⟩
      obtain rfl := Frame.paragraph.inj same
      rw [mode] at root
      contradiction
  | @close own rest mode =>
      refine stacked.leave (.refl body) same ?_
      rintro ⟨_, same, root, -⟩
      obtain rfl := Frame.paragraph.inj same
      simp [root] at mode
  | empty mode => exact takes _ rfl (.refl body) fun target => (Keeps.refl body).spares target
  | statement mode reads => exact takes _ rfl reads.keeps.places reads.keeps.spares
  | @block own rest mode starts =>
      have keeps : body.Keeps (body.addParagraph
          { kind := .block, parent := some own.id, label := own.label, braced := true }) :=
        keeps_addParagraph rfl
      refine (takes none rfl keeps.places keeps.spares).push ⟨?_, ?_⟩ ?_ ?_
      · obtain ⟨found, shown, same⟩ :=
          (places_addItem own.id (.block body.paragraphs.size)).paragraphs
          body.paragraphs.size _ (getElem?_addParagraph_size ..)
        refine ⟨found, shown, same.trans ?_⟩
        rw [Frame.innermost, taking_id]
      · rw [Frame.Opened, taking_id]
        exact back?_addItem (keeps.places.lt_size known) _
      · refine (places_addItem own.id _).lt_size ?_
        simp [Body.addParagraph]
      · intro other member
        exact Frame.above_of_known (below own none known other member) (Nat.le_refl _)
  | @keyword own rest keyword mode =>
      refine (takes none rfl (places_addConstruct _) (spares_addConstruct _)).push
        ⟨?_, ?_⟩ ?_ ?_
      · obtain ⟨found, shown, same⟩ := (places_addItem own.id
          (.construct body.constructs.size)).constructs body.constructs.size _
          (getElem?_addConstruct_size ..)
        refine ⟨found, shown, same, ?_⟩
        rw [Frame.innermost, taking_id]
      · rw [Frame.Opened, taking_id]
        exact back?_addItem known _
      · exact ⟨_, getElem?_addConstruct_size .., Stage.noConfusion⟩
      · intro other member
        exact Frame.above_of_known_construct (below own none known other member) (Nat.le_refl _)
  | @label own rest label mode =>
      refine stacked.advance (.refl body) same ⟨rfl, rfl⟩ known ?_
      rintro ⟨_, same, root, first⟩
      obtain rfl := Frame.paragraph.inj same
      exact ⟨_, rfl, root, first⟩
  | @slot own rest keyword outer inner kind change next first second named reads readsInner opens =>
      have keepsOuter := reads.keeps
      have keepsSlot : first.Keeps (first.addParagraph { kind, parent := some own.scope }) :=
        keeps_addParagraph rfl
      have keepsInner := readsInner.keeps
      have keeps := keepsOuter.trans (keepsSlot.trans keepsInner)
      have places := keeps.places.trans (places_modifyDetail own.id change)
      obtain ⟨construct, shown, guards⟩ := known
      obtain ⟨added, found⟩ := keeps.constructs _ _ shown
      have guarding (stage : own.stage = .afterTryClause) : ∃ guarded handlers cleanup,
          construct.detail.handledBy added = .tryBlock guarded handlers cleanup := by
        obtain ⟨guarded, handlers, cleanup, detail⟩ := guards stage
        exact ⟨guarded, handlers ++ added, cleanup, by rw [detail, Detail.handledBy]⟩
      obtain ⟨member, guardsNext⟩ := opens.mem_bodies guarding
      have changed : (second.modifyDetail own.id change).constructs[own.id]? =
          some { construct with detail := change (construct.detail.handledBy added) } := by
        rw [modifyDetail, Array.getElem?_modify, if_pos rfl, found]
        rfl
      have waits : Stacked (second.modifyDetail own.id change)
          (.construct { own with stage := next } :: stack) :=
        stacked.advance places (fun target other => (keeps.spares target).trans
          (spares_modifyDetail other)) ⟨rfl, rfl⟩ ⟨_, changed, guardsNext⟩
          fun root => absurd root (not_isRoot_construct _)
      refine waits.push ⟨?_, _, rfl, _, changed, member⟩ ?_ ?_
      · obtain ⟨opened, place, same⟩ := (keepsInner.places.trans (places_modifyDetail own.id change)
          ).paragraphs first.paragraphs.size _ (getElem?_addParagraph_size ..)
        exact ⟨opened, place, same⟩
      · refine (keepsInner.places.trans (places_modifyDetail own.id change)).lt_size ?_
        simp [Body.addParagraph]
      · intro other among
        rcases List.mem_cons.1 among with rfl | later
        · trivial
        · exact Frame.above_of_known (stacked.known other (List.mem_cons_of_mem _ later))
            keepsOuter.places.size_le
  | elseIf stage => exact restaged rfl (by simp)
  | doWhile stage => exact restaged rfl (by simp)
  | leave stage => exact stacked.leave (.refl body) same (not_isRoot_construct _)
  | doCondition stage reads => exact settles rfl reads.declares.keeps
  | value stage named exits reads handles =>
      exact settles rfl (reads.keeps.trans (keeps_of_shape rfl rfl (Mark.le_refl _)))
  | jump stage named jumps => exact settles rfl (.refl body)
  | caseLabel stage named reads => exact settles rfl reads.declares.keeps
  | defaultLabel stage named => exact settles rfl (.refl body)

/-! ## Readers -/

/-- A turn fails where the step of the top frame does. -/
theorem turn_eq_fail {reader next : Reader} {finishing : Bool} {failure : Failure}
    (failed : reader.turn finishing = .fail failure next) :
    next = { reader with body := next.body } ∧ ∃ frame text,
      step finishing frame text reader.body = .error failure next.body := by
  obtain ⟨body, stack, leftover⟩ := reader
  cases stack with
  | nil => contradiction
  | cons frame stack =>
      simp only [turn] at failed
      cases taken : step finishing frame (Text.trimStart leftover) body with
      | error reason after =>
          rw [taken] at failed
          obtain ⟨rfl, rfl⟩ := Turn.fail.inj failed
          exact ⟨rfl, frame, _, taken⟩
      | ok outcome after => cases outcome <;> simp [taken] at failed

/-- A turn that fails leaves stack and text, and loses nothing of the body. -/
theorem turn_fail {reader next : Reader} {finishing : Bool} {failure : Failure}
    (failed : reader.turn finishing = .fail failure next) :
    next.stack = reader.stack ∧ next.leftover = reader.leftover ∧ reader.body.Keeps next.body := by
  obtain ⟨same, frame, text, taken⟩ := turn_eq_fail failed
  exact ⟨by rw [same], by rw [same], (step_declines frame _ _ _ taken).1⟩

/-- The reader after at most `count` turns; it stops where a step waits or fails. -/
def afterTurns (finishing : Bool) : Nat → Reader → Reader
  | 0, reader => reader
  | count + 1, reader =>
      match reader.turn finishing with
      | .rest next | .fail _ next => next
      | .move next => afterTurns finishing count next

/-- The reader after a line was fed, whether with success or not. -/
def afterFeed (reader : Reader) (line : List Char) : Reader :=
  match feed line reader with
  | .ok _ next | .error _ next => next

theorem afterTurns_eq (finishing : Bool) (count : Nat) (reader : Reader) :
    afterTurns finishing count reader = match run finishing count reader with
      | .ok _ next | .error _ next => next := by
  induction count generalizing reader with
  | zero => rfl
  | succ count induction =>
      rw [afterTurns, run_succ]
      cases reader.turn finishing with
      | rest next => rfl
      | fail failure next => rfl
      | move next => exact induction next

theorem afterFeed_eq (reader : Reader) (line : List Char) :
    reader.afterFeed line = afterTurns false Limits.stepsPerFeed (reader.fed line) := by
  rw [afterTurns_eq, afterFeed, feed_eq_run]

/-- The frames of the reader stand on each other. -/
def IsStacked (reader : Reader) : Prop := Stacked reader.body reader.stack

theorem Advances.isStacked {reader next : Reader} (advances : Advances reader next)
    (stacked : reader.IsStacked) : next.IsStacked := by
  cases advances with
  | step transition => exact transition.stacked stacked
  | feed reader line => exact stacked

theorem isStacked_afterTurns {reader : Reader} (stacked : reader.IsStacked) (finishing : Bool)
    (count : Nat) : (afterTurns finishing count reader).IsStacked := by
  induction count generalizing reader with
  | zero => exact stacked
  | succ count induction =>
      rw [afterTurns]
      cases taken : reader.turn finishing with
      | rest next => exact turn_rest taken ▸ stacked
      | fail failure next =>
          obtain ⟨stack, -, keeps⟩ := turn_fail taken
          rw [IsStacked, stack]
          exact stacked.mono keeps.places fun frame _ => keeps.spares frame.target
      | move next => exact induction ((turn_advances taken).isStacked stacked)

theorem isStacked_afterFeeds {reader : Reader} (stacked : reader.IsStacked)
    (lines : List (List Char)) : (lines.foldl afterFeed reader).IsStacked := by
  induction lines generalizing reader with
  | nil => exact stacked
  | cons line rest induction =>
      refine induction ?_
      rw [afterFeed_eq]
      have fed : (reader.fed line).IsStacked := stacked
      exact isStacked_afterTurns fed false _

theorem isStacked_initial (context : Context) (options : Options) :
    (Reader.initial context options).IsStacked := by
  have sound := sound_initial context options
  have declares := declares_initial context options
  obtain ⟨first, shown, parent⟩ := declares.keeps.places.paragraphs root _ rfl
  refine ⟨sound.bottom, .singleton _, List.pairwise_singleton .., ?_, first, shown, parent⟩
  intro frame member
  rw [List.mem_singleton.1 member]
  exact (Array.getElem?_eq_some_iff.1 shown).1

/-- The frames of every reader that is reached stand on each other. -/
theorem Reaches.isStacked {context : Context} {options : Options} {reader : Reader}
    (reached : Reaches (Reader.initial context options) reader) : reader.IsStacked := by
  induction reached with
  | refl => exact isStacked_initial context options
  | tail _ moves induction => exact moves.advances.isStacked induction

end

/-! ## Open paragraphs -/

/-- The open paragraphs, innermost first. -/
def openParagraphs (stack : List Frame) : List ParagraphId :=
  stack.filterMap fun frame =>
    match frame with
    | .paragraph frame => some frame.id
    | .construct _ => none

section

variable {body : Body} {frame : Frame} {stack : List Frame} {ids : List ParagraphId}

/-- Each paragraph of the list stands in the next one, and the last one in none. -/
structure IsParentChain (body : Body) (ids : List ParagraphId) : Prop where
  linked : ids.IsChain fun inner outer =>
    ∃ paragraph, body.paragraphs[inner]? = some paragraph ∧ paragraph.parent = some outer
  ends : ∃ last paragraph, ids.getLast? = some last ∧ body.paragraphs[last]? = some paragraph ∧
    paragraph.parent = none

/-- The innermost open paragraph is that of the top frame. -/
theorem head?_openParagraphs (seated : (frame :: stack).IsChain (Frame.SitsOn body))
    (bottom : ∃ last, (frame :: stack).getLast? = some last ∧ IsRoot last) :
    (openParagraphs (frame :: stack)).head? = some frame.innermost := by
  cases frame with
  | paragraph own => rfl
  | construct own =>
      cases stack with
      | nil =>
          obtain ⟨last, same, root⟩ := bottom
          obtain rfl := Option.some.inj same
          exact absurd root (not_isRoot_construct own)
      | cons lower stack =>
          obtain ⟨points, opened⟩ := (List.isChain_cons_cons.1 seated).1
          cases lower with
          | paragraph lower =>
              obtain ⟨construct, -, -, inner⟩ := points
              exact congrArg some inner.symm
          | construct lower =>
              obtain ⟨_, same, -⟩ := opened
              contradiction

theorem linked_openParagraphs (seated : stack.IsChain (Frame.SitsOn body))
    (bottom : ∃ last, stack.getLast? = some last ∧ IsRoot last) :
    (openParagraphs stack).IsChain fun inner outer =>
      ∃ paragraph, body.paragraphs[inner]? = some paragraph ∧ paragraph.parent = some outer := by
  induction stack with
  | nil => exact .nil
  | cons frame stack induction =>
      cases stack with
      | nil => cases frame <;> simp [openParagraphs]
      | cons lower stack =>
          obtain ⟨sits, seatedBelow⟩ := List.isChain_cons_cons.1 seated
          have bottomBelow : ∃ last, (lower :: stack).getLast? = some last ∧ IsRoot last := by
            simpa using bottom
          have below := induction seatedBelow bottomBelow
          cases frame with
          | construct own => exact below
          | paragraph own =>
              refine List.isChain_cons.2 ⟨fun outer head => ?_, below⟩
              obtain ⟨paragraph, known, parent⟩ := sits.points
              refine ⟨paragraph, known, parent.trans ?_⟩
              exact (head?_openParagraphs seatedBelow bottomBelow).symm.trans head

theorem getLast?_openParagraphs (bottom : ∃ last, stack.getLast? = some last ∧ IsRoot last) :
    (openParagraphs stack).getLast? = some root := by
  obtain ⟨last, final, own, rfl, -, first⟩ := bottom
  obtain ⟨front, rfl⟩ := List.getLast?_eq_some_iff.1 final
  simp [openParagraphs, first]

/-- Later paragraphs are further inside, so no more than all are open. -/
theorem length_openParagraphs (stacked : Stacked body stack) :
    (openParagraphs stack).length ≤ body.paragraphs.size := by
  have sorted : (openParagraphs stack).Pairwise fun inner outer => outer < inner := by
    rw [openParagraphs, List.pairwise_filterMap]
    refine stacked.apart.imp fun {upper lower} above inner first outer second => ?_
    cases upper with
    | construct upper => simp at first
    | paragraph upper =>
        cases lower with
        | construct lower => simp at second
        | paragraph lower =>
            obtain rfl := Option.some.inj first
            obtain rfl := Option.some.inj second
            exact above
  have nodup : (openParagraphs stack).Nodup := sorted.imp fun less => Nat.ne_of_gt less
  have inside : openParagraphs stack ⊆ List.range body.paragraphs.size := by
    intro id member
    obtain ⟨frame, among, same⟩ := List.mem_filterMap.1 member
    cases frame with
    | construct own => simp at same
    | paragraph own =>
        obtain rfl := Option.some.inj same
        exact List.mem_range.2 (stacked.known _ among)
  simpa using (nodup.subperm inside).length_le

/-- A look-up goes along the parents. -/
theorem IsParentChain.chainFrom {id : ParagraphId} {count : Nat}
    (chain : IsParentChain body (id :: ids)) (enough : (id :: ids).length ≤ count) :
    (body.chainFrom count (some id)).map some = (id :: ids).map (body.paragraphs[·]?) := by
  obtain ⟨linked, ends⟩ := chain
  induction ids generalizing id count with
  | nil =>
      obtain ⟨last, paragraph, same, known, parent⟩ := ends
      obtain rfl : id = last := Option.some.inj same
      obtain ⟨count, rfl⟩ : ∃ rest, count = rest + 1 := ⟨count - 1, by simp at enough; omega⟩
      have stop : body.chainFrom count none = [] := by cases count <;> rfl
      simp [Body.chainFrom, known, parent, stop]
  | cons outer ids induction =>
      obtain ⟨⟨paragraph, known, parent⟩, linkedAbove⟩ := List.isChain_cons_cons.1 linked
      obtain ⟨count, rfl⟩ : ∃ rest, count = rest + 1 := ⟨count - 1, by simp at enough; omega⟩
      have fewer : (outer :: ids).length ≤ count := by simpa using enough
      have above := induction fewer linkedAbove (by simpa using ends)
      simp [Body.chainFrom, known, parent, above]

end

/-- The stack of a reader is as the paragraphs and constructs it has read say. -/
structure StackFits (reader : Reader) : Prop where
  /-- The frame of the method body is at the bottom. -/
  bottom : ∃ last, reader.stack.getLast? = some last ∧ IsRoot last
  /-- Every other frame stands on the one that opened it: a construct on the paragraph that is its
  scope, a block on the paragraph around it, a body on its construct. -/
  seated : reader.stack.IsChain (Frame.SitsOn reader.body)
  /-- The open paragraphs are the topmost one and those around it. -/
  parents : IsParentChain reader.body (openParagraphs reader.stack)
  /-- A look-up from the topmost paragraph goes through the open ones, innermost first. -/
  lookups : ∀ top ∈ (openParagraphs reader.stack).head?,
    (reader.body.chain top).map some =
      (openParagraphs reader.stack).map (reader.body.paragraphs[·]?) ∧
    ∀ visible name, reader.body.lookupAt ⟨top, visible⟩ name =
      (((openParagraphs reader.stack).filterMap (reader.body.paragraphs[·]?)).findSome?
        fun paragraph => (reader.body.visibleVariables visible paragraph).find? fun entry =>
          entry.name == name).or (reader.body.field? name)

theorem IsStacked.stackFits {reader : Reader} (stacked : reader.IsStacked) : reader.StackFits := by
  obtain ⟨paragraph, first, outermost⟩ := stacked.outermost
  have chain : IsParentChain reader.body (openParagraphs reader.stack) :=
    ⟨linked_openParagraphs stacked.seated stacked.bottom,
      root, paragraph, getLast?_openParagraphs stacked.bottom, first, outermost⟩
  refine ⟨stacked.bottom, stacked.seated, chain, fun top head => ?_⟩
  have enough := length_openParagraphs stacked
  obtain ⟨ids, same⟩ := List.head?_eq_some_iff.1 head
  rw [same] at chain enough ⊢
  have visits : (reader.body.chain top).map some = (top :: ids).map (reader.body.paragraphs[·]?) :=
    chain.chainFrom enough
  refine ⟨visits, fun visible name => ?_⟩
  have through : reader.body.chain top = (top :: ids).filterMap (reader.body.paragraphs[·]?) := by
    have joined := congrArg (List.filterMap id) visits
    simpa [List.filterMap_map] using joined
  rw [lookupAt, through]

/-- **The stack of frames.**  Whatever lines are fed, and whether they are accepted or not, the
frames stand on each other as the paragraphs and constructs say, behind each line and behind each
step. -/
theorem stackFits_afterFeeds (context : Context) (options : Options) (lines : List (List Char)) :
    let reader := lines.foldl afterFeed (Reader.initial context options)
    reader.StackFits ∧ ∀ line count, (afterTurns false count (reader.fed line)).StackFits := by
  have stacked := isStacked_afterFeeds (isStacked_initial context options) lines
  refine ⟨stacked.stackFits, fun line count => ?_⟩
  have fed : (fed (lines.foldl afterFeed (Reader.initial context options)) line).IsStacked :=
    stacked
  exact (isStacked_afterTurns fed false count).stackFits

end Reader
end MethodLowering
