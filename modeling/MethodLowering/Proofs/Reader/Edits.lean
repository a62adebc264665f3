import MethodLowering.Proofs.Reader.Nesting

/-!
# Elementary changes of a body

Every step of the reader is a sequence of elementary changes: a tree is read, a class body is noted,
a paragraph, construct or statement is added, a paragraph gets its brackets, a construct its header.
Behind a moment at which the reader was idle, all changes but those to the method body itself are to
paragraphs and constructs that came later, and whatever is added refers to what came later.
-/

namespace MethodLowering

open Body

/-! ## What came later -/

/-- The tree was read since `base`, and its sight is inside the body. -/
structure Placed.IsNew (base body : Body) (placed : Placed) : Prop where
  within : placed.expr.Within base.mark body.mark
  scope : placed.sight.scope < body.paragraphs.size
  visible : placed.sight.visible ≤ body.vars.size
  origin : ∀ inner ∈ placed.expr.preorder, ∃ root : Placed, root.IsRead ∧ inner ∈ root.expr.preorder

/-- The statement came later and refers to what came later. -/
def Item.IsNew (base body : Body) : Item → Prop
  | .empty => True
  | .expression placed => placed.IsNew base body
  | .block id => base.paragraphs.size ≤ id
  | .construct id => base.constructs.size ≤ id

/-- The header and bodies of a construct came later. -/
structure Detail.IsNew (base body : Body) (detail : Detail) : Prop where
  clauses : ∀ clause ∈ detail.clauses, clause.IsNew base body
  bodies : ∀ id ∈ detail.bodies, base.paragraphs.size ≤ id

/-- The paragraph is the method body or came later. -/
def Body.IsOwn (base : Body) (id : ParagraphId) : Prop := id = root ∨ base.paragraphs.size ≤ id

/-- The detail decides something that is not decided anew: whether a loop goes over elements, or
what a `return` hands back. -/
def Detail.decides (keyword : Keyword) : Detail → Prop
  | .iterator .. => True
  | .jump .. => keyword = .returns
  | _ => False

/-- An elementary change of a body since `base`. -/
inductive Edit (base : Body) : Body → Body → Prop where
  | read {before after : Body} {scope : ParagraphId} {placed : Placed}
      (reads : Reads scope before placed after) (own : base.IsOwn scope)
      (inside : scope < before.paragraphs.size) : Edit base before after
  | note {before after : Body} {placed : Placed} (new : placed.IsNew base before)
      (notes : Notes placed before after) : Edit base before after
  | paragraph (body : Body) {paragraph : Paragraph} {around : ParagraphId}
      (noItems : paragraph.items = #[]) (noVars : paragraph.vars = #[])
      (parent : paragraph.parent = some around) (own : base.IsOwn around)
      (inside : around < body.paragraphs.size) : Edit base body (body.addParagraph paragraph)
  | construct (body : Body) {construct : Construct} (unread : construct.detail = .unread)
      (own : base.IsOwn construct.scope) : Edit base body (body.addConstruct construct)
  | item (body : Body) {id : ParagraphId} {item : Item} (own : base.IsOwn id)
      (new : item.IsNew base body) : Edit base body (body.addItem id item)
  | brace (body : Body) {id : ParagraphId} (later : base.paragraphs.size ≤ id) :
      Edit base body
        (body.modifyParagraph id fun paragraph => { paragraph with braced := true })
  | detail (body : Body) {id : ConstructId} {construct : Construct} {change : Detail → Detail}
      (later : base.constructs.size ≤ id) (known : body.constructs[id]? = some construct)
      (new : construct.detail.IsNew base body → (change construct.detail).IsNew base body)
      (before : ¬ construct.detail.decides construct.keyword)
      (after : ¬ (change construct.detail).decides construct.keyword) :
      Edit base body (body.modifyDetail id change)
  | iterator (body : Body) {id : ConstructId} {construct : Construct} {header : Placed}
      {byElement : Bool} {slot : ParagraphId} (later : base.constructs.size ≤ id)
      (known : body.constructs[id]? = some construct)
      (new : Detail.IsNew base body (.iterator header byElement slot))
      (before : ¬ construct.detail.decides construct.keyword)
      (iterates : Reader.iteratesElements header body = .ok byElement body) :
      Edit base body (body.modifyDetail id fun _ => .iterator header byElement slot)
  | value (body : Body) {id : ConstructId} {construct : Construct} {value : Placed} {handle : Bool}
      (later : base.constructs.size ≤ id) (known : body.constructs[id]? = some construct)
      (new : value.IsNew base body) (before : ¬ construct.detail.decides construct.keyword)
      (handles : handle = true ↔ Reader.ReturnsHandle construct.keyword value body) :
      Edit base body
        ({ body with returnsHandle := body.returnsHandle || handle }.modifyDetail id
          fun _ => .jump value none)

/-- A sequence of elementary changes. -/
def Edits (base : Body) : Body → Body → Prop := Relation.ReflTransGen (Edit base)

section

variable {base before between after body : Body} {scope : ParagraphId} {placed : Placed}
  {clauses : List Placed}

theorem Body.Declares.sizes (declares : Declares scope before after) :
    after.paragraphs.size = before.paragraphs.size ∧ after.constructs = before.constructs := by
  obtain ⟨added, nextNode, effort, rfl, -, -⟩ := declares
  exact ⟨by simp [extended], rfl⟩

theorem Placed.IsNew.mono (new : placed.IsNew base before) (mark : before.mark ≤ after.mark)
    (paragraphs : before.paragraphs.size ≤ after.paragraphs.size) : placed.IsNew base after :=
  ⟨new.within.mono mark, Nat.lt_of_lt_of_le new.scope paragraphs,
    Nat.le_trans new.visible mark.1, new.origin⟩

/-- A tree that was read is new from then on. -/
theorem Body.Reads.isNew (reads : Reads scope before placed after)
    (grown : base.mark ≤ before.mark) (inside : scope < before.paragraphs.size) :
    placed.IsNew base after := by
  obtain ⟨declares, within, sight, isRead⟩ := reads
  refine ⟨fun inner member => ?_, ?_, ?_, fun inner inside => ⟨placed, isRead, inside⟩⟩
  · obtain ⟨own, declared⟩ := within inner member
    exact ⟨fun node known => ⟨Nat.le_trans grown.2 (own node known).1, (own node known).2⟩,
      fun id known => ⟨Nat.le_trans grown.1 (declared id known).1, (declared id known).2⟩⟩
  · rw [sight, declares.sizes.1]
    exact inside
  · rw [sight]
    exact Nat.le_refl _

section

variable (reads : ReadsAll scope before clauses after)
include reads

theorem Body.ReadsAll.mark_le : before.mark ≤ after.mark := by
  induction reads with
  | nil body => exact Mark.le_refl _
  | cons first others induction => exact Mark.le_trans first.declares.mark_le induction

theorem Body.ReadsAll.sizes :
    after.paragraphs.size = before.paragraphs.size ∧ after.constructs = before.constructs := by
  induction reads with
  | nil body => exact ⟨rfl, rfl⟩
  | cons first others induction =>
      exact ⟨induction.1.trans first.declares.sizes.1, induction.2.trans first.declares.sizes.2⟩

theorem Body.ReadsAll.isNew
    (grown : base.mark ≤ before.mark) (inside : scope < before.paragraphs.size) :
    ∀ clause ∈ clauses, clause.IsNew base after := by
  induction reads with
  | nil body => simp
  | cons first others induction =>
      have stillInside := Nat.lt_of_lt_of_eq inside first.declares.sizes.1.symm
      intro clause member
      rcases List.mem_cons.1 member with rfl | later
      · exact (first.isNew grown inside).mono others.mark_le (Nat.le_of_eq others.sizes.1.symm)
      · exact induction (Mark.le_trans grown first.declares.mark_le) stillInside clause later

theorem Body.ReadsAll.edits (own : base.IsOwn scope)
    (inside : scope < before.paragraphs.size) : Edits base before after := by
  induction reads with
  | nil body => exact .refl
  | cons first others induction =>
      have stillInside := Nat.lt_of_lt_of_eq inside first.declares.sizes.1.symm
      exact .head (.read first own inside) (induction stillInside)

end

theorem Body.ReadsCut.sizes (reads : ReadsCut scope before placed after) :
    after.paragraphs.size = before.paragraphs.size ∧ after.constructs = before.constructs := by
  obtain ⟨between, first, added, rfl, -⟩ := reads
  exact first.declares.sizes

theorem Body.ReadsCut.edits (reads : ReadsCut scope before placed after) (own : base.IsOwn scope)
    (grown : base.mark ≤ before.mark) (inside : scope < before.paragraphs.size) :
    Edits base before after ∧ placed.IsNew base after := by
  obtain ⟨between, first, notes⟩ := reads
  have new := first.isNew grown inside
  refine ⟨.head (.read first own inside) (.single (.note new notes)), ?_⟩
  obtain ⟨added, rfl, -⟩ := notes
  exact new.mono (Mark.le_refl _) (Nat.le_refl _)

/-! ## Growth -/

/-- The second body has at least as much as the first. -/
structure Body.Outgrows (before after : Body) : Prop where
  mark : before.mark ≤ after.mark
  paragraphs : before.paragraphs.size ≤ after.paragraphs.size
  constructs : before.constructs.size ≤ after.constructs.size

theorem Body.Outgrows.refl (body : Body) : body.Outgrows body :=
  ⟨Mark.le_refl _, Nat.le_refl _, Nat.le_refl _⟩

theorem Body.Outgrows.trans (first : before.Outgrows between) (second : between.Outgrows after) :
    before.Outgrows after :=
  ⟨Mark.le_trans first.mark second.mark, Nat.le_trans first.paragraphs second.paragraphs,
    Nat.le_trans first.constructs second.constructs⟩

theorem Edit.outgrows (edit : Edit base before after) : before.Outgrows after := by
  cases edit with
  | read reads own inside =>
      obtain ⟨paragraphs, constructs⟩ := reads.declares.sizes
      exact ⟨reads.declares.mark_le, Nat.le_of_eq paragraphs.symm,
        Nat.le_of_eq (congrArg Array.size constructs.symm)⟩
  | note new notes =>
      obtain ⟨added, rfl, -⟩ := notes
      exact ⟨Mark.le_refl _, Nat.le_refl _, Nat.le_refl _⟩
  | paragraph noItems noVars parent own inside =>
      exact ⟨Mark.le_refl _, by simp [addParagraph], Nat.le_refl _⟩
  | construct unread own => exact ⟨Mark.le_refl _, Nat.le_refl _, by simp [addConstruct]⟩
  | item own new => exact ⟨Mark.le_refl _, by simp [addItem, modifyParagraph], Nat.le_refl _⟩
  | brace later => exact ⟨Mark.le_refl _, by simp [modifyParagraph], Nat.le_refl _⟩
  | detail later known new undecided still =>
      exact ⟨Mark.le_refl _, Nat.le_refl _, by simp [modifyDetail]⟩
  | iterator later known new undecided iterates =>
      exact ⟨Mark.le_refl _, Nat.le_refl _, by simp [modifyDetail]⟩
  | value later known new undecided handles =>
      exact ⟨Mark.le_refl _, Nat.le_refl _, by simp [modifyDetail]⟩

theorem Edits.outgrows (edits : Edits base before after) : before.Outgrows after := by
  induction edits with
  | refl => exact .refl _
  | tail _ edit induction => exact induction.trans edit.outgrows

theorem Body.ReadsAll.outgrows (reads : ReadsAll scope before clauses after) :
    before.Outgrows after :=
  ⟨reads.mark_le, Nat.le_of_eq reads.sizes.1.symm,
    Nat.le_of_eq (congrArg Array.size reads.sizes.2.symm)⟩

theorem Placed.IsNew.outgrows (new : placed.IsNew base before) (grown : before.Outgrows after) :
    placed.IsNew base after :=
  new.mono grown.mark grown.paragraphs

/-! ## Steps -/

/-- The frame is that of the method body, or of what came later. -/
def Frame.IsOwn (base : Body) : Frame → Prop
  | .paragraph frame => frame.mode = .root ∧ frame.id = root ∨ base.paragraphs.size ≤ frame.id
  | .construct frame => base.constructs.size ≤ frame.id ∧ base.IsOwn frame.scope

namespace Reader

theorem isOwn_of_paragraph {frame : ParagraphFrame} (own : (Frame.paragraph frame).IsOwn base) :
    base.IsOwn frame.id := by
  rcases own with ⟨-, first⟩ | later
  · exact .inl first
  · exact .inr later

theorem isOwn_taking {frame : ParagraphFrame} {label : Option String}
    (own : (Frame.paragraph frame).IsOwn base) :
    (Frame.paragraph (taking { frame with label })).IsOwn base := by
  rcases own with ⟨mode, first⟩ | later
  · exact .inl (by simp [taking, mode, first])
  · refine .inr ?_
    rw [taking]
    split <;> exact later

theorem isNew_noClause {frame : ConstructFrame} (inside : frame.scope < body.paragraphs.size) :
    (noClause frame).IsNew base body :=
  ⟨Expr.within_absent, inside, Nat.zero_le _, nofun⟩

/-- The clauses of a construct that opens a body are those it had and those that were read. -/
theorem Opens.mem_clauses {frame : ConstructFrame} {slot : ParagraphId} {keyword : Keyword}
    {stage next : Stage} {outer inner : List Placed} {kind : ParagraphKind}
    {change : Detail → Detail}
    (opens : Opens frame slot body keyword stage outer inner kind change next) {detail : Detail}
    {clause : Placed} (member : clause ∈ (change detail).clauses) :
    clause ∈ detail.clauses ∨ clause ∈ outer ++ inner ∨ clause = noClause frame := by
  have listed {items : List Placed} (inside : clause ∈ items) :
      clause ∈ detail.clauses ∨ clause ∈ items ∨ clause = noClause frame := .inr (.inl inside)
  cases opens with
  | branch condition =>
      cases detail with
      | conditional branches =>
          rw [Detail.withBranch, Detail.clauses, List.map_append, List.mem_append] at member
          exact member.imp id fun new => .inl new
      | _ => exact listed member
  | otherwise keyword =>
      cases detail with
      | conditional branches =>
          rw [Detail.withBranch, Detail.clauses, List.map_append, List.mem_append] at member
          exact member.imp id fun new => .inr (List.mem_singleton.1 new)
      | _ => exact .inr (.inr (List.mem_singleton.1 member))
  | handler keyword declarations some_ =>
      cases detail with
      | tryBlock guarded handlers cleanup =>
          rw [Detail.withHandlers, Detail.clauses, List.map_append, List.mem_append,
            List.map_map] at member
          refine member.imp id fun new => .inl ?_
          simpa using new
      | _ => exact .inl member
  | cleanup keyword => cases detail <;> exact .inl member
  | doLoop => exact .inr (.inr (List.mem_singleton.1 member))
  | tryBlock => simp [Detail.clauses] at member
  | _ => exact listed member

/-- A construct that opens a body was not decided before. -/
theorem Opens.undecided {frame : ConstructFrame} {slot : ParagraphId} {keyword : Keyword}
    {outer inner : List Placed} {kind : ParagraphKind} {change : Detail → Detail} {next : Stage}
    {construct : Construct}
    (opens : Opens frame slot body keyword frame.stage outer inner kind change next)
    (fits : frame.Fits construct) : ¬ construct.detail.decides construct.keyword := by
  obtain ⟨-, fits⟩ := fits
  generalize frame.stage = stage at opens fits
  have header (reads : construct.detail = .unread ∨ construct.HasBranches) :
      ¬ construct.detail.decides construct.keyword := by
    rcases reads with blank | ⟨-, branches, -, shown⟩
    · simp [blank, Detail.decides]
    · simp [shown, Detail.decides]
  cases opens with
  | otherwise keyword => exact header (.inr fits)
  | handler keyword declarations some_ =>
      obtain ⟨guarded, handlers, shown⟩ := fits
      simp [shown, Detail.decides]
  | cleanup keyword =>
      obtain ⟨guarded, handlers, shown⟩ := fits
      simp [shown, Detail.decides]
  | _ => exact header fits

/-- Opening a body changes the construct by an elementary change. -/
theorem Opens.edit {frame : ConstructFrame} {slot : ParagraphId} {keyword : Keyword}
    {outer inner : List Placed} {kind : ParagraphKind} {change : Detail → Detail} {next : Stage}
    {construct : Construct}
    (opens : Opens frame slot body keyword frame.stage outer inner kind change next)
    (known : body.constructs[frame.id]? = some construct) (fits : frame.Fits construct)
    (later : base.constructs.size ≤ frame.id) (inside : frame.scope < body.paragraphs.size)
    (laterSlot : base.paragraphs.size ≤ slot)
    (bodies : (change construct.detail).bodies = construct.detail.bodies ++ [slot])
    (new : ∀ clause ∈ outer ++ inner, clause.IsNew base body) :
    Edit base body (body.modifyDetail frame.id change) := by
  have undecided := opens.undecided fits
  have stays (new' : construct.detail.IsNew base body) :
      (change construct.detail).IsNew base body := by
    refine ⟨fun clause member => ?_, fun id member => ?_⟩
    · rcases opens.mem_clauses member with old | read | rfl
      · exact new'.clauses clause old
      · exact new clause read
      · exact isNew_noClause inside
    · rw [bodies, List.mem_append, List.mem_singleton] at member
      rcases member with old | rfl
      · exact new'.bodies id old
      · exact laterSlot
  generalize frame.stage = stage at opens
  have plain (still : ¬ (change construct.detail).decides construct.keyword) :
      Edit base body (body.modifyDetail frame.id change) :=
    .detail body later known stays undecided still
  cases opens with
  | iterator header byElement iterates =>
      refine .iterator body later known ⟨?_, ?_⟩ undecided iterates
      · simpa [Detail.clauses] using new
      · simpa [Detail.bodies] using laterSlot
  | branch condition => exact plain (by cases construct.detail <;> exact not_false)
  | otherwise keyword => exact plain (by cases construct.detail <;> exact not_false)
  | handler keyword declarations some_ =>
      exact plain (by cases shown : construct.detail <;> simp_all
        [Detail.decides, Detail.withHandlers])
  | cleanup keyword =>
      exact plain (by cases shown : construct.detail <;> simp_all
        [Detail.decides, Detail.withCleanup])
  | _ => exact plain not_false

/-- One step of the reader is a sequence of elementary changes, and the frames it leaves are those
of the method body or of what came later. -/
theorem Transition.edits {text rest : List Char} {frame : Frame} {frames stack : List Frame}
    (transition : Transition text body frame frames rest after) (tree : body.shape.IsTree)
    (opened : body.shape.IsOpen (frame :: stack)) (grown : base.Outgrows body)
    (own : frame.IsOwn base) : Edits base body after ∧ ∀ next ∈ frames, next.IsOwn base := by
  have holds := opened.holds frame (List.mem_cons_self ..)
  have insideParagraph {frame : ParagraphFrame} (holds : body.shape.Holds (.paragraph frame)) :
      frame.id < body.paragraphs.size := by
    obtain ⟨paragraph, known, -⟩ := holds
    rw [← length_shape_paragraphs]
    exact (List.getElem?_eq_some_iff.1 known).1
  have ofConstruct {frame : ConstructFrame} (holds : body.shape.Holds (.construct frame)) :
      ∃ construct, body.constructs[frame.id]? = some construct ∧ frame.Fits construct ∧
        frame.scope < body.paragraphs.size := by
    obtain ⟨construct, known, fits⟩ := holds
    rw [getElem?_shape_constructs] at known
    refine ⟨construct, known, fits, ?_⟩
    rw [← fits.1, ← length_shape_paragraphs]
    refine tree.scopes construct ?_
    simpa [Body.shape] using Array.mem_of_getElem? known
  cases transition with
  | brace mode =>
      rcases own with ⟨root, -⟩ | later
      · simp [mode] at root
      · refine ⟨.single (.brace body later), ?_⟩
        simpa using .inr later
  | unbraced mode starts solid =>
      rcases own with ⟨root, -⟩ | later
      · simp [mode] at root
      · refine ⟨.refl, ?_⟩
        simpa using .inr later
  | close mode => exact ⟨.refl, by simp⟩
  | empty mode =>
      refine ⟨.single (.item body (isOwn_of_paragraph own) trivial), ?_⟩
      simpa using isOwn_taking own
  | statement mode reads =>
      rename_i frame placed after
      obtain ⟨edits, new⟩ :=
        reads.edits (isOwn_of_paragraph own) grown.mark (insideParagraph holds)
      refine ⟨edits.tail (.item after (isOwn_of_paragraph own) ?_), ?_⟩
      · split
        · trivial
        · exact new
      · simpa using isOwn_taking own
  | block mode starts =>
      rename_i frame
      have fresh : base.paragraphs.size ≤ body.paragraphs.size := grown.paragraphs
      refine ⟨.tail (.single (.paragraph body rfl rfl rfl (isOwn_of_paragraph own)
        (insideParagraph holds))) (.item _ (isOwn_of_paragraph own) fresh), ?_⟩
      simpa using ⟨.inr fresh, isOwn_taking own⟩
  | keyword mode =>
      have fresh : base.constructs.size ≤ body.constructs.size := grown.constructs
      refine ⟨.tail (.single (.construct body rfl (isOwn_of_paragraph own)))
        (.item _ (isOwn_of_paragraph own) fresh), ?_⟩
      simpa using ⟨⟨fresh, isOwn_of_paragraph own⟩, isOwn_taking own⟩
  | label mode =>
      exact ⟨.refl, List.forall_mem_singleton.2 own⟩
  | slot named reads readsInner opens =>
      rename_i frame keyword outer inner kind change next first second
      obtain ⟨construct, known, fits, inside⟩ := ofConstruct holds
      have sizes := reads.sizes
      have sizesInner := readsInner.sizes
      have slotSize : first.paragraphs.size < (first.addParagraph
          { kind, parent := some frame.scope }).paragraphs.size := by simp [Body.addParagraph]
      have slotLater : base.paragraphs.size ≤ first.paragraphs.size :=
        Nat.le_trans grown.paragraphs (Nat.le_of_eq sizes.1.symm)
      have insideFirst : frame.scope < first.paragraphs.size :=
        Nat.lt_of_lt_of_eq inside sizes.1.symm
      have knownSecond : second.constructs[frame.id]? = some construct := by
        rw [sizesInner.2]
        exact (congrArg (·[frame.id]?) sizes.2).trans known
      have added : Edit base first (first.addParagraph { kind, parent := some frame.scope }) :=
        .paragraph first rfl rfl rfl own.2 insideFirst
      have grownInner : (first.addParagraph { kind, parent := some frame.scope }).Outgrows second :=
        readsInner.outgrows
      have fresh : first.paragraphs.size ∉ construct.detail.bodies := by
        intro bodyInside
        refine absurd (tree.lt_of_mem_bodies ?_ bodyInside) ?_
        · simpa [Body.shape] using Array.mem_of_getElem? known
        · rw [length_shape_paragraphs, sizes.1]
          exact Nat.lt_irrefl _
      have bodies := (opens.fits (fun stage => by
        have same := named stage
        rw [known] at same
        exact Option.some.inj same) fits fresh).1
      refine ⟨.tail ((reads.edits own.2 inside).trans (.head added
        (readsInner.edits (.inr slotLater) slotSize))) ?_, ?_⟩
      · refine opens.edit knownSecond fits own.1 ?_ slotLater bodies ?_
        · exact Nat.lt_of_lt_of_le insideFirst
            (Nat.le_trans (Nat.le_of_lt slotSize) grownInner.paragraphs)
        · intro clause member
          rcases List.mem_append.1 member with old | new
          · exact ((reads.isNew grown.mark inside clause old).outgrows added.outgrows).outgrows
              grownInner
          · exact readsInner.isNew (Mark.le_trans grown.mark reads.mark_le) slotSize clause new
      · simpa using ⟨.inr slotLater, own⟩
  | elseIf stage =>
      exact ⟨.refl, List.forall_mem_singleton.2 own⟩
  | doWhile stage =>
      exact ⟨.refl, List.forall_mem_singleton.2 own⟩
  | doCondition stage reads =>
      rename_i frame condition after
      obtain ⟨construct, known, ⟨-, fits⟩, inside⟩ := ofConstruct holds
      rw [stage] at fits
      obtain ⟨loop, old, shown⟩ := fits
      have knownAfter : after.constructs[frame.id]? = some construct := by
        rw [reads.declares.sizes.2]
        exact known
      refine ⟨.tail (.single (.read reads own.2 inside)) (.detail after own.1 knownAfter ?_ ?_ ?_),
        by simp⟩
      · rw [shown]
        rintro ⟨-, bodies⟩
        refine ⟨?_, bodies⟩
        simpa [Detail.withCondition, Detail.clauses] using reads.isNew grown.mark inside
      · simp [shown, Detail.decides]
      · simp [shown, Detail.decides, Detail.withCondition]
  | leave stage => exact ⟨.refl, by simp⟩
  | value stage named exits reads handles =>
      rename_i frame keyword value after handle
      obtain ⟨construct, known, fits, inside⟩ := ofConstruct holds
      obtain rfl : construct.keyword = keyword := by
        rw [known] at named
        exact Option.some.inj named
      have blank := unread_of_fits fits stage rfl (by rcases exits with same | same <;> simp [same])
      obtain ⟨edits, new⟩ := reads.edits own.2 grown.mark inside
      have knownAfter : after.constructs[frame.id]? = some construct := by
        rw [reads.sizes.2]
        exact known
      refine ⟨edits.tail (.value after own.1 knownAfter new ?_ handles), by simp⟩
      simp [blank, Detail.decides]
  | jump stage named jumps =>
      rename_i frame keyword label
      obtain ⟨construct, known, fits, inside⟩ := ofConstruct holds
      obtain rfl : construct.keyword = keyword := by
        rw [known] at named
        exact Option.some.inj named
      have blank := unread_of_fits fits stage rfl (by rcases jumps with same | same <;> simp [same])
      refine ⟨.single (.detail body own.1 known (fun _ => ⟨?_, ?_⟩) ?_ ?_), by simp⟩
      · simpa [Detail.clauses] using isNew_noClause inside
      · simp [Detail.bodies]
      · simp [blank, Detail.decides]
      · rcases jumps with same | same <;> simp [Detail.decides, same]
  | caseLabel stage named reads =>
      rename_i frame value after
      obtain ⟨construct, known, fits, inside⟩ := ofConstruct holds
      have keyword : construct.keyword = .caseLabel := by
        rw [known] at named
        exact Option.some.inj named
      have blank := unread_of_fits fits stage keyword (by simp)
      have knownAfter : after.constructs[frame.id]? = some construct := by
        rw [reads.declares.sizes.2]
        exact known
      refine ⟨.tail (.single (.read reads own.2 inside))
        (.detail after own.1 knownAfter (fun _ => ⟨?_, ?_⟩) ?_ not_false), by simp⟩
      · simpa [Detail.clauses] using reads.isNew grown.mark inside
      · simp [Detail.bodies]
      · simp [blank, Detail.decides]
  | defaultLabel stage named =>
      rename_i frame
      obtain ⟨construct, known, fits, inside⟩ := ofConstruct holds
      have keyword : construct.keyword = .defaultLabel := by
        rw [known] at named
        exact Option.some.inj named
      have blank := unread_of_fits fits stage keyword (by simp)
      refine ⟨.single (.detail body own.1 known (fun _ => ⟨?_, ?_⟩) ?_ not_false), by simp⟩
      · simp [Detail.clauses]
      · simp [Detail.bodies]
      · simp [blank, Detail.decides]

/-! ## Whole runs -/

/-- What holds of a reader since a moment at which it was idle. -/
structure Since (base : Body) (reader : Reader) : Prop where
  sound : Sound reader
  edits : Edits base base reader.body
  own : ∀ frame ∈ reader.stack, frame.IsOwn base

variable {reader next : Reader}

theorem Sound.since (sound : Sound reader) (idle : reader.isIdle = true) :
    Since reader.body reader := by
  obtain ⟨root, stack, own, rfl, mode, first⟩ := sound.root idle
  refine ⟨sound, .refl, ?_⟩
  rw [stack]
  exact List.forall_mem_singleton.2 (.inl ⟨mode, first⟩)

theorem Advances.edits (advances : Advances reader next) (since : Since base reader) :
    Edits base reader.body next.body ∧ ∀ frame ∈ next.stack, frame.IsOwn base := by
  obtain ⟨sound, edits, own⟩ := since
  cases advances with
  | feed reader line => exact ⟨.refl, own⟩
  | step transition =>
      obtain ⟨further, ownNext⟩ := transition.edits sound.tree sound.opened edits.outgrows
        (own _ (List.mem_cons_self ..))
      refine ⟨further, fun frame member => ?_⟩
      rcases List.mem_append.1 member with new | old
      · exact ownNext frame new
      · exact own frame (List.mem_cons_of_mem _ old)

theorem Advances.since (advances : Advances reader next) (since : Since base reader) :
    Since base next := by
  obtain ⟨further, own⟩ := advances.edits since
  exact ⟨advances.sound since.sound, since.edits.trans further, own⟩

/-- Every reader that is reached has only made elementary changes since. -/
theorem Reaches.since (reaches : Reaches reader next) (since : Since base reader) :
    Since base next := by
  induction reaches with
  | refl => exact since
  | tail _ moves induction => exact moves.advances.since induction

theorem Reaches.edits (reaches : Reaches reader next) (since : Since base reader) :
    Edits base reader.body next.body := by
  induction reaches with
  | refl => exact .refl
  | tail earlier moves induction =>
      exact induction.trans (moves.advances.edits (Reaches.since earlier since)).1

theorem since_initial (context : Context) (options : Options) :
    Since (Body.initial context options) (Reader.initial context options) :=
  (sound_initial context options).since rfl

end Reader

end
end MethodLowering
