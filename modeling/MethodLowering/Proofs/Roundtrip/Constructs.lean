import MethodLowering.Proofs.Roundtrip.Control

/-!
# Constructs are read

Each construct is read when its bodies and clauses are: one lemma for each kind of statement, of
body, and of what follows a branch or a guarded block.
-/

namespace MethodLowering

open Text MethodLowering.Tree Reader Body

/-- Where a statement may stand: in brackets or at the root, or else it is plain. -/
def MayStand (mode : ParagraphMode) (plain : Bool) : Prop :=
  mode = .root ∨ mode = .braced ∨ (mode = .single false ∧ plain = true)

section

variable {mode : ParagraphMode} {label : Option (List Char)} {plain : Bool}

theorem MayStand.takesItems (stands : MayStand mode plain) : takesItems mode :=
  stands.imp_right fun other => other.imp_right And.left

/-- Plain statements have no label. -/
theorem MayStand.labels (stands : MayStand mode label.isNone) :
    label = none ∨ mode = .root ∨ mode = .braced := by
  rcases stands with root | braced | ⟨-, unlabelled⟩
  · exact .inr (.inl root)
  · exact .inr (.inr braced)
  · exact .inl (Option.isNone_iff_eq_none.1 unlabelled)

end

namespace Statement

section

variable {tree : Tree} {body : Suite} {inner : List Statement} {label : Option (List Char)}

/-! ## Statements without parts -/

theorem reads_empty : Statement.empty.Reads := by
  intro scope mode stack more now inside stands _
  have takes : takesItems mode := MayStand.takesItems stands
  have took : step true (.paragraph ⟨scope, mode, none⟩) (trimStart (';' :: more)) now =
      .ok (.advance (.paragraph (taking ⟨scope, mode, none⟩)) more) (now.addItem scope .empty) := by
    rw [trimStart_cons (by decide)]
    exact step_empty takes
  exact ⟨_, _, Arrives.advance took (.nil (.refl _)), adds_addItem scope .empty now, fun _ _ => rfl⟩

theorem reads_expression (well : tree.isWellFormed = true) (short : tree.isShort = true) :
    (Statement.expression tree).Reads := by
  intro scope mode stack more now inside stands _
  have takes : takesItems mode := MayStand.takesItems stands
  obtain ⟨placed, after, stepped, counted, pictures⟩ :=
    @step_expression more now tree ⟨scope, mode, none⟩ well short takes
  have took :
      step true (.paragraph ⟨scope, mode, none⟩) (trimStart (tree.print ++ ';' :: more)) now =
      .ok (.advance (.paragraph (taking ⟨scope, mode, none⟩)) more)
        (after.addItem scope (.expression placed)) := by
    rw [trimStart_print well]
    exact stepped
  exact ⟨_, _, Arrives.advance took (.nil (.refl _)),
    (counted.changes.adds inside).trans (adds_addItem scope (.expression placed) after),
    fun _ _ => ⟨placed, rfl, pictures⟩⟩

theorem reads_block (fine : label.all isLabel = true) (all : AllRead inner) :
    (Statement.block label inner).Reads := by
  intro scope mode stack more now inside stands _
  have takes : takesItems mode := MayStand.takesItems stands
  have labels : label = none ∨ mode = .root ∨ mode = .braced := by
    rcases stands with root | braced | ⟨-, plain⟩
    · exact .inr (.inl root)
    · exact .inr (.inr braced)
    · contradiction
  let slot := now.paragraphs.size
  let added := now.addParagraph
    { kind := .block, parent := some scope, label := label.map String.ofList, braced := true }
  let opened := added.addItem scope (.block slot)
  have adds : Adds scope [.block slot] now opened :=
    ((changes_addParagraph _ now).adds inside).trans (adds_addItem scope _ added)
  have here : opened.HasParagraph slot .block scope label true [] := by
    have fresh : added.HasParagraph slot .block scope label true [] :=
      ⟨#[], by simp [added, slot, Body.addParagraph]⟩
    obtain ⟨vars, known⟩ := fresh
    exact ⟨vars, ((adds_addItem scope (.block slot) added).changes.paragraph slot
      (Array.getElem?_eq_some_iff.1 known).1 (Nat.ne_of_gt inside)).trans known⟩
  obtain ⟨after, items, arrives, fills, stand⟩ :=
    all slot .braced (.paragraph (taking ⟨scope, mode, none⟩) :: stack) ('}' :: more) opened
      here.lt_size (.inr rfl) (follows_close more)
  refine ⟨after, .block slot, ?_, ?_, fun final retains => ⟨slot, items, rfl, ?_, ?_⟩⟩
  · have opens : step true (.paragraph ⟨scope, mode, label.map String.ofList⟩)
        (trimStart ('{' :: ' ' :: printAll inner ('}' :: more))) now =
        .ok (.enter (.paragraph (taking ⟨scope, mode, none⟩)) (.ofParagraph slot .braced)
          (' ' :: printAll inner ('}' :: more))) opened := by
      rw [trimStart_cons (by decide)]
      exact step_block takes
    have closes : step true (.paragraph ⟨slot, .braced, none⟩) (trimStart ('}' :: more)) after =
        .ok (.leave more) after := rfl
    rw [printOn, printBraced_eq]
    refine (labelled_arrives fine labels (trimStart_cons (by decide)) (.inr rfl)).trans ?_
    exact Arrives.enter opens (arrives.trans (Arrives.leave closes (.nil (.refl _)))).blank
  · refine adds.more inside fills.changes ?_ fun _ => False.elim
    rintro id rfl
    exact Nat.le_refl _
  · obtain ⟨vars, known⟩ := here
    refine ⟨vars, ?_⟩
    rw [retains.paragraph slot (Nat.le_refl _)
      (Nat.lt_of_lt_of_le (Array.getElem?_eq_some_iff.1 known).1 fills.changes.paragraphs_le),
      fills.own _ known]
    simp
  · exact stand final (retains.since adds.changes)

/-! ## Headers of one clause -/

theorem reads_whileLoop (fine : label.all isLabel = true) (well : tree.isWellFormed = true)
    (short : tree.isShort = true) (reads : body.Reads) :
    (Statement.whileLoop label tree body).Reads := by
  intro scope mode stack more now inside stands follows
  have fills (slot : ParagraphId) (now : Body)
      (empty : now.HasParagraph slot .body scope none false []) :=
    reads slot scope more now empty follows
  obtain ⟨after, item, arrives, adds, found⟩ :=
    construct_arrives .whileLoop inside fine (MayStand.takesItems stands) (MayStand.labels stands)
      (.inr rfl) (by exact isWordChar_space) _
      (header_arrives well short (fun _ _ => rfl) fills
        (.paragraph (taking ⟨scope, mode, none⟩) :: stack))
  refine ⟨after, item, arrives, adds, fun final retains => ?_⟩
  obtain ⟨id, detail, same, has, placed, slot, rfl, pictures, stands⟩ := found final retains
  exact ⟨id, placed, slot, same, has, pictures, stands⟩

theorem reads_synchronized (well : tree.isWellFormed = true) (short : tree.isShort = true)
    (reads : body.Reads) : (Statement.synchronized tree body).Reads := by
  intro scope mode stack more now inside stands follows
  have fills (slot : ParagraphId) (now : Body)
      (empty : now.HasParagraph slot .body scope none false []) :=
    reads slot scope more now empty follows
  obtain ⟨after, item, arrives, adds, found⟩ :=
    unlabelled_arrives .synchronized inside (MayStand.takesItems stands)
      (by exact isWordChar_space) _
      (header_arrives well short (fun _ _ => rfl) fills
        (.paragraph (taking ⟨scope, mode, none⟩) :: stack))
  refine ⟨after, item, arrives, adds, fun final retains => ?_⟩
  obtain ⟨id, detail, same, has, placed, slot, rfl, pictures, stands⟩ := found final retains
  exact ⟨id, placed, slot, same, has, pictures, stands⟩

theorem reads_switch (well : tree.isWellFormed = true) (short : tree.isShort = true)
    (all : AllRead inner) : (Statement.switch tree inner).Reads := by
  intro scope mode stack more now inside stands _
  have fills (slot : ParagraphId) (now : Body)
      (empty : now.HasParagraph slot .switchBody scope none false []) :=
    fills_braced all empty more
  obtain ⟨after, item, arrives, adds, found⟩ :=
    unlabelled_arrives .switch inside (MayStand.takesItems stands) (by exact isWordChar_space) _
      (header_arrives well short (fun _ _ => rfl) fills
        (.paragraph (taking ⟨scope, mode, none⟩) :: stack))
  refine ⟨after, item, arrives, adds, fun final retains => ?_⟩
  obtain ⟨id, detail, same, has, placed, slot, rfl, pictures, items, filled, stand⟩ :=
    found final retains
  exact ⟨id, placed, slot, items, same, has, pictures, filled, stand⟩

/-! ## Loops with the condition at the end -/

/-- The body and the condition of a `do` are read. -/
theorem doLoop_arrives (well : tree.isWellFormed = true) (short : tree.isShort = true)
    (reads : body.Reads) (scope : ParagraphId) (stack : List Frame) (more : List Char)
    (id : ConstructId) (start : Body) (unread : start.HasConstruct id .doLoop scope label .unread) :
    ∃ after found,
      Arrives (body.steps + 3)
        ⟨start, .construct ⟨id, scope, .header⟩ :: stack, ' ' :: body.printOn
          (' ' :: worded "while" (' ' :: '(' :: (tree.print ++ ')' :: ';' :: more)))⟩
        ⟨after, stack, more⟩ ∧ Inside id .doLoop scope label found start after ∧
      ∀ final, Retains start after final → ∃ placed slot, found = .doLoop slot placed ∧
        tree.Pictures placed.expr ∧ body.StandsAt final scope slot := by
  let slot := start.paragraphs.size
  let now := opened start id scope .body
    fun _ => .doLoop slot (noClause ⟨id, scope, .header⟩)
  have unopened : Inside id .doLoop scope label .unread start start := ⟨.refl start, unread⟩
  have within :
      Inside id .doLoop scope label (.doLoop slot (noClause ⟨id, scope, .header⟩)) start now :=
    unopened.opened .body fun _ => .doLoop slot (noClause ⟨id, scope, .header⟩)
  have empty : now.HasParagraph slot .body scope none false [] :=
    hasParagraph_addParagraph .body scope start
  let closing := ' ' :: '(' :: (tree.print ++ ')' :: ';' :: more)
  have opens : Opens (some .whileLoop) (Keyword.whileLoop.text.toList ++ closing) :=
    opens_keyword .whileLoop isWordChar_space
  obtain ⟨between, arrives, -, inside, stands⟩ :=
    (reads slot scope _ now empty (opens.follows.blank.mono fun _ => rfl)).inside within
      (Nat.le_refl _)
      empty.lt_size unread.lt_size (.construct ⟨id, scope, .afterDoBody⟩ :: stack)
  obtain ⟨placed, after, read, counted, pictures⟩ := @reads_print tree scope between well short
  have enters : step true (.construct ⟨id, scope, .header⟩)
      (trimStart (' ' :: body.printOn (' ' :: (Keyword.whileLoop.text.toList ++ closing)))) start =
      .ok (.enter (.construct ⟨id, scope, .afterDoBody⟩) (.ofParagraph slot .awaitOpen)
        (trimStart (body.printOn (' ' :: (Keyword.whileLoop.text.toList ++ closing))))) now := by
    rw [trimStart_space]
    exact (stepConstruct_header unread).trans (stepDo_eq .header)
  have asks : step true (.construct ⟨id, scope, .afterDoBody⟩)
      (trimStart (' ' :: (Keyword.whileLoop.text.toList ++ closing))) between =
      .ok (.advance (.construct ⟨id, scope, .doCondition⟩) closing) between := by
    rw [trimStart_space, opens.solid]
    exact stepAfterDo_eq
  have closes : step true (.construct ⟨id, scope, .doCondition⟩) (trimStart closing) between =
      .ok (.leave more) (after.modifyDetail id (Detail.withCondition placed)) := by
    rw [trimStart_space, trimStart_cons (by decide)]
    exact stepDoCondition_eq (sealed_print well) read
  refine ⟨after.modifyDetail id (Detail.withCondition placed), _, ?_,
    (inside.counted counted).modify (Detail.withCondition placed),
    fun final retains => ⟨placed, slot, rfl, pictures, ?_⟩⟩
  · have later : Arrives 2 ⟨between, .construct ⟨id, scope, .afterDoBody⟩ :: stack,
        ' ' :: (Keyword.whileLoop.text.toList ++ closing)⟩
        ⟨after.modifyDetail id (Detail.withCondition placed), stack, more⟩ :=
      Arrives.advance asks (Arrives.leave closes (.nil (.refl _)))
    exact Arrives.enter enters (arrives.trans later).trimmed
  · exact stands _ final (counted.changes.trans (changes_modifyDetail id _ after)
      (fun _ _ => False.elim) fun _ _ own => own) retains

theorem reads_doLoop (fine : label.all isLabel = true) (well : tree.isWellFormed = true)
    (short : tree.isShort = true) (reads : body.Reads) :
    (Statement.doLoop label body tree).Reads := by
  intro scope mode stack more now inside stands _
  obtain ⟨after, item, arrives, adds, found⟩ :=
    construct_arrives .doLoop inside fine (MayStand.takesItems stands) (MayStand.labels stands)
      (.inr rfl) (by exact isWordChar_space) _
      (doLoop_arrives well short reads scope (.paragraph (taking ⟨scope, mode, none⟩) :: stack)
        more)
  refine ⟨after, item, arrives, adds, fun final retains => ?_⟩
  obtain ⟨id, detail, same, has, placed, slot, rfl, pictures, stands⟩ := found final retains
  exact ⟨id, placed, slot, same, has, pictures, stands⟩

/-! ## Jumps and labels of a switch -/

/-- A construct without bodies is read in one step. -/
theorem leaf_arrives {keyword : Keyword} {scope : ParagraphId} {text more : List Char}
    {holds : Detail → Prop} (reads : ∀ (id : ConstructId) (start : Body), ∃ after detail,
      stepKeyword ⟨id, scope, .header⟩ (trimStart text) keyword start =
        .ok (.leave more) (after.modifyDetail id fun _ => detail) ∧
      Changes (fun _ => False) (fun _ => False) start after ∧ holds detail)
    (stack : List Frame) (id : ConstructId) (start : Body)
    (unread : start.HasConstruct id keyword scope label .unread) :
    ∃ after detail,
      Arrives 1 ⟨start, .construct ⟨id, scope, .header⟩ :: stack, text⟩ ⟨after, stack, more⟩ ∧
      Inside id keyword scope label detail start after ∧
      ∀ final, Retains start after final → holds detail := by
  obtain ⟨after, detail, stepped, changes, held⟩ := reads id start
  have within : Inside id keyword scope label .unread start start := ⟨.refl start, unread⟩
  refine ⟨_, detail, Arrives.leave ((stepConstruct_header unread).trans stepped) (.nil (.refl _)),
    (within.beside changes fun _ => False.elim).modify fun _ => detail, fun _ _ => held⟩

theorem reads_exit {keyword : Keyword} {value : Option Tree}
    (leaves : keyword = .returns ∨ keyword = .throws) (well : value.all Tree.isWellFormed = true)
    (short : value.all isShort = true) : (Statement.exit keyword value).Reads := by
  intro scope mode stack more now inside stands _
  have solid : trimStart (furtherClause value ++ ';' :: more) = clause value ++ ';' :: more := by
    cases value with
    | none => exact trimStart_cons (by decide)
    | some tree => exact (trimStart_space _).trans (trimStart_print well)
  have ends : (furtherClause value ++ ';' :: more).head?.any isWordChar = false := by
    cases value with
    | none => exact isWordChar_mark ';' (by decide)
    | some tree => exact isWordChar_space
  have reads (id : ConstructId) (start : Body) : ∃ after detail,
      stepKeyword ⟨id, scope, .header⟩ (trimStart (furtherClause value ++ ';' :: more))
      keyword start = .ok (.leave more) (after.modifyDetail id fun _ => detail) ∧
      Changes (fun _ => False) (fun _ => False) start after ∧
      ∃ placed, detail = .jump placed none ∧ PicturesAt value placed := by
    obtain ⟨placed, after, handle, stepped, counted, pictures⟩ :=
      @stepValue_eq id scope keyword more start value well short .header
    refine ⟨{ after with returnsHandle := handle }, _, ?_, counted.changes.returnsHandle handle,
      placed, rfl, pictures⟩
    rw [solid]
    rcases leaves with rfl | rfl <;> exact stepped
  obtain ⟨after, item, arrives, adds, found⟩ :=
    unlabelled_arrives keyword inside (MayStand.takesItems stands) ends _
      (leaf_arrives reads (.paragraph (taking ⟨scope, mode, none⟩) :: stack))
  refine ⟨after, item, arrives, adds, fun final retains => ?_⟩
  obtain ⟨id, detail, same, has, placed, rfl, pictures⟩ := found final retains
  exact ⟨id, placed, same, has, pictures⟩

theorem reads_jump {keyword : Keyword} (leaves : keyword = .breaks ∨ keyword = .continues)
    (fine : label.all isLabel = true) : (Statement.jump keyword label).Reads := by
  intro scope mode stack more now inside stands _
  let text := (label.elim [] fun word => ' ' :: word) ++ ';' :: more
  have solid : trimStart text = label.getD [] ++ ';' :: more := by
    cases label with
    | none => exact trimStart_cons (by decide)
    | some word =>
        simp only [Option.all_some, isLabel, Bool.and_eq_true, Bool.not_eq_true',
          List.isEmpty_eq_false_iff] at fine
        exact (trimStart_space _).trans (trimStart_word (List.all_eq_true.1 fine.1.2) fine.1.1.1)
  have ends : text.head?.any isWordChar = false := by
    cases label with
    | none => exact isWordChar_mark ';' (by decide)
    | some word => exact isWordChar_space
  have reads (id : ConstructId) (start : Body) : ∃ after detail,
      stepKeyword ⟨id, scope, .header⟩ (trimStart text) keyword start =
        .ok (.leave more) (after.modifyDetail id fun _ => detail) ∧
      Changes (fun _ => False) (fun _ => False) start after ∧
      ∃ placed, detail = .jump placed (label.map String.ofList) ∧ placed.expr = .absent := by
    refine ⟨start, _, ?_, .refl start, noClause ⟨id, scope, .header⟩, rfl, rfl⟩
    rw [solid]
    rcases leaves with rfl | rfl <;> exact stepJump_eq fine .header
  obtain ⟨after, item, arrives, adds, found⟩ :=
    unlabelled_arrives keyword inside (MayStand.takesItems stands) ends _
      (leaf_arrives reads (.paragraph (taking ⟨scope, mode, none⟩) :: stack))
  refine ⟨after, item, arrives, adds, fun final retains => ?_⟩
  obtain ⟨id, detail, same, has, placed, rfl, absent⟩ := found final retains
  exact ⟨id, placed, same, has, absent⟩

theorem reads_caseLabel (well : tree.isWellFormed = true) (short : tree.isShort = true)
    (hides : tree.hidesColon = true) : (Statement.caseLabel tree).Reads := by
  intro scope mode stack more now inside stands _
  have takes : takesItems mode := MayStand.takesItems stands
  have reads (id : ConstructId) (start : Body) : ∃ after detail,
      stepKeyword ⟨id, scope, .header⟩ (trimStart (' ' :: (tree.print ++ ':' :: more))) .caseLabel
          start = .ok (.leave more) (after.modifyDetail id fun _ => detail) ∧
      Changes (fun _ => False) (fun _ => False) start after ∧
      ∃ placed, detail = .caseLabel placed ∧ tree.Pictures placed.expr := by
    obtain ⟨placed, after, stepped, counted, pictures⟩ :=
      @stepCase_eq id scope more start tree well short hides .header
    refine ⟨after, _, ?_, counted.changes, placed, rfl, pictures⟩
    rw [trimStart_space, trimStart_print well]
    exact stepped
  obtain ⟨after, item, arrives, adds, found⟩ :=
    unlabelled_arrives .caseLabel inside takes (by exact isWordChar_space) _
      (leaf_arrives reads (.paragraph (taking ⟨scope, mode, none⟩) :: stack))
  refine ⟨after, item, arrives, adds, fun final retains => ?_⟩
  obtain ⟨id, detail, same, has, placed, rfl, pictures⟩ := found final retains
  exact ⟨id, placed, same, has, pictures⟩

theorem reads_defaultLabel : Statement.defaultLabel.Reads := by
  intro scope mode stack more now inside stands _
  have takes : takesItems mode := MayStand.takesItems stands
  have reads (id : ConstructId) (start : Body) : ∃ after detail,
      stepKeyword ⟨id, scope, .header⟩ (trimStart (':' :: more)) .defaultLabel start =
        .ok (.leave more) (after.modifyDetail id fun _ => detail) ∧
      Changes (fun _ => False) (fun _ => False) start after ∧ detail = .defaultLabel := by
    refine ⟨start, _, ?_, .refl start, rfl⟩
    rw [trimStart_cons (by decide)]
    exact stepDefault_eq .header
  obtain ⟨after, item, arrives, adds, found⟩ :=
    unlabelled_arrives .defaultLabel inside takes
      (by exact isWordChar_mark ':' (by decide)) _
      (leaf_arrives reads (.paragraph (taking ⟨scope, mode, none⟩) :: stack))
  refine ⟨after, item, arrives, adds, fun final retains => ?_⟩
  obtain ⟨id, detail, same, has, rfl⟩ := found final retains
  exact ⟨id, same, has⟩

end

end Statement
end MethodLowering
