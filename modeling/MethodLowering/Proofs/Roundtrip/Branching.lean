import MethodLowering.Proofs.Roundtrip.Loops

/-!
# Conditionals and guarded blocks

Behind a branch the conditional waits for an `else`, and behind a guarded block the block waits for
a handler or a cleanup.  Each further part is read in front of what follows it.
-/

namespace MethodLowering

open Text MethodLowering.Tree Reader Body Statement

/-! ## Conditionals -/

section

variable {condition : Tree} {body : Suite} {rest : Alternative} {more : List Char}
  {scope : ParagraphId} {stack : List Frame} {id : ConstructId} {now : Body}

theorem follows_alternative (closed : rest.isDone = true ∨ body.endsOpen = false)
    (follows : Follows rest.endsOpen more) : Follows body.endsOpen (rest.printOn more) := by
  cases rest with
  | done => exact follows.mono fun _ => rfl
  | otherwise | elseIf =>
      have shut : body.endsOpen = false := closed.resolve_left nofun
      rw [shut]
      exact follows_else _

section

variable (well : condition.isWellFormed = true) (short : condition.isShort = true)
  (closed : rest.isDone = true ∨ body.endsOpen = false) (first : body.Reads) (further : rest.Reads)
include well short closed first further

/-- A condition with its body, and the branches behind it, are read. -/
theorem branch_arrives {detail : Detail} {branches : List Branch}
    (follows : Follows rest.endsOpen more)
    (grows : ∀ branch, Detail.withBranch branch detail = .conditional (branches ++ [branch]))
    (stack : List Frame) (id : ConstructId) (now : Body)
    (has : now.HasConstruct id .ifThen scope none detail) :
    ∃ after others,
      Arrives (body.steps + rest.steps + 1)
        ⟨now, .construct ⟨id, scope, .header⟩ :: stack,
          ' ' :: '(' :: (condition.print ++ ')' :: ' ' :: body.printOn (rest.printOn more))⟩
        ⟨after, stack, more⟩ ∧
      Inside id .ifThen scope none (.conditional (branches ++ others)) now after ∧
      ∀ final, Retains now after final → ∃ placed slot later, others = ⟨placed, slot⟩ :: later ∧
        condition.Pictures placed.expr ∧ body.StandsAt final scope slot ∧
        rest.StandsAt final scope later := by
  obtain ⟨placed, asked, read, counted, pictures⟩ := @reads_print condition scope now well short
  let slot := asked.paragraphs.size
  let start := opened asked id scope .body (Detail.withBranch ⟨placed, slot⟩)
  have unopened : Inside id .ifThen scope none detail now asked :=
    Inside.counted ⟨.refl now, has⟩ counted
  have within : Inside id .ifThen scope none (.conditional (branches ++ [⟨placed, slot⟩]))
      now start := by
    rw [← grows]
    exact unopened.opened .body (Detail.withBranch ⟨placed, slot⟩)
  have empty : start.HasParagraph slot .body scope none false [] :=
    hasParagraph_addParagraph .body scope asked
  obtain ⟨between, arrives, -, inside, stands⟩ :=
    (first slot scope _ start empty (follows_alternative closed follows)).inside within
      unopened.changes.paragraphs_le empty.lt_size has.lt_size
      (.construct ⟨id, scope, .afterBranch⟩ :: stack)
  obtain ⟨after, others, arrives', inside', stands'⟩ :=
    further id scope stack more between _ inside.known follows
  have enters : step true (.construct ⟨id, scope, .header⟩) (trimStart
      (' ' :: '(' :: (condition.print ++ ')' :: ' ' :: body.printOn (rest.printOn more)))) now =
      .ok (.enter (.construct ⟨id, scope, .afterBranch⟩) (.ofParagraph slot .awaitOpen)
        (' ' :: body.printOn (rest.printOn more))) start := by
    rw [trimStart_space, trimStart_cons (by decide)]
    exact (stepConstruct_header has).trans (stepCondition_eq (sealed_print well) read .header)
  refine ⟨after, ⟨placed, slot⟩ :: others, Arrives.enter enters (arrives.trans arrives').blank, ?_,
    fun final retains => ⟨placed, slot, others, rfl, pictures, ?_, ?_⟩⟩
  · have joined := inside.trans inside'
    rwa [List.append_assoc, List.singleton_append] at joined
  · exact stands after final inside'.changes retains
  · exact stands' final (retains.since inside.changes)

theorem Statement.reads_conditional : (Statement.conditional condition body rest).Reads := by
  intro scope mode stack more now inside stands follows
  have arrives (id : ConstructId) (start : Body)
      (unread : start.HasConstruct id .ifThen scope none .unread) :=
    branch_arrives well short closed first further follows
      (show ∀ branch, Detail.withBranch branch .unread = .conditional ([] ++ [branch]) from fun _ =>
        rfl)
      (.paragraph (taking ⟨scope, mode, none⟩) :: stack) id start unread
  obtain ⟨after, item, arrives, adds, found⟩ :=
    unlabelled_arrives .ifThen inside (MayStand.takesItems stands) (by exact isWordChar_space)
      (fun final detail => ∃ others, detail = .conditional others ∧
        ∃ placed slot later, others = ⟨placed, slot⟩ :: later ∧
          condition.Pictures placed.expr ∧ body.StandsAt final scope slot ∧
          rest.StandsAt final scope later)
      fun id start unread =>
        let ⟨after, others, arrives, inside, stands⟩ := arrives id start unread
        ⟨after, _, arrives, inside, fun final retains => ⟨others, rfl, stands final retains⟩⟩
  refine ⟨after, item, arrives, adds, fun final retains => ?_⟩
  obtain ⟨id, _, same, has, _, rfl, placed, slot, later, rfl, pictures, stands⟩ :=
    found final retains
  exact ⟨id, placed, slot, later, same, has, pictures, stands⟩

end

theorem Alternative.reads_done : Alternative.done.Reads := by
  intro id scope stack more now branches has follows
  have leaves : step true (.construct ⟨id, scope, .afterBranch⟩) (trimStart more) now =
      .ok (.leave (trimStart more)) now := stepAfterBranch_leave (follows.otherwise rfl)
  refine ⟨now, [], Arrives.leave leaves (.nil ⟨rfl, rfl, trimStart_trimStart more⟩), ?_,
    fun _ _ => rfl⟩
  rw [List.append_nil]
  exact ⟨.refl now, has⟩

/-- A body that is no conditional does not start with `if`. -/
theorem Suite.startsWithWord_if (well : body.isWellFormed = true)
    (other : body.isConditional = false)
    (more : List Char) : startsWithWord "if".toList (trimStart (body.printOn more)) = false := by
  have opens : ∃ keyword?, Opens keyword? (body.printOn more) ∧ keyword? ≠ some .ifThen := by
    cases body with
    | braced inner =>
        rw [Suite.printOn, printBraced_eq]
        exact ⟨none, opens_symbol (isWordChar_mark _ (by decide)) (by decide) _, nofun⟩
    | single statement =>
        rw [Suite.isWellFormed, Bool.and_eq_true] at well
        refine ⟨statement.keyword?, opens_printOn well.2 more, fun starts => ?_⟩
        cases statement with
        | conditional => contradiction
        | exit keyword | jump keyword =>
            obtain rfl := Option.some.inj starts
            simp [Statement.isWellFormed] at well
        | counted own | iterator own | whileLoop own | doLoop own =>
            cases own <;> simp [Statement.keyword?] at starts
        | _ => simp [Statement.keyword?] at starts
  obtain ⟨keyword?, opens, differs⟩ := opens
  rw [opens.solid]
  refine opens.other "if" (by decide) fun keyword starts same => differs ?_
  rw [starts]
  revert same
  cases keyword <;> decide

theorem Alternative.reads_otherwise (well : body.isWellFormed = true)
    (other : body.isConditional = false) (reads : body.Reads) :
    (Alternative.otherwise body).Reads := by
  intro id scope stack more now branches has follows
  let slot := now.paragraphs.size
  let branch : Branch := ⟨noClause ⟨id, scope, .afterBranch⟩, slot⟩
  let start := opened now id scope .body (Detail.withBranch branch)
  have within : Inside id .ifThen scope none (.conditional (branches ++ [branch])) now start :=
    Inside.opened ⟨.refl now, has⟩ .body (Detail.withBranch branch)
  have empty : start.HasParagraph slot .body scope none false [] :=
    hasParagraph_addParagraph .body scope now
  obtain ⟨after, arrives, -, inside, stands⟩ :=
    (reads slot scope more start empty follows).last within
    (Nat.le_refl _) empty.lt_size has.lt_size stack
  have enters : step true (.construct ⟨id, scope, .afterBranch⟩)
      (trimStart (' ' :: ("else".toList ++ ' ' :: body.printOn more))) now =
      .ok (.enter (.construct ⟨id, scope, .done⟩) (.ofParagraph slot .awaitOpen)
        (' ' :: body.printOn more)) start :=
    stepAfterBranch_else (body.startsWithWord_if well other more)
  exact ⟨after, [branch], Arrives.enter enters arrives.blank, inside, fun final retains =>
    ⟨_, slot, rfl, rfl, stands final retains⟩⟩

theorem Alternative.reads_elseIf (well : condition.isWellFormed = true)
    (short : condition.isShort = true) (closed : rest.isDone = true ∨ body.endsOpen = false)
    (reads : body.Reads) (further : rest.Reads) :
    (Alternative.elseIf condition body rest).Reads := by
  intro id scope stack more now branches has follows
  obtain ⟨after, others, arrives, inside, stands⟩ :=
    branch_arrives well short closed reads further follows (fun _ => rfl) stack id now has
  have goesOn : step true (.construct ⟨id, scope, .afterBranch⟩)
      (trimStart ((Alternative.elseIf condition body rest).printOn more)) now =
      .ok (.advance (.construct ⟨id, scope, .header⟩)
        (' ' :: '(' :: (condition.print ++ ')' :: ' ' :: body.printOn (rest.printOn more)))) now :=
    stepAfterBranch_elseIf
  refine ⟨after, others, Arrives.advance goesOn arrives, inside, fun final retains => ?_⟩
  obtain ⟨placed, slot, later, rfl, pictures, stands⟩ := stands final retains
  exact ⟨placed, slot, later, rfl, pictures, stands⟩

end

/-! ## Guarded blocks -/

section

variable {type name : List Char} {inner : List Statement} {clauses : Clauses} {more : List Char}

/-- A guarded block with its handlers and cleanup is read. -/
theorem tryBlock_arrives {scope : ParagraphId} (all : AllRead inner) (further : clauses.Reads)
    (present : clauses.isDone = false) (follows : Follows false more) (stack : List Frame)
    (id : ConstructId) (start : Body)
    (unread : start.HasConstruct id .tryBlock scope none .unread) :
    ∃ after found,
      Arrives (allSteps inner + 2 + clauses.steps + 1)
        ⟨start, .construct ⟨id, scope, .header⟩ :: stack,
          ' ' :: printBraced inner (clauses.printOn more)⟩
        ⟨after, stack, more⟩ ∧ Inside id .tryBlock scope none found start after ∧
      ∀ final, Retains start after final → ∃ slot items handlers cleanup,
        found = .tryBlock slot handlers cleanup ∧
        final.HasParagraph slot .body scope none true items ∧ StandAt final slot inner items ∧
        clauses.StandsAt final scope handlers cleanup := by
  let slot := start.paragraphs.size
  let now := opened start id scope .body fun _ => .tryBlock slot [] none
  have within : Inside id .tryBlock scope none (.tryBlock slot [] none) start now :=
    Inside.opened ⟨.refl start, unread⟩ .body fun _ => .tryBlock slot [] none
  have empty : now.HasParagraph slot .body scope none false [] :=
    hasParagraph_addParagraph .body scope start
  obtain ⟨between, arrives, -, inside, stands⟩ :=
    (fills_braced all empty (clauses.printOn more)).inside within (Nat.le_refl _) empty.lt_size
      unread.lt_size (.construct ⟨id, scope, .afterTryClause⟩ :: stack)
  obtain ⟨after, others, cleanup, arrives', inside', stands'⟩ :=
    further id scope slot stack more between [] inside.known
      (fun done => absurd done (by rw [present]; exact Bool.false_ne_true)) follows
  have enters : step true (.construct ⟨id, scope, .header⟩)
      (trimStart (' ' :: printBraced inner (clauses.printOn more))) start =
      .ok (.enter (.construct ⟨id, scope, .afterTryClause⟩) (.ofParagraph slot .awaitOpen)
        (printBraced inner (clauses.printOn more))) now := by
    rw [trimStart_space, printBraced_eq, trimStart_cons (by decide)]
    exact (stepConstruct_header unread).trans (stepTry_eq .header)
  refine ⟨after, _, Arrives.enter enters (arrives.trans arrives'), inside.trans inside',
    fun final retains => ?_⟩
  obtain ⟨items, filled, stand⟩ := stands after final inside'.changes retains
  exact ⟨slot, items, _, cleanup, rfl, filled, stand, stands' final (retains.since inside.changes)⟩

theorem Statement.reads_tryBlock (all : AllRead inner) (further : clauses.Reads)
    (present : clauses.isDone = false) : (Statement.tryBlock inner clauses).Reads := by
  intro scope mode stack more now inside stands follows
  obtain ⟨after, item, arrives, adds, found⟩ :=
    unlabelled_arrives .tryBlock inside (MayStand.takesItems stands) (by exact isWordChar_space) _
      (tryBlock_arrives all further present follows
        (.paragraph (taking ⟨scope, mode, none⟩) :: stack))
  have count : allSteps inner + 2 + clauses.steps + 1 + 1 = allSteps inner + clauses.steps + 4 := by
    omega
  rw [count] at arrives
  refine ⟨after, item, arrives, adds, fun final retains => ?_⟩
  obtain ⟨id, _, same, has, slot, items, handlers, cleanup, rfl, filled, stand, stands⟩ :=
    found final retains
  exact ⟨id, slot, items, handlers, cleanup, same, has, filled, stand, stands⟩

theorem Clauses.reads_done : Clauses.done.Reads := by
  intro id scope guarded stack more now handlers has handled follows
  have clause : hasClause now id = true := by
    rw [hasClause, has]
    simp [handled rfl]
  have leaves : step true (.construct ⟨id, scope, .afterTryClause⟩) (trimStart more) now =
      .ok (.leave (trimStart more)) now :=
    stepAfterTry_leave follows.handler follows.cleanup clause
  refine ⟨now, [], none, Arrives.leave leaves (.nil ⟨rfl, rfl, trimStart_trimStart more⟩), ?_,
    fun _ _ => ⟨rfl, rfl⟩⟩
  rw [List.append_nil]
  exact ⟨.refl now, has⟩

theorem Clauses.reads_cleanup (all : AllRead inner) : (Clauses.cleanup inner).Reads := by
  intro id scope guarded stack more now handlers has _ _
  let slot := now.paragraphs.size
  let start := opened now id scope .body (Detail.withCleanup slot)
  have within : Inside id .tryBlock scope none (.tryBlock guarded handlers (some slot)) now start :=
    Inside.opened ⟨.refl now, has⟩ .body (Detail.withCleanup slot)
  have empty : start.HasParagraph slot .body scope none false [] :=
    hasParagraph_addParagraph .body scope now
  obtain ⟨after, arrives, -, inside, stands⟩ := (fills_braced all empty more).last within
    (Nat.le_refl _) empty.lt_size has.lt_size stack
  have enters : step true (.construct ⟨id, scope, .afterTryClause⟩)
      (trimStart (' ' :: ("finally".toList ++ ' ' :: printBraced inner more))) now =
      .ok (.enter (.construct ⟨id, scope, .done⟩) (.ofParagraph slot .awaitOpen)
        (' ' :: printBraced inner more)) start := stepAfterTry_finally
  refine ⟨after, [], some slot, Arrives.enter enters arrives.blank, ?_, fun final retains => ?_⟩
  · rwa [List.append_nil]
  · obtain ⟨items, filled, stand⟩ := stands final retains
    exact ⟨slot, items, rfl, rfl, filled, stand⟩

/-- A handler for one type has no further alternatives. -/
theorem alternatives_declaration (isType : isTypeWord type = true) (isVar : isName name = true) :
    alternatives (type ++ ' ' :: name) = [type ++ ' ' :: name] := by
  have hidden : Sealed (· != '|') (type ++ ' ' :: name) := by
    refine sealed_declaration isType isVar (fun c isChar => ?_) rfl
    exact bne_iff_ne.2 (isNameChar_inert isChar).2.2.2.2.2.1
  rw [alternatives, trim_declaration (typeWord_of_isTypeWord isType) isVar, hidden.splitTop_eq rfl]
  rfl

theorem Clauses.reads_handler (isType : isTypeWord type = true) (isVar : isName name = true)
    (all : AllRead inner) (further : clauses.Reads) :
    (Clauses.handler type name inner clauses).Reads := by
  intro id scope guarded stack more now handlers has _ follows
  let slot := now.paragraphs.size
  let added := now.addParagraph { kind := .body, parent := some scope }
  obtain ⟨expr, nextNode, effort, read, node, rfl⟩ :=
    readExpression_declaration (typeWord_of_isTypeWord isType) isVar slot added
  let declared : Body := { now.openedWith scope type name with nextNode, effort }
  let placed : Placed := ⟨.declaration node added.vars.size false, ⟨slot, added.vars.size + 1⟩⟩
  let start := declared.modifyDetail id (Detail.withHandlers [placed] slot)
  have counted : (now.openedWith scope type name).IsCounted declared := ⟨nextNode, effort, rfl⟩
  have within : Inside id .tryBlock scope none
      (.tryBlock guarded (handlers ++ [⟨placed, slot⟩]) none) now start := by
    have unopened : Inside id .tryBlock scope none (.tryBlock guarded handlers none) now
        (now.openedWith scope type name) :=
      Inside.beside ⟨.refl now, has⟩ (changes_openedWith now scope type name) fun _ => False.elim
    exact (unopened.counted counted).modify (Detail.withHandlers [placed] slot)
  have empty : start.HasParagraph slot .body scope none false [] :=
    counted.hasParagraph (hasParagraph_openedWith now scope type name)
  obtain ⟨between, arrives, changes, inside, stands⟩ :=
    (fills_braced all empty (clauses.printOn more)).inside within (Nat.le_refl _) empty.lt_size
      has.lt_size (.construct ⟨id, scope, .afterTryClause⟩ :: stack)
  obtain ⟨after, others, cleanup, arrives', inside', stands'⟩ :=
    further id scope guarded stack more between _ inside.known (fun _ => by simp) follows
  have enters : step true (.construct ⟨id, scope, .afterTryClause⟩)
      (trimStart ((Clauses.handler type name inner clauses).printOn more)) now =
      .ok (.enter (.construct ⟨id, scope, .afterTryClause⟩) (.ofParagraph slot .awaitOpen)
        (' ' :: printBraced inner (clauses.printOn more))) start :=
    stepAfterTry_catch
      (sealed_declaration isType isVar (fun _ isChar => (isPlain_of_isNameChar isChar true).2) rfl)
      (alternatives_declaration isType isVar) read
  have count : allSteps inner + 2 + clauses.steps + 1 = allSteps inner + clauses.steps + 3 :=
    by omega
  refine ⟨after, ⟨placed, slot⟩ :: others, cleanup, ?_, ?_, fun final retains => ?_⟩
  · have whole := Arrives.enter enters (arrives.trans arrives').blank
    rwa [count] at whole
  · have joined := inside.trans inside'
    rwa [List.append_assoc, List.singleton_append] at joined
  · obtain ⟨items, filled, stand⟩ := stands after final inside'.changes retains
    have later : Changes (fun _ => True) (fun _ => True) start after :=
      (changes.mono (fun _ _ _ => trivial) fun _ _ _ => trivial).trans inside'.changes
        (fun _ _ _ => trivial) fun _ _ _ => trivial
    exact ⟨placed, slot, items, others, rfl,
      retains.hasVariable later (Nat.le_refl _) (getElem?_vars_openedWith now scope type name),
      filled,
      stand, stands' final (retains.since inside.changes)⟩

end

end MethodLowering
