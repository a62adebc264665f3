import MethodLowering.Proofs.Reader.Arrival
import MethodLowering.Proofs.Roundtrip.Additions
import MethodLowering.Proofs.Roundtrip.Leading

/-!
# Written statements are read

The reader arrives behind a written statement in its number of steps, and what it has added to the
body stands for the statement.  Each kind of statement is read when its parts are.
-/

namespace MethodLowering

open Text MethodLowering.Tree Reader Body

/-! ## What reading a part means -/

/-- Reading the statement in a paragraph adds one item that stands for it. -/
def Statement.Reads (statement : Statement) : Prop :=
  ∀ (scope : ParagraphId) (mode : ParagraphMode) (stack : List Frame)
    (more : List Char) (now : Body),
    scope < now.paragraphs.size →
    mode = .root ∨ mode = .braced ∨ (mode = .single false ∧ statement.isPlain = true) →
    Follows statement.endsOpen more →
    ∃ after item,
      Arrives statement.steps ⟨now, .paragraph ⟨scope, mode, none⟩ :: stack, statement.printOn more⟩
        ⟨after, .paragraph (taking ⟨scope, mode, none⟩) :: stack, more⟩ ∧
      Adds scope [item] now after ∧
      ∀ final, Retains now after final → statement.StandsAt final scope item

/-- Reading the statements in a paragraph adds items that stand for them. -/
def Statement.AllRead (statements : List Statement) : Prop :=
  ∀ (scope : ParagraphId) (mode : ParagraphMode) (stack : List Frame)
    (more : List Char) (now : Body),
    scope < now.paragraphs.size → mode = .root ∨ mode = .braced → Follows true more →
    ∃ after items,
      Arrives (Statement.allSteps statements)
        ⟨now, .paragraph ⟨scope, mode, none⟩ :: stack, Statement.printAll statements more⟩
        ⟨after, .paragraph ⟨scope, mode, none⟩ :: stack, more⟩ ∧ Adds scope items now after ∧
      ∀ final, Retains now after final → Statement.StandAt final scope statements items

/-- Reading the text in a paragraph that is open, but empty, fills this paragraph, so that the
property holds as long as the paragraph stays. -/
def Fills (slot : ParagraphId) (count : Nat) (text more : List Char) (holds : Body → Prop)
    (now : Body) : Prop :=
  ∀ stack, ∃ after,
    Arrives count ⟨now, .ofParagraph slot .awaitOpen :: stack, text⟩ ⟨after, stack, more⟩ ∧
    Changes (· = slot) (fun _ => False) now after ∧
    ∀ final, Retains now after final → final.paragraphs[slot]? = after.paragraphs[slot]? →
      holds final

/-- Reading the body in an empty paragraph fills the paragraph with it. -/
def Suite.Reads (suite : Suite) : Prop :=
  ∀ (slot scope : ParagraphId) (more : List Char) (now : Body),
    now.HasParagraph slot .body scope none false [] → Follows suite.endsOpen more →
    Fills slot suite.steps (suite.printOn more) more (suite.StandsAt · scope slot) now

/-- Reading what follows a branch adds the further branches. -/
def Alternative.Reads (rest : Alternative) : Prop :=
  ∀ (id : ConstructId) (scope : ParagraphId) (stack : List Frame) (more : List Char) (now : Body)
    (branches : List Branch),
    now.HasConstruct id .ifThen scope none (.conditional branches) → Follows rest.endsOpen more →
    ∃ after others,
      Arrives rest.steps ⟨now, .construct ⟨id, scope, .afterBranch⟩ :: stack, rest.printOn more⟩
        ⟨after, stack, more⟩ ∧
      Inside id .ifThen scope none (.conditional (branches ++ others)) now after ∧
      ∀ final, Retains now after final → rest.StandsAt final scope others

/-- Reading what follows a guarded block adds the handlers and the cleanup. -/
def Clauses.Reads (clauses : Clauses) : Prop :=
  ∀ (id : ConstructId) (scope guarded : ParagraphId) (stack : List Frame) (more : List Char)
    (now : Body) (handlers : List Handler),
    now.HasConstruct id .tryBlock scope none (.tryBlock guarded handlers none) →
    (clauses.isDone = true → handlers ≠ []) → Follows false more →
    ∃ after others cleanup,
      Arrives clauses.steps
        ⟨now, .construct ⟨id, scope, .afterTryClause⟩ :: stack, clauses.printOn more⟩
        ⟨after, stack, more⟩ ∧
      Inside id .tryBlock scope none (.tryBlock guarded (handlers ++ others) cleanup) now after ∧
      ∀ final, Retains now after final → clauses.StandsAt final scope others cleanup

/-! ## Lists of statements -/

namespace Statement

theorem allRead_nil : AllRead [] := fun scope _ _ _ now _ _ _ =>
  ⟨now, [], Alike.refl _, .refl scope now, fun _ _ => rfl⟩

theorem follows_printAll {statements : List Statement} (well : areWellFormed statements = true)
    {more : List Char} (follows : Follows true more) : Follows true (printAll statements more) := by
  cases statements with
  | nil => exact follows
  | cons statement rest =>
      rw [areWellFormed, Bool.and_eq_true] at well
      exact (opens_printOn well.1 _).follows

theorem allRead_cons {statement : Statement} {rest : List Statement} (first : statement.Reads)
    (others : AllRead rest) (well : areWellFormed rest = true) : AllRead (statement :: rest) := by
  intro scope mode stack more now inside takes follows
  have same : taking ⟨scope, mode, none⟩ = ⟨scope, mode, none⟩ := by
    rcases takes with rfl | rfl <;> rfl
  have behind : Follows statement.endsOpen (' ' :: printAll rest more) :=
    (follows_printAll well follows).blank.mono fun _ => rfl
  obtain ⟨between, item, arrives, adds, stands⟩ :=
    first scope mode stack _ now inside (takes.imp_right .inl) behind
  obtain ⟨after, items, arrives', adds', stands'⟩ :=
    others scope mode stack more between (Nat.lt_of_lt_of_le inside adds.changes.paragraphs_le)
      takes
      follows
  rw [same] at arrives
  refine ⟨after, item :: items, ?_, adds.trans adds', fun final retains =>
    ⟨item, items, rfl, ?_, ?_⟩⟩
  · exact arrives.trans arrives'.blank
  · exact stands final (retains.upTo adds'.changes (by rintro id rfl; exact inside) fun _ =>
      False.elim)
  · exact stands' final (retains.since adds.changes)

end Statement

/-! ## Bodies -/

section

variable {slot scope : ParagraphId} {kind : ParagraphKind} {stack : List Frame} {more : List Char}
  {now : Body} {inner : List Statement}

theorem Body.HasParagraph.lt_size {label : Option (List Char)} {braced : Bool} {items : List Item}
    (has : now.HasParagraph slot kind scope label braced items) : slot < now.paragraphs.size := by
  obtain ⟨vars, known⟩ := has
  exact (Array.getElem?_eq_some_iff.1 known).1

/-- A closing bracket follows any statement. -/
theorem follows_close (more : List Char) : Follows true ('}' :: more) :=
  (Statement.opens_symbol (isWordChar_mark _ (by decide)) (by decide) more).follows

/-- Statements in brackets fill an empty paragraph. -/
theorem fills_braced (all : Statement.AllRead inner)
    (empty : now.HasParagraph slot kind scope none false []) (more : List Char) :
    Fills slot (Statement.allSteps inner + 2) (Statement.printBraced inner more) more
      (fun final => ∃ items, final.HasParagraph slot kind scope none true items ∧
        Statement.StandAt final slot inner items) now := by
  intro stack
  let opened := now.modifyParagraph slot fun paragraph => { paragraph with braced := true }
  have opens : Changes (· = slot) (fun _ => False) now opened := changes_modifyParagraph slot _ now
  have inside : slot < opened.paragraphs.size :=
    Nat.lt_of_lt_of_le empty.lt_size opens.paragraphs_le
  obtain ⟨after, items, arrives, adds, stands⟩ :=
    all slot .braced stack ('}' :: more) opened inside (.inr rfl) (follows_close more)
  refine ⟨after, ?_, opens.trans adds.changes (fun _ _ => id) fun _ _ =>
    id, fun final retains same =>
    ⟨items, ?_, ?_⟩⟩
  · have closes : step true (.paragraph ⟨slot, .braced, none⟩) (trimStart ('}' :: more)) after =
        .ok (.leave more) after := rfl
    rw [Statement.printBraced_eq]
    exact Arrives.advance step_brace (arrives.trans (Arrives.leave closes (.nil (.refl _)))).blank
  · obtain ⟨vars, known⟩ := empty
    have marked : opened.paragraphs[slot]? = some
        { kind, parent := some scope, vars, label := none, braced := true } := by
      simp only [opened, modifyParagraph, Array.getElem?_modify, if_true, known, Option.map_some]
      rfl
    refine ⟨vars, ?_⟩
    rw [same, adds.own _ marked]
    simp
  · exact stands final (retains.since opens)

theorem Suite.reads_braced (all : Statement.AllRead inner) : (Suite.braced inner).Reads := by
  intro slot scope more now empty _
  exact fills_braced all empty more

theorem Suite.reads_single {statement : Statement} (reads : statement.Reads)
    (well : statement.isWellFormed = true)
    (short : ∀ tree ∈ statement.trees, tree.isShort = true) (plain : statement.isPlain = true) :
    (Suite.single statement).Reads := by
  intro slot scope more now empty follows stack
  obtain ⟨c, rest, text, other⟩ := Statement.printOn_ne_brace well short plain more
  have solid : trimStart (c :: rest) = c :: rest := by
    rw [← text]
    exact (Statement.opens_printOn well more).solid
  obtain ⟨after, item, arrives, adds, stands⟩ :=
    reads slot (.single false) stack more now empty.lt_size (.inr (.inr ⟨rfl, plain⟩)) follows
  refine ⟨after, ?_, adds.changes, fun final retains same => ⟨item, ?_, stands final retains⟩⟩
  · have leaves : step true (.paragraph ⟨slot, .single true, none⟩) (trimStart more) after =
        .ok (.leave (trimStart more)) after := rfl
    have starts :
        step true (Frame.ofParagraph slot .awaitOpen) (trimStart (statement.printOn more)) now =
        .ok (.advance (.paragraph ⟨slot, .single false, none⟩) (statement.printOn more)) now := by
      rw [text, solid]
      exact step_unbraced other
    refine Arrives.advance starts (arrives.trans (Arrives.leave leaves (.nil ?_)))
    exact ⟨rfl, rfl, trimStart_trimStart more⟩
  · obtain ⟨vars, known⟩ := empty
    refine ⟨vars, ?_⟩
    rw [same, adds.own _ known]
    simp

end

/-- A paragraph of a construct is filled while the construct stays as it is. -/
theorem Fills.inside {id : ConstructId} {keyword : Keyword} {label : Option (List Char)}
    {detail : Detail} {count : Nat} {text : List Char} {holds : Body → Prop} {start : Body}
    (fills : Fills slot count text more holds now)
    (within : Inside id keyword scope label detail start now) (new : start.paragraphs.size ≤ slot)
    (known : slot < now.paragraphs.size) (own : id < start.constructs.size) (stack : List Frame) :
    ∃ after,
      Arrives count ⟨now, .ofParagraph slot .awaitOpen :: stack, text⟩ ⟨after, stack, more⟩ ∧
      Changes (· = slot) (fun _ => False) now after ∧
      Inside id keyword scope label detail start after ∧
      ∀ last final, Changes (fun _ => False) (· = id) after last → Retains start last final →
        holds final := by
  obtain ⟨after, arrives, changes, stands⟩ := fills stack
  refine ⟨after, arrives, changes, within.beside changes (by rintro _ rfl; exact new),
    fun last final later retains => ?_⟩
  have kept := retains.upTo later (fun _ => False.elim) (by rintro _ rfl; exact own)
  exact stands final (kept.since within.changes)
    (kept.paragraph slot new (Nat.lt_of_lt_of_le known changes.paragraphs_le))

/-- A construct is left behind its last paragraph. -/
theorem Fills.last {id : ConstructId} {keyword : Keyword} {label : Option (List Char)}
    {detail : Detail} {count : Nat} {text : List Char} {holds : Body → Prop} {start : Body}
    (fills : Fills slot count text more holds now)
    (within : Inside id keyword scope label detail start now) (new : start.paragraphs.size ≤ slot)
    (known : slot < now.paragraphs.size) (own : id < start.constructs.size) (stack : List Frame) :
    ∃ after,
      Arrives (count + 1)
        ⟨now, .ofParagraph slot .awaitOpen :: .construct ⟨id, scope, .done⟩ :: stack, text⟩
        ⟨after, stack, more⟩ ∧ Changes (· = slot) (fun _ => False) now after ∧
      Inside id keyword scope label detail start after ∧
      ∀ final, Retains start after final → holds final := by
  obtain ⟨after, arrives, changes, inside, stands⟩ := fills.inside within new known own
    (.construct ⟨id, scope, .done⟩ :: stack)
  have leaves : step true (.construct ⟨id, scope, .done⟩) (trimStart more) after =
      .ok (.leave (trimStart more)) after := rfl
  refine ⟨after, arrives.trans (.leave leaves (.nil ?_)), changes, inside, fun final retains =>
    stands after final (.refl after) retains⟩
  exact ⟨rfl, rfl, trimStart_trimStart more⟩

/-! ## Constructs -/

section

variable {scope : ParagraphId} {mode : ParagraphMode} {stack : List Frame}
  {text rest more : List Char}
  {now : Body} {label : Option (List Char)} {keyword : Keyword} {count : Nat}

/-- A label is read in a step of its own. -/
theorem labelled_arrives (fine : label.all isLabel = true)
    (takes : label = none ∨ mode = .root ∨ mode = .braced) (solid : trimStart text = text)
    (accepts : label = none ∨ acceptsLabel text = true) :
    Arrives (if label.isSome then 1 else 0)
      ⟨now, .paragraph ⟨scope, mode, none⟩ :: stack, Statement.labelled label text⟩
      ⟨now, .paragraph ⟨scope, mode, label.map String.ofList⟩ :: stack, text⟩ := by
  cases label with
  | none => exact .refl _
  | some word =>
      have trimmed : trimStart (word ++ ':' :: ' ' :: text) = word ++ ':' :: ' ' :: text := by
        have parts := fine
        simp only [Option.all_some, isLabel, Bool.and_eq_true, Bool.not_eq_true',
          List.isEmpty_eq_false_iff] at parts
        exact trimStart_word (List.all_eq_true.1 parts.1.2) parts.1.1.1
      have took : step true (.paragraph ⟨scope, mode, none⟩)
          (trimStart (word ++ ':' :: ' ' :: text)) now =
          .ok (.advance (.paragraph ⟨scope, mode, some (String.ofList word)⟩) (' ' :: text))
            now := by
        rw [trimmed]
        have named : some word ≠ none := Option.some_ne_none word
        exact step_label fine (takes.resolve_left named) solid (accepts.resolve_left named)
      exact Arrives.advance took (Arrives.nil (.refl _)).blank

/-- A construct is read as an item of its paragraph when it is read from its header on. -/
theorem construct_arrives (keyword : Keyword) (inside : scope < now.paragraphs.size)
    (fine : label.all isLabel = true)
    (takes : takesItems mode) (labels : label = none ∨ mode = .root ∨ mode = .braced)
    (accepts : label = none ∨ keyword.acceptsLabel = true)
    (ends : rest.head?.any isWordChar = false) (holds : Body → Detail → Prop)
    (reads : ∀ (id : ConstructId) (start : Body),
      start.HasConstruct id keyword scope label .unread →
      ∃ after detail,
        Arrives count
          ⟨start, .construct ⟨id, scope, .header⟩ :: .paragraph (taking ⟨scope, mode, none⟩) ::
            stack,
            rest⟩
          ⟨after, .paragraph (taking ⟨scope, mode, none⟩) :: stack, more⟩ ∧
        Inside id keyword scope label detail start after ∧
        ∀ final, Retains start after final → holds final detail) :
    ∃ after item,
      Arrives ((if label.isSome then 1 else 0) + (count + 1))
        ⟨now, .paragraph ⟨scope, mode, none⟩ :: stack,
          Statement.labelled label (keyword.text.toList ++ rest)⟩
        ⟨after, .paragraph (taking ⟨scope, mode, none⟩) :: stack, more⟩ ∧
      Adds scope [item] now after ∧
      ∀ final, Retains now after final → ∃ id detail, item = .construct id ∧
        final.HasConstruct id keyword scope label detail ∧ holds final detail := by
  let added := now.addConstruct { keyword, label := label.map String.ofList, scope }
  let start := added.addItem scope (.construct now.constructs.size)
  have adds : Adds scope [.construct now.constructs.size] now start := by
    exact ((changes_addConstruct _ now).adds inside).trans (adds_addItem scope _ added)
  have unread : start.HasConstruct now.constructs.size keyword scope label .unread := by
    simp [start, added, HasConstruct, Body.addItem, modifyParagraph, Body.addConstruct]
  obtain ⟨after, detail, arrives, within, stands⟩ := reads now.constructs.size start unread
  refine ⟨after, .construct now.constructs.size, ?_, ?_, fun final retains =>
    ⟨now.constructs.size, detail, rfl, ?_, stands final (retains.since adds.changes)⟩⟩
  · have opens := Statement.opens_keyword keyword ends
    have known : Keyword.leading? (keyword.text.toList ++ rest) = some keyword := by
      rw [Keyword.leading?, leadingWord_append_of _ rest keyword.letters ends, Keyword.ofWord?_text]
    have accepted : label = none ∨ acceptsLabel (keyword.text.toList ++ rest) = true := by
      refine accepts.imp_right fun loop => ?_
      rw [acceptsLabel, known, Option.any_some, loop, Bool.or_true]
    have took : step true (.paragraph ⟨scope, mode, label.map String.ofList⟩)
        (trimStart (keyword.text.toList ++ rest)) now =
        .ok (.enter (.paragraph (taking ⟨scope, mode, none⟩))
          (.construct ⟨now.constructs.size, scope, .header⟩) rest) start := by
      rw [opens.solid]
      exact step_keyword keyword takes ends
    exact (labelled_arrives fine labels opens.solid accepted).trans (Arrives.enter took arrives)
  · exact adds.more inside within.changes (fun _ =>
      False.elim) (by rintro id rfl; exact Nat.le_refl _)
  · rw [HasConstruct, retains.construct _ (Nat.le_refl _)
      (Array.getElem?_eq_some_iff.1 within.known).1]
    exact within.known

/-- A construct without a label is read as an item of its paragraph. -/
theorem unlabelled_arrives (keyword : Keyword) (inside : scope < now.paragraphs.size)
    (takes : takesItems mode) (ends : rest.head?.any isWordChar = false)
    (holds : Body → Detail → Prop) (reads : ∀ (id : ConstructId) (start : Body),
      start.HasConstruct id keyword scope none .unread →
      ∃ after detail,
        Arrives count
          ⟨start, .construct ⟨id, scope, .header⟩ :: .paragraph (taking ⟨scope, mode, none⟩) ::
            stack,
            rest⟩
          ⟨after, .paragraph (taking ⟨scope, mode, none⟩) :: stack, more⟩ ∧
        Inside id keyword scope none detail start after ∧
        ∀ final, Retains start after final → holds final detail) :
    ∃ after item,
      Arrives (count + 1)
        ⟨now, .paragraph ⟨scope, mode, none⟩ :: stack, keyword.text.toList ++ rest⟩
        ⟨after, .paragraph (taking ⟨scope, mode, none⟩) :: stack, more⟩ ∧
      Adds scope [item] now after ∧
      ∀ final, Retains now after final → ∃ id detail, item = .construct id ∧
        final.HasConstruct id keyword scope none detail ∧ holds final detail := by
  obtain ⟨after, item, arrives, adds, found⟩ :=
    construct_arrives keyword inside rfl takes (.inl rfl) (.inl rfl) ends holds reads
  rw [Option.isSome_none, if_neg Bool.false_ne_true, Nat.zero_add] at arrives
  exact ⟨after, item, arrives, adds, found⟩

theorem Body.HasConstruct.lt_size {id : ConstructId} {detail : Detail}
    (has : now.HasConstruct id keyword scope label detail) : id < now.constructs.size :=
  (Array.getElem?_eq_some_iff.1 has).1

/-- A construct whose header opens its only paragraph is read when the paragraph is. -/
theorem opened_arrives {id : ConstructId} {slot : ParagraphId} {start : Body} {detail : Detail}
    {kind : ParagraphKind} {holds : Body → Prop}
    (unread : start.HasConstruct id keyword scope label .unread)
    (opens : stepKeyword ⟨id, scope, .header⟩ (trimStart rest) keyword start =
      .ok (.enter (.construct ⟨id, scope, .done⟩) (.ofParagraph slot .awaitOpen) (' ' :: text)) now)
    (within : Inside id keyword scope label detail start now) (new : start.paragraphs.size ≤ slot)
    (empty : now.HasParagraph slot kind scope none false [])
    (fills : Fills slot count text more holds now) (stack : List Frame) :
    ∃ after,
      Arrives (count + 2) ⟨start, .construct ⟨id, scope, .header⟩ :: stack, rest⟩
        ⟨after, stack, more⟩ ∧ Changes (· = slot) (fun _ => False) now after ∧
      Inside id keyword scope label detail start after ∧
      ∀ final, Retains start after final → holds final := by
  obtain ⟨after, arrives, changes, inside, stands⟩ :=
    fills.last within new empty.lt_size unread.lt_size stack
  exact ⟨after, Arrives.enter ((stepConstruct_header unread).trans opens) arrives.blank,
    changes, inside,
    stands⟩

/-- A construct with a header of one clause and a single paragraph is read. -/
theorem header_arrives {tree : Tree} (well : tree.isWellFormed = true) (short : tree.isShort = true)
    {kind : ParagraphKind} {detail : Placed → ParagraphId → Detail}
    {holds : ParagraphId → Body → Prop} (isHeader : ∀ frame text, stepKeyword frame text keyword =
      stepHeader keyword kind detail frame text)
    (fills : ∀ slot now, now.HasParagraph slot kind scope none false [] →
      Fills slot count text more (holds slot) now) (stack : List Frame)
    (id : ConstructId) (start : Body) (unread : start.HasConstruct id keyword scope label .unread) :
    ∃ after found,
      Arrives (count + 2)
        ⟨start, .construct ⟨id, scope, .header⟩ :: stack,
          ' ' :: '(' :: (tree.print ++ ')' :: ' ' :: text)⟩
        ⟨after, stack, more⟩ ∧ Inside id keyword scope label found start after ∧
      ∀ final, Retains start after final → ∃ placed slot, found = detail placed slot ∧
        tree.Pictures placed.expr ∧ holds slot final := by
  obtain ⟨placed, between, reads, counted, pictures⟩ := @reads_print tree scope start well short
  let slot := between.paragraphs.size
  let now := opened between id scope kind fun _ => detail placed slot
  have unopened : Inside id keyword scope label .unread start between :=
    Inside.counted ⟨.refl start, unread⟩ counted
  have within : Inside id keyword scope label (detail placed slot) start now :=
    unopened.opened kind fun _ => detail placed slot
  have empty : now.HasParagraph slot kind scope none false [] :=
    hasParagraph_addParagraph kind scope between
  have opens : stepKeyword ⟨id, scope, .header⟩
      (trimStart (' ' :: '(' :: (tree.print ++ ')' :: ' ' :: text))) keyword start =
      .ok (.enter (.construct ⟨id, scope, .done⟩) (.ofParagraph slot .awaitOpen) (' ' :: text))
        now := by
    rw [trimStart_space, trimStart_cons (by decide), isHeader,
      stepHeader_eq (sealed_print well) reads]
  obtain ⟨after, arrives, -, inside, stands⟩ := opened_arrives unread opens within
    unopened.changes.paragraphs_le empty (fills slot now empty) stack
  exact ⟨after, _, arrives, inside, fun final retains =>
    ⟨placed, slot, rfl, pictures, stands final retains⟩⟩

end

end MethodLowering
