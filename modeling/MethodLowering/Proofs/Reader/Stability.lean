import MethodLowering.Proofs.Reader.Growth

/-!
# Decisions that stay right

Whatever is read later, the answers to questions about a tree that was read stay the same.  So what
the reader decides on the way, from the answers it gets then, is what the answers of the finished
body say.
-/

namespace MethodLowering

open Body Reader

/-! ## Agreement -/

namespace Body

/-- The tree is a statement or a clause of the body. -/
def HasTree (body : Body) (placed : Placed) : Prop :=
  (∃ paragraph ∈ body.paragraphs, .expression placed ∈ paragraph.items) ∨
    ∃ construct ∈ body.constructs, placed ∈ construct.detail.clauses

/-- Both bodies give the same answers about an expression. -/
structure Agree (before after : Body) (sight : Sight) (expr : Expr) : Prop where
  lookupAt : ∀ name, after.lookupAt sight name = before.lookupAt sight name
  category : after.category sight expr = before.category sight expr
  declaredType : after.declaredType sight expr = before.declaredType sight expr

section

variable {base before after body : Body} {placed : Placed} {expr : Expr}

/-- Bodies agree on the trees that the earlier one has. -/
theorem Extends.agree (extended : before.Extends after) (descends : before.Descends)
    (new : placed.IsNew base before) (inside : expr ∈ placed.expr.preorder) :
    Agree before after placed.sight expr := by
  have below : expr.DeclaresBelow before.vars.size :=
    Expr.Within.declaresBelow (new.within.inside inside)
  exact ⟨extended.lookupAt descends new.fits, extended.category descends new.fits below,
    extended.declaredType descends new.fits below⟩

theorem extends_lift (body : Body) : body.Extends body.lift := .of_same rfl rfl rfl rfl

/-! ## The body at the start -/

/-- At the start there is one paragraph without statements, and no construct. -/
theorem initial_blank (context : Context) (options : Options) :
    (Body.initial context options).constructs.size = 0 ∧
      ∃ paragraph, (Body.initial context options).paragraphs = #[paragraph] ∧
        paragraph.items = #[] := by
  have shape := Reader.shape_initial context options
  rw [Body.shape, Shape.mk.injEq] at shape
  obtain ⟨paragraphs, constructs⟩ := shape
  obtain ⟨paragraph, single, outline⟩ := List.map_eq_singleton_iff.1 paragraphs
  refine ⟨by simpa using congrArg List.length constructs, paragraph, ?_, ?_⟩
  · exact Array.toList_inj.1 single
  · exact congrArg Paragraph.items outline

/-- All trees of a body grown from the start are new. -/
theorem Grown.isNew_of_hasTree {context : Context} {options : Options}
    (grown : (Body.initial context options).Grown body) (has : body.HasTree placed) :
    placed.IsNew (Body.initial context options) body := by
  obtain ⟨noConstructs, start, single, blank⟩ := initial_blank context options
  rcases has with ⟨paragraph, member, inside⟩ | ⟨construct, member, inside⟩
  · obtain ⟨id, below, rfl⟩ := Array.mem_iff_getElem.1 member
    have known := Array.getElem?_eq_getElem below
    rcases Nat.eq_zero_or_pos id with rfl | later
    · obtain ⟨found, items, shown, -, append, new⟩ :=
        grown.paragraphs.root start (by simp [single, Body.root])
      rw [Body.root, known, Option.some.injEq] at shown
      rw [shown, append, blank, Array.empty_append] at inside
      exact new _ inside
    · exact grown.paragraphs.new id _ (by simp [single]; omega) known _ inside
  · obtain ⟨id, below, rfl⟩ := Array.mem_iff_getElem.1 member
    refine (grown.constructs.new id _ ?_ (Array.getElem?_eq_getElem below)).clauses _ inside
    rw [noConstructs]
    exact Nat.zero_le _

end
end Body

/-! ## Decisions -/

namespace Body

/-- A loop goes over the elements of a container with a variable of its own. -/
def IteratesBy (body : Body) (header : Placed) (byElement : Bool) : Prop :=
  ∃ node left right, header.expr = .operation node .colon left right ∧
    (byElement = true ↔ (∃ place declared continued, left = .declaration place declared continued) ∧
      body.category header.sight right = .ok .container)

/-- The construct hands back an object held by a smart handle. -/
def HandsBack (body : Body) (construct : Construct) : Prop :=
  ∃ value label, construct.detail = .jump value label ∧ ReturnsHandle construct.keyword value body

/-- The construct, where it is a loop over a collection, goes over elements as the body says. -/
def Iterates (body : Body) (construct : Construct) : Prop :=
  ∀ header byElement slot, construct.detail = .iterator header byElement slot →
    body.IteratesBy header byElement

/-- What was decided on the way is what the answers of the body say. -/
structure Decided (body : Body) : Prop where
  handle : body.returnsHandle = true ↔ ∃ construct ∈ body.constructs, body.HandsBack construct
  loops : ∀ construct ∈ body.constructs, body.Iterates construct

section

variable {base before after body : Body} {construct : Construct}

theorem not_handsBack (undecided : ¬ construct.detail.decides construct.keyword) :
    ¬ body.HandsBack construct := by
  rintro ⟨value, label, shown, returns, -⟩
  rw [shown] at undecided
  exact undecided returns

theorem iterates_of_undecided (undecided : ¬ construct.detail.decides construct.keyword) :
    body.Iterates construct := by
  intro header byElement slot shown
  rw [shown] at undecided
  exact absurd trivial undecided

/-- The answer of the reader about the header of a loop. -/
theorem iteratesElements_iteratesBy (header : Placed) :
    Gives (iteratesElements header) body fun byElement _ => body.IteratesBy header byElement := by
  unfold iteratesElements
  split
  · exact .throw
  · rename_i node left right shown
    refine (ask_answer _).bind ?_
    rintro category _ ⟨rfl, answered⟩
    refine .pure ⟨node, left, right, shown, ?_⟩
    rw [beq_iff_eq]
    split at answered
    · rename_i place declared continued
      rw [answered, Except.ok.injEq]
      exact ⟨fun same => ⟨⟨place, declared, continued, rfl⟩, same⟩, fun both => both.2⟩
    · rename_i other
      rw [← Except.ok.inj answered]
      refine iff_of_false (by simp) ?_
      rintro ⟨⟨place, declared, continued, same⟩, -⟩
      exact other place declared continued same
  · exact .throw

/-! ### In later bodies -/

section

variable (extended : before.Extends after) (descends : before.Descends)
include extended descends

/-- A value that is handed back by one body is handed back by the other. -/
theorem Extends.returnsHandle_iff
    {keyword : Keyword} {value : Placed} (new : value.IsNew base before) :
    ReturnsHandle keyword value after ↔ ReturnsHandle keyword value before := by
  refine and_congr_right fun _ => and_congr_right fun identifier => ?_
  have present : value.expr ∈ value.expr.preorder := by
    refine Expr.mem_preorder.2 (.inl ⟨?_, rfl⟩)
    cases shown : value.expr with
    | absent => simp [shown, Expr.isIdentifier] at identifier
    | _ => rfl
  rw [(extended.agree descends new present).category]

theorem Extends.handsBack_iff (new : construct.detail.IsNew base before) :
    after.HandsBack construct ↔ before.HandsBack construct := by
  refine exists_congr fun value => exists_congr fun label => and_congr_right fun shown => ?_
  exact extended.returnsHandle_iff descends (new.clauses value (by simp [shown, Detail.clauses]))

theorem Extends.iteratesBy {header : Placed} {byElement : Bool} (new : header.IsNew base before)
    (iterates : before.IteratesBy header byElement) : after.IteratesBy header byElement := by
  obtain ⟨node, left, right, shown, same⟩ := iterates
  refine ⟨node, left, right, shown, ?_⟩
  by_cases present : right.isPresent = true
  · have inside : right ∈ header.expr.preorder := by
      have own := Expr.mem_preorder.2 (.inl ⟨present, rfl⟩)
      rw [shown]
      refine Expr.mem_preorder.2 (.inr ⟨right, ?_, own⟩)
      simp [Expr.children, present]
    rw [(extended.agree descends new inside).category]
    exact same
  · obtain rfl : right = .absent := by
      cases right <;> simp_all [Expr.isPresent, Expr.isAbsent]
    exact same

theorem Extends.iterates
    (new : construct.detail.IsNew base before) (iterates : before.Iterates construct) :
    after.Iterates construct := by
  intro header byElement slot shown
  refine extended.iteratesBy descends (new.clauses header ?_) (iterates header byElement slot shown)
  simp [shown, Detail.clauses]

end

/-- The decisions are the same in a body with the same constructs. -/
theorem Decided.keep (decided : before.Decided) (extended : before.Extends after)
    (descends : before.Descends)
    (new : ∀ construct ∈ before.constructs, construct.detail.IsNew base before)
    (constructs : after.constructs = before.constructs)
    (handle : after.returnsHandle = before.returnsHandle) : after.Decided := by
  refine ⟨?_, fun construct member => ?_⟩
  · rw [handle, constructs, decided.handle]
    refine exists_congr fun construct => and_congr_right fun member => ?_
    exact (extended.handsBack_iff descends (new construct member)).symm
  · rw [constructs] at member
    exact extended.iterates descends (new construct member) (decided.loops construct member)

theorem exists_mem_modify {α : Type} {entries : Array α} {id : Nat} {entry : α} {change : α → α}
    {property : α → Prop} (known : entries[id]? = some entry) (lacks : ¬ property entry) :
    (∃ found ∈ entries.modify id change, property found) ↔
      (∃ found ∈ entries, property found) ∨ property (change entry) := by
  simp only [Array.mem_iff_getElem?]
  constructor
  · rintro ⟨found, ⟨position, shown⟩, has⟩
    rw [Array.getElem?_modify] at shown
    split at shown
    · rename_i same
      rw [← same, known] at shown
      obtain rfl := Option.some.inj shown
      exact .inr has
    · exact .inl ⟨found, ⟨position, shown⟩, has⟩
  · rintro (⟨found, ⟨position, shown⟩, has⟩ | has)
    · refine ⟨found, ⟨position, ?_⟩, has⟩
      rw [Array.getElem?_modify, if_neg ?_, shown]
      rintro rfl
      rw [known, Option.some.injEq] at shown
      exact lacks (shown ▸ has)
    · refine ⟨change entry, ⟨id, ?_⟩, has⟩
      rw [Array.getElem?_modify, if_pos rfl, known, Option.map_some]

theorem forall_mem_modify {α : Type} {entries : Array α} {id : Nat} {entry : α}
    (change : α → α) (property : α → Prop) (known : entries[id]? = some entry)
    (all : ∀ found ∈ entries, property found) (own : property (change entry)) :
    ∀ found ∈ entries.modify id change, property found := by
  intro found member
  obtain ⟨position, shown⟩ := Array.mem_iff_getElem?.1 member
  rw [Array.getElem?_modify] at shown
  split at shown
  · rename_i same
    rw [← same, known] at shown
    obtain rfl := Option.some.inj shown
    exact own
  · exact all found (Array.mem_of_getElem? shown)

/-- A construct that was not decided is changed, and what is decided with it is right. -/
theorem Decided.modify (decided : before.Decided) (extended : before.Extends after)
    (descends : before.Descends)
    (new : ∀ construct ∈ before.constructs, construct.detail.IsNew base before) {id : ConstructId}
    (change : Detail → Detail) (handle : Bool) (known : before.constructs[id]? = some construct)
    (undecided : ¬ construct.detail.decides construct.keyword)
    (constructs : after.constructs = (before.modifyDetail id change).constructs)
    (returns : after.returnsHandle = (before.returnsHandle || handle)) (handles : handle = true ↔
      after.HandsBack { construct with detail := change construct.detail })
    (iterates : after.Iterates { construct with detail := change construct.detail }) :
    after.Decided := by
  replace constructs : after.constructs = before.constructs.modify id fun construct =>
    { construct with detail := change construct.detail } := constructs
  refine ⟨?_, ?_⟩
  · rw [returns, Bool.or_eq_true, constructs, exists_mem_modify known (not_handsBack undecided),
      handles, decided.handle]
    refine or_congr (exists_congr fun found => and_congr_right fun member => ?_) .rfl
    exact (extended.handsBack_iff descends (new found member)).symm
  · rw [constructs]
    refine forall_mem_modify _ after.Iterates known (fun found member => ?_) ?_
    · exact extended.iterates descends (new found member) (decided.loops found member)
    · exact iterates

end
end Body

section

variable {base before after : Body}

/-- Every elementary change keeps decisions right. -/
theorem Edit.decided (edit : Edit base before after) (descends : before.Descends)
    (new : ∀ construct ∈ before.constructs, construct.detail.IsNew base before)
    (decided : before.Decided) : after.Decided := by
  have extended := edit.extends
  cases edit with
  | read reads own inside =>
      have same := reads.declares.sizes.2
      obtain ⟨added, nextNode, effort, rfl, -, -⟩ := reads.declares
      exact decided.keep extended descends new same rfl
  | note fresh notes =>
      obtain ⟨added, rfl, -⟩ := notes
      exact decided.keep extended descends new rfl rfl
  | paragraph noItems noVars parent own inside => exact decided.keep extended descends new rfl rfl
  | item own fresh => exact decided.keep extended descends new rfl rfl
  | brace later => exact decided.keep extended descends new rfl rfl
  | construct unread own =>
      rename_i construct
      have undecided : ¬ construct.detail.decides construct.keyword := by
        simp [unread, Detail.decides]
      refine ⟨?_, fun found member => ?_⟩
      · refine decided.handle.trans ⟨?_, ?_⟩
        · rintro ⟨found, member, hands⟩
          exact ⟨found, Array.mem_push_of_mem _ member,
            (extended.handsBack_iff descends (new found member)).2 hands⟩
        · rintro ⟨found, member, hands⟩
          rcases Array.mem_push.1 member with old | rfl
          · exact ⟨found, old, (extended.handsBack_iff descends (new found old)).1 hands⟩
          · exact absurd hands (not_handsBack undecided)
      · rcases Array.mem_push.1 member with old | rfl
        · exact extended.iterates descends (new found old) (decided.loops found old)
        · exact iterates_of_undecided undecided
  | detail later known fresh undecided still =>
      refine decided.modify extended descends new _ false known undecided rfl
        (Bool.or_false _).symm ?_ ?_
      · exact iff_of_false (by simp) (not_handsBack still)
      · exact iterates_of_undecided still
  | iterator later known fresh undecided iterates =>
      rename_i id construct header byElement slot
      refine decided.modify extended descends new _ false known undecided rfl
        (Bool.or_false _).symm ?_ ?_
      · refine iff_of_false (by simp) ?_
        rintro ⟨value, label, shown, -⟩
        contradiction
      · rintro other otherElement otherSlot same
        obtain ⟨rfl, rfl, -⟩ := Detail.iterator.inj same
        refine extended.iteratesBy descends (fresh.clauses header (by simp [Detail.clauses])) ?_
        exact iteratesElements_iteratesBy header byElement before iterates
  | value later known fresh undecided handles =>
      rename_i id construct value handle
      refine decided.modify extended descends new (fun _ => .jump value none) handle known undecided
        rfl rfl ?_ ?_
      · rw [handles, ← extended.returnsHandle_iff descends fresh]
        constructor
        · exact fun returns => ⟨value, none, rfl, returns⟩
        · rintro ⟨other, label, same, returns⟩
          obtain ⟨rfl, -⟩ := Detail.jump.inj same
          exact returns
      · rintro header byElement slot same
        contradiction

/-! ## Whole runs -/

variable {context : Context} {options : Options} {reader later : Reader} {placed : Placed}
  {expr : Expr}

theorem Body.decided_initial (context : Context) (options : Options) :
    (Body.initial context options).Decided := by
  have blank := (Body.initial_blank context options).1
  have nothing : (Body.initial context options).constructs = #[] :=
    Array.eq_empty_of_size_eq_zero blank
  have handle : (Body.initial context options).returnsHandle = false := by
    obtain ⟨added, nextNode, effort, same, -, -⟩ := declares_initial context options
    rw [same]
    rfl
  exact ⟨by simp [nothing, handle], by simp [nothing]⟩

/-- The header of every construct that is read since the start is new. -/
theorem Body.Grown.isNew_detail {body : Body} {construct : Construct}
    (grown : (Body.initial context options).Grown body) (member : construct ∈ body.constructs) :
    construct.detail.IsNew (Body.initial context options) body := by
  obtain ⟨id, known⟩ := Array.mem_iff_getElem?.1 member
  refine grown.constructs.new id construct ?_ known
  rw [(Body.initial_blank context options).1]
  exact Nat.zero_le _

/-- What was decided since the start is right. -/
theorem Edits.decided {body : Body}
    (edits : Edits (Body.initial context options) (Body.initial context options) body)
    (descends : (Body.initial context options).Descends) : body.Decided ∧ body.Descends := by
  induction edits with
  | refl => exact ⟨Body.decided_initial context options, descends⟩
  | tail earlier edit induction =>
      have grown := Edits.grown earlier
      exact ⟨edit.decided induction.2 (fun _ => grown.isNew_detail) induction.1,
        edit.descends induction.2⟩

/-- Later readers give the same answers about the trees of a reader. -/
theorem Reader.Reaches.agree (reached : Reaches (Reader.initial context options) reader)
    (reaches : Reaches reader later) (has : reader.body.HasTree placed)
    (inside : expr ∈ placed.expr.preorder) :
    Agree reader.body later.body placed.sight expr := by
  have since := reached.since (since_initial context options)
  have new := (Edits.grown since.edits).isNew_of_hasTree has
  exact (reaches.edits since).extends.agree since.sound.tree.descends new inside

/-- **Stability.**  The answers about a tree that was read are the same in every later reader and in
the finished body.  So a `return` hands back a smart handle exactly when a value of the finished
body says so, and a loop goes over elements exactly when its header in the finished body says so. -/
theorem Reader.answers_stable (context : Context) (options : Options) :
    (∀ reader later, Reaches (Reader.initial context options) reader → Reaches reader later →
      ∀ placed, reader.body.HasTree placed → ∀ expr ∈ placed.expr.preorder,
        Agree reader.body later.body placed.sight expr ∧ ∀ body last, finish later = .ok body last →
            Agree reader.body body placed.sight expr) ∧
    ∀ lines body, Body.ofLines context options lines = .ok body →
      (body.returnsHandle = true ↔ ∃ construct ∈ body.constructs, ∃ value label,
        construct.keyword = .returns ∧ construct.detail = .jump value label ∧
          value.expr.isIdentifier = true ∧ body.category value.sight value.expr = .ok .ownedValue) ∧
      ∀ construct ∈ body.constructs, ∀ header byElement slot,
        construct.detail = .iterator header byElement slot →
          ∃ node left right, header.expr = .operation node .colon left right ∧ (byElement = true ↔
              (∃ place declared continued, left = .declaration place declared continued) ∧
                body.category header.sight right = .ok .container) := by
  refine ⟨fun reader later reached reaches placed has expr inside => ⟨?_, ?_⟩, ?_⟩
  · exact reached.agree reaches has inside
  · intro body last finished
    obtain ⟨further, -, rfl⟩ := finish_reaches finished
    have since := reached.since (since_initial context options)
    have all : Reaches reader last := reaches.trans further
    have extended := (all.edits since).extends.trans (extends_lift last.body)
    exact extended.agree since.sound.tree.descends ((Edits.grown since.edits).isNew_of_hasTree has)
      inside
  · intro lines body read
    obtain ⟨last, reaches, -, rfl⟩ := Body.ofLines_reaches read
    have since := reaches.since (since_initial context options)
    have start := (sound_initial context options).tree.descends
    have decided : last.body.lift.Decided :=
      (Edits.decided since.edits start).1.keep (extends_lift last.body) since.sound.tree.descends
        (fun _ => (Edits.grown since.edits).isNew_detail) rfl rfl
    refine ⟨decided.handle.trans ?_, decided.loops⟩
    refine exists_congr fun construct => and_congr_right fun member => ?_
    refine exists_congr fun value => exists_congr fun label => ?_
    exact and_left_comm

/-- The first statement of the body, where it is an expression. -/
def Body.leadingTree? (body : Body) : Option Placed :=
  body.paragraphs[0]?.bind fun paragraph => paragraph.items[0]?.bind fun item =>
    match item with
    | .expression placed => if placed.expr.isPresent then some placed else none
    | _ => none

theorem Body.hasTree_of_leadingTree? {body : Body} (leads : body.leadingTree? = some placed) :
    body.HasTree placed ∧ placed.expr ∈ placed.expr.preorder := by
  obtain ⟨paragraph, known, inner⟩ := Option.bind_eq_some_iff.1 leads
  obtain ⟨item, first, shown⟩ := Option.bind_eq_some_iff.1 inner
  split at shown
  · split at shown
    · rename_i present
      obtain rfl := Option.some.inj shown
      exact ⟨.inl ⟨paragraph, Array.mem_of_getElem? known, Array.mem_of_getElem? first⟩,
        Expr.mem_preorder.2 (.inl ⟨present, rfl⟩)⟩
    · contradiction
  · contradiction

/-- The computation succeeds and its result passes the test. -/
def succeedsWith {σ α : Type} (computation : EStateM Failure σ α) (state : σ)
    (test : α → σ → Bool) : Bool :=
  match computation state with
  | .ok result after => test result after
  | .error _ _ => false

theorem exists_of_succeedsWith {σ α : Type} {computation : EStateM Failure σ α} {state : σ}
    {test : α → σ → Bool} (succeeds : succeedsWith computation state test = true) :
    ∃ result after, computation state = .ok result after ∧ test result after = true := by
  rw [succeedsWith] at succeeds
  split at succeeds
  · rename_i result after ran
    exact ⟨result, after, ran, succeeds⟩
  · contradiction

/-- A variable of the same name hides the first one later on. -/
theorem Reader.answers_stable_hidden :
    (∃ reader later body last placed, Reaches (Reader.initial {} {}) reader ∧
      Reaches reader later ∧ reader.body.HasTree placed ∧ placed.expr ∈ placed.expr.preorder ∧
      finish later = .ok body last ∧ Agree reader.body body placed.sight placed.expr) ∧
    ∃ body, Body.ofLines {} {} ["List<Foo> all = f();", "for (Foo x : all) g(x);",
        "Foo y = h(); return y;"] = .ok body ∧ body.returnsHandle = true ∧
      ∃ construct ∈ body.constructs, ∃ value label,
        construct.keyword = .returns ∧ construct.detail = .jump value label ∧
          value.expr.isIdentifier = true ∧
          body.category value.sight value.expr = .ok .ownedValue := by
  constructor
  · have checked : succeedsWith (feedAll ["y = x + 1;"]) (Reader.initial {} {}) (fun _ reader =>
        succeedsWith (feedAll ["String x = y; return x;"]) reader fun _ later =>
          succeedsWith finish later fun _ _ => reader.body.leadingTree?.isSome) = true := by
      decide +kernel
    obtain ⟨_, reader, first, checked⟩ := exists_of_succeedsWith checked
    obtain ⟨_, later, second, checked⟩ := exists_of_succeedsWith checked
    obtain ⟨body, last, finished, checked⟩ := exists_of_succeedsWith checked
    obtain ⟨placed, leads⟩ := Option.isSome_iff_exists.1 checked
    obtain ⟨has, inside⟩ := Body.hasTree_of_leadingTree? leads
    have reached := feedAll_reaches first
    have reaches := feedAll_reaches second
    refine ⟨reader, later, body, last, placed, reached, reaches, has, inside, finished, ?_⟩
    exact ((Reader.answers_stable {} {}).1 reader later reached reaches placed has _ inside).2 body
      last finished
  · have reads : ((Body.ofLines {} {} ["List<Foo> all = f();", "for (Foo x : all) g(x);",
        "Foo y = h(); return y;"]).toOption.map fun body => body.returnsHandle) = some true := by
      decide +kernel
    revert reads
    cases read : Body.ofLines {} {} ["List<Foo> all = f();", "for (Foo x : all) g(x);",
        "Foo y = h(); return y;"] with
    | error failure => exact nofun
    | ok body =>
        intro handle
        refine ⟨body, rfl, Option.some.inj handle, ?_⟩
        exact ((Reader.answers_stable {} {}).2 _ body read).1.1 (Option.some.inj handle)

end
end MethodLowering
