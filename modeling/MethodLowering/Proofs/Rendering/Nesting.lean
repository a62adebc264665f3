import MethodLowering.Proofs.Rendering.Page
import MethodLowering.Proofs.Rendering.Shown

/-!
# Nesting levels

The level at which a construct is written follows from the references that lead to it: every bracket
around it counts, and so does a switch unless the construct is one of its labels.  What holds of the
steps of bodies at their levels, and is kept when steps are taken one after another and further in,
holds of the steps of all statements.  One such property is that every level that is raised is
lowered again.
-/

namespace MethodLowering

namespace Detail

/-- Levels that the lines of a body stand further in than the construct that it belongs to.  A block
is put around a `try` with a cleanup, and without handlers there are no brackets around its
statements. -/
def depthOf (slot : ParagraphId) : Detail → Nat
  | tryBlock _ handlers cleanup =>
      (if cleanup.isSome then 1 else 0) + if cleanup = some slot ∨ handlers ≠ [] then 1 else 0
  | _ => 1

section

variable {slot guarded cleanup : ParagraphId} {handlers : List Handler}

theorem depthOf_bare :
    (tryBlock guarded handlers none).depthOf slot = if handlers = [] then 0 else 1 := by
  by_cases none : handlers = [] <;> simp [depthOf, none]

theorem depthOf_cleanup : (tryBlock guarded handlers (some cleanup)).depthOf cleanup = 1 + 1 := by
  simp [depthOf]

theorem depthOf_guarded (other : cleanup ≠ slot) :
    (tryBlock guarded handlers (some cleanup)).depthOf slot = 1 + if handlers =
      [] then 0 else 1 := by
  by_cases none : handlers = [] <;> simp [depthOf, none, other]

end
end Detail

namespace Rendering

/-- Levels that the lines of a statement stand further in than its paragraph. -/
def shift (rendering : Rendering) (paragraph : Paragraph) (item : Item) : Nat :=
  if paragraph.kind == .switchBody && !rendering.isSwitchLabel item then 1 else 0

/-- Levels that the lines of a paragraph stand further in than the statement that refers to it. -/
def depthIn (rendering : Rendering) (slot : ParagraphId) : Item → Nat
  | .construct id =>
      (rendering.body.constructs[id]?.map fun construct => construct.detail.depthOf slot).getD 0
  | _ => 1

/-- The paragraph around another one, by number, with the statement that refers to that. -/
def holder? (rendering : Rendering) (slot : ParagraphId) :
    Option (ParagraphId × Paragraph × Item) := do
  let inner ← rendering.body.paragraphs[slot]?
  let id ← inner.parent
  let paragraph ← rendering.body.paragraphs[id]?
  let item ← paragraph.items.toList.find? fun item => (rendering.body.targets item).contains slot
  return (id, paragraph, item)

/-- The level of a paragraph that is reached in at most `steps` steps from the method body. -/
def levelFrom (rendering : Rendering) : (steps : Nat) → ParagraphId → Nat
  | 0, _ => 0
  | steps + 1, slot =>
      match rendering.holder? slot with
      | some (id, paragraph, item) =>
          rendering.levelFrom steps id + rendering.shift paragraph item +
            rendering.depthIn slot item
      | none => 0

/-- The level of a paragraph. -/
def levelOf (rendering : Rendering) (id : ParagraphId) : Nat :=
  rendering.levelFrom rendering.body.paragraphs.size id

/-- The level of a construct. -/
def constructLevel (rendering : Rendering) (id : ConstructId) : Nat :=
  match rendering.body.constructs[id]? with
  | some construct =>
      rendering.levelOf construct.scope +
        ((rendering.body.paragraphs[construct.scope]?.map fun paragraph =>
          rendering.shift paragraph (.construct id)).getD 0)
  | none => 0

/-! ## Levels of paragraphs -/

section

variable {rendering : Rendering} {id slot steps more : Nat} {paragraph : Paragraph}
  {item other : Item}

/-- A paragraph refers to no other one twice. -/
theorem nodup_slots (wellFormed : rendering.body.WellFormed) (id : ParagraphId) :
    (rendering.body.slots id).Nodup := by
  refine List.nodup_iff_count_le_one.2 fun slot => ?_
  by_cases member : slot ∈ rendering.body.slots id
  · have known := Array.getElem?_eq_getElem (wellFormed.lt_of_mem_slots member)
    have inner : slot ≠ Body.root := by
      intro first
      have none := wellFormed.count_slots_root id first
      exact List.count_eq_zero.1 none member
    obtain ⟨parent, -, once⟩ := wellFormed.count_slots known inner
    rw [once]
    split <;> omega
  · rw [List.count_eq_zero.2 member]
    exact Nat.zero_le 1

theorem slots_eq (known : rendering.body.paragraphs[id]? = some paragraph) :
    rendering.body.slots id = paragraph.items.toList.flatMap rendering.body.targets := by
  rw [Body.slots, known, Option.toList_some, List.flatMap_singleton]

theorem mem_slots (known : rendering.body.paragraphs[id]? = some paragraph)
    (member : item ∈ paragraph.items) (refers : slot ∈ rendering.body.targets item) :
    slot ∈ rendering.body.slots id := by
  rw [slots_eq known]
  exact List.mem_flatMap.2 ⟨item, Array.mem_toList_iff.2 member, refers⟩

section

variable (wellFormed : rendering.body.WellFormed)
include wellFormed

theorem nodup_targets
    (known : rendering.body.paragraphs[id]? = some paragraph) (member : item ∈ paragraph.items) :
    (rendering.body.targets item).Nodup := by
  have distinct := nodup_slots wellFormed id
  rw [slots_eq known, List.nodup_flatMap] at distinct
  exact distinct.1 item (Array.mem_toList_iff.2 member)

/-- What a statement refers to is the paragraph around it, later in number, and known. -/
theorem parent_of_mem_slots (member : slot ∈ rendering.body.slots id) :
    id < slot ∧ ∃ inner, rendering.body.paragraphs[slot]? = some inner ∧
    inner.parent = some id := by
  have listed := List.count_pos_iff.2 member
  rw [Body.count_slots, List.count_pos_iff] at listed
  obtain ⟨inner, inside⟩ := wellFormed.existing _ listed
  have known := Array.getElem?_eq_getElem inside
  obtain ⟨parent, below, around, once⟩ := wellFormed.referenced slot _ known inner
  have only : (id, slot) ∈ [(parent, slot)] :=
    once ▸ List.mem_filter.2 ⟨listed, beq_self_eq_true slot⟩
  obtain ⟨rfl, -⟩ := Prod.mk.inj (List.mem_singleton.1 only)
  exact ⟨below, _, known, around⟩

theorem holder?_eq
    (known : rendering.body.paragraphs[id]? = some paragraph) (member : item ∈ paragraph.items)
    (refers : slot ∈ rendering.body.targets item) :
    rendering.holder? slot = some (id, paragraph, item) := by
  have listed : item ∈ paragraph.items.toList := Array.mem_toList_iff.2 member
  obtain ⟨-, inner, shown, around⟩ :=
    parent_of_mem_slots wellFormed (mem_slots known member refers)
  have found : paragraph.items.toList.find?
      (fun item => (rendering.body.targets item).contains slot) = some item := by
    cases searched : paragraph.items.toList.find?
        (fun item => (rendering.body.targets item).contains slot) with
    | none =>
        have absent := List.find?_eq_none.1 searched item listed
        exact absurd (List.contains_iff_mem.2 refers) absent
    | some other =>
        have distinct := nodup_slots wellFormed id
        rw [slots_eq known] at distinct
        have also : (rendering.body.targets other).contains slot = true := by
          simpa only using List.find?_some searched
        exact congrArg some (eq_of_nodup_flatMap distinct
          (List.mem_of_find?_eq_some searched) listed
          (List.contains_iff_mem.1 also) refers)
  simp only [holder?, bind, Option.bind, pure, shown, around, known, found]

/-- Only paragraphs in others are held. -/
theorem lt_of_holder? (held : rendering.holder? slot = some (id, paragraph, item)) : id < slot := by
  obtain ⟨inner, known, rest⟩ := Option.bind_eq_some_iff.1 held
  obtain ⟨parent, around, rest⟩ := Option.bind_eq_some_iff.1 rest
  obtain ⟨found, -, rest⟩ := Option.bind_eq_some_iff.1 rest
  obtain ⟨holder, -, same⟩ := Option.bind_eq_some_iff.1 rest
  obtain ⟨rfl, -⟩ := Prod.mk.inj (Option.some.inj same)
  have other : slot ≠ Body.root := by
    rintro rfl
    obtain ⟨first, shown, none⟩ := wellFormed.root
    rw [known, Option.some.injEq] at shown
    rw [shown, none] at around
    contradiction
  obtain ⟨found, below, same, -⟩ := wellFormed.referenced slot inner known other
  rw [around, Option.some.injEq] at same
  exact same ▸ below

theorem levelFrom_stable (enough : slot < steps)
    (also : slot < more) : rendering.levelFrom steps slot = rendering.levelFrom more slot := by
  induction steps generalizing slot more with
  | zero => omega
  | succ steps induction =>
      obtain ⟨more, rfl⟩ := Nat.exists_eq_add_one_of_ne_zero (Nat.ne_zero_of_lt also)
      rw [levelFrom, levelFrom]
      cases held : rendering.holder? slot with
      | none => rfl
      | some place =>
          obtain ⟨id, paragraph, item⟩ := place
          have below := lt_of_holder? wellFormed held
          dsimp only
          rw [@induction id more (by omega) (by omega)]

/-- The level of a paragraph is that of the statement that refers to it, and its depth in that. -/
theorem levelOf_slot
    (known : rendering.body.paragraphs[id]? = some paragraph) (member : item ∈ paragraph.items)
    (refers : slot ∈ rendering.body.targets item) :
    rendering.levelOf slot =
      rendering.levelOf id + rendering.shift paragraph item + rendering.depthIn slot item := by
  have held := holder?_eq wellFormed known member refers
  have below := lt_of_holder? wellFormed held
  have size := wellFormed.lt_of_mem_slots (mem_slots known member refers)
  obtain ⟨steps, same⟩ := Nat.exists_eq_add_one_of_ne_zero (Nat.ne_zero_of_lt size)
  have enough : rendering.levelFrom steps id = rendering.levelOf id :=
    levelFrom_stable wellFormed (by omega) (by omega)
  rw [levelOf, same, levelFrom, held]
  dsimp only
  rw [enough]

theorem levelOf_root : rendering.levelOf Body.root = 0 := by
  have none : rendering.holder? Body.root = none := by
    cases held : rendering.holder? Body.root with
    | none => rfl
    | some place =>
        obtain ⟨id, paragraph, item⟩ := place
        exact absurd (lt_of_holder? wellFormed held) (Nat.not_lt_zero _)
  rw [levelOf]
  cases rendering.body.paragraphs.size with
  | zero => rfl
  | succ steps => rw [levelFrom, none]

end

end
end Rendering

/-! ## Steps that are composed -/

/-- A relation between steps at a level, under a condition, that is kept when steps are taken one
after another and further in. -/
structure Page.Composes (related : Nat → List Page.Step → List Page.Step → Prop → Prop) : Prop where
  same : ∀ level {steps}, Page.Balanced steps → related level steps steps False
  append : ∀ {level first second third fourth front back}, related level first second front →
    related level third fourth back →
      related level (first ++ third) (second ++ fourth) (front ∨ back)
  nest : ∀ {level first second condition}, related (level + 1) first second condition →
    related level (Page.nested first) (Page.nested second) condition
  weaken : ∀ {level first second stronger weaker}, related level first second stronger →
    (weaker → stronger) → related level first second weaker

namespace Page

section

variable {related : Nat → List Page.Step → List Page.Step → Prop →
  Prop} {level : Nat} {first second : List Page.Step}
  {condition : Prop} (composes : Composes related)
include composes

theorem Composes.behind (holds : related level first second condition) {front : List Step}
    (balanced : Balanced front) : related level (front ++ first) (front ++ second) condition :=
  composes.weaken (composes.append (composes.same level balanced) holds) .inr

theorem Composes.before (holds : related level first second condition) {back : List Step}
    (balanced : Balanced back) : related level (first ++ back) (second ++ back) condition :=
  composes.weaken (composes.append holds (composes.same level balanced)) .inl

theorem Composes.cons (holds : related level first second condition) (text : String) :
    related level (.line text :: first) (.line text :: second) condition :=
  composes.behind holds (.line text .nil)

theorem Composes.flatMap {α : Type} {items : List α} {front back : α → List Page.Step}
    {met : α → Prop} (each : ∀ item ∈ items, related level (front item) (back item) (met item)) :
    related level (items.flatMap front) (items.flatMap back) (∃ item ∈ items, met item) := by
  induction items with
  | nil => exact composes.weaken (composes.same level .nil) fun ⟨_, member, _⟩ => nomatch member
  | cons item rest induction =>
      obtain ⟨own, others⟩ := List.forall_mem_cons.1 each
      refine composes.weaken (composes.append own (induction others))
        fun ⟨other, member, holds⟩ => ?_
      rcases List.mem_cons.1 member with rfl | later
      · exact .inl holds
      · exact .inr ⟨other, later, holds⟩

end
end Page

namespace Rendering

section

variable {related : Nat → List Page.Step → List Page.Step → Prop →
  Prop} {rendering : Rendering} {level : Nat}
  {front back : ParagraphId → List Page.Step} {met : ParagraphId → Prop} {condition : Prop}
  {first second : List Page.Step} (composes : Page.Composes related)
include composes

omit composes in
theorem balanced_closed : Page.Balanced [closed] := .line _ .nil

omit composes in
theorem balanced_branchHeader (rendering : Rendering) (isFirst : Bool) (condition : Placed) :
    Page.Balanced [rendering.branchHeader isFirst condition] := by
  unfold branchHeader
  split_ifs <;> exact .line _ .nil

omit composes in
theorem balanced_label (label : Option String) : Page.Balanced (labelLines label) := by
  cases label with
  | none => exact .nil
  | some label => exact .line _ .nil

omit composes in
theorem balanced_expression (expr : Expr) : Page.Balanced (rendering.expressionLines expr) := by
  unfold expressionLines preludeLines
  generalize rendering.directivesOf expr = directives
  induction directives with
  | nil => exact .line _ .nil
  | cons directive rest induction =>
      cases directive with
      | arrayTemporary name arrayType dimensions => exact .line _ induction
      | _ => exact induction

theorem related_block (header : String) (inner : related (level + 1) first second condition) :
    related level (blockLines header first) (blockLines header second) condition :=
  composes.before (composes.cons (composes.nest inner) _) balanced_closed

theorem related_branches {branches : List Branch} (isFirst : Bool) (each : ∀ branch ∈ branches,
      related (level + 1) (front branch.body) (back branch.body) (met branch.body)) :
    related level (rendering.branchLines front isFirst branches)
      (rendering.branchLines back isFirst branches) (∃ id ∈ branches.map (·.body), met id) := by
  induction branches generalizing isFirst with
  | nil =>
      exact composes.weaken (composes.same level balanced_closed) fun ⟨_, member, _⟩ =>
        nomatch member
  | cons branch rest induction =>
      obtain ⟨own, others⟩ := List.forall_mem_cons.1 each
      have header := composes.behind (composes.nest own)
        (balanced_branchHeader rendering isFirst branch.condition)
      refine composes.weaken (composes.append header (induction false others)) ?_
      rintro ⟨id, member, holds⟩
      rcases List.mem_cons.1 member with rfl | later
      · exact .inl holds
      · exact .inr ⟨id, later, holds⟩

theorem related_handlers {handlers : List Handler} (each : ∀ handler ∈ handlers,
      related (level + 1) (front handler.body) (back handler.body) (met handler.body)) :
    related level (rendering.handlerLines front handlers) (rendering.handlerLines back handlers)
      (∃ id ∈ handlers.map (·.body), met id) := by
  induction handlers with
  | nil =>
      exact composes.weaken (composes.same level balanced_closed) fun ⟨_, member, _⟩ =>
        nomatch member
  | cons handler rest induction =>
      obtain ⟨own, others⟩ := List.forall_mem_cons.1 each
      have header := composes.cons (composes.nest own)
        ("\x7d catch (" ++ rendering.handlerHeader handler.declaration ++ ")" ++ " \x7b")
      refine composes.weaken (composes.append header (induction others)) ?_
      rintro ⟨id, member, holds⟩
      rcases List.mem_cons.1 member with rfl | later
      · exact .inl holds
      · exact .inr ⟨id, later, holds⟩

/-- The guarded statements stand further in only when there are handlers. -/
theorem related_guarded {guarded : ParagraphId} {handlers : List Handler}
    (own : related (level + if handlers = [] then 0 else 1) (front guarded) (back guarded)
      (met guarded)) (each : ∀ handler ∈ handlers,
      related (level + if handlers = [] then 0 else 1) (front handler.body) (back handler.body)
        (met handler.body)) :
    related level (rendering.guardedLines front guarded handlers)
      (rendering.guardedLines back guarded handlers)
      (∃ id ∈ guarded :: handlers.map (·.body), met id) := by
  cases handlers with
  | nil =>
      refine composes.weaken own ?_
      rintro ⟨id, member, holds⟩
      exact List.mem_singleton.1 member ▸ holds
  | cons handler rest =>
      rw [if_neg (List.cons_ne_nil handler rest)] at own each
      refine composes.weaken (composes.append (composes.cons (composes.nest own) "try \x7b")
        (related_handlers composes each)) ?_
      rintro ⟨id, member, holds⟩
      rcases List.mem_cons.1 member with rfl | among
      · exact .inl holds
      · exact .inr ⟨id, among, holds⟩

/-- The cleanup stands two levels further in, and the guarded statements behind it one. -/
theorem related_cleanup {third fourth : List Page.Step} {other : Prop}
    (cleanup : related (level + 1 + 1) first second condition)
    (guarded : related (level + 1) third fourth other) :
    related level (rendering.cleanupLines first third) (rendering.cleanupLines second fourth)
      (condition ∨ other) := by
  have registered := composes.cons (composes.nest cleanup)
    (rendering.body.options.deferKeyword ++ " \x7b")
  have block := composes.append registered (composes.cons guarded "\x7d;")
  exact composes.before (composes.cons (composes.nest block) "\x7b") balanced_closed

/-- What holds of the lines of the bodies at their depths holds of the lines of the construct. -/
theorem related_detail {keyword : Keyword} {detail : Detail} (distinct : detail.bodies.Nodup)
    (each : ∀ id ∈ detail.bodies, related (level + detail.depthOf id) (front id)
      (back id) (met id)) :
    related level (rendering.detailLines front keyword detail)
      (rendering.detailLines back keyword detail) (∃ id ∈ detail.bodies, met id) := by
  have nothing {steps : List Page.Step} (balanced : Page.Balanced steps)
      (none : detail.bodies = []) : related level steps steps (∃ id ∈ detail.bodies, met id) := by
    refine composes.weaken (composes.same level balanced) fun ⟨id, member, _⟩ => ?_
    rw [none] at member
    contradiction
  have single {id : ParagraphId} (only : detail.bodies = [id]) :
      (∃ id ∈ detail.bodies, met id) → met id := by
    rintro ⟨other, member, holds⟩
    rw [only] at member
    exact List.mem_singleton.1 member ▸ holds
  cases detail with
  | conditional branches =>
      exact related_branches composes true fun branch member => each _ (List.mem_map_of_mem member)
  | doLoop body condition =>
      have own := composes.cons (composes.nest (each body (List.mem_singleton_self _))) "do \x7b"
      exact composes.weaken (composes.before own (.line _ .nil)) (single rfl)
  | tryBlock guarded handlers cleanup =>
      have own := each guarded (List.mem_cons_self ..)
      have others (handler : Handler) (member : handler ∈ handlers) := each handler.body
        (List.mem_cons_of_mem _ (List.mem_append_left _ (Detail.handlerBodies_mem member)))
      have inner {id : ParagraphId} (among : id ∈ Detail.handlerBodies handlers) :
          id ∈ guarded :: handlers.map (·.body) :=
        List.mem_cons_of_mem _ (Detail.mem_of_mem_handlerBodies among)
      cases cleanup with
      | none =>
          simp only [Detail.depthOf_bare] at own others
          refine composes.weaken (related_guarded composes own others) ?_
          rintro ⟨id, member, holds⟩
          rcases List.mem_cons.1 member with rfl | among
          · exact ⟨id, List.mem_cons_self .., holds⟩
          · exact ⟨id, inner (by simpa using among), holds⟩
      | some cleanup =>
          obtain ⟨first, distinct⟩ := List.nodup_cons.1 distinct
          have apart := List.disjoint_of_nodup_append distinct
          have last := each cleanup (by simp [Detail.bodies])
          rw [Detail.depthOf_cleanup] at last
          rw [Detail.depthOf_guarded (fun same => first (by simp [same])), ← Nat.add_assoc] at own
          have further (handler : Handler) (member : handler ∈ handlers) := by
            have handled := others handler member
            rw [Detail.depthOf_guarded fun same => apart (Detail.handlerBodies_mem member)
              (by simp [same]), ← Nat.add_assoc] at handled
            exact handled
          refine composes.weaken (related_cleanup composes last
            (related_guarded composes own further)) ?_
          rintro ⟨id, member, holds⟩
          rcases List.mem_cons.1 member with rfl | among
          · exact .inr ⟨id, List.mem_cons_self .., holds⟩
          · rcases List.mem_append.1 among with handled | same
            · exact .inr ⟨id, inner handled, holds⟩
            · obtain rfl := Option.some.inj (Option.mem_toList.1 same)
              exact .inl holds
  | jump value label => exact nothing (.line _ .nil) rfl
  | caseLabel value => exact nothing (.line _ .nil) rfl
  | defaultLabel => exact nothing (.line _ .nil) rfl
  | unread => exact nothing .nil rfl
  | _ =>
      exact composes.weaken (related_block composes _ (each _ (List.mem_singleton_self _)))
        (single rfl)

omit composes in
theorem itemLines_construct {id : ConstructId} {construct : Construct}
    (known : rendering.body.constructs[id]? = some construct)
    (lines : ParagraphId → List Page.Step) :
    rendering.itemLines lines (.construct id) = rendering.constructLines lines construct := by
  rw [itemLines, known]

/-- What holds of the lines of the paragraphs in a statement at their depths holds of its lines. -/
theorem related_item {item : Item} (distinct : (rendering.body.targets item).Nodup)
    (each : ∀ slot ∈ rendering.body.targets item,
      related (level + rendering.depthIn slot item) (front slot) (back slot) (met slot)) :
    related level (rendering.itemLines front item) (rendering.itemLines back item)
      (∃ slot ∈ rendering.body.targets item, met slot) := by
  cases item with
  | empty =>
      exact composes.weaken (composes.same level (.line _ .nil)) fun ⟨_, member, _⟩ =>
        nomatch member
  | expression root =>
      exact composes.weaken (composes.same level (balanced_expression root.expr))
        fun ⟨_, member, _⟩ => nomatch member
  | block id =>
      have inner := composes.nest (each id (List.mem_singleton_self id))
      refine composes.weaken (composes.before (composes.behind (composes.cons inner "\x7b")
        (balanced_label (rendering.body.paragraphs[id]?.bind (·.label)))) balanced_closed) ?_
      rintro ⟨slot, member, holds⟩
      exact List.mem_singleton.1 member ▸ holds
  | construct id =>
      cases known : rendering.body.constructs[id]? with
      | none =>
          have nothing (lines : ParagraphId → List Page.Step) :
              rendering.itemLines lines (.construct id) = [] := by
            rw [itemLines, known]
          rw [nothing, nothing]
          refine composes.weaken (composes.same level .nil) ?_
          rintro ⟨slot, member, -⟩
          simp [Body.targets, known] at member
      | some construct =>
          have only : rendering.body.targets (.construct id) = construct.detail.bodies := by
            rw [Body.targets, known, Option.toList_some, List.flatMap_singleton]
          have depth (slot : ParagraphId) :
              rendering.depthIn slot (.construct id) = construct.detail.depthOf slot := by
            rw [depthIn, known]
            rfl
          simp only [depth] at each
          rw [only] at distinct each ⊢
          rw [itemLines_construct known, itemLines_construct known]
          exact composes.behind (related_detail composes distinct each)
            (balanced_label construct.label)

/-- What holds of the lines of a statement where it stands holds of its lines in the paragraph. -/
theorem related_placed {paragraph : Paragraph} {item : Item}
    (own : related (level + rendering.shift paragraph item) first second condition) :
    related level
      (if paragraph.kind == .switchBody && !rendering.isSwitchLabel item then Page.nested
        first else first)
      (if paragraph.kind == .switchBody && !rendering.isSwitchLabel item then Page.nested second
        else second)
      condition := by
  unfold shift at own
  split
  · rename_i further
    rw [if_pos further] at own
    exact composes.nest own
  · rename_i flush
    rw [if_neg flush] at own
    exact own

end

/-! ## Enough levels -/

section

variable {rendering : Rendering} {id nesting more : Nat}

/-- The lines are the same, at whatever level. -/
theorem composes_eq : Page.Composes fun _ first second _ => first = second where
  same _ _ _ := rfl
  append front back := by rw [front, back]
  nest same := by rw [same]
  weaken same _ := same

theorem itemLines_congr {front back : ParagraphId → List Page.Step} {item : Item}
    (distinct : (rendering.body.targets item).Nodup)
    (same : ∀ slot ∈ rendering.body.targets item, front slot = back slot) :
    rendering.itemLines front item = rendering.itemLines back item :=
  @related_item _ rendering 0 front back (fun _ => False) composes_eq item distinct same

/-- Paragraphs nest at most as deep as there are later ones. -/
theorem paragraphFrom_stable (wellFormed : rendering.body.WellFormed)
    (enough : rendering.body.paragraphs.size ≤ id + nesting)
    (also : rendering.body.paragraphs.size ≤ id + more) :
    rendering.paragraphFrom nesting id = rendering.paragraphFrom more id := by
  have missing {id : Nat} (absent : rendering.body.paragraphs[id]? = none) (levels : Nat) :
      rendering.paragraphFrom levels id = [] := by
    cases levels with
    | zero => rfl
    | succ levels => rw [paragraphFrom, absent]
  induction nesting generalizing id more with
  | zero =>
      have absent : rendering.body.paragraphs[id]? = none := Array.getElem?_eq_none enough
      rw [missing absent, missing absent]
  | succ nesting induction =>
      cases known : rendering.body.paragraphs[id]? with
      | none => rw [missing known, missing known]
      | some paragraph =>
          have inside := (Array.getElem?_eq_some_iff.1 known).1
          obtain ⟨more, rfl⟩ := Nat.exists_eq_add_one_of_ne_zero (n := more) (by omega)
          have each (item : Item) (member : item ∈ paragraph.items.toList) :
              rendering.itemLines (rendering.paragraphFrom nesting) item =
                rendering.itemLines (rendering.paragraphFrom more) item := by
            have among := Array.mem_toList_iff.1 member
            refine itemLines_congr (nodup_targets wellFormed known among) fun slot refers => ?_
            obtain ⟨later, -⟩ := parent_of_mem_slots wellFormed (mem_slots known among refers)
            exact induction (by omega) (by omega)
          rw [paragraphFrom, paragraphFrom, known]
          simp only [List.flatMap_def]
          refine congrArg List.flatten (List.map_congr_left fun item member => ?_)
          rw [each item member]

/-- Every level that is raised is lowered again. -/
theorem composes_balanced : Page.Composes fun _ first _ _ => Page.Balanced first where
  same _ _ balanced := balanced
  append front back := front.append back
  nest inner := inner.nest
  weaken balanced _ := balanced

theorem balanced_item {lines : ParagraphId → List Page.Step} {item : Item}
    (distinct : (rendering.body.targets item).Nodup)
    (each : ∀ slot ∈ rendering.body.targets item, Page.Balanced (lines slot)) :
    Page.Balanced (rendering.itemLines lines item) :=
  @related_item _ rendering 0 lines lines (fun _ => False) composes_balanced item distinct each

/-- **Levels.**  The steps of a paragraph lower every level that they raise. -/
theorem balanced_paragraphFrom (wellFormed : rendering.body.WellFormed) (nesting : Nat)
    (id : ParagraphId) : Page.Balanced (rendering.paragraphFrom nesting id) := by
  induction nesting generalizing id with
  | zero => exact .nil
  | succ nesting induction =>
      rw [paragraphFrom]
      cases known : rendering.body.paragraphs[id]? with
      | none => exact .nil
      | some paragraph =>
          refine @Page.Composes.flatMap _ 0 composes_balanced _ _ _ (fun _ => []) (fun _ => False)
            fun item member => ?_
          have own := balanced_item (nodup_targets wellFormed known (Array.mem_toList_iff.1 member))
            fun slot _ => induction slot
          exact @related_placed _ rendering 0 False _ [] composes_balanced paragraph item own

/-- A paragraph is written from its statements, one after another. -/
theorem paragraphLines_eq (wellFormed : rendering.body.WellFormed) {paragraph : Paragraph}
    (known : rendering.body.paragraphs[id]? = some paragraph) :
    rendering.paragraphLines id = paragraph.items.toList.flatMap fun item =>
      if paragraph.kind == .switchBody && !rendering.isSwitchLabel item then
        Page.nested (rendering.itemLines rendering.paragraphLines item)
      else rendering.itemLines rendering.paragraphLines item := by
  have more := @paragraphFrom_stable rendering id rendering.body.paragraphs.size
    (rendering.body.paragraphs.size + 1) wellFormed (by omega) (by omega)
  rw [paragraphLines, more, paragraphFrom, known]
  rfl

end
end Rendering
end MethodLowering
