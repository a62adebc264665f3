import MethodLowering.Proofs.Roundtrip.Steps

/-!
# What reading a statement adds to a body

A statement adds one item to its paragraph, and paragraphs, constructs and variables behind those
that are there.  What is added once stays, whatever is read behind it.
-/

namespace MethodLowering
namespace Body

/-- The second body is the first one with more in it; of what the first one has, only paragraphs and
constructs among the given ones may differ. -/
structure Changes (paragraphs : ParagraphId → Prop) (constructs : ConstructId → Prop)
    (before after : Body) : Prop where
  paragraph : ∀ id < before.paragraphs.size, ¬ paragraphs id →
    after.paragraphs[id]? = before.paragraphs[id]?
  construct : ∀ id < before.constructs.size, ¬ constructs id →
    after.constructs[id]? = before.constructs[id]?
  entry : ∀ id < before.vars.size, after.vars[id]? = before.vars[id]?
  paragraphs_le : before.paragraphs.size ≤ after.paragraphs.size
  constructs_le : before.constructs.size ≤ after.constructs.size
  vars_le : before.vars.size ≤ after.vars.size
  options : after.options = before.options

/-- What the second body has beyond the first, the last one has too. -/
structure Retains (start now final : Body) : Prop where
  paragraph : ∀ id, start.paragraphs.size ≤ id → id < now.paragraphs.size →
    final.paragraphs[id]? = now.paragraphs[id]?
  construct : ∀ id, start.constructs.size ≤ id → id < now.constructs.size →
    final.constructs[id]? = now.constructs[id]?
  entry : ∀ id, start.vars.size ≤ id → id < now.vars.size → final.vars[id]? = now.vars[id]?
  options : final.options = now.options

section

variable {paragraphs : ParagraphId → Prop} {constructs : ConstructId → Prop}
  {before between after start middle now final : Body} {scope : ParagraphId}

theorem Changes.refl (body : Body) : Changes paragraphs constructs body body :=
  ⟨fun _ _ _ => rfl, fun _ _ _ => rfl, fun _ _ => rfl, Nat.le_refl _, Nat.le_refl _,
    Nat.le_refl _, rfl⟩

/-- The second change may touch more, as long as it is new. -/
theorem Changes.trans {paragraphs' : ParagraphId → Prop} {constructs' : ConstructId → Prop}
    (first : Changes paragraphs constructs before between)
    (second : Changes paragraphs' constructs' between after)
    (inParagraphs : ∀ id < before.paragraphs.size, paragraphs' id → paragraphs id)
    (inConstructs : ∀ id < before.constructs.size, constructs' id → constructs id) :
    Changes paragraphs constructs before after := by
  refine ⟨fun id inside other => ?_, fun id inside other => ?_, fun id inside => ?_,
    Nat.le_trans first.paragraphs_le second.paragraphs_le,
    Nat.le_trans first.constructs_le second.constructs_le,
    Nat.le_trans first.vars_le second.vars_le, second.options.trans first.options⟩
  · rw [second.paragraph id (Nat.lt_of_lt_of_le inside first.paragraphs_le)
      fun touched => other (inParagraphs id inside touched), first.paragraph id inside other]
  · rw [second.construct id (Nat.lt_of_lt_of_le inside first.constructs_le)
      fun touched => other (inConstructs id inside touched), first.construct id inside other]
  · rw [second.entry id (Nat.lt_of_lt_of_le inside first.vars_le), first.entry id inside]

/-- The change is also one that may touch more of what the first body has. -/
theorem Changes.mono {paragraphs' : ParagraphId → Prop} {constructs' : ConstructId → Prop}
    (changes : Changes paragraphs constructs before after)
    (inParagraphs : ∀ id < before.paragraphs.size, paragraphs id → paragraphs' id)
    (inConstructs : ∀ id < before.constructs.size, constructs id → constructs' id) :
    Changes paragraphs' constructs' before after :=
  (Changes.refl before).trans changes inParagraphs inConstructs

theorem IsCounted.changes (counted : before.IsCounted after) :
    Changes paragraphs constructs before after := by
  obtain ⟨nextNode, effort, rfl⟩ := counted
  exact ⟨fun _ _ _ => rfl, fun _ _ _ => rfl, fun _ _ => rfl, Nat.le_refl _, Nat.le_refl _,
    Nat.le_refl _,
    rfl⟩

theorem Changes.returnsHandle (changes : Changes paragraphs constructs before after)
    (handle : Bool) :
    Changes paragraphs constructs before { after with returnsHandle := handle } :=
  ⟨changes.paragraph, changes.construct, changes.entry, changes.paragraphs_le,
    changes.constructs_le,
    changes.vars_le, changes.options⟩

/-- What is retained since the start is retained since a later point. -/
theorem Retains.since (retains : Retains start now final)
    (first : Changes paragraphs constructs start before) : Retains before now final :=
  ⟨fun id low high => retains.paragraph id (Nat.le_trans first.paragraphs_le low) high,
    fun id low high => retains.construct id (Nat.le_trans first.constructs_le low) high,
    fun id low high => retains.entry id (Nat.le_trans first.vars_le low) high, retains.options⟩

/-- What is retained at the end was retained before, if only what the start has changed
meanwhile. -/
theorem Retains.upTo (retains : Retains start now final)
    (later : Changes paragraphs constructs middle now)
    (ownParagraphs : ∀ id, paragraphs id → id < start.paragraphs.size)
    (ownConstructs : ∀ id, constructs id → id < start.constructs.size) :
    Retains start middle final := by
  refine ⟨fun id low high => ?_, fun id low high => ?_, fun id low high => ?_,
    retains.options.trans later.options⟩
  · rw [retains.paragraph id low (Nat.lt_of_lt_of_le high later.paragraphs_le),
      later.paragraph id high fun own => absurd (ownParagraphs id own) (Nat.not_lt.2 low)]
  · rw [retains.construct id low (Nat.lt_of_lt_of_le high later.constructs_le),
      later.construct id high fun own => absurd (ownConstructs id own) (Nat.not_lt.2 low)]
  · rw [retains.entry id low (Nat.lt_of_lt_of_le high later.vars_le), later.entry id high]

/-! ## Items -/

/-- The paragraph has these items more, and nothing else of the first body differs. -/
structure Adds (scope : ParagraphId) (items : List Item) (before after : Body) : Prop where
  changes : Changes (· = scope) (fun _ => False) before after
  own : ∀ paragraph, before.paragraphs[scope]? = some paragraph →
    after.paragraphs[scope]? = some { paragraph with items := paragraph.items ++ items.toArray }

theorem Adds.refl (scope : ParagraphId) (body : Body) : Adds scope [] body body :=
  ⟨.refl body, fun paragraph known => by simpa using known⟩

theorem Adds.trans {first second : List Item} (left : Adds scope first before between)
    (right : Adds scope second between after) : Adds scope (first ++ second) before after := by
  refine ⟨left.changes.trans right.changes (fun _ _ => id) fun _ _ => id, fun paragraph known => ?_⟩
  rw [right.own _ (left.own paragraph known)]
  simp [Array.append_assoc]

theorem adds_addItem (scope : ParagraphId) (item : Item) (body : Body) :
    Adds scope [item] body (body.addItem scope item) := by
  refine ⟨⟨fun id _ other => ?_, fun _ _ _ => rfl, fun _ _ => rfl, ?_, Nat.le_refl _, Nat.le_refl _,
    rfl⟩, fun paragraph known => ?_⟩
  · rw [addItem, modifyParagraph, Array.getElem?_modify, if_neg (Ne.symm other)]
  · simp [addItem, modifyParagraph]
  · rw [addItem, modifyParagraph, Array.getElem?_modify, if_pos rfl, known, Option.map_some]
    simp

/-- Nothing is added to a paragraph that does not differ. -/
theorem Changes.adds (changes : Changes (fun _ => False) (fun _ => False) before after)
    (inside : scope < before.paragraphs.size) : Adds scope [] before after := by
  refine ⟨changes.mono (fun _ _ => False.elim) fun _ _ => id, fun paragraph known => ?_⟩
  rw [changes.paragraph scope inside id, known]
  simp

/-- What is new does not count as a change of the paragraph. -/
theorem Adds.more {items : List Item} {paragraphs' : ParagraphId → Prop}
    {constructs' : ConstructId → Prop} (adds : Adds scope items before between)
    (inside : scope < before.paragraphs.size)
    (later : Changes paragraphs' constructs' between after)
    (newParagraphs : ∀ id, paragraphs' id → before.paragraphs.size ≤ id)
    (newConstructs : ∀ id, constructs' id → before.constructs.size ≤ id) :
    Adds scope items before after := by
  refine ⟨adds.changes.trans later
    (fun id low touched => absurd (newParagraphs id touched) (Nat.not_le.2 low))
    fun id low touched => absurd (newConstructs id touched) (Nat.not_le.2 low),
      fun paragraph known => ?_⟩
  rw [later.paragraph scope (Nat.lt_of_lt_of_le inside adds.changes.paragraphs_le)
    fun touched => absurd (newParagraphs scope touched) (Nat.not_le.2 inside),
      adds.own paragraph known]

theorem changes_modifyParagraph (own : ParagraphId) (change : Paragraph → Paragraph) (body : Body) :
    Changes (· = own) (fun _ => False) body (body.modifyParagraph own change) := by
  refine ⟨fun id _ other => ?_, fun _ _ _ => rfl, fun _ _ =>
    rfl, ?_, Nat.le_refl _, Nat.le_refl _, rfl⟩
  · rw [modifyParagraph, Array.getElem?_modify, if_neg (Ne.symm other)]
  · simp [modifyParagraph]

/-! ## New paragraphs and constructs -/

theorem changes_addParagraph (paragraph : Paragraph) (body : Body) :
    Changes (fun _ => False) (fun _ => False) body (body.addParagraph paragraph) := by
  refine ⟨fun id inside _ => ?_, fun _ _ _ => rfl, fun _ _ =>
    rfl, ?_, Nat.le_refl _, Nat.le_refl _, rfl⟩
  · rw [addParagraph, Array.getElem?_push, if_neg (Nat.ne_of_lt inside)]
  · simp [addParagraph]

theorem changes_addConstruct (construct : Construct) (body : Body) :
    Changes (fun _ => False) (fun _ => False) body (body.addConstruct construct) := by
  refine ⟨fun _ _ _ => rfl, fun id inside _ => ?_, fun _ _ =>
    rfl, Nat.le_refl _, ?_, Nat.le_refl _, rfl⟩
  · rw [addConstruct, Array.getElem?_push, if_neg (Nat.ne_of_lt inside)]
  · simp [addConstruct]

theorem changes_modifyDetail (own : ConstructId) (change : Detail → Detail) (body : Body) :
    Changes (fun _ => False) (· = own) body (body.modifyDetail own change) := by
  refine ⟨fun _ _ _ => rfl, fun id inside other => ?_, fun _ _ =>
    rfl, Nat.le_refl _, ?_, Nat.le_refl _,
    rfl⟩
  · rw [modifyDetail, Array.getElem?_modify, if_neg (Ne.symm other)]
  · simp [modifyDetail]

/-- Reading a construct: since it was opened, only the construct itself has changed of what was
there, and this is its state. -/
structure Inside (id : ConstructId) (keyword : Keyword) (scope : ParagraphId)
    (label : Option (List Char)) (detail : Detail) (start now : Body) : Prop where
  changes : Changes (fun _ => False) (· = id) start now
  known : now.HasConstruct id keyword scope label detail

section

variable {id : ConstructId} {keyword : Keyword} {label : Option (List Char)} {detail : Detail}

theorem Inside.counted (within : Inside id keyword scope label detail start now)
    (counted : now.IsCounted after) : Inside id keyword scope label detail start after := by
  obtain ⟨nextNode, effort, rfl⟩ := counted
  exact ⟨within.changes.trans (IsCounted.changes ⟨nextNode, effort, rfl⟩) (fun _ _ => False.elim)
    fun _ _ => False.elim, within.known⟩

/-- Changes of paragraphs that are new leave the construct alone. -/
theorem Inside.beside {paragraphs' : ParagraphId → Prop}
    (within : Inside id keyword scope label detail start now)
    (later : Changes paragraphs' (fun _ => False) now after)
    (newParagraphs : ∀ id, paragraphs' id → start.paragraphs.size ≤ id) :
    Inside id keyword scope label detail start after := by
  refine ⟨within.changes.trans later
    (fun id low touched => absurd (newParagraphs id touched) (Nat.not_le.2 low)) fun _ _ =>
      False.elim,
    ?_⟩
  have inside := (Array.getElem?_eq_some_iff.1 within.known).1
  rw [HasConstruct, later.construct id inside False.elim]
  exact within.known

theorem Inside.trans {detail' : Detail} (first : Inside id keyword scope label detail start between)
    (second : Inside id keyword scope label detail' between now) :
    Inside id keyword scope label detail' start now :=
  ⟨first.changes.trans second.changes (fun _ _ => False.elim) fun _ _ own => own, second.known⟩

theorem Inside.modify (within : Inside id keyword scope label detail start now)
    (change : Detail → Detail) :
    Inside id keyword scope label (change detail) start (now.modifyDetail id change) := by
  refine ⟨within.changes.trans (changes_modifyDetail id change now) (fun _ _ => False.elim)
    fun _ _ touched => touched, ?_⟩
  rw [HasConstruct, modifyDetail, Array.getElem?_modify, if_pos rfl, within.known]
  rfl

/-- The paragraph of a body that is opened is empty. -/
theorem hasParagraph_addParagraph (kind : ParagraphKind) (scope : ParagraphId) (body : Body) :
    (body.addParagraph { kind, parent := some scope }).HasParagraph body.paragraphs.size
      kind scope none
      false [] :=
  ⟨#[], by simp [addParagraph]⟩

theorem Inside.opened (within : Inside id keyword scope label detail start now)
    (kind : ParagraphKind) (change : Detail → Detail) :
    Inside id keyword scope label (change detail) start (Reader.opened now id scope kind change) :=
  (within.beside (changes_addParagraph _ now) fun _ => False.elim).modify change

end

/-! ## Paragraphs with a variable -/

/-- A new paragraph that declares a variable of this type and name. -/
def openedWith (body : Body) (scope : ParagraphId) (type name : List Char) : Body :=
  let added := body.addParagraph { kind := .body, parent := some scope }
  added.declare (added.written body.paragraphs.size type name)

variable {type name : List Char}

theorem changes_openedWith (body : Body) (scope : ParagraphId) (type name : List Char) :
    Changes (fun _ => False) (fun _ => False) body (body.openedWith scope type name) := by
  refine ⟨fun id inside _ => ?_, fun _ _ _ => rfl, fun id inside => ?_, ?_, Nat.le_refl _, ?_, rfl⟩
  · have other : body.paragraphs.size ≠ id := Nat.ne_of_gt inside
    simp [openedWith, declare, written, Variable.ofType, modifyParagraph, addParagraph,
      Array.getElem?_modify, Array.getElem?_push, other, Nat.ne_of_lt inside]
  · simp [openedWith, declare, written, Variable.ofType, modifyParagraph, addParagraph,
      Array.getElem?_push, Nat.ne_of_lt inside]
  · simp [openedWith, declare, written, Variable.ofType, modifyParagraph, addParagraph]
  · simp [openedWith, declare, written, Variable.ofType, modifyParagraph, addParagraph]

theorem hasParagraph_openedWith (body : Body) (scope : ParagraphId) (type name : List Char) :
    (body.openedWith scope type name).HasParagraph body.paragraphs.size .body scope none
      false [] := by
  refine ⟨#[body.vars.size], ?_⟩
  rw [openedWith]
  dsimp only [declare, written, Variable.ofType, modifyParagraph, addParagraph]
  rw [Array.getElem?_modify, if_pos rfl, Array.getElem?_push_size]
  rfl

theorem getElem?_vars_openedWith (body : Body) (scope : ParagraphId) (type name : List Char) :
    (body.openedWith scope type name).vars[body.vars.size]? =
      some ((body.openedWith scope type name).written body.paragraphs.size type name) :=
  Array.getElem?_push_size

theorem IsCounted.hasParagraph {id parent : ParagraphId} {kind : ParagraphKind}
    {label : Option (List Char)} {braced : Bool} {items : List Item}
    (counted : before.IsCounted after)
    (has : before.HasParagraph id kind parent label braced items) :
    after.HasParagraph id kind parent label braced items := by
  obtain ⟨nextNode, effort, rfl⟩ := counted
  exact has

/-- A variable that is new since the start is still there at the end. -/
theorem Retains.hasVariable {paragraphs' : ParagraphId → Prop} {constructs' : ConstructId → Prop}
    {slot : ParagraphId} {id : VariableId} {node : Node} (retains : Retains start middle final)
    (later : Changes paragraphs' constructs' now middle) (new : start.vars.size ≤ id)
    (known : now.vars[id]? = some (now.written slot type name)) :
    final.HasVariable slot type name (.declaration node id false) := by
  have inside : id < now.vars.size := (Array.getElem?_eq_some_iff.1 known).1
  have same : final.written slot type name = now.written slot type name := by
    rw [written, written, extraContainers, extraContainers, retains.options, later.options]
  refine ⟨node, id, rfl, ?_⟩
  rw [same, retains.entry id new (Nat.lt_of_lt_of_le inside later.vars_le),
    later.entry id inside, known]

end
end Body
end MethodLowering
