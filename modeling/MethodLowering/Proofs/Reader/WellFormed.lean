import MethodLowering.Proofs.Reader.Edits

/-!
# Finished bodies are well formed

In a finished body every paragraph but the method body is referred to once, from its parent, every
construct stands once in its scope, nothing is left unread, and every variable is listed once, in
the paragraph that declares it.
-/

namespace MethodLowering

open Body

namespace Body

/-! ## Well-formed bodies -/

/-- The paragraphs that a statement refers to: a block, or the bodies of a construct.  Alternatives
of one handler share a body and count once. -/
def targets (body : Body) : Item → List ParagraphId
  | .block id => [id]
  | .construct id => body.constructs[id]?.toList.flatMap fun construct => construct.detail.bodies
  | .empty | .expression _ => []

/-- All references to paragraphs, each behind the paragraph whose statement it is. -/
def references (body : Body) : List (ParagraphId × ParagraphId) :=
  numbered (fun paragraph => paragraph.items.toList.flatMap body.targets) 0 body.paragraphs.toList

/-- All statements that are constructs, each behind the paragraph whose statement it is. -/
def constructPlaces (body : Body) : List (ParagraphId × ConstructId) :=
  numbered Paragraph.constructs 0 body.paragraphs.toList

/-- What is true of a finished body. -/
structure WellFormed (body : Body) : Prop where
  /-- Nothing is around the method body. -/
  root : ∃ paragraph, body.paragraphs[Body.root]? = some paragraph ∧ paragraph.parent = none
  /-- Every other paragraph has an earlier one as its parent, and the one reference to it is in a
  statement of its parent. -/
  referenced : ∀ id paragraph, body.paragraphs[id]? = some paragraph → id ≠ Body.root →
    ∃ parent < id, paragraph.parent = some parent ∧
      body.references.filter (fun place => place.2 == id) = [(parent, id)]
  /-- References lead to paragraphs of the body, and none to the method body. -/
  existing : ∀ place ∈ body.references, place.2 ≠ Body.root ∧ place.2 < body.paragraphs.size
  /-- Every construct is a statement once, in its scope. -/
  placed : ∀ id construct, body.constructs[id]? = some construct →
    body.constructPlaces.filter (fun place => place.2 == id) = [(construct.scope, id)]
  /-- Statements that are constructs are constructs of the body. -/
  known : ∀ place ∈ body.constructPlaces, place.2 < body.constructs.size
  /-- Headers are read, a `try` has a handler or a cleanup, a conditional has branches. -/
  complete : ∀ construct ∈ body.constructs, construct.detail.IsComplete
  /-- A body without brackets is one statement that is no block. -/
  closed : ∀ paragraph ∈ body.paragraphs, paragraph.IsClosed
  /-- A paragraph lists the variables whose scope it is, in order. -/
  listed : ∀ (id : ParagraphId) (paragraph : Paragraph), body.paragraphs[id]? = some paragraph →
    paragraph.vars.toList.Pairwise (· < ·) ∧ ∀ declared : VariableId,
      declared ∈ paragraph.vars ↔
        ∃ entry : Variable, body.vars[declared]? = some entry ∧ entry.scope = some id
  /-- The scope of a variable is a paragraph of the body. -/
  owned : ∀ entry ∈ body.vars, ∃ scope < body.paragraphs.size, entry.scope = some scope

/-! ## Variables -/

/-- The variables of a scope, in order. -/
def variablesOf (body : Body) (scope : ParagraphId) : List VariableId :=
  (List.range body.vars.size).filter fun declared =>
    (body.vars[declared]?.bind fun entry => entry.scope) == some scope

/-- Every paragraph lists the variables whose scope it is, and these scopes are paragraphs. -/
structure Listed (body : Body) : Prop where
  lists : ∀ id paragraph, body.paragraphs[id]? = some paragraph →
    paragraph.vars.toList = body.variablesOf id
  owned : ∀ entry ∈ body.vars, ∃ scope < body.paragraphs.size, entry.scope = some scope

section

variable {scope : ParagraphId} {base before after body : Body}

theorem variablesOf_extended (added : List Variable) (nextNode : Nat) (effort : Effort)
    (owned : ∀ entry ∈ added, entry.scope = some scope) (id : ParagraphId) :
    (before.extended scope added nextNode effort).variablesOf id = before.variablesOf id ++
        if scope = id then List.range' before.vars.size added.length else [] := by
  simp only [variablesOf, extended, Array.size_append, List.size_toArray]
  rw [List.range_eq_range', List.range_eq_range', ← List.range'_append_1, List.filter_append,
    Nat.zero_add]
  congr 1
  · apply List.filter_congr
    intro declared member
    have below : declared < before.vars.size := by
      simpa using (List.mem_range'_1.1 member).2
    rw [Array.getElem?_append_left below]
  · have found {declared : Nat} (member : declared ∈ List.range' before.vars.size added.length) :
        ((before.vars ++ added.toArray)[declared]?.bind fun entry => entry.scope) = some scope := by
      obtain ⟨above, below⟩ := List.mem_range'_1.1 member
      have inside : declared - before.vars.size < added.length := by omega
      rw [Array.getElem?_append_right above, List.getElem?_toArray,
        List.getElem?_eq_getElem inside]
      exact owned _ (List.getElem_mem inside)
    split
    · rename_i same
      rw [List.filter_eq_self]
      intro declared member
      rw [found member, same, beq_self_eq_true]
    · rename_i other
      rw [List.filter_eq_nil_iff]
      intro declared member
      rw [found member, beq_iff_eq, Option.some.injEq]
      exact other

theorem Declares.listed (declares : Declares scope before after)
    (inside : scope < before.paragraphs.size) (listed : before.Listed) : after.Listed := by
  obtain ⟨added, nextNode, effort, rfl, -, locals⟩ := declares
  have owned : ∀ entry ∈ added, entry.scope = some scope :=
    fun entry member => (locals entry member).scope
  refine ⟨fun id paragraph known => ?_, fun entry member => ?_⟩
  · rw [variablesOf_extended added nextNode effort owned]
    simp only [extended, Array.getElem?_modify] at known
    split at known
    · rename_i same
      obtain ⟨old, shown, rfl⟩ := Option.map_eq_some_iff.1 known
      simp [same, ← listed.lists id old shown]
    · rename_i other
      rw [if_neg other, List.append_nil]
      exact listed.lists id paragraph known
  · have size : (before.extended scope added nextNode effort).paragraphs.size =
        before.paragraphs.size := by simp [extended]
    rw [size]
    rcases Array.mem_append.1 member with old | new
    · exact listed.owned entry old
    · exact ⟨scope, inside, owned entry (List.mem_toArray.1 new)⟩

/-- A change that keeps what paragraphs list keeps all lists. -/
theorem Listed.modifyParagraph (listed : before.Listed) (id : ParagraphId)
    {change : Paragraph → Paragraph}
    (same : ∀ paragraph, (change paragraph).vars = paragraph.vars) :
    (before.modifyParagraph id change).Listed := by
  refine ⟨fun other paragraph known => ?_, fun entry member => ?_⟩
  · simp only [Body.modifyParagraph, Array.getElem?_modify] at known
    split at known
    · obtain ⟨old, shown, rfl⟩ := Option.map_eq_some_iff.1 known
      rw [same]
      exact listed.lists other old shown
    · exact listed.lists other paragraph known
  · simpa [Body.modifyParagraph] using listed.owned entry member

theorem Listed.addParagraph (listed : before.Listed) {paragraph : Paragraph}
    (blank : paragraph.vars = #[]) : (before.addParagraph paragraph).Listed := by
  refine ⟨fun id found known => ?_, fun entry member => ?_⟩
  · rw [Body.addParagraph, Array.getElem?_push] at known
    split at known
    · rename_i last
      obtain rfl := Option.some.inj known
      rw [blank, eq_comm, variablesOf, List.filter_eq_nil_iff]
      intro declared member found
      obtain ⟨entry, shown, scope⟩ := Option.bind_eq_some_iff.1 (eq_of_beq found)
      obtain ⟨around, below, same⟩ := listed.owned entry (Array.mem_of_getElem? shown)
      rw [scope, Option.some.injEq] at same
      exact absurd below (by rw [← same, last]; exact Nat.lt_irrefl _)
    · exact listed.lists id found known
  · obtain ⟨scope, below, same⟩ := listed.owned entry member
    exact ⟨scope, by simp [Body.addParagraph]; omega, same⟩

end
end Body

section

variable {base before after : Body}

/-- Every elementary change keeps the lists of variables. -/
theorem Edit.listed (edit : Edit base before after) (listed : before.Listed) :
    after.Listed := by
  cases edit with
  | read reads own inside => exact reads.declares.listed inside listed
  | note new notes =>
      obtain ⟨added, rfl, -⟩ := notes
      exact ⟨listed.lists, listed.owned⟩
  | paragraph noItems noVars parent own inside => exact listed.addParagraph noVars
  | item own new => exact listed.modifyParagraph _ fun _ => rfl
  | brace later => exact listed.modifyParagraph _ fun _ => rfl
  | _ => exact ⟨listed.lists, listed.owned⟩

theorem Edits.listed (edits : Edits base before after) (listed : before.Listed) : after.Listed := by
  induction edits with
  | refl => exact listed
  | tail _ edit induction => exact edit.listed induction

theorem Body.listed_initial (context : Context) (options : Options) :
    (Body.initial context options).Listed := by
  refine (declares_initial context options).listed (by simp [root])
    ⟨fun id paragraph known => ?_, by simp⟩
  rw [List.getElem?_toArray, List.getElem?_singleton] at known
  split at known
  · obtain rfl := Option.some.inj known
    rfl
  · contradiction

/-! ## References -/

namespace Body

variable {body : Body}

/-- The constructs behind their scopes lead to the bodies behind these scopes. -/
theorem flatMap_scopePlaces (bodies : ConstructId → List ParagraphId) (constructs : List Construct)
    (first : Nat) (found : ∀ position construct, constructs[position]? = some construct →
      bodies (first + position) = construct.detail.bodies) :
    ((numbered (fun construct => [construct.scope]) first constructs).map Prod.swap).flatMap
        (fun place => (bodies place.2).map fun body => (place.1, body)) =
      constructs.flatMap fun construct =>
        construct.detail.bodies.map fun body => (construct.scope, body) := by
  induction constructs generalizing first with
  | nil => rfl
  | cons head rest induction =>
      have own : bodies first = head.detail.bodies := found 0 head rfl
      have others := induction (first + 1) fun position construct known => by
        rw [show first + 1 + position = first + (position + 1) by omega]
        exact found (position + 1) construct known
      simp only [numbered, List.map_cons, List.map_nil, List.singleton_append, List.flatMap_cons,
        Prod.swap_prod_mk, own, others]

theorem constructPlaces_perm (tree : body.shape.IsTree) :
    body.constructPlaces.Perm body.shape.scopePlaces := by
  have same : body.shape.constructPlaces = body.constructPlaces := numbered_map ..
  exact same ▸ tree.constructs

/-- In a tree, the references of all statements are the blocks and the bodies of all constructs. -/
theorem references_perm (tree : body.shape.IsTree) :
    body.references.Perm body.shape.parentPlaces := by
  refine List.Perm.trans ?_ tree.references
  let bodies (id : ConstructId) : List ParagraphId :=
    body.constructs[id]?.toList.flatMap fun construct => construct.detail.bodies
  have items (paragraph : Paragraph) : (paragraph.items.toList.flatMap body.targets).Perm
      (paragraph.blocks ++ paragraph.constructs.flatMap bodies) := by
    rw [Paragraph.blocks, Paragraph.constructs]
    induction paragraph.items.toList with
    | nil => simp
    | cons item rest induction =>
        cases item with
        | empty => exact induction
        | expression placed => exact induction
        | block id => exact induction.cons id
        | construct id =>
            refine (induction.append_left (bodies id)).trans ?_
            rw [← List.append_assoc]
            refine (List.perm_append_comm.append_right _).trans (.of_eq ?_)
            exact List.append_assoc ..
  have places : body.shape.blockPlaces = numbered Paragraph.blocks 0 body.paragraphs.toList :=
    numbered_map ..
  have inner : (numbered (fun paragraph => paragraph.constructs.flatMap bodies) 0
      body.paragraphs.toList).Perm body.shape.bodyPlaces := by
    rw [numbered_flatMap]
    refine ((constructPlaces_perm tree).flatMap_right _).trans (.of_eq ?_)
    refine flatMap_scopePlaces bodies body.constructs.toList 0 fun position construct known => ?_
    rw [Array.getElem?_toList] at known
    simp [bodies, known]
  rw [places]
  exact ((numbered_perm 0 fun paragraph _ => items paragraph).trans
    (numbered_append_perm _ _ 0 _)).trans (inner.append_left _)

/-- The entries of one element, where entries stand in front. -/
theorem filter_swap {α β : Type} {entries : α → List β} {elements : List α} {element : α} {id : Nat}
    (known : elements[id]? = some element) :
    ((numbered entries 0 elements).map Prod.swap).filter (fun place => place.2 == id) =
      (entries element).map fun entry => (entry, id) := by
  have same : (numbered entries 0 elements).filter (fun place => place.1 == 0 + id) =
      (entries element).map fun entry => (0 + id, entry) := numbered_filter known 0
  rw [Nat.zero_add] at same
  rw [List.filter_map]
  exact (congrArg (List.map Prod.swap) same).trans (by simp)

theorem getElem?_shape_paragraphs (id : Nat) :
    body.shape.paragraphs[id]? = body.paragraphs[id]?.map Paragraph.outline := by
  simp [Body.shape]

end Body

/-! ## Finished bodies -/

/-- The body of an idle reader is well formed. -/
theorem Reader.Since.wellFormed {reader : Reader} (since : Reader.Since base reader)
    (idle : reader.isIdle = true) (listed : base.Listed) : reader.body.WellFormed := by
  obtain ⟨sound, edits, -⟩ := since
  have tree := sound.tree
  have settled := sound.settled idle
  have lists := edits.listed listed
  have outlined {id : Nat} {paragraph : Paragraph}
      (known : reader.body.paragraphs[id]? = some paragraph) :
      reader.body.shape.paragraphs[id]? = some paragraph.outline := by
    rw [getElem?_shape_paragraphs, known]
    rfl
  refine ⟨?_, ?_, ?_, ?_, ?_, ?_, ?_, ?_, lists.owned⟩
  · obtain ⟨last, stack, own, rfl, -, first⟩ := sound.root idle
    obtain ⟨_, shown, -⟩ := sound.opened.holds (.paragraph own) (by simp [stack])
    rw [first, getElem?_shape_paragraphs] at shown
    obtain ⟨paragraph, known, -⟩ := Option.map_eq_some_iff.1 shown
    rcases tree.parents root _ (outlined known) with ⟨-, none⟩ | ⟨parent, below, -⟩
    · exact ⟨paragraph, known, none⟩
    · exact absurd below (Nat.not_lt_zero _)
  · intro id paragraph known other
    rcases tree.parents id _ (outlined known) with ⟨first, -⟩ | ⟨parent, below, around⟩
    · exact absurd first other
    · refine ⟨parent, below, around, List.perm_singleton.1 ?_⟩
      refine ((references_perm tree).filter _).trans (.of_eq ?_)
      rw [Shape.parentPlaces, filter_swap (outlined known), around]
      rfl
  · rintro ⟨_, _⟩ member
    obtain ⟨⟨number, _⟩, place, same⟩ := List.mem_map.1 ((references_perm tree).subset member)
    obtain ⟨rfl, rfl⟩ := Prod.mk.inj same
    obtain ⟨position, paragraph, same, known, inside⟩ := mem_numbered.1 place
    obtain rfl : number = position := same.trans (Nat.zero_add _)
    refine ⟨?_, ?_⟩
    · rcases tree.parents number paragraph known with ⟨-, none⟩ | ⟨parent, below, -⟩
      · simp [none] at inside
      · exact Nat.ne_of_gt (Nat.lt_of_le_of_lt (Nat.zero_le _) below)
    · rw [← length_shape_paragraphs]
      exact (List.getElem?_eq_some_iff.1 known).1
  · intro id construct known
    refine List.perm_singleton.1 (((constructPlaces_perm tree).filter _).trans (.of_eq ?_))
    rw [Shape.scopePlaces, filter_swap ((getElem?_shape_constructs id).trans known)]
    rfl
  · rintro ⟨_, _⟩ member
    obtain ⟨⟨number, _⟩, place, same⟩ := List.mem_map.1 ((constructPlaces_perm tree).subset member)
    obtain ⟨rfl, rfl⟩ := Prod.mk.inj same
    obtain ⟨position, construct, same, known, -⟩ := mem_numbered.1 place
    obtain rfl : number = position := same.trans (Nat.zero_add _)
    rw [getElem?_shape_constructs] at known
    exact (Array.getElem?_eq_some_iff.1 known).1
  · intro construct member
    obtain ⟨id, inside, rfl⟩ := Array.mem_iff_getElem.1 member
    refine settled (.construct id) _ ?_
    rw [getElem?_shape_constructs, Array.getElem?_eq_getElem inside]
  · intro paragraph member
    obtain ⟨id, inside, rfl⟩ := Array.mem_iff_getElem.1 member
    have closed := settled (.paragraph id) _ (outlined (Array.getElem?_eq_getElem inside))
    exact closed
  · intro id paragraph known
    have same := lists.lists id paragraph known
    refine ⟨same ▸ List.pairwise_lt_range.filter _, fun declared => ?_⟩
    rw [← Array.mem_toList_iff, same, variablesOf, List.mem_filter, List.mem_range, beq_iff_eq,
      Option.bind_eq_some_iff]
    constructor
    · exact fun found => found.2
    · rintro ⟨entry, shown, scope⟩
      exact ⟨(Array.getElem?_eq_some_iff.1 shown).1, entry, shown, scope⟩

/-- Making types from class bodies leaves the paragraphs and constructs alone. -/
theorem Body.WellFormed.lift {body : Body} (wellFormed : body.WellFormed) : body.lift.WellFormed :=
  ⟨wellFormed.root, wellFormed.referenced, wellFormed.existing, wellFormed.placed, wellFormed.known,
    wellFormed.complete, wellFormed.closed, wellFormed.listed, wellFormed.owned⟩

/-- **Well-formedness.**  A body that is read successfully is well formed. -/
theorem Body.ofLines_wellFormed {context : Context} {options : Options} {lines : List String}
    {body : Body} (read : Body.ofLines context options lines = .ok body) : body.WellFormed := by
  obtain ⟨reader, reaches, idle, rfl⟩ := Body.ofLines_reaches read
  have since := reaches.since (Reader.since_initial context options)
  obtain ⟨root, referenced, existing, placed, known, complete, closed, listed, owned⟩ :=
    since.wellFormed idle (Body.listed_initial context options)
  exact ⟨root, referenced, existing, placed, known, complete, closed, listed, owned⟩

/-- A handler with alternatives, bodies without brackets, a block with a variable of its own. -/
theorem Body.ofLines_wellFormed_nested :
    ∃ body, Body.ofLines {} {} ["try \x7b if (a) return b; else \x7b int c = d; \x7d \x7d",
        "catch (E | F e) \x7b for (;;) f(); \x7d \x7b int g; \x7d"] = .ok body ∧
      body.paragraphs.size = 7 ∧ body.WellFormed := by
  have reads : ((Body.ofLines {} {} ["try \x7b if (a) return b; else \x7b int c = d; \x7d \x7d",
      "catch (E | F e) \x7b for (;;) f(); \x7d \x7b int g; \x7d"]).toOption.map
        fun body => body.paragraphs.size) = some 7 := by decide +kernel
  revert reads
  cases read : Body.ofLines {} {} ["try \x7b if (a) return b; else \x7b int c = d; \x7d \x7d",
      "catch (E | F e) \x7b for (;;) f(); \x7d \x7b int g; \x7d"] with
  | error failure => exact nofun
  | ok body => exact fun size => ⟨body, rfl, Option.some.inj size, Body.ofLines_wellFormed read⟩

end
end MethodLowering
