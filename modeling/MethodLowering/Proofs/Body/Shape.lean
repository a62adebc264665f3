import Mathlib.Data.List.Perm.Basic
import MethodLowering.Body.Basic

/-!
# The shape of a body

Paragraphs and constructs refer to each other by number.  The shape of a body is what matters for
these references.  Its references form a tree when every paragraph but the first is referred to
once, from its parent, and every construct stands once in its scope.
-/

namespace MethodLowering

/-! ## Entries of numbered elements -/

/-- The entries of the elements of a list, each with the number of its element. -/
def numbered {α β : Type} (entries : α → List β) : Nat → List α → List (Nat × β)
  | _, [] => []
  | id, element :: rest =>
      (entries element).map (fun entry => (id, entry)) ++ numbered entries (id + 1) rest

section

variable {α β γ : Type} {entries : α → List β} {elements : List α}

theorem numbered_append (first : Nat) (front back : List α) :
    numbered entries first (front ++ back) =
      numbered entries first front ++ numbered entries (first + front.length) back := by
  induction front generalizing first with
  | nil => simp [numbered]
  | cons element rest induction =>
      simp only [List.cons_append, numbered, induction, List.append_assoc, List.length_cons]
      rw [show first + 1 + rest.length = first + (rest.length + 1) by omega]

theorem numbered_concat (first : Nat) (element : α) :
    numbered entries first (elements ++ [element]) = numbered entries first elements ++
        (entries element).map fun entry => (first + elements.length, entry) := by
  simp [numbered_append, numbered]

/-- A change of one element that adds entries adds them to the list. -/
theorem numbered_modify_perm (entries : α → List β) (change : α → α) {element : α}
    {added : List β} {id : Nat} (known : elements[id]? = some element)
    (adds : entries (change element) = entries element ++ added) (first : Nat) :
    (numbered entries first (elements.modify id change)).Perm
      (numbered entries first elements ++ added.map fun entry => (first + id, entry)) := by
  induction elements generalizing first id with
  | nil => simp at known
  | cons head rest induction =>
      cases id with
      | zero =>
          obtain rfl : head = element := by simpa using known
          simp only [List.modify_zero_cons, numbered, adds, List.map_append, List.append_assoc,
            Nat.add_zero]
          exact List.perm_append_comm.append_left _
      | succ id =>
          have later := induction (by simpa using known) (first + 1)
          simp only [List.modify_succ_cons, numbered, List.append_assoc]
          rw [show first + (id + 1) = first + 1 + id by omega]
          exact later.append_left _

/-- A change that keeps the entries of every element keeps the list. -/
theorem numbered_modify (entries : α → List β) {change : α → α}
    (same : ∀ element, entries (change element) = entries element) (first id : Nat) :
    numbered entries first (elements.modify id change) = numbered entries first elements := by
  induction elements generalizing first id with
  | nil => simp
  | cons head rest induction =>
      cases id with
      | zero => simp [numbered, same]
      | succ id => simp [numbered, induction]

theorem mem_numbered {first id : Nat} {entry : β} :
    (id, entry) ∈ numbered entries first elements ↔
      ∃ position element, id = first + position ∧ elements[position]? = some element ∧
        entry ∈ entries element := by
  induction elements generalizing first with
  | nil => simp [numbered]
  | cons head rest induction =>
      rw [numbered, List.mem_append, induction]
      constructor
      · rintro (own | ⟨position, element, rfl, known, inside⟩)
        · obtain ⟨_, inside, same⟩ := List.mem_map.1 own
          obtain ⟨rfl, rfl⟩ := Prod.mk.inj same
          exact ⟨0, head, rfl, rfl, inside⟩
        · exact ⟨position + 1, element, by omega, by simpa using known, inside⟩
      · rintro ⟨position, element, rfl, known, inside⟩
        cases position with
        | zero =>
            obtain rfl : head = element := by simpa using known
            exact .inl (List.mem_map.2 ⟨entry, inside, rfl⟩)
        | succ position =>
            exact .inr ⟨position, element, by omega, by simpa using known, inside⟩

/-- The entries of one element. -/
theorem numbered_filter {element : α} {id : Nat} (known : elements[id]? = some element)
    (first : Nat) :
    (numbered entries first elements).filter (fun place => place.1 == first + id) =
      (entries element).map fun entry => (first + id, entry) := by
  have none_of_ne (low other : Nat) (back : List α) (before : other < low) :
      (numbered entries low back).filter (fun place => place.1 == other) = [] := by
    rw [List.filter_eq_nil_iff]
    rintro ⟨number, entry⟩ member
    obtain ⟨position, _, rfl, -, -⟩ := mem_numbered.1 member
    simp
    omega
  induction elements generalizing first id with
  | nil => simp at known
  | cons head rest induction =>
      rw [numbered, List.filter_append]
      cases id with
      | zero =>
          obtain rfl : head = element := by simpa using known
          rw [Nat.add_zero, none_of_ne _ _ _ (by omega), List.append_nil, List.filter_eq_self]
          intro place member
          obtain ⟨_, -, rfl⟩ := List.mem_map.1 member
          simp
      | succ id =>
          have later := induction (by simpa using known) (first + 1)
          rw [show first + (id + 1) = first + 1 + id by omega, later]
          have own : ((entries head).map fun entry => (first, entry)).filter
              (fun place => place.1 == first + 1 + id) = [] := by
            rw [List.filter_eq_nil_iff]
            intro place member
            obtain ⟨_, -, rfl⟩ := List.mem_map.1 member
            simp
            omega
          rw [own, List.nil_append]

theorem numbered_append_perm (left right : α → List β) (first : Nat) (elements : List α) :
    (numbered (fun element => left element ++ right element) first elements).Perm
      (numbered left first elements ++ numbered right first elements) := by
  induction elements generalizing first with
  | nil => simp [numbered]
  | cons head rest induction =>
      simp only [numbered, List.map_append, List.append_assoc]
      refine List.Perm.append_left _ ?_
      refine ((induction (first + 1)).append_left _).trans ?_
      rw [← List.append_assoc, ← List.append_assoc]
      exact List.perm_append_comm.append_right _

theorem numbered_perm {left right : α → List β} (first : Nat)
    (same : ∀ element ∈ elements, (left element).Perm (right element)) :
    (numbered left first elements).Perm (numbered right first elements) := by
  induction elements generalizing first with
  | nil => simp [numbered]
  | cons head rest induction =>
      refine List.Perm.append ((same head (by simp)).map _) (induction (first + 1) ?_)
      exact fun element member => same element (by simp [member])

theorem numbered_map {δ : Type} (change : δ → α) (first : Nat) (elements : List δ) :
    numbered entries first (elements.map change) =
      numbered (fun element => entries (change element)) first elements := by
  induction elements generalizing first with
  | nil => rfl
  | cons head rest induction => rw [List.map_cons, numbered, induction, numbered]

/-- Entries of entries. -/
theorem numbered_flatMap (inner : β → List γ) (first : Nat) (elements : List α) :
    numbered (fun element => (entries element).flatMap inner) first elements =
      (numbered entries first elements).flatMap fun place =>
        (inner place.2).map fun entry => (place.1, entry) := by
  induction elements generalizing first with
  | nil => simp [numbered]
  | cons head rest induction =>
      rw [numbered, numbered, List.flatMap_append, induction]
      simp [List.map_flatMap, List.flatMap_map]

end

/-! ## References -/

namespace Item

/-- The block that the statement is. -/
def block? : Item → Option ParagraphId
  | block id => some id
  | _ => none

/-- The construct that the statement is. -/
def construct? : Item → Option ConstructId
  | construct id => some id
  | _ => none

end Item

namespace Detail

/-- The bodies of handlers; neighbours with one body are alternatives of one handler. -/
def handlerBodies : List Handler → List ParagraphId
  | [] => []
  | [last] => [last.body]
  | first :: second :: rest =>
      if first.body = second.body then handlerBodies (second :: rest)
      else first.body :: handlerBodies (second :: rest)

/-- The bodies of a construct, in order. -/
def bodies : Detail → List ParagraphId
  | conditional branches => branches.map (·.body)
  | counted _ _ _ body | iterator _ _ body | whileLoop _ body | doLoop body _ | switch _ body
  | synchronized _ body => [body]
  | tryBlock body handlers cleanup => body :: (handlerBodies handlers ++ cleanup.toList)
  | jump .. | caseLabel _ | defaultLabel | unread => []

/-- Nothing of the construct is missing. -/
def IsComplete : Detail → Prop
  | conditional branches => branches ≠ []
  | tryBlock _ handlers cleanup => handlers ≠ [] ∨ cleanup.isSome = true
  | unread => False
  | _ => True

theorem handlerBodies_mem {handlers : List Handler} {handler : Handler}
    (member : handler ∈ handlers) : handler.body ∈ handlerBodies handlers := by
  induction handlers using handlerBodies.induct generalizing handler with
  | case1 => simp at member
  | case2 last =>
      rw [List.mem_singleton.1 member]
      simp [handlerBodies]
  | case3 first second rest same induction =>
      rw [handlerBodies, if_pos same]
      rcases List.mem_cons.1 member with rfl | later
      · rw [same]
        exact induction (List.mem_cons_self ..)
      · exact induction later
  | case4 first second rest other induction =>
      rw [handlerBodies, if_neg other]
      rcases List.mem_cons.1 member with rfl | later
      · exact List.mem_cons_self ..
      · exact List.mem_cons_of_mem _ (induction later)

/-- Every body that is listed is the body of a handler. -/
theorem mem_of_mem_handlerBodies {handlers : List Handler} {id : ParagraphId}
    (member : id ∈ handlerBodies handlers) : id ∈ handlers.map (·.body) := by
  induction handlers using handlerBodies.induct with
  | case1 => exact member
  | case2 last => exact member
  | case3 first second rest same induction =>
      rw [handlerBodies, if_pos same] at member
      exact List.mem_cons_of_mem _ (induction member)
  | case4 first second rest other induction =>
      rw [handlerBodies, if_neg other] at member
      rcases List.mem_cons.1 member with rfl | later
      · exact List.mem_cons_self ..
      · exact List.mem_cons_of_mem _ (induction later)

/-- A new handler with any number of alternatives adds one body. -/
theorem handlerBodies_append {handlers : List Handler} {declarations : List Placed}
    {body : ParagraphId} (some_ : declarations ≠ [])
    (fresh : ∀ handler ∈ handlers, handler.body ≠ body) :
    handlerBodies (handlers ++ declarations.map fun declaration => ⟨declaration, body⟩) =
      handlerBodies handlers ++ [body] := by
  have alternatives (declarations : List Placed) (some_ : declarations ≠ []) :
      handlerBodies (declarations.map fun declaration => ⟨declaration, body⟩) = [body] := by
    induction declarations with
    | nil => exact absurd rfl some_
    | cons first rest induction =>
        cases rest with
        | nil => rfl
        | cons second rest =>
            rw [List.map_cons, List.map_cons, handlerBodies, if_pos rfl]
            exact induction (by simp)
  induction handlers using handlerBodies.induct with
  | case1 => exact alternatives declarations some_
  | case2 last =>
      obtain ⟨first, rest, rfl⟩ := List.exists_cons_of_ne_nil some_
      have other : last.body ≠ body := fresh last (by simp)
      rw [List.singleton_append, List.map_cons, handlerBodies, handlerBodies]
      simp only [other, if_false]
      exact congrArg (List.cons last.body) (alternatives (first :: rest) some_)
  | case3 first second rest same induction =>
      rw [List.cons_append, List.cons_append, handlerBodies, if_pos same,
        handlerBodies, if_pos same]
      exact induction fun handler member => fresh handler (List.mem_cons_of_mem _ member)
  | case4 first second rest other induction =>
      rw [List.cons_append, List.cons_append, handlerBodies, if_neg other, handlerBodies,
        if_neg other, List.cons_append]
      exact congrArg (List.cons first.body)
        (induction fun handler member => fresh handler (List.mem_cons_of_mem _ member))

end Detail

namespace Paragraph

/-- The paragraph without its variables. -/
def outline (paragraph : Paragraph) : Paragraph := { paragraph with vars := #[] }

/-- The blocks that stand in a paragraph. -/
def blocks (paragraph : Paragraph) : List ParagraphId :=
  paragraph.items.toList.filterMap Item.block?

/-- The constructs that stand in a paragraph. -/
def constructs (paragraph : Paragraph) : List ConstructId :=
  paragraph.items.toList.filterMap Item.construct?

/-- A body without brackets is one statement that is no block. -/
def IsClosed (paragraph : Paragraph) : Prop :=
  paragraph.kind = .body ∨ paragraph.kind = .switchBody → paragraph.braced = false →
    ∃ item, paragraph.items = #[item] ∧ item.block? = none

end Paragraph

/-- Paragraphs without their variables, and constructs. -/
structure Shape where
  paragraphs : List Paragraph
  constructs : List Construct

/-- The shape of a body. -/
def Body.shape (body : Body) : Shape :=
  ⟨body.paragraphs.toList.map Paragraph.outline, body.constructs.toList⟩

namespace Shape

/-- The blocks, each with the paragraph it stands in. -/
def blockPlaces (shape : Shape) : List (ParagraphId × ParagraphId) :=
  numbered Paragraph.blocks 0 shape.paragraphs

/-- The bodies of constructs, each with the scope of its construct. -/
def bodyPlaces (shape : Shape) : List (ParagraphId × ParagraphId) :=
  shape.constructs.flatMap fun construct =>
    construct.detail.bodies.map fun body => (construct.scope, body)

/-- The constructs that stand in paragraphs, each with its paragraph. -/
def constructPlaces (shape : Shape) : List (ParagraphId × ConstructId) :=
  numbered Paragraph.constructs 0 shape.paragraphs

/-- The paragraphs that have a parent, each behind its parent. -/
def parentPlaces (shape : Shape) : List (ParagraphId × ParagraphId) :=
  (numbered (fun paragraph => paragraph.parent.toList) 0 shape.paragraphs).map Prod.swap

/-- The constructs, each behind its scope. -/
def scopePlaces (shape : Shape) : List (ParagraphId × ConstructId) :=
  (numbered (fun construct => [construct.scope]) 0 shape.constructs).map Prod.swap

/-- The references form a tree. -/
structure IsTree (shape : Shape) : Prop where
  references : (shape.blockPlaces ++ shape.bodyPlaces).Perm shape.parentPlaces
  constructs : shape.constructPlaces.Perm shape.scopePlaces
  parents : ∀ id paragraph, shape.paragraphs[id]? = some paragraph →
    (id = 0 ∧ paragraph.parent = none) ∨ ∃ parent < id, paragraph.parent = some parent
  scopes : ∀ construct ∈ shape.constructs, construct.scope < shape.paragraphs.length

/-- The shape with one more paragraph. -/
def addParagraph (shape : Shape) (paragraph : Paragraph) : Shape :=
  { shape with paragraphs := shape.paragraphs ++ [paragraph] }

/-- The shape with one more construct. -/
def addConstruct (shape : Shape) (construct : Construct) : Shape :=
  { shape with constructs := shape.constructs ++ [construct] }

/-- The shape with one paragraph changed. -/
def modifyParagraph (shape : Shape) (id : ParagraphId) (change : Paragraph → Paragraph) : Shape :=
  { shape with paragraphs := shape.paragraphs.modify id change }

/-- The shape with one more statement in a paragraph. -/
def addItem (shape : Shape) (id : ParagraphId) (item : Item) : Shape :=
  shape.modifyParagraph id fun paragraph => { paragraph with items := paragraph.items.push item }

/-- The shape with one construct changed. -/
def modifyDetail (shape : Shape) (id : ConstructId) (change : Detail → Detail) : Shape :=
  { shape with
    constructs := shape.constructs.modify id fun construct =>
      { construct with detail := change construct.detail } }

section

variable {shape : Shape}

theorem IsTree.lt_of_mem_bodies (tree : shape.IsTree) {construct : Construct} {body : ParagraphId}
    (member : construct ∈ shape.constructs) (inside : body ∈ construct.detail.bodies) :
    body < shape.paragraphs.length := by
  have place : (construct.scope, body) ∈ shape.parentPlaces := by
    refine tree.references.subset (List.mem_append_right _ ?_)
    exact List.mem_flatMap.2 ⟨construct, member, List.mem_map.2 ⟨body, inside, rfl⟩⟩
  obtain ⟨⟨id, parent⟩, numbered, same⟩ := List.mem_map.1 place
  obtain ⟨rfl, rfl⟩ := Prod.mk.inj same
  obtain ⟨position, paragraph, rfl, known, -⟩ := mem_numbered.1 numbered
  rw [Nat.zero_add]
  exact (List.getElem?_eq_some_iff.1 known).1

/-! ## Places after a change -/

section

variable {paragraph : Paragraph} {construct : Construct} {id : Nat} {item : Item}
  {change : Detail → Detail}

theorem blockPlaces_addParagraph (shape : Shape) (paragraph : Paragraph) :
    (shape.addParagraph paragraph).blockPlaces =
      shape.blockPlaces ++ paragraph.blocks.map fun block => (shape.paragraphs.length, block) := by
  simp [blockPlaces, addParagraph, numbered_concat]

theorem constructPlaces_addParagraph (shape : Shape) (paragraph : Paragraph) :
    (shape.addParagraph paragraph).constructPlaces = shape.constructPlaces ++
        paragraph.constructs.map fun construct => (shape.paragraphs.length, construct) := by
  simp [constructPlaces, addParagraph, numbered_concat]

theorem parentPlaces_addParagraph (shape : Shape) (paragraph : Paragraph) :
    (shape.addParagraph paragraph).parentPlaces = shape.parentPlaces ++
        paragraph.parent.toList.map fun parent => (parent, shape.paragraphs.length) := by
  simp [parentPlaces, addParagraph, numbered_concat]

theorem bodyPlaces_addConstruct (shape : Shape) (construct : Construct) :
    (shape.addConstruct construct).bodyPlaces =
      shape.bodyPlaces ++ construct.detail.bodies.map fun body => (construct.scope, body) := by
  simp [bodyPlaces, addConstruct]

theorem scopePlaces_addConstruct :
    (shape.addConstruct construct).scopePlaces =
      shape.scopePlaces ++ [(construct.scope, shape.constructs.length)] := by
  simp [scopePlaces, addConstruct, numbered_concat]

/-- What some statements name is named, after one more statement, by that one too. -/
theorem places_addItem (named? : Item → Option Nat) (inside : id < shape.paragraphs.length) :
    let entries (paragraph : Paragraph) := paragraph.items.toList.filterMap named?
    (numbered entries 0 (shape.addItem id item).paragraphs).Perm
      (numbered entries 0 shape.paragraphs ++ (named? item).toList.map fun entry =>
        (id, entry)) := by
  have perm :=
    numbered_modify_perm (fun paragraph : Paragraph => paragraph.items.toList.filterMap named?)
    (fun paragraph => { paragraph with items := paragraph.items.push item })
    (List.getElem?_eq_getElem inside)
    (show _ = _ ++ (named? item).toList by cases named : named? item <;> simp [named]) 0
  rw [Nat.zero_add] at perm
  exact perm

theorem blockPlaces_addItem (inside : id < shape.paragraphs.length) :
    (shape.addItem id item).blockPlaces.Perm
      (shape.blockPlaces ++ item.block?.toList.map fun block => (id, block)) :=
  places_addItem Item.block? inside

theorem constructPlaces_addItem (inside : id < shape.paragraphs.length) :
    (shape.addItem id item).constructPlaces.Perm
      (shape.constructPlaces ++ item.construct?.toList.map fun construct => (id, construct)) :=
  places_addItem Item.construct? inside

theorem parentPlaces_addItem : (shape.addItem id item).parentPlaces = shape.parentPlaces :=
  congrArg (List.map Prod.swap)
    (numbered_modify (fun paragraph : Paragraph => paragraph.parent.toList) (by intro; rfl) 0 id)

theorem bodyPlaces_modifyDetail (added : List ParagraphId)
    (known : shape.constructs[id]? = some construct)
    (adds : (change construct.detail).bodies = construct.detail.bodies ++ added) :
    (shape.modifyDetail id change).bodyPlaces.Perm
      (shape.bodyPlaces ++ added.map fun body => (construct.scope, body)) := by
  simp only [bodyPlaces, modifyDetail]
  generalize shape.constructs = constructs at known
  induction constructs generalizing id with
  | nil => simp at known
  | cons head rest induction =>
      cases id with
      | zero =>
          obtain rfl : head = construct := by simpa using known
          simp only [List.modify_zero_cons, List.flatMap_cons, adds, List.map_append,
            List.append_assoc]
          exact List.perm_append_comm.append_left _
      | succ id =>
          simp only [List.modify_succ_cons, List.flatMap_cons, List.append_assoc]
          exact (induction (by simpa using known)).append_left _

theorem scopePlaces_modifyDetail : (shape.modifyDetail id change).scopePlaces = shape.scopePlaces :=
  congrArg (List.map Prod.swap)
    (numbered_modify (fun construct : Construct => [construct.scope]) (by intro; rfl) 0 id)

end

/-! ## Changes that keep the tree -/

/-- A paragraph with an earlier one as its parent has a place of its own. -/
theorem IsTree.parents_addParagraph (tree : shape.IsTree) {paragraph found : Paragraph}
    {around : ParagraphId} (inside : around < shape.paragraphs.length)
    (parent : paragraph.parent = some around) {id : Nat}
    (known : (shape.addParagraph paragraph).paragraphs[id]? = some found) :
    (id = 0 ∧ found.parent = none) ∨ ∃ parent < id, found.parent = some parent := by
  rw [addParagraph, List.getElem?_append] at known
  split at known
  · exact tree.parents id found known
  · rename_i behind
    obtain ⟨last, rfl⟩ : id = shape.paragraphs.length ∧ paragraph = found := by
      rw [List.getElem?_singleton] at known
      split at known
      · exact ⟨by omega, Option.some.inj known⟩
      · contradiction
    exact .inr ⟨around, last ▸ inside, parent⟩

/-- A change of a paragraph that keeps its parent keeps what the tree says about parents. -/
theorem parents_modifyParagraph {id other : Nat} {change : Paragraph → Paragraph}
    {found : Paragraph} (parent : ∀ paragraph, (change paragraph).parent = paragraph.parent)
    (parents : ∀ id paragraph, shape.paragraphs[id]? = some paragraph →
      (id = 0 ∧ paragraph.parent = none) ∨ ∃ parent < id, paragraph.parent = some parent)
    (known : (shape.modifyParagraph id change).paragraphs[other]? = some found) :
    (other = 0 ∧ found.parent = none) ∨ ∃ parent < other, found.parent = some parent := by
  rw [Shape.modifyParagraph, List.getElem?_modify] at known
  obtain ⟨before, kept, rfl⟩ := Option.map_eq_some_iff.1 known
  have same : (if id = other then change before else before).parent = before.parent := by
    split
    · exact parent before
    · rfl
  rw [same]
  exact parents other before kept

theorem length_modifyParagraph {id : ParagraphId} {change : Paragraph → Paragraph} :
    (shape.modifyParagraph id change).paragraphs.length = shape.paragraphs.length :=
  List.length_modify ..

/-- A change of a paragraph that keeps its references keeps the tree. -/
theorem IsTree.modifyParagraph (tree : shape.IsTree) (id : ParagraphId)
    {change : Paragraph → Paragraph}
    (blocks : ∀ paragraph, (change paragraph).blocks = paragraph.blocks)
    (constructs : ∀ paragraph, (change paragraph).constructs = paragraph.constructs)
    (parent : ∀ paragraph, (change paragraph).parent = paragraph.parent) :
    (shape.modifyParagraph id change).IsTree := by
  refine ⟨?_, ?_, fun _ _ => parents_modifyParagraph parent tree.parents, ?_⟩
  · simp only [blockPlaces, parentPlaces, Shape.modifyParagraph]
    rw [numbered_modify _ blocks, numbered_modify _ fun paragraph => by rw [parent]]
    exact tree.references
  · simp only [constructPlaces, Shape.modifyParagraph]
    rw [numbered_modify _ constructs]
    exact tree.constructs
  · intro construct member
    rw [length_modifyParagraph]
    exact tree.scopes construct member

/-- A statement that refers to nothing keeps the tree. -/
theorem IsTree.addItem (tree : shape.IsTree) (id : ParagraphId) {item : Item}
    (noBlock : item.block? = none) (noConstruct : item.construct? = none) :
    (shape.addItem id item).IsTree := by
  refine tree.modifyParagraph id (fun paragraph => ?_) (fun paragraph => ?_) fun _ => rfl
  · simp [Paragraph.blocks, noBlock]
  · simp [Paragraph.constructs, noConstruct]

/-- A block is a new paragraph and a statement of its parent. -/
theorem IsTree.addBlock (tree : shape.IsTree) {id : Nat} {block : Paragraph}
    (inside : id < shape.paragraphs.length) (parent : block.parent = some id)
    (blank : block.items = #[]) :
    ((shape.addParagraph block).addItem id (.block shape.paragraphs.length)).IsTree := by
  have noBlocks : block.blocks = [] := by simp [Paragraph.blocks, blank]
  have noConstructs : block.constructs = [] := by simp [Paragraph.constructs, blank]
  have length : (shape.addParagraph block).paragraphs.length = shape.paragraphs.length + 1 := by
    simp [addParagraph]
  refine ⟨?_, ?_, ?_, ?_⟩
  · have blocks : ((shape.addParagraph block).addItem id
        (.block shape.paragraphs.length)).blockPlaces.Perm _ := blockPlaces_addItem (by omega)
    rw [blockPlaces_addParagraph, noBlocks, List.map_nil, List.append_nil] at blocks
    rw [parentPlaces_addItem, parentPlaces_addParagraph, parent]
    refine (blocks.append_right _).trans ?_
    rw [List.append_assoc]
    refine (List.perm_append_comm.append_left _).trans ?_
    rw [← List.append_assoc]
    exact tree.references.append_right _
  · have constructs :
        ((shape.addParagraph block).addItem id
          (.block shape.paragraphs.length)).constructPlaces.Perm _ :=
      constructPlaces_addItem (by omega)
    rw [constructPlaces_addParagraph, noConstructs, List.map_nil, List.append_nil] at constructs
    refine constructs.trans ?_
    rw [show (Item.block _).construct? = none from rfl, Option.toList_none, List.map_nil,
      List.append_nil]
    exact tree.constructs
  · exact fun _ _ => parents_modifyParagraph (fun _ => rfl)
      fun _ _ => tree.parents_addParagraph inside parent
  · intro construct member
    rw [Shape.addItem, length_modifyParagraph, length]
    exact Nat.lt_succ_of_lt (tree.scopes construct member)

/-- A construct is new and a statement of its scope. -/
theorem IsTree.addKeyword (tree : shape.IsTree) {construct : Construct}
    (inside : construct.scope < shape.paragraphs.length) (blank : construct.detail.bodies = []) :
    ((shape.addConstruct construct).addItem construct.scope
      (.construct shape.constructs.length)).IsTree := by
  refine ⟨?_, ?_, ?_, ?_⟩
  · have blocks : ((shape.addConstruct construct).addItem construct.scope
        (.construct shape.constructs.length)).blockPlaces.Perm _ := blockPlaces_addItem inside
    have bodies : ((shape.addConstruct construct).addItem construct.scope
        (.construct shape.constructs.length)).bodyPlaces = shape.bodyPlaces := by
      refine (bodyPlaces_addConstruct shape construct).trans ?_
      rw [blank, List.map_nil, List.append_nil]
    rw [parentPlaces_addItem, bodies]
    refine (blocks.append_right _).trans ?_
    rw [show (Item.construct _).block? = none from rfl, Option.toList_none, List.map_nil,
      List.append_nil]
    exact tree.references
  · have constructs : ((shape.addConstruct construct).addItem construct.scope
        (.construct shape.constructs.length)).constructPlaces.Perm
          _ := constructPlaces_addItem inside
    exact constructs.trans (scopePlaces_addConstruct ▸ tree.constructs.append_right _)
  · exact fun _ _ => parents_modifyParagraph (fun _ => rfl) tree.parents
  · intro other member
    rw [Shape.addItem, length_modifyParagraph]
    rcases List.mem_append.1 member with old | new
    · exact tree.scopes other old
    · rw [List.mem_singleton.1 new]
      exact inside

theorem mem_modifyDetail {id : ConstructId} {change : Detail → Detail} {found : Construct}
    (member : found ∈ (shape.modifyDetail id change).constructs) :
    ∃ before ∈ shape.constructs, found.scope = before.scope := by
  obtain ⟨position, inside, rfl⟩ := List.mem_iff_getElem.1 member
  have within : position < shape.constructs.length := by
    simpa [modifyDetail] using inside
  refine ⟨shape.constructs.get ⟨position, within⟩, List.get_mem .., ?_⟩
  simp only [modifyDetail, List.getElem_modify, List.get_eq_getElem]
  split <;> rfl

/-- A body of a construct is a new paragraph whose parent is the scope of the construct. -/
theorem IsTree.addSlot (tree : shape.IsTree) {id : Nat} {construct : Construct} {slot : Paragraph}
    {change : Detail → Detail} (known : shape.constructs[id]? = some construct)
    (parent : slot.parent = some construct.scope) (blank : slot.items = #[])
    (adds : (change construct.detail).bodies =
      construct.detail.bodies ++ [shape.paragraphs.length]) :
    ((shape.addParagraph slot).modifyDetail id change).IsTree := by
  have noBlocks : slot.blocks = [] := by simp [Paragraph.blocks, blank]
  have noConstructs : slot.constructs = [] := by simp [Paragraph.constructs, blank]
  have inside : construct.scope < shape.paragraphs.length :=
    tree.scopes construct (List.mem_of_getElem? known)
  refine ⟨?_, ?_, ?_, ?_⟩
  · have bodies : ((shape.addParagraph slot).modifyDetail id change).bodyPlaces.Perm _ :=
      bodyPlaces_modifyDetail _ known adds
    have blocks : ((shape.addParagraph slot).modifyDetail id change).blockPlaces =
        shape.blockPlaces := by
      refine (blockPlaces_addParagraph shape slot).trans ?_
      rw [noBlocks, List.map_nil, List.append_nil]
    have parents : ((shape.addParagraph slot).modifyDetail id change).parentPlaces =
        shape.parentPlaces ++ [(construct.scope, shape.paragraphs.length)] := by
      refine (parentPlaces_addParagraph shape slot).trans ?_
      rw [parent]
      rfl
    rw [blocks, parents]
    refine (bodies.append_left _).trans ?_
    rw [← List.append_assoc]
    exact tree.references.append_right _
  · have constructs : ((shape.addParagraph slot).modifyDetail id change).constructPlaces =
        shape.constructPlaces := by
      refine (constructPlaces_addParagraph shape slot).trans ?_
      rw [noConstructs, List.map_nil, List.append_nil]
    rw [constructs, scopePlaces_modifyDetail]
    exact tree.constructs
  · exact fun _ _ => tree.parents_addParagraph inside parent
  · intro found member
    obtain ⟨before, old, same⟩ := mem_modifyDetail member
    rw [same]
    refine Nat.lt_of_lt_of_le (tree.scopes before old) ?_
    simp [Shape.modifyDetail, addParagraph]

/-- A change of a construct that keeps its bodies keeps the tree. -/
theorem IsTree.modifyDetail (tree : shape.IsTree) {id : Nat} {construct : Construct}
    {change : Detail → Detail} (known : shape.constructs[id]? = some construct)
    (same : (change construct.detail).bodies = construct.detail.bodies) :
    (shape.modifyDetail id change).IsTree := by
  refine ⟨?_, ?_, tree.parents, ?_⟩
  · have bodies : (shape.modifyDetail id change).bodyPlaces.Perm _ :=
      bodyPlaces_modifyDetail [] known (by rw [same, List.append_nil])
    refine (bodies.append_left _).trans ?_
    rw [List.map_nil, List.append_nil]
    exact tree.references
  · rw [scopePlaces_modifyDetail]
    exact tree.constructs
  · intro found member
    obtain ⟨before, old, same⟩ := mem_modifyDetail member
    rw [same]
    exact tree.scopes before old

end
end Shape
end MethodLowering
