import Mathlib.Data.List.Count
import MethodLowering.Proofs.Reader.Forest
import MethodLowering.Proofs.Reader.WellFormed

/-!
# Tours of a body

From the method body every paragraph of a finished body is reached once along the references of
statements, and every construct once in the paragraph in which it stands.  A tour over the
statements of a paragraph and of the paragraphs in it therefore meets every tree of the body once.
-/

namespace MethodLowering

open MethodLowering.Expr

namespace Body

/-- The paragraphs that the statements of a paragraph refer to. -/
def slots (body : Body) (id : ParagraphId) : List ParagraphId :=
  body.paragraphs[id]?.toList.flatMap fun paragraph => paragraph.items.toList.flatMap body.targets

/-- A paragraph and the paragraphs in it, of which at most `nesting` levels are entered. -/
def paragraphsFrom (body : Body) : (nesting : Nat) → ParagraphId → List ParagraphId
  | 0, _ => []
  | nesting + 1, id => id :: (body.slots id).flatMap (body.paragraphsFrom nesting)

/-- The trees of the clauses of a construct. -/
def clauseTrees (body : Body) (id : ConstructId) : List Expr :=
  body.constructs[id]?.toList.flatMap fun construct => construct.detail.trees

/-- The trees of a statement: its own or those of the clauses of a construct. -/
def ownTrees (body : Body) (item : Item) : List Expr :=
  item.trees ++ item.construct?.toList.flatMap body.clauseTrees

/-- The trees of the statements of a paragraph. -/
def treesAt (body : Body) (id : ParagraphId) : List Expr :=
  body.paragraphs[id]?.toList.flatMap fun paragraph => paragraph.items.toList.flatMap body.ownTrees

/-- The trees of a statement and those of the paragraphs in it. -/
def itemTrees (body : Body) (paragraph : ParagraphId → List Expr) (item : Item) : List Expr :=
  body.ownTrees item ++ (body.targets item).flatMap paragraph

/-- The trees of a paragraph and of the paragraphs in it, of which at most `nesting` levels are
entered. -/
def treesFrom (body : Body) : (nesting : Nat) → ParagraphId → List Expr
  | 0, _ => []
  | nesting + 1, id => body.paragraphs[id]?.toList.flatMap fun paragraph =>
      paragraph.items.toList.flatMap (body.itemTrees (body.treesFrom nesting))

section

variable {body : Body} {id nesting : Nat}

/-! ## Paragraphs -/

/-- The references behind a paragraph are those of its statements. -/
theorem count_slots (place id : Nat) :
    (body.slots place).count id = body.references.count (place, id) := by
  cases known : body.paragraphs[place]? with
  | none =>
      have absent : (place, id) ∉ body.references := by
        intro member
        obtain ⟨position, paragraph, same, found, -⟩ := mem_numbered.1 member
        rw [Nat.zero_add] at same
        rw [Array.getElem?_toList, ← same, known] at found
        contradiction
      rw [List.count_eq_zero.2 absent, slots, known]
      rfl
  | some paragraph =>
      let entries (paragraph : Paragraph) := paragraph.items.toList.flatMap body.targets
      have own : body.references.filter (fun entry => entry.1 == 0 + place) =
          (entries paragraph).map fun entry => (0 + place, entry) :=
        numbered_filter (by rw [Array.getElem?_toList, known]) 0
      rw [Nat.zero_add] at own
      have mapped := List.count_map_of_injective (entries paragraph) (fun entry => (place, entry))
        (fun _ _ same => (Prod.mk.inj same).2) id
      rw [← own, List.count_filter (by simp)] at mapped
      rw [mapped, slots, known]
      simp [entries]

/-- A paragraph in another one is referred to once, from its parent. -/
theorem WellFormed.count_slots (wellFormed : body.WellFormed) {paragraph : Paragraph}
    (known : body.paragraphs[id]? = some paragraph) (inner : id ≠ Body.root) :
    ∃ parent < id, ∀ place, (body.slots place).count id = if place = parent then 1 else 0 := by
  obtain ⟨parent, below, -, once⟩ := wellFormed.referenced id paragraph known inner
  refine ⟨parent, below, fun place => ?_⟩
  have filtered : (body.references.filter fun entry => entry.2 == id).count (place, id) =
      body.references.count (place, id) := List.count_filter (by simp)
  rw [Body.count_slots, ← filtered, once, List.count_singleton]
  by_cases same : place = parent
  · simp [same]
  · simp [same, Ne.symm same]

/-- Nothing refers to the method body. -/
theorem WellFormed.count_slots_root (wellFormed : body.WellFormed) (place : Nat)
    (first : id = Body.root) : (body.slots place).count id = 0 := by
  rw [Body.count_slots, List.count_eq_zero]
  exact fun member => (wellFormed.existing _ member).1 first

/-- References lead to paragraphs of the body. -/
theorem WellFormed.lt_of_mem_slots (wellFormed : body.WellFormed) {place : Nat}
    (member : id ∈ body.slots place) : id < body.paragraphs.size := by
  have listed := List.count_pos_iff.2 member
  rw [Body.count_slots] at listed
  exact (wellFormed.existing _ (List.count_pos_iff.1 listed)).2

theorem map_snd_numbered {α β : Type} (entries : α → List β) (first : Nat) (elements : List α) :
    (numbered entries first elements).map Prod.snd = elements.flatMap entries := by
  induction elements generalizing first with
  | nil => rfl
  | cons element rest induction =>
      rw [numbered, List.map_append, induction, List.map_map, List.flatMap_cons]
      simp [Function.comp_def]

/-- What only one place refers to, and only once, is referred to as often as the place is listed. -/
theorem count_flatMap_of_once {slots : Nat → List Nat} {parent : Nat}
    (once : ∀ place, (slots place).count id = if place = parent then 1 else 0) (places : List Nat) :
    (places.flatMap slots).count id = places.count parent := by
  induction places with
  | nil => rfl
  | cons place rest induction =>
      rw [List.flatMap_cons, List.count_append, induction, once, List.count_cons, Nat.add_comm]
      simp

/-- Entering one level more adds what the paragraphs that were reached refer to. -/
theorem paragraphsFrom_succ_perm (nesting id : Nat) :
    (body.paragraphsFrom (nesting + 1) id).Perm
      (id :: (body.paragraphsFrom nesting id).flatMap body.slots) := by
  induction nesting generalizing id with
  | zero => simp [paragraphsFrom]
  | succ nesting induction =>
      refine List.Perm.cons id ?_
      rw [paragraphsFrom, List.flatMap_cons]
      refine (List.Perm.flatMap_left (body.slots id) fun slot _ => induction slot).trans ?_
      refine (List.map_append_flatMap_perm (body.slots id) (fun slot => slot) _).symm.trans ?_
      rw [List.map_id', List.flatMap_assoc]

theorem WellFormed.lt_of_mem_paragraphsFrom (wellFormed : body.WellFormed)
    (member : id ∈ body.paragraphsFrom nesting Body.root) : id < body.paragraphs.size := by
  cases nesting with
  | zero => contradiction
  | succ nesting =>
      rcases List.mem_cons.1 ((paragraphsFrom_succ_perm nesting Body.root).mem_iff.1 member) with
        rfl | deeper
      · obtain ⟨paragraph, known, -⟩ := wellFormed.root
        exact (Array.getElem?_eq_some_iff.1 known).1
      · obtain ⟨place, -, slot⟩ := List.mem_flatMap.1 deeper
        exact wellFormed.lt_of_mem_slots slot

/-- Every paragraph is reached once. -/
theorem WellFormed.count_paragraphsFrom (wellFormed : body.WellFormed) (id : Nat)
    (inside : id < body.paragraphs.size) (deep : id < nesting) :
    (body.paragraphsFrom nesting Body.root).count id = 1 := by
  induction id using Nat.strongRecOn generalizing nesting with
  | ind id induction =>
      obtain ⟨nesting, rfl⟩ := Nat.exists_eq_add_one_of_ne_zero (Nat.ne_zero_of_lt deep)
      rw [(paragraphsFrom_succ_perm nesting Body.root).count_eq, List.count_cons]
      have known : body.paragraphs[id]? = some body.paragraphs[id] :=
        Array.getElem?_eq_getElem inside
      by_cases first : id = Body.root
      · have none : id ∉ (body.paragraphsFrom nesting Body.root).flatMap body.slots := by
          intro listed
          obtain ⟨place, -, refers⟩ := List.mem_flatMap.1 listed
          exact List.count_eq_zero.1 (wellFormed.count_slots_root place first) refers
        rw [List.count_eq_zero.2 none]
        simp [first]
      · obtain ⟨parent, below, once⟩ := wellFormed.count_slots known first
        have above := @induction parent below nesting (by omega) (by omega)
        rw [count_flatMap_of_once once, above, if_neg (by simpa using Ne.symm first)]

/-- The paragraphs of a body are reached in some order. -/
theorem WellFormed.paragraphsFrom_perm (wellFormed : body.WellFormed) :
    (body.paragraphsFrom body.paragraphs.size Body.root).Perm
      (List.range body.paragraphs.size) := by
  rw [List.perm_iff_count]
  intro id
  by_cases inside : id < body.paragraphs.size
  · rw [wellFormed.count_paragraphsFrom id inside inside,
      List.count_eq_one_of_mem List.nodup_range (List.mem_range.2 inside)]
  · rw [List.count_eq_zero.2 (fun member => inside (List.mem_range.1 member)), List.count_eq_zero]
    intro member
    exact inside (wellFormed.lt_of_mem_paragraphsFrom member)

/-! ## Trees -/

/-- The tour over the trees goes through the paragraphs that are reached. -/
theorem treesFrom_perm (nesting id : Nat) : (body.treesFrom nesting id).Perm
    ((body.paragraphsFrom nesting id).flatMap body.treesAt) := by
  induction nesting generalizing id with
  | zero => exact List.Perm.refl _
  | succ nesting induction =>
      rw [treesFrom, paragraphsFrom, List.flatMap_cons, treesAt, slots]
      cases body.paragraphs[id]? with
      | none => exact List.Perm.refl _
      | some paragraph =>
          simp only [Option.toList_some, List.flatMap_singleton]
          refine (List.flatMap_append_perm _ body.ownTrees _).symm.trans
            (List.Perm.append_left _ ?_)
          rw [← List.flatMap_assoc, List.flatMap_assoc (g := body.treesAt)]
          exact List.Perm.flatMap_left _ fun slot _ => induction slot

/-- Elements by their positions. -/
theorem flatMap_range {α β : Type} (elements : List α) (entries : α → List β) :
    ((List.range elements.length).flatMap fun position =>
      elements[position]?.toList.flatMap entries) = elements.flatMap entries := by
  induction elements with
  | nil => rfl
  | cons element rest induction =>
      rw [List.length_cons, List.range_succ_eq_map, List.flatMap_cons, List.flatMap_map]
      simp [induction]

/-- Every construct stands in one paragraph. -/
theorem WellFormed.constructs_perm (wellFormed : body.WellFormed) :
    (body.paragraphs.toList.flatMap Paragraph.constructs).Perm
      (List.range body.constructs.size) := by
  have places : body.paragraphs.toList.flatMap Paragraph.constructs =
      body.constructPlaces.map Prod.snd := (map_snd_numbered _ 0 _).symm
  rw [places, List.perm_iff_count]
  intro id
  have listed : (body.constructPlaces.map Prod.snd).count id =
      (body.constructPlaces.filter fun place => place.2 == id).length := by
    rw [List.count, List.countP_map, List.countP_eq_length_filter]
    rfl
  by_cases inside : id < body.constructs.size
  · rw [listed, wellFormed.placed id _ (Array.getElem?_eq_getElem inside),
      List.count_eq_one_of_mem List.nodup_range (List.mem_range.2 inside)]
    rfl
  · rw [List.count_eq_zero.2 (fun member => inside (List.mem_range.1 member)), List.count_eq_zero]
    intro member
    obtain ⟨place, among, rfl⟩ := List.mem_map.1 member
    exact inside (wellFormed.known place among)

/-- **Tours.**  A tour from the method body meets every tree of the body once. -/
theorem WellFormed.treesFrom_perm (wellFormed : body.WellFormed) :
    (body.treesFrom body.paragraphs.size Body.root).Perm body.trees := by
  have items (items : List Item) : (items.flatMap body.ownTrees).Perm
      (items.flatMap Item.trees ++ (items.filterMap Item.construct?).flatMap body.clauseTrees) := by
    rw [List.filterMap_eq_flatMap_toList, List.flatMap_assoc]
    exact (List.flatMap_append_perm items Item.trees _).symm
  calc
    (body.treesFrom body.paragraphs.size Body.root).Perm
        ((body.paragraphsFrom body.paragraphs.size Body.root).flatMap body.treesAt) :=
      Body.treesFrom_perm ..
    List.Perm _ ((List.range body.paragraphs.size).flatMap body.treesAt) :=
      wellFormed.paragraphsFrom_perm.flatMap_right _
    List.Perm _ (body.paragraphs.toList.flatMap fun paragraph =>
        paragraph.items.toList.flatMap body.ownTrees) := by
      rw [← flatMap_range body.paragraphs.toList]
      simp only [Array.length_toList, Array.getElem?_toList]
      exact List.Perm.refl _
    List.Perm _ (body.paragraphs.toList.flatMap fun paragraph => paragraph.trees ++
        paragraph.constructs.flatMap body.clauseTrees) :=
      List.Perm.flatMap_left _ fun paragraph _ => items paragraph.items.toList
    List.Perm _ (body.paragraphs.toList.flatMap Paragraph.trees ++
        (body.paragraphs.toList.flatMap Paragraph.constructs).flatMap body.clauseTrees) := by
      rw [List.flatMap_assoc]
      exact (List.flatMap_append_perm _ Paragraph.trees _).symm
    List.Perm _ body.trees := by
      refine List.Perm.append_left _ ((wellFormed.constructs_perm.flatMap_right _).trans ?_)
      rw [← flatMap_range body.constructs.toList]
      simp only [Array.length_toList, Array.getElem?_toList]
      exact List.Perm.refl _

end
end Body
end MethodLowering
