import MethodLowering.Body.Basic
import MethodLowering.Proofs.Expr.Everywhere

/-!
# What reading a statement does to a body

Reading a statement adds variables to one paragraph and counts nodes; the rest of the body stays as
it is.  The nodes and variables of the tree that is read are among those added, so a later statement
does not touch them.
-/

namespace MethodLowering

/-! ## Numbers of a tree -/

/-- How many variables and expression nodes there are. -/
structure Mark where
  vars : Nat
  nodes : Nat

instance : LE Mark := ⟨fun low high => low.vars ≤ high.vars ∧ low.nodes ≤ high.nodes⟩

theorem Mark.le_refl (mark : Mark) : mark ≤ mark := ⟨Nat.le_refl _, Nat.le_refl _⟩

theorem Mark.le_trans {low middle high : Mark} (left : low ≤ middle) (right : middle ≤ high) :
    low ≤ high :=
  ⟨Nat.le_trans left.1 right.1, Nat.le_trans left.2 right.2⟩

/-- The node was made between two marks. -/
def Node.Within (low high : Mark) (node : Node) : Prop :=
  low.nodes ≤ node.id ∧ node.id < high.nodes

namespace Expr

/-- The variable that the expression itself declares. -/
def ownVariable? : Expr → Option VariableId
  | declaration _ declared _ => some declared
  | _ => none

/-- The node and the variable of the expression itself were made between two marks. -/
structure IsNumbered (low high : Mark) (expr : Expr) : Prop where
  node : ∀ node, expr.node? = some node → node.Within low high
  declared : ∀ id, expr.ownVariable? = some id → low.vars ≤ id ∧ id < high.vars

/-- All nodes and variables of the tree were made between two marks. -/
def Within (low high : Mark) (expr : Expr) : Prop := expr.Everywhere (IsNumbered low high)

section

variable {low high higher : Mark} {expr : Expr} {node : Node}

theorem within_absent : absent.Within low high := everywhere_absent

theorem Within.mono (within : expr.Within low high) (above : high ≤ higher) :
    expr.Within low higher := by
  intro inner inside
  obtain ⟨own, declared⟩ := within inner inside
  exact ⟨fun node known => ⟨(own node known).1, Nat.lt_of_lt_of_le (own node known).2 above.2⟩,
    fun id known => ⟨(declared id known).1, Nat.lt_of_lt_of_le (declared id known).2 above.1⟩⟩

theorem within_declaration {declared : VariableId} {continued : Bool} (own : node.Within low high)
    (above : low.vars ≤ declared) (below : declared < high.vars) :
    (declaration node declared continued).Within low high := by
  refine (everywhere_iff rfl).2 ⟨⟨?_, ?_⟩, by simp [children]⟩
  · intro other same
    rw [node?, Option.some.injEq] at same
    exact same ▸ own
  · intro id same
    rw [ownVariable?, Option.some.injEq] at same
    exact same ▸ ⟨above, below⟩

/-- The parts of a tree within two marks are within them. -/
theorem Within.of_mem {items : List Expr} {part : Expr} (within : expr.Within low high)
    (present : expr.isPresent = true) (parts : expr.children = items.filter isPresent)
    (member : part ∈ items) : part.Within low high :=
  everywhere_of_mem (parts ▸ ((everywhere_iff present).1 within).2) member

theorem Within.ownNode (within : expr.Within low high) (known : expr.node? = some node) :
    node.Within low high :=
  ((everywhere_iff (isPresent_iff.2 ⟨node, known⟩)).1 within).1.node node known

/-- A variable declared by an expression within two marks is between them. -/
theorem declaredVariable?_within {id : VariableId} (within : expr.Within low high)
    (found : expr.declaredVariable? = some id) : low.vars ≤ id ∧ id < high.vars := by
  unfold Expr.declaredVariable? at found
  split at found
  · obtain rfl := Option.some.inj found
    exact ((Expr.everywhere_iff rfl).1 within).1.declared _ rfl
  · rename_i node op target declared continued value
    obtain rfl := Option.some.inj found
    have inner : (Expr.declaration target declared continued).Within low high :=
      within.of_mem rfl rfl (List.mem_cons_self ..)
    exact ((Expr.everywhere_iff rfl).1 inner).1.declared _ rfl
  · contradiction

end
end Expr

/-! ## Extended bodies -/

/-- The variable belongs to the paragraph and is no field, and its category is that of its type. -/
structure Variable.IsLocal (extra : List String) (scope : ParagraphId)
    (entry : Variable) : Prop where
  scope : entry.scope = some scope
  category : entry.category = TypeName.classify extra entry.typeName.toList
  noField : entry.isField = false

theorem Variable.category_ofType {extra : List String} {name typeName : String}
    {isFinal isStatic : Bool} {origin : VariableOrigin} {scope : Option ParagraphId} :
    let entry := ofType extra name typeName isFinal isStatic origin scope
    entry.category = TypeName.classify extra entry.typeName.toList := by
  simp only [ofType]

theorem Variable.isLocal_ofType {extra : List String} {name typeName : String}
    {isFinal isStatic : Bool} {origin : VariableOrigin} {scope : ParagraphId}
    (noField : (ofType extra name typeName isFinal isStatic origin (some scope)).isField = false) :
    (ofType extra name typeName isFinal isStatic origin (some scope)).IsLocal extra scope :=
  ⟨rfl, category_ofType, noField⟩

namespace Body

/-- What has been numbered so far. -/
def mark (body : Body) : Mark := ⟨body.vars.size, body.nextNode⟩

/-- The body with further variables of a paragraph and other counters. -/
def extended (body : Body) (scope : ParagraphId) (added : List Variable) (nextNode : Nat)
    (effort : Effort) : Body :=
  { body with
    vars := body.vars ++ added.toArray
    paragraphs := body.paragraphs.modify scope fun paragraph =>
      { paragraph with
        vars := paragraph.vars ++ (List.range' body.vars.size added.length).toArray }
    nextNode
    effort }

/-- The second body is the first one after reading in the scope of a paragraph: variables of this
paragraph are added and nodes are counted. -/
def Declares (scope : ParagraphId) (before after : Body) : Prop :=
  ∃ added nextNode effort, after = before.extended scope added nextNode effort ∧
    before.nextNode ≤ nextNode ∧ ∀ entry ∈ added, entry.IsLocal before.extraContainers scope

section

variable {scope : ParagraphId} {before between after body : Body} {added further : List Variable}
  {nextNode : Nat} {effort : Effort}

theorem modify_modify {α : Type} (entries : Array α) (id : Nat) (first second : α → α) :
    (entries.modify id first).modify id second = entries.modify id (second ∘ first) := by
  apply Array.ext_getElem?
  intro position
  simp only [Array.getElem?_modify]
  split
  · rw [Option.map_map]
  · rfl

theorem modify_id {α : Type} (entries : Array α) (id : Nat) :
    (entries.modify id fun entry => entry) = entries := by
  apply Array.ext_getElem?
  intro position
  rw [Array.getElem?_modify]
  split
  · rw [Option.map_id']
  · rfl

theorem extended_nil (body : Body) (scope : ParagraphId) :
    body.extended scope [] nextNode effort = { body with nextNode, effort } := by
  rw [extended]
  simp only [List.length_nil, List.range'_zero, Array.append_empty]
  rw [show (body.paragraphs.modify scope fun paragraph => paragraph) = body.paragraphs from
    modify_id ..]

theorem extended_extended {laterNode : Nat} {laterEffort : Effort} :
    (body.extended scope added nextNode effort).extended scope further laterNode laterEffort =
      body.extended scope (added ++ further) laterNode laterEffort := by
  rw [extended, extended, extended]
  simp only [Body.mk.injEq, true_and, and_true]
  constructor
  · rw [modify_modify]
    congr 1
    funext paragraph
    simp only [Function.comp_apply, Array.size_append, List.size_toArray, List.length_append,
      Array.append_assoc, List.append_toArray, List.range'_append_1]
  · simp only [Array.append_assoc, List.append_toArray]

theorem Declares.refl (scope : ParagraphId) (body : Body) : Declares scope body body :=
  ⟨[], body.nextNode, body.effort, (extended_nil body scope).symm, Nat.le_refl _, by simp⟩

theorem Declares.trans (first : Declares scope before between)
    (second : Declares scope between after) : Declares scope before after := by
  obtain ⟨added, nextNode, effort, rfl, above, owned⟩ := first
  obtain ⟨further, laterNode, laterEffort, rfl, higher, laterOwned⟩ := second
  refine ⟨added ++ further, laterNode, laterEffort, extended_extended,
    Nat.le_trans above higher, ?_⟩
  intro entry member
  rcases List.mem_append.1 member with early | late
  · exact owned entry early
  · exact laterOwned entry late

/-- Counting nodes and work declares nothing. -/
theorem declares_count (scope : ParagraphId) (above : body.nextNode ≤ nextNode) :
    Declares scope body { body with nextNode, effort } :=
  ⟨[], nextNode, effort, (extended_nil body scope).symm, above, by simp⟩

theorem declares_declare {entry : Variable} (isLocal : entry.IsLocal body.extraContainers scope) :
    Declares scope body (body.declare entry) := by
  refine ⟨[entry], body.nextNode, body.effort, ?_, Nat.le_refl _, by simpa using isLocal⟩
  rw [declare, isLocal.scope]
  simp [extended, modifyParagraph]

/-- What is declared does not depend on the numbering of nodes. -/
theorem declare_with (body : Body) (entry : Variable) (nextNode : Nat) (effort : Effort) :
    { body with nextNode, effort }.declare entry =
      { body.declare entry with nextNode, effort } := by
  rw [declare, declare]
  cases entry.scope <;> rfl

theorem vars_declare (body : Body) (entry : Variable) :
    (body.declare entry).vars = body.vars.push entry := by
  rw [declare]
  cases entry.scope <;> rfl

/-- A variable that was added last may still be given another type. -/
theorem retype_declare (body : Body) (entry : Variable) (typeName : String) :
    (body.declare entry).retype body.vars.size typeName =
      body.declare (entry.withType body.extraContainers typeName) := by
  have modified :
      (body.vars.push entry).modify body.vars.size (·.withType body.extraContainers typeName) =
      body.vars.push (entry.withType body.extraContainers typeName) := by
    apply Array.ext_getElem?
    intro position
    rw [Array.getElem?_modify, Array.getElem?_push, Array.getElem?_push]
    split
    · next same =>
        subst same
        rw [if_pos rfl, if_pos rfl]
        rfl
    · next other => rw [if_neg (Ne.symm other), if_neg (Ne.symm other)]
  rw [declare, declare, show (entry.withType body.extraContainers typeName).scope =
    entry.scope from rfl]
  cases entry.scope <;>
    simp only [retype, extraContainers, modifyParagraph, Body.mk.injEq, true_and, and_true]
  · exact modified
  · exact modified

section

variable (declares : Declares scope before after)
include declares

/-- A variable that was added since may still be given another type. -/
theorem Declares.retype {id : Nat} (recent : before.vars.size ≤ id) (typeName : String) :
    Declares scope before (after.retype id typeName) := by
  obtain ⟨added, nextNode, effort, rfl, above, owned⟩ := declares
  let change (entry : Variable) : Variable := entry.withType before.extraContainers typeName
  refine ⟨added.modify (id - before.vars.size) change, nextNode, effort, ?_, above, ?_⟩
  · have moved : (before.vars ++ added.toArray).modify id change =
        before.vars ++ (added.modify (id - before.vars.size) change).toArray := by
      apply Array.ext_getElem?
      intro position
      rw [Array.getElem?_modify, Array.getElem?_append, Array.getElem?_append]
      by_cases early : position < before.vars.size
      · have other : id ≠ position := by omega
        simp [early, other]
      · simp only [early, if_false, List.getElem?_toArray, List.getElem?_modify]
        by_cases same : id = position
        · simp [same]
        · have other : id - before.vars.size ≠ position - before.vars.size := by omega
          simp [same, other]
    rw [Body.retype]
    simp only [extended, Body.mk.injEq, true_and, List.length_modify, and_true]
    exact moved
  · intro entry member
    obtain ⟨position, inside, rfl⟩ := List.mem_iff_getElem.1 member
    rw [List.getElem_modify]
    have own := owned (added.get ⟨position, by simpa using inside⟩) (List.getElem_mem _)
    split
    · exact ⟨own.scope, Variable.category_ofType, own.noField⟩
    · exact own

theorem Declares.mark_le : before.mark ≤ after.mark := by
  obtain ⟨added, nextNode, effort, rfl, above, -⟩ := declares
  refine ⟨?_, above⟩
  simp [mark, extended]

theorem Declares.context : after.context = before.context := by
  obtain ⟨added, nextNode, effort, rfl, -, -⟩ := declares
  rfl

theorem Declares.options : after.options = before.options := by
  obtain ⟨added, nextNode, effort, rfl, -, -⟩ := declares
  rfl

/-- A variable added since belongs to the paragraph. -/
theorem Declares.scope_of_getElem? {id : VariableId} {entry : Variable}
    (recent : before.vars.size ≤ id)
    (known : after.vars[id]? = some entry) : entry.scope = some scope := by
  obtain ⟨added, nextNode, effort, rfl, -, owned⟩ := declares
  rw [extended, Array.getElem?_append, if_neg (by omega), List.getElem?_toArray] at known
  exact (owned entry (List.mem_of_getElem? known)).scope

end

/-- The body before any text is read declares parameters only. -/
theorem declares_initial (context : Context) (options : Options) :
    Declares root { context, options, paragraphs := #[{ kind := .root, parent := none }] }
      (initial context options) := by
  have extra :
      ({ context, options, paragraphs := #[{ kind := .root, parent := none }] } : Body).options =
      options := rfl
  rw [initial]
  generalize ({ context, options, paragraphs := #[{ kind := .root, parent := none }] } : Body) =
    body
    at extra ⊢
  generalize context.parameters = parameters
  induction parameters generalizing body with
  | nil => exact .refl root body
  | cons parameter rest induction =>
      have first : Declares root body (body.declare (parameterVariable options parameter)) :=
        declares_declare (by rw [extraContainers, extra]; exact Variable.isLocal_ofType rfl)
      exact first.trans (induction _ (first.options.trans extra))

end
end Body
end MethodLowering
