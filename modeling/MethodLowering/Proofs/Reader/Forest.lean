import Mathlib.Data.List.Pairwise
import MethodLowering.Proofs.Reader.Transitions

/-!
# The trees of a body form a forest

The statements and clauses of a finished body are trees, and their expressions are numbered.  Seen
by number, they form a forest: a part has a smaller number than what it is a part of, no number is
met twice, and a walk along the parts ends and lists every expression of a subtree once, in front of
its parts.
-/

namespace MethodLowering

open MethodLowering.Expr Body

/-- Items that share a value are the same one where no value is listed twice. -/
theorem eq_of_nodup_flatMap {α β : Type} {values : α → List β} {items : List α} {first second : α}
    {value : β} (distinct : (items.flatMap values).Nodup) (known : first ∈ items)
    (knownSecond : second ∈ items) (inside : value ∈ values first)
    (insideSecond : value ∈ values second) : first = second := by
  by_contra different
  have symmetric : Std.Symm (Function.onFun List.Disjoint values) :=
    ⟨fun _ _ disjoint _ second first => disjoint first second⟩
  have apart := (List.nodup_flatMap.1 distinct).2.forall known knownSecond different
  exact apart inside insideSecond

/-! ## The trees of a body -/

/-- The tree of an expression statement. -/
def Item.trees : Item → List Expr
  | .expression placed => [placed.expr]
  | .empty | .block _ | .construct _ => []

/-- The trees of the statements of a paragraph. -/
def Paragraph.trees (paragraph : Paragraph) : List Expr := paragraph.items.toList.flatMap Item.trees

/-- The trees of the clauses of a construct, absent where nothing is written. -/
def Detail.trees (detail : Detail) : List Expr := detail.clauses.map (·.expr)

namespace Body

/-- The trees of all statements and clauses. -/
def trees (body : Body) : List Expr :=
  body.paragraphs.toList.flatMap Paragraph.trees ++
    body.constructs.toList.flatMap fun construct => construct.detail.trees

/-- The expression with a number. -/
def numbered? (body : Body) (number : Nat) : Option Expr :=
  (body.trees.flatMap preorder).find? fun expr => expr.number == number

/-- The numbers of the parts of the expression with a number, in source order. -/
def partsOf (body : Body) (number : Nat) : List Nat :=
  match body.numbered? number with
  | some expr => expr.children.map Expr.number
  | none => []

/-- List the numbers on a stack and those of all parts, in at most `steps` steps: the number on top
is listed, and its parts take its place, the first one on top. -/
def walk (body : Body) : (steps : Nat) → (stack : List Nat) → Option (List Nat)
  | _, [] => some []
  | 0, _ :: _ => none
  | steps + 1, top :: rest => (body.walk steps (body.partsOf top ++ rest)).map (top :: ·)

/-- The second number is that of a part of the expression with the first one. -/
def HasPart (body : Body) (whole part : Nat) : Prop := part ∈ body.partsOf whole

/-- What is true of the trees of a finished body. -/
structure IsForest (body : Body) : Prop where
  /-- A part has a smaller number than what it is a part of. -/
  descends : ∀ tree ∈ body.trees, ∀ inner ∈ tree.preorder, ∀ child ∈ inner.children,
    child.number < inner.number
  /-- No number is met twice, be it in one tree or in two. -/
  distinct : (numbersOf body.trees).Nodup
  /-- All numbers were given. -/
  given : ∀ id ∈ numbersOf body.trees, id < body.nextNode
  /-- A walk from an expression ends and lists the expressions of its tree. -/
  walks : ∀ tree ∈ body.trees, ∀ inner ∈ tree.preorder, ∀ steps, inner.numbers.length ≤ steps →
    body.walk steps [inner.number] = some inner.numbers
  /-- These are the expressions that are reached along parts. -/
  reached : ∀ tree ∈ body.trees, ∀ inner ∈ tree.preorder, ∀ id,
    id ∈ inner.numbers ↔ Relation.ReflTransGen body.HasPart inner.number id
  /-- Each is listed once, in front of its parts. -/
  ordered : ∀ tree ∈ body.trees, ∀ inner ∈ tree.preorder, inner.numbers.Nodup ∧
    ∀ whole ∈ inner.numbers, ∀ part, body.HasPart whole part → [whole, part].Sublist inner.numbers

end Body

/-! ## Walking -/

namespace Expr

section

variable {expr inner : Expr}

theorem preorder_sublist (inside : inner ∈ expr.preorder) :
    inner.preorder.Sublist expr.preorder := by
  induction size : sizeOf expr using Nat.strongRecOn generalizing expr with
  | ind size induction =>
      rcases mem_preorder.1 inside with ⟨-, rfl⟩ | ⟨child, member, below⟩
      · exact List.Sublist.refl _
      · have deeper := induction _ (size ▸ sizeOf_lt_of_mem_children member) below rfl
        rw [preorder_eq (isPresent_of_child member)]
        refine (deeper.trans ?_).cons expr
        exact List.sublist_flatten_of_mem (List.mem_map_of_mem member)

end
end Expr

namespace Body

section

variable {body : Body} {tree inner : Expr}

theorem numbersOf_eq_map (trees : List Expr) :
    numbersOf trees = (trees.flatMap preorder).map Expr.number := by
  rw [List.map_flatMap]
  rfl

section

variable (distinct : (numbersOf body.trees).Nodup)
include distinct

/-- Where no number is met twice, a number leads to its expression. -/
theorem numbered?_eq (known : tree ∈ body.trees)
    (inside : inner ∈ tree.preorder) : body.numbered? inner.number = some inner := by
  have member : inner ∈ body.trees.flatMap preorder := List.mem_flatMap.2 ⟨tree, known, inside⟩
  rw [numbersOf_eq_map] at distinct
  cases found : body.numbered? inner.number with
  | none =>
      have missing := List.find?_eq_none.1 found inner member
      simp at missing
  | some other =>
      have same := List.find?_some (p := fun expr : Expr => expr.number == inner.number) found
      rw [List.inj_on_of_nodup_map distinct (List.mem_of_find?_eq_some found) member
        (eq_of_beq same)]

theorem partsOf_eq (known : tree ∈ body.trees) (inside : inner ∈ tree.preorder) :
    body.partsOf inner.number = inner.children.map Expr.number := by
  rw [partsOf, numbered?_eq distinct known inside]

/-- A walk over expressions of the body lists their trees one after another. -/
theorem walk_eq {stack : List Expr}
    (known : ∀ expr ∈ stack, ∃ tree ∈ body.trees, expr ∈ tree.preorder) {steps : Nat}
    (enough : (numbersOf stack).length ≤ steps) :
    body.walk steps (stack.map Expr.number) = some (numbersOf stack) := by
  induction steps generalizing stack with
  | zero =>
      cases stack with
      | nil => rfl
      | cons top rest =>
          obtain ⟨tree, -, inside⟩ := known top (List.mem_cons_self ..)
          have own := number_mem_numbers (isPresent_of_mem_preorder inside)
          rw [numbersOf_cons, List.length_append] at enough
          have := List.length_pos_of_mem own
          omega
  | succ steps induction =>
      cases stack with
      | nil => rfl
      | cons top rest =>
          obtain ⟨tree, member, inside⟩ := known top (List.mem_cons_self ..)
          have spelled : top.numbers = top.number :: numbersOf top.children := by
            rw [numbers, preorder_eq (isPresent_of_mem_preorder inside), List.map_cons,
              numbersOf_eq_map]
          have later : body.walk steps ((top.children ++ rest).map Expr.number) =
              some (numbersOf (top.children ++ rest)) := by
            refine induction (fun expr among => ?_) ?_
            · rcases List.mem_append.1 among with part | behind
              · exact ⟨tree, member, mem_preorder_of_child inside part⟩
              · exact known expr (List.mem_cons_of_mem _ behind)
            · rw [numbersOf_cons, spelled] at enough
              simp only [numbersOf_append, List.length_append, List.length_cons] at enough ⊢
              omega
          rw [List.map_cons, walk, partsOf_eq distinct member inside, ← List.map_append, later,
            numbersOf_cons, spelled, numbersOf_append]
          rfl

/-- Numbers tell the expressions of a body apart. -/
theorem eq_of_number {other : Expr} {expr : Expr}
    (known : tree ∈ body.trees) (inside : expr ∈ tree.preorder) (knownOther : other ∈ body.trees)
    (insideOther : inner ∈ other.preorder) (same : inner.number = expr.number) : inner = expr := by
  rw [numbersOf_eq_map] at distinct
  exact List.inj_on_of_nodup_map distinct (List.mem_flatMap.2 ⟨other, knownOther, insideOther⟩)
    (List.mem_flatMap.2 ⟨tree, known, inside⟩) same

/-- The expressions of a tree are those that are reached along parts. -/
theorem mem_numbers_iff (known : tree ∈ body.trees) (inside : inner ∈ tree.preorder) (id : Nat) :
    id ∈ inner.numbers ↔ Relation.ReflTransGen body.HasPart inner.number id := by
  constructor
  · intro member
    obtain ⟨deep, below, rfl⟩ := List.mem_map.1 member
    clear member
    induction size : sizeOf inner using Nat.strongRecOn generalizing inner with
    | ind size induction =>
        rcases mem_preorder.1 below with ⟨-, rfl⟩ | ⟨child, part, deeper⟩
        · exact .refl
        · have further := induction _ (size ▸ sizeOf_lt_of_mem_children part)
            (mem_preorder_of_child inside part) deeper rfl
          refine .head ?_ further
          rw [HasPart, partsOf_eq distinct known inside]
          exact List.mem_map_of_mem part
  · intro reaches
    induction reaches with
    | refl => exact number_mem_numbers (isPresent_of_mem_preorder inside)
    | tail _ step induction =>
        obtain ⟨whole, below, rfl⟩ := List.mem_map.1 induction
        rw [HasPart, partsOf_eq distinct known (mem_preorder_trans inside below)] at step
        obtain ⟨child, part, rfl⟩ := List.mem_map.1 step
        exact List.mem_map_of_mem (mem_preorder_of_child below part)

end

/-- Trees that are built from nothing form a forest. -/
theorem isForest_of_builds {low : Nat} (builds : Builds [] low body.trees body.nextNode) :
    body.IsForest := by
  have distinct := builds.nodup
  refine ⟨?_, distinct, builds.lt_high nofun, ?_, ?_, ?_⟩
  · exact fun tree member inner inside => builds.descends nofun nofun tree member inner inside
  · intro tree member inner inside steps enough
    have alone : numbersOf [inner] = inner.numbers := List.append_nil _
    rw [← alone] at enough ⊢
    exact walk_eq distinct (List.forall_mem_singleton.2 ⟨tree, member, inside⟩) enough
  · exact fun tree member inner inside => mem_numbers_iff distinct member inside
  · intro tree member inner inside
    refine ⟨?_, fun whole among part step => ?_⟩
    · rw [numbersOf_eq_map] at distinct
      refine distinct.sublist (List.Sublist.map _ ((preorder_sublist inside).trans ?_))
      exact List.sublist_flatten_of_mem (List.mem_map_of_mem member)
    · obtain ⟨deep, below, rfl⟩ := List.mem_map.1 among
      rw [HasPart, partsOf_eq distinct member (mem_preorder_trans inside below)] at step
      obtain ⟨child, listed, rfl⟩ := List.mem_map.1 step
      have pair : [deep, child].Sublist deep.preorder := by
        rw [preorder_eq (isPresent_of_child listed)]
        refine List.Sublist.cons_cons deep (List.singleton_sublist.2 ?_)
        exact List.mem_flatMap.2 ⟨child, listed,
          mem_preorder_self (isPresent_of_mem_children listed)⟩
      exact List.Sublist.map Expr.number (pair.trans (preorder_sublist below))

end
end Body

/-! ## Reading -/

section

variable {scope : ParagraphId} {before after body : Body} {placed : Placed} {clauses : List Placed}
  {low : Nat}

/-- Trees of entries of which one is changed. -/
theorem builds_modify {α : Type} (trees : α → List Expr) (entries : List α) (id : Nat)
    (change : α → α) (added : List Expr) (builds : ∀ entry, entries[id]? = some entry →
      Builds (trees entry ++ added) low (trees (change entry)) low) :
    Builds (entries.flatMap trees ++ added) low ((entries.modify id change).flatMap trees) low := by
  induction entries generalizing id with
  | nil =>
      rw [List.modify_nil]
      exact builds_of_sublist (List.nil_sublist _) low
  | cons entry rest induction =>
      cases id with
      | zero =>
          have moved : ((entry :: rest).flatMap trees ++ added).Perm
              (trees entry ++ added ++ rest.flatMap trees) := by
            rw [List.flatMap_cons, List.append_assoc, List.append_assoc]
            exact List.perm_append_comm.append_left _
          exact (builds_of_perm moved low).trans
            ((builds entry rfl).append (builds_refl (rest.flatMap trees) low))
      | succ id =>
          have later := induction id fun other known => builds other known
          rw [List.flatMap_cons, List.append_assoc]
          exact (builds_refl (trees entry) low).append later

theorem flatMap_modify {α : Type} (trees : α → List Expr) (entries : List α) (id : Nat)
    {change : α → α} (same : ∀ entry, trees (change entry) = trees entry) :
    (entries.modify id change).flatMap trees = entries.flatMap trees := by
  induction entries generalizing id with
  | nil => simp
  | cons entry rest induction =>
      cases id with
      | zero => simp [same]
      | succ id => simp [induction]

namespace Body

theorem trees_modifyParagraph (id : ParagraphId) {change : Paragraph → Paragraph}
    (same : ∀ paragraph, (change paragraph).items = paragraph.items) :
    (body.modifyParagraph id change).trees = body.trees := by
  rw [trees, modifyParagraph, Array.toList_modify, flatMap_modify]
  · rfl
  · intro paragraph
    rw [Paragraph.trees, same]
    rfl

theorem Declares.trees (declares : Declares scope before after) : after.trees = before.trees := by
  obtain ⟨added, nextNode, effort, rfl, -, -⟩ := declares
  exact trees_modifyParagraph scope fun _ => rfl

theorem trees_addParagraph {paragraph : Paragraph} (blank : paragraph.items = #[]) :
    (body.addParagraph paragraph).trees = body.trees := by
  simp [trees, addParagraph, Paragraph.trees, blank]

theorem trees_addConstruct {construct : Construct} (unread : construct.detail = .unread) :
    (body.addConstruct construct).trees = body.trees := by
  simp [trees, addConstruct, Detail.trees, Detail.clauses, unread]

theorem builds_addItem (id : ParagraphId) (item : Item) :
    Builds (body.trees ++ item.trees) low (body.addItem id item).trees low := by
  have moved : (body.trees ++ item.trees).Perm (body.paragraphs.toList.flatMap Paragraph.trees ++
      item.trees ++ body.constructs.toList.flatMap fun construct => construct.detail.trees) := by
    rw [trees, List.append_assoc, List.append_assoc]
    exact List.perm_append_comm.append_left _
  refine (builds_of_perm moved low).trans (Builds.append ?_ (builds_refl _ low))
  rw [addItem, modifyParagraph, Array.toList_modify]
  refine builds_modify Paragraph.trees _ id _ item.trees fun paragraph _ => ?_
  have grown : Paragraph.trees { paragraph with items := paragraph.items.push item } =
      paragraph.trees ++ item.trees := by
    simp [Paragraph.trees]
  rw [grown]
  exact builds_refl _ low

theorem builds_modifyDetail {id : ConstructId} {change : Detail → Detail} (added : List Expr)
    (builds : ∀ construct, body.constructs[id]? = some construct →
      Builds (construct.detail.trees ++ added) low (change construct.detail).trees low) :
    Builds (body.trees ++ added) low (body.modifyDetail id change).trees low := by
  rw [trees, List.append_assoc]
  refine (builds_refl _ low).append ?_
  rw [modifyDetail, Array.toList_modify]
  refine builds_modify (fun construct : Construct => construct.detail.trees) _ id _ added ?_
  intro construct known
  rw [Array.getElem?_toList] at known
  exact builds construct known

/-- A tree that was read is built from nothing, with the numbers that were taken. -/
theorem Reads.builds (reads : Reads scope before placed after) :
    Builds [] before.nextNode [placed.expr] after.nextNode := by
  obtain ⟨declares, within, -, isRead⟩ := reads
  obtain ⟨low, high, built⟩ : ∃ low high, Builds [] low [placed.expr] high := by
    obtain ⟨_, _, first, last, asClause | asStatement⟩ := isRead
    · exact ⟨_, _, readExpression_builds asClause⟩
    · exact ⟨_, _, readStatement_builds asStatement⟩
  refine ⟨declares.mark_le.2, fun id => ?_, fun _ _ => built.descends nofun nofun⟩
  have once := List.nodup_iff_count_le_one.1 built.nodup id
  by_cases used : id ∈ numbersOf [placed.expr]
  · obtain ⟨_, alone, listed⟩ := mem_numbersOf.1 used
    obtain rfl := List.mem_singleton.1 alone
    obtain ⟨inner, inside, rfl⟩ := List.mem_map.1 listed
    obtain ⟨node, known⟩ := isPresent_iff.1 (isPresent_of_mem_preorder inside)
    have bounds : before.nextNode ≤ inner.number ∧ inner.number < after.nextNode := by
      rw [number_of_node? known]
      exact (within inner inside).node node known
    rw [fresh, if_pos bounds]
    exact Nat.le_add_left_of_le once
  · rw [List.count_eq_zero.2 used]
    exact Nat.zero_le _

theorem ReadsAll.builds (reads : ReadsAll scope before clauses after) :
    Builds [] before.nextNode (clauses.map (·.expr)) after.nextNode ∧
      after.trees = before.trees := by
  induction reads with
  | nil body => exact ⟨builds_refl [] _, rfl⟩
  | cons first others induction =>
      exact ⟨first.builds.append induction.1, induction.2.trans first.declares.trees⟩

/-- Reading with class bodies taken out. -/
theorem ReadsCut.builds (reads : ReadsCut scope before placed after) :
    Builds [] before.nextNode [placed.expr] after.nextNode ∧ after.trees = before.trees := by
  obtain ⟨between, first, added, rfl, -⟩ := reads
  exact ⟨first.builds, first.declares.trees⟩

end Body

namespace Reader

variable {text rest : List Char} {frame : Frame} {frames : List Frame}

/-- A construct that opens a body has the clauses it had and those that were read. -/
theorem Opens.builds {frame : ConstructFrame} {slot : ParagraphId} {keyword : Keyword}
    {stage next : Stage} {outer inner : List Placed} {kind : ParagraphKind}
    {change : Detail → Detail}
    (opens : Opens frame slot body keyword stage outer inner kind change next) (detail : Detail) :
    Builds (detail.trees ++ (outer ++ inner).map (·.expr)) low (change detail).trees low := by
  have anew (read : List Expr) : Builds (detail.trees ++ read) low read low :=
    builds_of_sublist (List.sublist_append_right ..) low
  have kept (read : List Expr) : Builds (detail.trees ++ read) low detail.trees low :=
    builds_of_sublist (List.sublist_append_left ..) low
  have joined {read : List Expr} {after : Detail} (same : after.trees = detail.trees ++ read) :
      Builds (detail.trees ++ read) low after.trees low :=
    same ▸ builds_refl _ low
  cases opens with
  | branch condition =>
      cases detail with
      | conditional branches =>
          exact joined (by simp [Detail.withBranch, Detail.trees, Detail.clauses])
      | _ => exact anew [condition.expr]
  | otherwise keyword =>
      cases detail with
      | conditional branches =>
          have grown : (Detail.withBranch ⟨noClause frame, slot⟩ (.conditional branches)).trees =
              (Detail.conditional branches).trees ++ [.absent] := by
            simp [Detail.withBranch, Detail.trees, Detail.clauses, noClause]
          rw [grown]
          exact (kept _).trans (builds_absent _ low)
      | _ => exact (anew []).trans (builds_absent [] low)
  | handler keyword declarations some_ =>
      cases detail with
      | tryBlock guarded handlers cleanup =>
          exact joined (by simp [Detail.withHandlers, Detail.trees, Detail.clauses])
      | _ => exact kept _
  | cleanup keyword => cases detail <;> exact kept _
  | doLoop => exact (anew []).trans (builds_absent [] low)
  | _ => exact anew _

/-- Trees that were read and are placed then. -/
theorem builds_placed {read : List Expr} (between : Body) (same : between.trees = body.trees)
    (builds : Builds [] body.nextNode read between.nextNode)
    (placed : Builds (between.trees ++ read) between.nextNode after.trees between.nextNode) :
    Builds body.trees body.nextNode after.trees between.nextNode := by
  have joined := (builds_refl body.trees body.nextNode).append builds
  rw [List.append_nil] at joined
  exact joined.trans (same ▸ placed)

/-- A statement that was read is added. -/
theorem builds_statement {read : List Expr} {between : Body} (same : between.trees = body.trees)
    (builds : Builds [] body.nextNode read between.nextNode) (id : ParagraphId) {item : Item}
    (own : item.trees.Sublist read) :
    Builds body.trees body.nextNode (between.addItem id item).trees
      (between.addItem id item).nextNode := by
  refine builds_placed between same builds (Builds.trans ?_ (builds_addItem id item))
  exact builds_of_sublist ((List.Sublist.refl _).append own) _

/-- Clauses that were read become those of a construct. -/
theorem builds_clauses {read : List Expr} {between : Body} (same : between.trees = body.trees)
    (builds : Builds [] body.nextNode read between.nextNode) (id : ConstructId)
    {change : Detail → Detail}
    (clauses : ∀ detail low, Builds (detail.trees ++ read) low (change detail).trees low) :
    Builds body.trees body.nextNode (between.modifyDetail id change).trees
      (between.modifyDetail id change).nextNode :=
  builds_placed between same builds
    (builds_modifyDetail read fun construct _ => clauses construct.detail _)

/-- One step builds the trees behind it from those before it. -/
theorem Transition.builds (transition : Transition text body frame frames rest after) :
    Builds body.trees body.nextNode after.trees after.nextNode := by
  have anew {detail : Detail} {read : List Expr} (low : Nat) :
      Builds (detail.trees ++ read) low read low :=
    builds_of_sublist (List.sublist_append_right ..) low
  cases transition with
  | @brace own =>
      have same : (body.modifyParagraph own.id
          fun paragraph => { paragraph with braced := true }).trees = body.trees :=
        trees_modifyParagraph own.id fun _ => rfl
      rw [same]
      exact builds_refl ..
  | unbraced mode starts solid => exact builds_refl ..
  | close mode => exact builds_refl ..
  | empty mode => exact builds_statement rfl (builds_refl [] _) _ (List.nil_sublist _)
  | statement mode reads =>
      obtain ⟨builds, same⟩ := reads.builds
      refine builds_statement same builds _ ?_
      split
      · exact List.nil_sublist _
      · exact List.Sublist.refl _
  | @block own rest mode starts =>
      have same : (body.addParagraph
          { kind := .block, parent := some own.id, label := own.label, braced := true }).trees =
          body.trees := trees_addParagraph rfl
      exact builds_statement same (builds_refl [] _) _ (List.nil_sublist _)
  | @keyword own rest keyword mode =>
      have same : (body.addConstruct { keyword, label := own.label, scope := own.id }).trees =
          body.trees := trees_addConstruct rfl
      exact builds_statement same (builds_refl [] _) _ (List.nil_sublist _)
  | label mode => exact builds_refl ..
  | @slot own rest keyword outer inner kind change next first second named reads readsInner opens =>
      obtain ⟨buildsOuter, sameOuter⟩ := reads.builds
      obtain ⟨buildsInner, sameInner⟩ := readsInner.builds
      have slot : (first.addParagraph { kind, parent := some own.scope }).trees = first.trees :=
        trees_addParagraph rfl
      have builds := buildsOuter.append buildsInner
      rw [← List.map_append] at builds
      exact builds_clauses (sameInner.trans (slot.trans sameOuter)) builds _
        fun detail _ => opens.builds detail
  | elseIf stage => exact builds_refl ..
  | doWhile stage => exact builds_refl ..
  | doCondition stage reads =>
      refine builds_clauses reads.declares.trees reads.builds _ fun detail low => ?_
      cases detail with
      | doLoop body old => exact anew low
      | _ => exact builds_of_sublist (List.sublist_append_left ..) low
  | leave stage => exact builds_refl ..
  | @value own rest keyword value between handle stage named exits reads handles =>
      obtain ⟨builds, same⟩ := reads.builds
      have still : { between with returnsHandle := between.returnsHandle || handle }.trees =
          body.trees := same
      exact builds_clauses still builds own.id fun _ low => anew low
  | jump stage named jumps =>
      exact builds_clauses rfl (builds_refl [] _) _
        fun detail low => (anew low).trans (builds_absent [] low)
  | caseLabel stage named reads =>
      exact builds_clauses reads.declares.trees reads.builds _ fun _ low => anew low
  | defaultLabel stage named =>
      exact builds_clauses rfl (builds_refl [] _) _ fun _ low => anew low

theorem Reaches.builds {reader next : Reader} (reaches : Reaches reader next) :
    Builds reader.body.trees reader.body.nextNode next.body.trees next.body.nextNode := by
  induction reaches with
  | refl => exact builds_refl ..
  | tail _ moves induction =>
      refine induction.trans ?_
      cases moves.advances with
      | step transition => exact transition.builds
      | feed reader line => exact builds_refl ..

end Reader

/-- **Ownership.**  The trees of a body that is read successfully form a forest. -/
theorem Body.ofLines_forest {context : Context} {options : Options} {lines : List String}
    (read : Body.ofLines context options lines = .ok body) : body.IsForest := by
  obtain ⟨reader, reaches, -, rfl⟩ := Body.ofLines_reaches read
  have builds := reaches.builds
  have blank : (Body.initial context options).trees = [] := (declares_initial context options).trees
  rw [show (Reader.initial context options).body.trees = [] from blank] at builds
  exact isForest_of_builds builds

/-- A qualifier, a comma and the type of a cast leave numbers that no tree has. -/
theorem Body.ofLines_forest_orphans :
    ∃ body, Body.ofLines {} {} ["new a.B(1, (T) c);", "x[0]++;"] = .ok body ∧
      body.nextNode = 12 ∧ body.IsForest := by
  have reads : ((Body.ofLines {} {} ["new a.B(1, (T) c);", "x[0]++;"]).toOption.map
      fun body => body.nextNode) = some 12 := by decide +kernel
  revert reads
  cases read : Body.ofLines {} {} ["new a.B(1, (T) c);", "x[0]++;"] with
  | error failure => exact nofun
  | ok body => exact fun count => ⟨body, rfl, Option.some.inj count, Body.ofLines_forest read⟩

end
end MethodLowering
