import MethodLowering.Proofs.Expr.Ownership
import MethodLowering.Proofs.Reduction.Declaring

/-!
# Every expression belongs to one tree

A reduction takes each segment of a range into one operand, and each operand into one expression.
So the tree of a statement is built from nothing: no number occurs in it twice, and every part has a
smaller number than the expression it is a part of.
-/

namespace MethodLowering

open MethodLowering.Expr

namespace Reduction

/-- The finished expressions among segments. -/
def treesIn (segments : List Segment) : List Expr := segments.filterMap Segment.tree?

/-- Where the computation succeeds, the trees of its value are built from the sources with the
numbers that it takes. -/
def Assembles {α : Type} (sources : List Expr) (trees : α → List Expr) (state : Reduction)
    (computation : ReduceM α) : Prop :=
  Gives computation state fun value after =>
    Builds sources state.body.nextNode (trees value) after.body.nextNode

/-- The tree of an operand, absent where there is none. -/
def operandTree (operand : Option Expr) : List Expr := [operand.getD .absent]

/-- The trees behind a fold. -/
def foldTrees (folded : OnSegments.Folded) : List Expr :=
  treesIn folded.front ++ folded.expr :: treesIn folded.back

/-- Operands are built from the trees among their segments. -/
def AssemblesOperands (onSegments : OnSegments.Operands) : Prop :=
  ∀ segments state, Assembles (treesIn segments) operandTree state (onSegments segments)

section

variable {α β : Type} {sources others rest : List Expr} {state : Reduction}
  {before after segments : List Segment} {onSegments : OnSegments.Operands}

@[simp] theorem treesIn_append (left right : List Segment) :
    treesIn (left ++ right) = treesIn left ++ treesIn right :=
  List.filterMap_append

theorem treesIn_cons_tree (span : Span) (expr : Expr) (segments : List Segment) :
    treesIn (⟨span, .tree expr⟩ :: segments) = expr :: treesIn segments := rfl

theorem Assembles.bind {middle : α → List Expr} {trees : β → List Expr} {computation : ReduceM α}
    {next : α → ReduceM β} (first : Assembles sources middle state computation)
    (later : ∀ value after, Assembles (middle value) trees after (next value)) :
    Assembles sources trees state (computation >>= next) := by
  refine Gives.bind first fun value between builds result after ended => ?_
  exact builds.trans (later value between result after ended)

theorem Assembles.given {trees : α → List Expr} {computation : ReduceM α}
    (builds : Builds sources state.body.nextNode others state.body.nextNode)
    (assembles : Assembles others trees state computation) :
    Assembles sources trees state computation :=
  fun value after result => builds.trans (assembles value after result)

theorem Assembles.pure {trees : α → List Expr} {value : α}
    (builds : Builds sources state.body.nextNode (trees value) state.body.nextNode) :
    Assembles sources trees state (Pure.pure value) :=
  .of_ok rfl builds

theorem Assembles.reject {trees : α → List Expr} {error : SourceError} :
    Assembles sources trees state (reject error) :=
  nofun

theorem Assembles.rejectBracket {trees : α → List Expr} {op : Op} {position : Nat} :
    Assembles sources trees state (rejectBracket op position) :=
  nofun

/-- A computation that takes no number and uses no tree. -/
theorem Assembles.silent {trees : β → List Expr} {computation : ReduceM α} {value : α}
    {after : Reduction} {next : α → ReduceM β} (result : computation state = .ok value after)
    (same : after.body.nextNode = state.body.nextNode)
    (later : Assembles sources trees after (next value)) :
    Assembles sources trees state (computation >>= next) := by
  refine Gives.next result fun final last ended => ?_
  rw [← same]
  exact later final last ended

/-- A new expression around some of the trees. -/
theorem Assembles.node {trees : β → List Expr} {next : Node → ReduceM β} {span : Span}
    (front items : List Expr) (make : Node → Expr) (known : ∀ node, (make node).node? = some node)
    (parts : ∀ node, (make node).children = items.filter isPresent)
    (later : ∀ node after, Assembles (front ++ make node :: rest) trees after (next node)) :
    Assembles (front ++ (items ++ rest)) trees state (newNode span >>= next) := by
  refine Gives.newNode fun final last ended => ?_
  have made := builds_node (known ⟨state.body.nextNode, span, state.ledger.textAt span⟩) (parts _)
  exact ((builds_refl front _).append (made.append (builds_refl rest _))).trans
    (later _ _ final last ended)

/-- An operand that is reduced next. -/
theorem AssemblesOperands.bind (assembles : AssemblesOperands onSegments) {trees : β → List Expr}
    {next : Option Expr → ReduceM β} (front : List Expr) (segments : List Segment)
    (later : ∀ operand after,
      Assembles (front ++ operand.getD .absent :: rest) trees after (next operand)) :
    Assembles (front ++ (treesIn segments ++ rest)) trees state (onSegments segments >>= next) := by
  refine Gives.bind (assembles segments state) fun operand between builds result final ended => ?_
  exact ((builds_refl front _).append (builds.append (builds_refl rest _))).trans
    (later operand between result final ended)

/-- A required operand is there. -/
theorem Assembles.required {trees : β → List Expr} {next : Expr → ReduceM β} {operand : Option Expr}
    {op : Op} {context : String}
    (later : ∀ expr, operand = some expr → Assembles sources trees state (next expr)) :
    Assembles sources trees state (Reduction.required operand op context >>= next) := by
  cases operand with
  | some expr => exact .silent rfl rfl (later expr rfl)
  | none => exact nofun

/-! ## Segments around an operator -/

/-- The operands at the end of the segments in front. -/
theorem treesIn_last (before : List Segment) (rest : List Expr) :
    (treesIn before ++ rest).Perm (treesIn (OnSegments.lastOperands before) ++
      (treesIn (OnSegments.dropOperands before) ++ rest)) := by
  conv_lhs => rw [← dropOperands_append before, treesIn_append]
  rw [← List.append_assoc]
  exact List.perm_append_comm.append_right rest

/-- The operands at the start of the segments behind. -/
theorem treesIn_first (front : List Expr) (after : List Segment) :
    (front ++ treesIn after).Perm (treesIn (OnSegments.firstOperands after) ++
      (front ++ treesIn (OnSegments.skipOperands after))) := by
  conv_lhs => rw [← firstOperands_append after, treesIn_append]
  exact List.perm_append_comm_assoc ..

/-- The operands on both sides. -/
theorem treesIn_around (before after : List Segment) :
    (treesIn before ++ treesIn after).Perm (treesIn (OnSegments.lastOperands before) ++
      (treesIn (OnSegments.firstOperands after) ++
        (treesIn (OnSegments.dropOperands before) ++ treesIn (OnSegments.skipOperands after)))) :=
  (treesIn_last before _).trans ((treesIn_first _ after).append_left _)

/-- The segment at a position belongs to neither side of it. -/
theorem treesIn_splitAt (position : Nat) (segments : List Segment) :
    (treesIn (OnSegments.splitAt position segments).1 ++
      treesIn (OnSegments.splitAt position segments).2).Sublist (treesIn segments) := by
  rw [← treesIn_append]
  refine List.Sublist.filterMap _ ?_
  have both := List.takeWhile_append_dropWhile
    (p := fun segment : Segment => segment.span.start != position) (l := segments)
  conv_rhs => rw [← both]
  exact (List.Sublist.refl _).append (List.tail_sublist _)

/-- The expression of a fold between the segments that are left. -/
theorem builds_fold (expr : Expr) (front back : List Segment) (low : Nat) :
    Builds (expr :: (treesIn front ++ treesIn back)) low (foldTrees ⟨front, expr, back⟩) low :=
  builds_of_perm List.perm_middle.symm low

/-! ## Operators -/

theorem binary_assembles (assembles : AssemblesOperands onSegments) (op : Op) (position : Nat) :
    Assembles (treesIn before ++ treesIn after) foldTrees state
      (OnSegments.binary onSegments op position before after) := by
  refine assembles.bind [] before fun left _ => ?_
  rw [← List.append_nil (treesIn after)]
  refine assembles.bind [left.getD .absent] after fun right _ => ?_
  refine .node [] [left.getD .absent, right.getD .absent]
    (.operation · op (left.getD .absent) (right.getD .absent)) (fun _ => rfl) (fun _ => rfl)
    fun node _ => ?_
  exact .pure (builds_refl _ _)

theorem assignment_assembles (assembles : AssemblesOperands onSegments) (op : Op) (position : Nat) :
    Assembles (treesIn before ++ treesIn after) foldTrees state
      (OnSegments.assignment onSegments op position before after) := by
  refine assembles.bind [] before fun left _ => .required fun target found => ?_
  subst found
  rw [← List.append_nil (treesIn after)]
  refine assembles.bind [target] after fun right _ => ?_
  refine .node [] [target, right.getD .absent] (.assignment · op target (right.getD .absent))
    (fun _ => rfl) (fun _ => rfl) fun node _ => ?_
  exact .pure (builds_refl _ _)

theorem conditional_assembles (assembles : AssemblesOperands onSegments) (position : Nat) :
    Assembles (treesIn before ++ treesIn after) foldTrees state
      (OnSegments.conditional onSegments position before after) := by
  unfold OnSegments.conditional
  cases pairedColon? 0 (headsOf after) with
  | none => exact .reject
  | some colon =>
      have branches : (treesIn (OnSegments.splitAt colon after).1 ++
          (treesIn (OnSegments.splitAt colon after).2 ++ [])).Sublist (treesIn after) := by
        rw [List.append_nil]
        exact treesIn_splitAt colon after
      refine .given (builds_of_sublist ((List.Sublist.refl (treesIn before)).append branches) _) ?_
      refine assembles.bind [] before fun condition _ => ?_
      refine assembles.bind [condition.getD .absent] _ fun first _ => ?_
      refine assembles.bind [condition.getD .absent, first.getD .absent] _ fun second _ => ?_
      refine .node [condition.getD .absent] [first.getD .absent, second.getD .absent]
        (.operation · .colon (first.getD .absent) (second.getD .absent)) (fun _ => rfl)
        (fun _ => rfl) fun inner _ => ?_
      refine .node [] [condition.getD .absent,
          .operation inner .colon (first.getD .absent) (second.getD .absent)]
        (.operation · .question (condition.getD .absent)
          (.operation inner .colon (first.getD .absent) (second.getD .absent))) (fun _ => rfl)
        (fun _ => rfl) fun outer _ => ?_
      exact .pure (builds_refl _ _)

/-- A leaf that keeps its number. -/
theorem builds_leaf (node : Node) (span : Span) (text : String)
    (form form' : LeafForm) (low : Nat) :
    Builds [.leaf node form] low [.leaf { node with span, text } form'] low := by
  refine builds_again [] [] rfl rfl rfl rfl ?_ (builds_refl []) low
  rfl

/-- The member with a construction in place of its name. -/
theorem memberName?_builds {member : Expr} {name : Node} {rebuild : Expr → Expr}
    (found : memberName? member = some (name, rebuild)) (span nameSpan : Span)
    (text nameText : String) (form : LeafForm) (low : Nat) :
    Builds [member] low [(rebuild (.leaf { name with span := nameSpan, text := nameText }
      form)).relocate span text] low := by
  unfold memberName? at found
  split at found
  · obtain ⟨rfl, rfl⟩ := Prod.mk.inj (Option.some.inj found)
    exact builds_leaf _ span text .identifier form low
  · rename_i node callee arguments
    obtain ⟨rfl, rfl⟩ := Prod.mk.inj (Option.some.inj found)
    let construction := Expr.leaf { callee with span := nameSpan, text := nameText } form
    have named (low : Nat) : Builds [.leaf callee .identifier] low [construction] low :=
      builds_leaf callee nameSpan nameText .identifier form low
    refine builds_again (.leaf callee .identifier :: arguments) (construction :: arguments) rfl rfl
      rfl rfl ?_ (fun low => (named low).append (builds_refl arguments low)) low
    rfl
  · rename_i node target indices initializer
    obtain ⟨rfl, rfl⟩ := Prod.mk.inj (Option.some.inj found)
    let construction := Expr.leaf { target with span := nameSpan, text := nameText } form
    have named (low : Nat) : Builds [.leaf target .identifier] low [construction] low :=
      builds_leaf target nameSpan nameText .identifier form low
    refine builds_again (.leaf target .identifier :: indices ++ [initializer])
      (construction :: indices ++ [initializer]) rfl rfl rfl rfl ?_
      (fun low => (named low).append (builds_refl (indices ++ [initializer]) low)) low
    rfl
  · contradiction

/-- The trees behind an attempt to draw a subject into a member. -/
def qualifiedTrees (subject member : Expr) (rest : List Expr) : Option Expr → List Expr
  | some expr => expr :: rest
  | none => subject :: member :: rest

theorem qualified_builds {subject member expr : Expr} (rest : List Expr) {low : Nat}
    (builds : Builds [member] low [expr] low) :
    Builds (subject :: member :: rest) low (qualifiedTrees subject member rest (some expr)) low :=
  (builds_of_sublist (List.sublist_cons_self subject _) low).trans
    (builds.append (builds_refl rest low))

theorem qualifyConstruction?_assembles (subject member : Expr) :
    Assembles (subject :: member :: rest) (qualifiedTrees subject member rest) state
      (qualifyConstruction? subject member) := by
  unfold qualifyConstruction?
  split
  · rename_i found _
    exact Gives.textAt (Gives.textAt
      (.of_ok rfl (qualified_builds rest (memberName?_builds found _ _ _ _ _ _))))
  · exact .pure (builds_refl _ _)

theorem qualifyDeclaration?_assembles (subject member : Expr) :
    Assembles (subject :: member :: rest) (qualifiedTrees subject member rest) state
      (qualifyDeclaration? subject member) := by
  unfold qualifyDeclaration?
  split
  · rename_i subjectNode node declared continued _
    split
    · refine .silent rfl rfl ?_
      cases state.body.vars[declared]? with
      | none => exact .pure (builds_refl _ _)
      | some entry =>
          refine Gives.next rfl (Gives.textAt (.of_ok rfl (qualified_builds rest ?_)))
          refine builds_again [] [] rfl rfl rfl rfl ?_ (builds_refl []) _
          rfl
    · exact .pure (builds_refl _ _)
  · exact .pure (builds_refl _ _)

theorem access_assembles (assembles : AssemblesOperands onSegments) (position : Nat) :
    Assembles (treesIn before ++ treesIn after) foldTrees state
      (OnSegments.access onSegments position before after) := by
  refine .given (builds_of_perm (treesIn_around before after) _) ?_
  refine assembles.bind [] _ fun left _ => .required fun subject found => ?_
  subst found
  refine assembles.bind [subject] _ fun right _ => .required fun member found => ?_
  subst found
  refine (qualifyConstruction?_assembles subject member).bind fun result _ => ?_
  cases result with
  | some construction => exact .pure (builds_fold ..)
  | none =>
      refine (qualifyDeclaration?_assembles subject member).bind fun result _ => ?_
      cases result with
      | some declaration => exact .pure (builds_fold ..)
      | none =>
          refine .node [] [subject, member] (.access · subject member) (fun _ => rfl)
            (fun _ => rfl) fun node _ => ?_
          exact .pure (builds_fold ..)

theorem typeTest_assembles (assembles : AssemblesOperands onSegments) :
    Assembles (treesIn before ++ treesIn after) foldTrees state
      (OnSegments.typeTest onSegments before after) := by
  refine .given (builds_of_perm (treesIn_around before after) _) ?_
  refine assembles.bind [] _ fun left _ => .required fun operand found => ?_
  subst found
  split
  · exact .reject
  · refine .given (builds_of_sublist (List.Sublist.cons_cons operand
      (List.sublist_append_right ..)) _) ?_
    have read (typeName : String) (state : Reduction) : Assembles
        (operand :: (treesIn (OnSegments.dropOperands before) ++
          treesIn (OnSegments.skipOperands after))) foldTrees state
        (newNodeAround (hull (OnSegments.firstOperands after)) [operand] >>= fun node =>
          Pure.pure ⟨OnSegments.dropOperands before, .typeTest node operand typeName,
            OnSegments.skipOperands after⟩) :=
      .node [] [operand] (.typeTest · operand typeName) (fun _ => rfl) (fun _ => rfl)
        fun _ _ => .pure (builds_fold ..)
    exact Gives.textAt (read _ _)

theorem unary_assembles (assembles : AssemblesOperands onSegments) (op : Op) (position : Nat) :
    Assembles (treesIn before ++ treesIn after) foldTrees state
      (OnSegments.unary onSegments op position before after) := by
  unfold OnSegments.unary
  dsimp only
  split
  · refine .given (builds_of_perm (treesIn_last before _) _) ?_
    refine assembles.bind [] _ fun operand _ => .required fun left found => ?_
    subst found
    refine .node [] [left] (.operation · op left .absent) (fun _ => rfl)
      (fun _ => rfl) fun node _ => ?_
    exact .pure (builds_fold ..)
  · refine .given (builds_of_perm (treesIn_first _ after) _) ?_
    refine assembles.bind [] _ fun operand _ => .required fun right found => ?_
    subst found
    refine .node [] [right] (.operation · op .absent right) (fun _ => rfl)
      (fun _ => rfl) fun node _ => ?_
    exact .pure (builds_fold ..)

/-! ## Brackets -/

theorem builds_items (inner : Option Expr) (low : Nat) :
    Builds [inner.getD .absent] low (items inner) low := by
  cases inner with
  | none => exact builds_of_sublist (List.nil_sublist _) low
  | some expr => exact builds_commaItems expr low

theorem paren_assembles (assembles : AssemblesOperands onSegments) (position close count : Nat)
    (inner : Option Expr) :
    Assembles (inner.getD .absent :: (treesIn before ++ treesIn after)) foldTrees state
      (OnSegments.paren onSegments position close count inner before after) := by
  unfold OnSegments.paren
  dsimp only
  split
  · refine .given (builds_of_perm ((treesIn_last before (treesIn after)).cons _) _) ?_
    refine assembles.bind [inner.getD .absent] _ fun result _ => ?_
    cases result with
    | none => exact .rejectBracket
    | some callee =>
        have listed (low : Nat) : Builds [inner.getD .absent, callee] low
            (callee :: items inner) low :=
          (builds_of_perm (List.Perm.swap ..) low).trans
            ((builds_refl [callee] low).append (builds_items inner low))
        refine .given ((listed _).append (builds_refl _ _)) ?_
        refine .node [] (callee :: items inner) (.call · callee (items inner)) (fun _ => rfl)
          (fun _ => rfl) fun node _ => ?_
        exact .pure (builds_fold ..)
  · have all := castFrom_append count [] after
    generalize OnSegments.castFrom count [] after = found at all
    obtain ⟨operand, back⟩ := found
    dsimp only at all ⊢
    rw [List.nil_append] at all
    split
    · rename_i typeName _
      have apart : (treesIn before ++ treesIn after).Perm
          (treesIn operand ++ (treesIn before ++ treesIn back)) := by
        rw [← all, treesIn_append]
        exact List.perm_append_comm_assoc ..
      refine .given ((builds_of_sublist (List.sublist_cons_self ..) _).trans
        (builds_of_perm apart _)) ?_
      refine assembles.bind [] _ fun result _ => ?_
      cases result with
      | none => exact .rejectBracket
      | some target =>
          refine .node [] [target] (.cast · typeName target) (fun _ => rfl) (fun _ => rfl)
            fun node _ => ?_
          exact .pure (builds_fold ..)
    · have listed := (builds_items inner state.body.nextNode).append
        (builds_refl (treesIn before ++ treesIn after) _)
      refine .given listed ?_
      refine .node [] (items inner) (.group · false (items inner)) (fun _ => rfl) (fun _ => rfl)
        fun node _ => ?_
      exact .pure (builds_fold ..)

theorem absorbed?_builds {expr initializer : Expr} {further : List Expr}
    (taken : absorbed? expr = some (further, initializer)) (low : Nat) :
    Builds [expr] low (further ++ [initializer]) low := by
  unfold absorbed? at taken
  split at taken
  · rename_i node indices last
    obtain ⟨rfl, rfl⟩ := Prod.mk.inj (Option.some.inj taken)
    exact (builds_parts (.absent :: indices ++ [last]) rfl rfl low).trans
      (builds_of_sublist (List.sublist_cons_self ..) low)
  · obtain ⟨rfl, rfl⟩ := Prod.mk.inj (Option.some.inj taken)
    exact builds_refl _ low
  · contradiction

/-- What an index takes in comes from the segments behind it. -/
theorem absorb_builds (count : Nat) (indices : List Expr) (stop : Nat) (segments : List Segment)
    (low : Nat) :
    Builds (indices ++ treesIn segments) low
      ((OnSegments.absorb count indices stop segments).1.1 ++
        (OnSegments.absorb count indices stop segments).1.2.1 ::
          treesIn (OnSegments.absorb count indices stop segments).2) low := by
  have stays (indices : List Expr) (segments : List Segment) :
      Builds (indices ++ treesIn segments) low (indices ++ .absent :: treesIn segments) low := by
    rw [List.append_cons]
    exact (builds_absent indices low).append (builds_refl (treesIn segments) low)
  induction count generalizing indices stop segments with
  | zero => exact stays indices segments
  | succ count induction =>
      cases segments with
      | nil => exact stays indices []
      | cons segment rest =>
          rw [OnSegments.absorb]
          cases taken : segment.tree?.bind absorbed? with
          | none => exact stays indices (segment :: rest)
          | some both =>
              obtain ⟨further, initializer⟩ := both
              obtain ⟨expr, isTree, absorbs⟩ := Option.bind_eq_some_iff.1 taken
              have first : treesIn (segment :: rest) = expr :: treesIn rest := by
                rw [treesIn, List.filterMap_cons_some isTree]
                rfl
              have opened : Builds (indices ++ treesIn (segment :: rest)) low
                  (indices ++ (further ++ [initializer] ++ treesIn rest)) low := by
                rw [first]
                exact (builds_refl indices low).append
                  ((absorbed?_builds absorbs low).append (builds_refl (treesIn rest) low))
              dsimp only
              split
              · simpa using opened
              · refine (opened.trans (builds_of_sublist ?_ low)).trans
                  (induction (indices ++ further) segment.span.stop rest)
                simp

theorem index_assembles (assembles : AssemblesOperands onSegments) (position close count : Nat)
    (inner : Option Expr) :
    Assembles (inner.getD .absent :: (treesIn before ++ treesIn after)) foldTrees state
      (OnSegments.index onSegments position close count inner before after) := by
  unfold OnSegments.index
  refine .given (builds_of_perm ((treesIn_last before (treesIn after)).cons _) _) ?_
  refine assembles.bind [inner.getD .absent] _ fun result state₁ => ?_
  have absorbs := absorb_builds count [inner.getD .absent] (close + 1) after state₁.body.nextNode
  generalize OnSegments.absorb count [inner.getD .absent] (close + 1) after = found at absorbs ⊢
  obtain ⟨⟨indices, initializer, stop⟩, back⟩ := found
  dsimp only at absorbs ⊢
  have gathered : Builds (inner.getD .absent :: result.getD .absent ::
        (treesIn (OnSegments.dropOperands before) ++ treesIn after)) state₁.body.nextNode
      ((result.getD .absent :: indices ++ [initializer]) ++
        (treesIn (OnSegments.dropOperands before) ++ treesIn back)) state₁.body.nextNode := by
    have joined := absorbs.append (builds_refl
      (result.getD .absent :: treesIn (OnSegments.dropOperands before)) state₁.body.nextNode)
    refine (builds_of_count ?_ ?_ _).trans (joined.trans (builds_of_count ?_ ?_ _))
    · intro tree
      simp only [List.mem_append, List.mem_cons]
      tauto
    · intro id
      simp only [numbersOf_append, numbersOf_cons, numbersOf_nil, List.count_append, List.count_nil]
      omega
    · intro tree
      simp only [List.mem_append, List.mem_cons]
      tauto
    · intro id
      simp only [numbersOf_append, numbersOf_cons, numbersOf_nil, List.count_append, List.count_nil]
      omega
  refine .given gathered ?_
  refine .node [] (result.getD .absent :: indices ++ [initializer])
    (.index · (result.getD .absent) indices initializer) (fun _ => rfl) (fun _ => rfl)
    fun node _ => ?_
  exact .pure (builds_fold ..)

theorem bracket_assembles (assembles : AssemblesOperands onSegments) (op : Op)
    (position count : Nat) :
    Assembles (treesIn before ++ treesIn after) foldTrees state
      (OnSegments.bracket onSegments op position count before after) := by
  unfold OnSegments.bracket
  cases op.closing? with
  | none => exact .rejectBracket
  | some closing =>
      dsimp only
      split
      · exact .rejectBracket
      · rename_i close _ _
        have inside : Builds (treesIn before ++ treesIn after) state.body.nextNode
            (treesIn (OnSegments.splitAt close after).1 ++
              (treesIn before ++ treesIn (OnSegments.splitAt close after).2))
            state.body.nextNode :=
          (builds_of_sublist ((List.Sublist.refl _).append (treesIn_splitAt close after)) _).trans
            (builds_of_perm (List.perm_append_comm_assoc ..) _)
        refine .silent rfl rfl (.given inside ?_)
        refine assembles.bind [] _ fun inner _ => ?_
        split
        · exact paren_assembles assembles _ _ _ inner
        · exact index_assembles assembles _ _ _ inner
        · refine .given ((builds_items inner _).append (builds_refl _ _)) ?_
          refine .node [] (items inner) (.group · true (items inner)) (fun _ => rfl)
            (fun _ => rfl) fun node _ => ?_
          exact .pure (builds_fold ..)

/-! ## Rounds -/

theorem fold_assembles (assembles : AssemblesOperands onSegments) (candidate : Candidate)
    (count : Nat) :
    Assembles (treesIn before ++ treesIn after) foldTrees state
      (OnSegments.fold onSegments candidate count before after) := by
  unfold OnSegments.fold
  dsimp only
  split
  · exact bracket_assembles assembles _ _ _
  · exact bracket_assembles assembles _ _ _
  · exact bracket_assembles assembles _ _ _
  · exact conditional_assembles assembles _
  · exact access_assembles assembles _
  · exact typeTest_assembles assembles
  · exact unary_assembles assembles _ _
  · exact unary_assembles assembles _ _
  · exact unary_assembles assembles _ _
  · split
    · exact unary_assembles assembles _ _
    · split
      · exact assignment_assembles assembles _ _
      · split
        · exact .rejectBracket
        · exact binary_assembles assembles _ _

/-- The tree of a single expression. -/
def ownTree (expr : Expr) : List Expr := [expr]

theorem newLeaf_assembles (span : Span) (form : LeafForm) :
    Assembles [] ownTree state (newNode span >>= fun node => Pure.pure (.leaf node form)) :=
  .node [] [] (.leaf · form) (fun _ => rfl) (fun _ => rfl) fun _ _ => .pure (builds_refl _ _)

theorem classify_assembles (span : Span) (text : List Char) :
    Assembles [] ownTree state (classify span text) := by
  rw [classify]
  cases leafForm? text with
  | some form => exact newLeaf_assembles span form
  | none =>
      cases declared? (Text.words text) with
      | none => exact .reject
      | some declared =>
          cases declared with
          | nothing => exact newLeaf_assembles span .verbatim
          | «variable» name typeName isFinal isStatic =>
              refine .silent rfl rfl (.silent rfl rfl ?_)
              refine .node [] [] (.declaration · state.body.vars.size false) (fun _ => rfl)
                (fun _ => rfl) fun node _ => ?_
              exact .pure (builds_refl _ _)

theorem leaf_assembles (segments : List Segment) :
    Assembles (treesIn segments) ownTree state (OnSegments.leaf segments) := by
  refine .given (builds_of_sublist (List.nil_sublist _) _) ?_
  unfold OnSegments.leaf
  dsimp only
  split
  · exact newLeaf_assembles _ .verbatim
  · exact .silent rfl rfl (classify_assembles _ _)

theorem treesIn_whole {expr : Expr} (whole : OnSegments.whole? segments = some expr) :
    treesIn segments = [expr] := by
  unfold OnSegments.whole? at whole
  split at whole
  · rename_i segment
    rw [treesIn, List.filterMap_cons_some whole]
    rfl
  · contradiction

theorem next_assembles (segments : List Segment) :
    Assembles sources (fun _ => sources) state (OnSegments.next segments) := by
  unfold OnSegments.next
  cases OnSegments.best? segments with
  | some candidate => exact .pure (builds_refl _ _)
  | none =>
      cases (headsOf segments).head? with
      | some head => exact .rejectBracket
      | none => exact .pure (builds_refl _ _)

theorem rounds_assembles (assembles : AssemblesOperands onSegments) (count : Nat)
    (segments : List Segment) (state : Reduction) :
    Assembles (treesIn segments) ownTree state (OnSegments.rounds onSegments count segments) := by
  induction count generalizing segments state with
  | zero => exact Gives.stalls
  | succ count induction =>
      unfold OnSegments.rounds
      refine .silent rfl rfl ?_
      cases whole : OnSegments.whole? segments with
      | some expr =>
          rw [treesIn_whole whole]
          exact .pure (builds_refl _ _)
      | none =>
          refine (next_assembles segments).bind fun candidate _ => ?_
          cases candidate with
          | none => exact leaf_assembles segments
          | some candidate =>
              refine .given (builds_of_sublist (treesIn_splitAt candidate.position segments) _) ?_
              refine (fold_assembles assembles candidate _).bind fun folded _ => ?_
              dsimp only
              split
              · next alone =>
                  rw [Bool.and_eq_true, List.isEmpty_iff, List.isEmpty_iff] at alone
                  obtain ⟨front, expr, back⟩ := folded
                  obtain ⟨rfl, rfl⟩ := alone
                  exact .pure (builds_refl _ _)
              · have trees : foldTrees folded = treesIn (folded.front ++
                    ⟨(folded.expr.node?.map (·.span)).getD (hull segments), .tree folded.expr⟩ ::
                      folded.back) := by
                  rw [treesIn_append, treesIn_cons_tree]
                  rfl
                rw [trees]
                exact induction _ _

theorem reduce_assembles (nesting depth : Nat) :
    AssemblesOperands (OnSegments.reduce nesting depth) := by
  induction nesting generalizing depth with
  | zero => exact fun _ _ => Gives.stalls
  | succ nesting induction =>
      intro segments state
      unfold OnSegments.reduce
      refine .silent rfl rfl ?_
      split
      · refine .pure ((builds_of_sublist (List.nil_sublist _) _).trans (builds_absent [] _))
      · exact (rounds_assembles (induction (depth + 1)) _ segments _).bind fun expr _ =>
          .pure (builds_refl _ _)

/-- The tree of a statement is built from the trees among its segments. -/
theorem statement_assembles (nesting : Nat) (segments : List Segment) :
    Assembles (treesIn segments) ownTree state (OnSegments.statement nesting segments) := by
  unfold OnSegments.statement
  refine .silent rfl rfl ((reduce_assembles nesting 1 segments _).bind fun result _ => ?_)
  exact .silent rfl rfl (.pure (builds_refl _ _))

/-- Before anything is reduced there is no finished expression. -/
theorem treesIn_eq_nil {start stop : Nat} (blank : state.pending = #[])
    (shown : Shows state start stop segments) : treesIn segments = [] := by
  induction segments generalizing start with
  | nil => rfl
  | cons segment rest induction =>
      obtain ⟨-, stands, later⟩ := shown
      have none : segment.tree? = none := by
        obtain ⟨span, piece⟩ := segment
        cases piece with
        | op op => rfl
        | word => rfl
        | tree expr =>
            obtain ⟨id, known, -⟩ := stands.tagged
            simp [blank] at known
      rw [treesIn, List.filterMap_cons_none none]
      exact induction later

/-- The tree of a scanned text is built from nothing. -/
theorem statement_builds {text : List Char} {scope : ParagraphId} {body : Body} {expr : Expr}
    {final : Reduction}
    (reduces : statement { ledger := Ledger.scan text, scope, body } = .ok expr final) :
    Builds [] body.nextNode [expr] final.body.nextNode := by
  obtain ⟨segments, last, depicts, result, agrees⟩ := exists_onSegments reduces
  have builds := statement_assembles _ segments expr last result
  rw [treesIn_eq_nil rfl depicts.shown, ← agrees.body] at builds
  exact builds

end
end Reduction

/-! ## Statements and clauses of a body -/

namespace Body

section

variable {scope : ParagraphId} {before after : Body} {text : List Char} {placed : Placed}

theorem readExpression_builds (read : readExpression scope text before = .ok placed after) :
    Builds [] before.nextNode [placed.expr] after.nextNode := by
  obtain ⟨expr, final, reduces, rfl, rfl⟩ := exists_statement read
  exact Reduction.statement_builds reduces

/-- The tree keeps its numbers, and no number is taken. -/
def Rebuilds (expr : Expr) (before : Body) (result : Expr) (after : Body) : Prop :=
  after.nextNode = before.nextNode ∧ ∀ low, Builds [expr] low [result] low

theorem nextNode_declare (body : Body) (entry : Variable) :
    (body.declare entry).nextNode = body.nextNode := by
  rw [declare]
  cases entry.scope <;> rfl

theorem continueName_rebuilds (shared : SharedDeclaration) (expr : Expr) :
    Gives (continueName shared expr) before (Rebuilds expr before) := by
  unfold continueName
  split
  · refine .of_ok rfl ⟨nextNode_declare before _, fun low => ?_⟩
    exact builds_again [] [] rfl rfl rfl rfl rfl (builds_refl []) low
  · exact .pure ⟨rfl, builds_refl _⟩

theorem continueItem_rebuilds (shared : SharedDeclaration) (expr : Expr) :
    Gives (continueItem shared expr) before (Rebuilds expr before) := by
  unfold continueItem
  split
  · rename_i node op target value
    refine (continueName_rebuilds shared target).bind fun renamed between rebuilds => ?_
    refine .pure ⟨rebuilds.1, fun low => ?_⟩
    exact builds_again [target, value] [renamed, value] rfl rfl rfl rfl rfl
      (fun low => (rebuilds.2 low).append (builds_refl [value] low)) low
  · exact continueName_rebuilds shared _

theorem continueItems_rebuilds (shared : SharedDeclaration) (isFirst : Bool) (expr : Expr) :
    Gives (continueItems shared isFirst expr) before
      fun result after => Rebuilds expr before result.1 after := by
  induction isFirst, expr using continueItems.induct generalizing before with
  | case1 isFirst =>
      rw [continueItems]
      exact .pure ⟨rfl, builds_refl _⟩
  | case2 isFirst node left right leftInduction rightInduction =>
      rw [continueItems]
      refine leftInduction.bind fun first between rebuilds => ?_
      refine (rightInduction first.2).bind fun second final rebuildsLast => ?_
      refine .pure ⟨rebuildsLast.1.trans rebuilds.1, fun low => ?_⟩
      exact builds_again [left, right] [first.1, second.1] rfl rfl rfl rfl rfl
        (fun low => (rebuilds.2 low).append (rebuildsLast.2 low)) low
  | case3 item notAbsent notComma =>
      rw [continueItems]
      · exact .pure ⟨rfl, builds_refl _⟩
      · exact notAbsent
      · exact notComma
  | case4 item notAbsent notComma =>
      rw [continueItems]
      · exact (continueItem_rebuilds shared item).bind fun _ _ rebuilds => .pure rebuilds
      · exact notAbsent
      · exact notComma

theorem continueDeclaration_rebuilds (root : Expr) :
    Gives (continueDeclaration root) before (Rebuilds root before) := by
  unfold continueDeclaration
  split
  · exact .pure ⟨rfl, builds_refl _⟩
  · refine .next rfl ?_
    split
    · exact .pure ⟨rfl, builds_refl _⟩
    · exact (continueItems_rebuilds _ true root).bind fun _ _ rebuilds => .pure rebuilds

theorem readStatement_builds (read : readStatement scope text before = .ok placed after) :
    Builds [] before.nextNode [placed.expr] after.nextNode := by
  obtain ⟨root, body, first, behind⟩ := bind_eq_ok.1 read
  obtain ⟨expr, final, second, ended⟩ := bind_eq_ok.1 behind
  obtain ⟨rfl, rfl⟩ := EStateM.Result.ok.inj ended
  obtain ⟨same, rebuilds⟩ := continueDeclaration_rebuilds root.expr expr final second
  change Builds [] before.nextNode [expr] final.nextNode
  rw [same]
  exact (readExpression_builds first).trans (rebuilds _)

end
end Body
end MethodLowering
