import MethodLowering.Proofs.Lowering.Tally
import MethodLowering.Proofs.Reader.Tour

/-!
# What lowering a body does

The forms of assignments are decided before the statement or loop that they stand in is entered, and
that of a thrown construction before its value is.  Together with the tour over all paragraphs this
lists what lowering does to a whole body.
-/

namespace MethodLowering

open MethodLowering.Expr Lowering

namespace Lowering

/-! ## Assignments -/

/-- At most one directive is given, which decides the form of the expression.  A second statement is
written only for a `sole` one. -/
def Log.Rewrites (body : Body) (sole : Bool) (expr : Expr) (log : Log) : Prop :=
  log = {} ∨ ∃ form, log = { given := [⟨expr, form⟩] } ∧ form.Suits body expr ∧
    form.decides = true ∧ (form.splits = true → sole = true)

section

variable {body : Body} {sight : Sight} {sole : Bool}
  {expr target value callee array initializer : Expr}
  {node inner : Node} {category : Category} {arguments indices : List Expr} {constructed : String}
  {form : Directive}

theorem logs_skip : Logs (pure () : LowerM Unit) fun log _ => log.Rewrites body sole expr :=
  .pure (.inl rfl)

theorem logs_rewrite (present : expr.isPresent = true) (lasting : temporary? form = none)
    (suits : form.Suits body expr) (decides : form.decides = true)
    (splits : form.splits = true → sole = true) :
    Logs (direct expr form) fun log _ => log.Rewrites body sole expr :=
  (logs_direct present lasting).weaken fun _ _ same => .inr ⟨form, same, suits, decides, splits⟩

/-- A declared collection has a variable. -/
theorem isSome_declared (valued : body.category sight target = .ok category)
    (collection : category.isValueCollection = true) (declared : declares target = true) :
    (target.declaredVariable?.bind (body.vars[·]?)).isSome = true := by
  cases target with
  | declaration node variable_ continued =>
      cases known : body.vars[variable_]? with
      | some entry => simp [declaredVariable?, known]
      | none =>
          rw [Body.category, known] at valued
          obtain rfl := Except.ok.inj valued
          contradiction
  | _ => contradiction

theorem logs_emptied :
    Logs (direct (.assignment node .assign target value) (emptied (declares target) category))
      fun log _ => log.Rewrites body sole (.assignment node .assign target value) := by
  unfold emptied
  split
  · rename_i declared
    exact logs_rewrite rfl rfl ⟨node, target, value, rfl, declared⟩ rfl nofun
  · rename_i plain
    exact logs_rewrite rfl rfl ⟨node, target, value, rfl, Bool.eq_false_iff.2 plain⟩ rfl nofun

theorem logs_constructed (construction : callee.isConstruction = true)
    (valued : body.category sight target = .ok category)
    (collection : category.isValueCollection = true) :
    Logs (lowerConstructed body sight sole (.assignment node .assign target
        (.call inner callee arguments)) target (.call inner callee arguments) category constructed
        arguments) fun log _ =>
      log.Rewrites body sole (.assignment node .assign target (.call inner callee arguments)) := by
  unfold lowerConstructed
  dsimp only
  split
  · exact logs_emptied
  · rename_i source
    refine quiet_categoryOf.bind fun sourceCategory _ => ?_
    split
    · exact logs_emptied
    · split
      · rename_i copy
        have same := (Bool.and_eq_true_iff.1 copy).2
        exact logs_rewrite rfl rfl (.inr ⟨rfl, inner, callee, source, rfl, construction, same⟩) rfl
          nofun
      · split
        · rename_i alone
          refine (quiet_lift _).bind fun declared _ => ?_
          exact logs_rewrite rfl rfl ⟨node, target, _, rfl, rfl, ⟨inner, callee, rfl, construction⟩,
            isSome_declared valued collection⟩ rfl fun _ => alone
        · exact logs_skip
  · exact logs_rewrite rfl rfl ⟨node, target, _, rfl, rfl, rfl, construction⟩ rfl nofun
  · exact logs_skip

theorem logs_freshArray (construction : array.isConstruction = true) :
    Logs (lowerFreshArray body sight sole (.assignment node .assign target
        (.index inner array indices initializer)) target (.index inner array indices initializer)
        indices initializer) fun log _ => log.Rewrites body sole
      (.assignment node .assign target (.index inner array indices initializer)) := by
  unfold lowerFreshArray
  dsimp only
  split
  · rename_i declared
    exact logs_rewrite rfl rfl
      ⟨node, target, _, rfl, declared, inner, array, indices, rfl, construction, rfl⟩ rfl nofun
  · rename_i plain
    split
    · rename_i alone
      obtain ⟨alone, bare⟩ := Bool.and_eq_true_iff.1 alone
      refine (quiet_lift _).bind fun arrayType _ => (logs_temporary rfl _ _).weaken ?_
      rintro log _ ⟨name, same⟩
      exact .inr ⟨_, same, ⟨node, target, _, rfl, Bool.eq_false_iff.2 plain, inner, array, indices,
        initializer, rfl, construction, bare, rfl⟩, rfl, fun _ => alone⟩
    · exact logs_skip

theorem logs_assignment :
    Logs (lowerAssignment body sight sole (.assignment node .assign target value) target value)
      fun log _ => log.Rewrites body sole (.assignment node .assign target value) := by
  refine quiet_categoryOf.bind fun category valued => ?_
  split
  · rename_i collection
    split
    · exact logs_emptied
    · split
      · rename_i constructed named _
        exact logs_constructed (Option.isSome_iff_exists.2 ⟨constructed, named⟩) valued collection
      · exact logs_skip
    · split
      · rename_i construction
        exact logs_freshArray construction
      · exact logs_skip
    · exact logs_skip
  · exact logs_skip

/-! ## Roots -/

/-- What is decided before a tree is entered: forms of plain assignments and of constructions. -/
structure Log.Decides (body : Body) (sole : Bool) (expr : Expr) (log : Log) : Prop where
  entered : log.entered = []
  fits : ∀ direction ∈ log.given, direction.Fits body expr
  once : (log.deciding.map Direction.expr).Subperm (expr.preorder.filter isOuter)
  splits : ∀ direction ∈ log.given, direction.directive.splits = true →
    sole = true ∧ direction.expr = expr

variable {log rest : Log} {depth : Nat}

theorem decides_nil : ({} : Log).Decides body sole expr :=
  ⟨rfl, nofun, List.nil_subperm, nofun⟩

theorem Log.Rewrites.decides (rewrites : log.Rewrites body sole expr)
    (present : expr.isPresent = true) (outer : expr.isOuter = true) :
    log.Decides body sole expr := by
  rcases rewrites with rfl | ⟨form, rfl, suits, decides, splits⟩
  · exact decides_nil
  · have alone : ({ given := [⟨expr, form⟩] } : Log).deciding = [⟨expr, form⟩] := by
      simp [Log.deciding, decides]
    refine ⟨rfl, fun direction member => ?_, ?_, fun direction member splitting => ?_⟩
    · rw [List.mem_singleton.1 member]
      refine ⟨mem_preorder_self present, suits, Directive.isTyped_of_isOuter outer suits,
        fun marks => ?_⟩
      rw [show form = .toText from marks] at decides
      contradiction
    · rw [alone]
      refine List.singleton_subperm_iff.2 (List.mem_filter.2 ⟨mem_preorder_self present, outer⟩)
    · rw [List.mem_singleton.1 member] at splitting ⊢
      exact ⟨splits splitting, rfl⟩

theorem logs_root :
    Logs (lowerRoot body sight sole expr) fun log _ => log.Decides body sole expr := by
  induction sole, expr using lowerRoot.induct with
  | case1 sole node left right leftInduction rightInduction =>
      have below : (Expr.operation node .comma left right).preorder =
          .operation node .comma left right :: (left.preorder ++ right.preorder) := rfl
      have inside {part : Expr} (among : part ∈ [left, right]) {direction : Direction}
          (fits : direction.Fits body part) :
          direction.Fits body (.operation node .comma left right) := by
        have written : part.isPresent = true := by
          cases part with
          | absent => exact absurd fits.inside (by simp [preorder])
          | _ => rfl
        have child : part ∈ (Expr.operation node .comma left right).children :=
          List.mem_filter.2 ⟨among, written⟩
        have deeper := List.mem_flatMap.2 ⟨part, child, fits.inside⟩
        exact ⟨mem_preorder.2 (.inr ⟨part, child, fits.inside⟩), fits.suits, fits.typed,
          fun _ => deeper⟩
      rw [lowerRoot]
      refine Logs.bind leftInduction fun log _ first =>
        rightInduction.weaken fun rest _ second => ?_
      refine ⟨by simp [first.entered, second.entered], fun direction member => ?_, ?_, ?_⟩
      · rcases List.mem_append.1 member with early | late
        · exact inside (by simp) (first.fits direction early)
        · exact inside (by simp) (second.fits direction late)
      · rw [Log.deciding_append, List.map_append, below, List.filter_cons_of_neg Bool.false_ne_true,
          List.filter_append]
        exact first.once.append second.once
      · intro direction member splits
        rcases List.mem_append.1 member with early | late
        · exact absurd (first.splits direction early splits).1 Bool.false_ne_true
        · exact absurd (second.splits direction late splits).1 Bool.false_ne_true
  | case2 sole node target value =>
      rw [lowerRoot]
      exact logs_assignment.weaken fun log _ rewrites => rewrites.decides rfl rfl
  | case3 sole expr notComma notAssign =>
      rw [lowerRoot]
      · exact .pure decides_nil
      all_goals assumption

theorem logs_throw : Logs (lowerThrow body value) fun log _ => log.Decides body false value := by
  unfold lowerThrow
  split
  · rename_i node callee arguments
    split
    · rename_i thrown
      obtain ⟨construction, own⟩ := Bool.and_eq_true_iff.1 thrown
      have outer : (Expr.call node callee arguments).isOuter = true := construction
      have suits : Directive.throwByValue.Suits body (.call node callee arguments) :=
        ⟨node, callee, arguments, rfl, construction, Option.isNone_iff_eq_none.1 own⟩
      have unsplit (splits : Directive.throwByValue.splits = true) : false = true := splits
      exact (logs_rewrite rfl rfl suits rfl unsplit).weaken fun log _ rewrites =>
        rewrites.decides rfl outer
    · exact .pure decides_nil
  · exact .pure decides_nil

/-- Together, a tree has each of its forms decided once. -/
theorem Log.Decides.tallies (first : log.Decides body sole expr)
    (statement : sole = true → body.IsStatement expr)
    (second : rest.Tallies body (fun expr => !expr.isOuter) depth [expr]) :
    (log ++ rest).Tallies body (fun _ => true) depth [expr] where
  fits := by
    intro direction member
    rcases List.mem_append.1 member with early | late
    · exact ⟨expr, List.mem_singleton_self _, first.fits direction early⟩
    · exact second.fits direction late
  once := by
    have inner := second.once
    rw [List.flatMap_singleton] at inner
    rw [Log.deciding_append, List.map_append, List.flatMap_singleton, List.filter_true]
    exact (first.once.append inner).trans (List.filter_append_perm isOuter expr.preorder).subperm
  splits := by
    intro direction member splits
    rcases List.mem_append.1 member with early | late
    · obtain ⟨sole, same⟩ := first.splits direction early splits
      exact same ▸ statement sole
    · exact second.splits direction late splits
  entered shallow := by
    rw [Log.entered_append, first.entered]
    exact second.entered shallow
  accesses shallow inner member isAccess := by
    rw [Log.deciding_append, List.map_append]
    exact List.mem_append_right _ (second.accesses shallow inner member isAccess)

end

/-! ## Constructs and paragraphs -/

/-- The computation lowers the trees. -/
def Lowered (body : Body) (computation : LowerM Unit) (trees : List Expr) : Prop :=
  Logs computation fun log _ => log.Tallies body (fun _ => true) Limits.renderDepth trees

section

variable {body : Body} {placed : Placed} {trees others : List Expr} {computation next : LowerM Unit}
  {paragraph : ParagraphId → LowerM Unit} {inside : ParagraphId → List Expr}

theorem lowered_nothing : Lowered body (pure ()) [] := .pure tallies_nil

theorem Lowered.bind (first : Lowered body computation trees) (second : Lowered body next others) :
    Lowered body (do computation; next) (trees ++ others) :=
  Logs.bind first fun _ _ early => second.weaken fun _ _ late => early.append late

theorem Lowered.perm (lowered : Lowered body computation trees) (same : trees.Perm others) :
    Lowered body computation others :=
  lowered.weaken fun _ _ tallies => tallies.perm same

theorem lowered_placed (placed : Placed) :
    Lowered body (visitPlaced body placed) [placed.expr] :=
  logs_visit.weaken fun _ _ tallies => @decides_nil body false placed.expr |>.tallies nofun tallies

theorem lowered_statement (statement : body.IsStatement placed.expr) :
    Lowered body (do lowerRoot body placed.sight true placed.expr; visitPlaced body placed)
      [placed.expr] :=
  Logs.bind logs_root fun _ _ first => logs_visit.weaken fun _ _ second =>
    first.tallies (fun _ => statement) second

theorem lowered_initial (placed : Placed) :
    Lowered body (do lowerRoot body placed.sight false placed.expr; visitPlaced body placed)
      [placed.expr] :=
  Logs.bind logs_root fun _ _ first => logs_visit.weaken fun _ _ second =>
    first.tallies nofun second

theorem lowered_thrown (placed : Placed) :
    Lowered body (do lowerThrow body placed.expr; visitPlaced body placed) [placed.expr] :=
  Logs.bind logs_throw fun _ _ first => logs_visit.weaken fun _ _ second =>
    first.tallies nofun second

/-- The bodies of handlers that are entered behind a handler with the body `last`. -/
def bodiesBehind : (last : Option ParagraphId) → List Handler → List ParagraphId
  | _, [] => []
  | last, handler :: rest =>
      (if last != some handler.body then [handler.body] else []) ++
        bodiesBehind (some handler.body) rest

/-- Every body of a handler is entered once. -/
theorem bodiesBehind_eq (handlers : List Handler) :
    bodiesBehind none handlers = Detail.handlerBodies handlers := by
  have behind (handler : Handler) (rest : List Handler) :
      handler.body :: bodiesBehind (some handler.body) rest =
        Detail.handlerBodies (handler :: rest) := by
    induction rest generalizing handler with
    | nil => rfl
    | cons next rest induction =>
        rw [bodiesBehind, Detail.handlerBodies]
        by_cases same : handler.body = next.body
        · rw [if_pos same, if_neg (by simp [same]), List.nil_append, same]
          exact induction next
        · rw [if_neg same, if_pos (by simp [same]), List.singleton_append]
          rw [induction next]
  cases handlers with
  | nil => rfl
  | cons handler rest => exact behind handler rest

theorem lowered_handlers (handlers : List Handler) (last : Option ParagraphId)
    (bodies : ∀ handler ∈ handlers, Lowered body (paragraph handler.body) (inside handler.body)) :
    Lowered body (visitHandlers body paragraph last handlers)
      (handlers.map (·.declaration.expr) ++ (bodiesBehind last handlers).flatMap inside) := by
  induction handlers generalizing last with
  | nil => exact lowered_nothing
  | cons handler rest induction =>
      have others := induction (some handler.body)
        fun other member => bodies other (List.mem_cons_of_mem _ member)
      have first := bodies handler (List.mem_cons_self ..)
      unfold visitHandlers
      rw [List.map_cons, bodiesBehind, List.flatMap_append]
      refine (lowered_placed handler.declaration).bind ?_
      split
      · refine (first.bind others).perm ?_
        rw [List.flatMap_singleton]
        exact List.perm_append_comm_assoc ..
      · exact lowered_nothing.bind others

theorem lowered_branches {branches : List Branch}
    (bodies : ∀ branch ∈ branches, Lowered body (paragraph branch.body) (inside branch.body)) :
    Lowered body (visitBranches body paragraph branches)
      (branches.map (·.condition.expr) ++ (branches.map (·.body)).flatMap inside) := by
  induction branches with
  | nil => exact lowered_nothing
  | cons branch rest induction =>
      have others := induction fun other member => bodies other (List.mem_cons_of_mem _ member)
      have first := bodies branch (List.mem_cons_self ..)
      refine (lowered_placed branch.condition).bind ((first.bind others).perm ?_)
      exact List.perm_append_comm_assoc ..

/-- Lowering a construct lowers its clauses and its bodies. -/
theorem lowered_construct {construct : Construct}
    (bodies : ∀ id ∈ construct.detail.bodies, Lowered body (paragraph id) (inside id)) :
    Lowered body (visitConstruct body paragraph construct)
      (construct.detail.trees ++ construct.detail.bodies.flatMap inside) := by
  obtain ⟨keyword, label, scope, detail⟩ := construct
  have alone {id : ParagraphId} (only : detail.bodies = [id]) :
      detail.bodies.flatMap inside = inside id := by
    rw [only, List.flatMap_singleton]
  cases detail with
  | conditional branches =>
      rw [Detail.trees, Detail.clauses, List.map_map]
      exact lowered_branches fun branch member => bodies _ (List.mem_map_of_mem member)
  | counted init condition update loop =>
      have last := bodies loop (by simp [Detail.bodies])
      have joined := (lowered_initial init).bind
        ((lowered_placed condition).bind ((lowered_placed update).bind last))
      rw [bind_assoc] at joined
      rw [alone rfl]
      exact joined
  | doLoop loop condition =>
      have first := bodies loop (by simp [Detail.bodies])
      rw [alone rfl]
      exact (first.bind (lowered_placed condition)).perm List.perm_append_comm
  | tryBlock guarded handlers cleanup =>
      have first := bodies guarded (by simp [Detail.bodies])
      have others := lowered_handlers handlers none fun handler member =>
        bodies handler.body (by simp [Detail.bodies, Detail.handlerBodies_mem member])
      rw [bodiesBehind_eq] at others
      have last : Lowered body (cleanup.elim (pure ()) paragraph)
          (cleanup.toList.flatMap inside) := by
        cases cleanup with
        | some cleanup =>
            rw [Option.toList_some, List.flatMap_singleton]
            exact bodies cleanup (by simp [Detail.bodies])
        | none => exact lowered_nothing
      have joined : Lowered body
          (visitConstruct body paragraph
            ⟨keyword, label, scope, .tryBlock guarded handlers cleanup⟩)
          (inside guarded ++ (handlers.map (·.declaration.expr) ++
            (Detail.handlerBodies handlers).flatMap inside ++ cleanup.toList.flatMap inside)) := by
        cases cleanup with
        | some cleanup => exact first.bind (others.bind last)
        | none => exact first.bind (others.bind last)
      refine joined.perm ?_
      rw [Detail.trees, Detail.clauses, List.map_map, Detail.bodies, List.flatMap_cons,
        List.flatMap_append, List.append_assoc]
      exact List.perm_append_comm_assoc ..
  | jump value target =>
      unfold visitConstruct
      dsimp only
      split
      · exact lowered_thrown value
      · exact lowered_nothing.bind (lowered_placed value)
  | caseLabel value => exact lowered_placed value
  | defaultLabel => exact lowered_nothing
  | unread => exact lowered_nothing
  | _ header =>
      have last := bodies _ (List.mem_singleton_self _)
      rw [alone rfl]
      exact (lowered_placed header).bind last

theorem lowered_item {item : Item}
    (statement : ∀ root, item = .expression root → body.IsStatement root.expr)
    (paragraphs : ∀ id, Lowered body (paragraph id) (inside id)) :
    Lowered body (visitItem body paragraph item) (body.itemTrees inside item) := by
  cases item with
  | empty => exact lowered_nothing
  | expression root => exact lowered_statement (statement root rfl)
  | block id =>
      refine (paragraphs id).perm (.of_eq ?_)
      simp [Body.itemTrees, Body.ownTrees, Body.targets, Item.trees, Item.construct?]
  | construct id =>
      unfold visitItem Body.itemTrees Body.ownTrees Body.targets Body.clauseTrees
      dsimp only [Item.construct?, Item.trees]
      split
      · rename_i construct known
        refine (lowered_construct fun id _ => paragraphs id).perm (.of_eq ?_)
        simp [known]
      · rename_i missing
        refine lowered_nothing.perm (.of_eq ?_)
        simp [missing]

/-- Lowering a paragraph lowers the trees of a tour through it. -/
theorem lowered_paragraph (nesting : Nat) (id : ParagraphId) :
    Lowered body (visitParagraph body nesting id) (body.treesFrom nesting id) := by
  induction nesting generalizing id with
  | zero => exact lowered_nothing
  | succ nesting induction =>
      unfold visitParagraph Body.treesFrom
      split
      · rename_i paragraph known
        rw [known, Option.toList_some, List.flatMap_singleton]
        refine logs_forM fun item member => lowered_item (fun root same => ?_) induction
        exact ⟨paragraph, Array.mem_of_getElem? known, root,
          same ▸ Array.mem_toList_iff.1 member, rfl⟩
      · rename_i missing
        rw [missing]
        exact lowered_nothing

end
end Lowering

/-- Lowering a finished body follows a log of all its trees. -/
theorem Body.WellFormed.lower_follows {body : Body} (wellFormed : body.WellFormed)
    {types : TypeReport} {lowering : Lowering} (lowered : body.lower types = .ok lowering) :
    ∃ log, Lowering.Follows { types } log lowering ∧
      log.Tallies body (fun _ => true) Limits.renderDepth body.trees := by
  unfold Body.lower at lowered
  cases ran : visitParagraph body body.paragraphs.size Body.root { types } with
  | error fault => simp [ran, Except.map] at lowered
  | ok pair =>
      obtain ⟨result, after⟩ := pair
      obtain rfl : after = lowering := by simpa [ran, Except.map] using lowered
      exact (lowered_paragraph body.paragraphs.size Body.root).perm wellFormed.treesFrom_perm
        { types } result after ran

end MethodLowering
