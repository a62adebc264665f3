import MethodLowering.Proofs.Body.Capturing
import MethodLowering.Proofs.Reader.Growth
import MethodLowering.Proofs.Reader.Lifting
import MethodLowering.Proofs.Reader.Stacking

/-!
# Captures of the types made from class bodies

While a paragraph is open, variables are declared in it and in paragraphs inside it, and none around
it.  So the variables that a statement sees have smaller numbers the further out they are declared,
and the captures of its class bodies are in the order of declaration.
-/

namespace MethodLowering

open Body

namespace Body

/-- The variables of a paragraph and of those around it, those of the innermost one first and the
latest first. -/
def around (body : Body) (scope : ParagraphId) : List VariableId :=
  (body.chain scope).flatMap fun paragraph => paragraph.vars.toList.reverse

/-- The next variable of the paragraph continues the numbers of those around. -/
structure IsOrdered (body : Body) (scope : ParagraphId) : Prop where
  descends : body.Descends
  inside : scope < body.paragraphs.size
  falling : (body.vars.size :: body.around scope).Pairwise (· > ·)

/-- Variables and their paragraphs stay where they are. -/
structure Arranges (before after : Body) : Prop where
  vars : after.vars.size = before.vars.size
  paragraphs : after.paragraphs.size = before.paragraphs.size
  same : ∀ (id : ParagraphId) (paragraph : Paragraph), before.paragraphs[id]? = some paragraph →
    ∃ later : Paragraph, after.paragraphs[id]? = some later ∧ later.parent = paragraph.parent ∧
      later.vars = paragraph.vars

section

variable {before after body : Body} {scope : ParagraphId} {placed : Placed} {paragraph : Paragraph}

/-! ## Variables around a paragraph -/

theorem around_congr (descends : before.Descends) (inside : scope < before.paragraphs.size)
    (grows : before.paragraphs.size ≤ after.paragraphs.size)
    (same : ∀ other ≤ scope, ∀ paragraph, before.paragraphs[other]? = some paragraph →
      ∃ later, after.paragraphs[other]? = some later ∧ later.parent = paragraph.parent ∧
        later.vars = paragraph.vars) : after.around scope = before.around scope := by
  rw [around, around, List.flatMap_def, List.flatMap_def]
  refine congrArg _ (map_chainFrom descends inside (Nat.lt_of_lt_of_le inside grows) inside
    fun other low paragraph known => ?_)
  obtain ⟨later, found, parent, vars⟩ := same other low paragraph known
  exact ⟨later, found, parent, by rw [vars]⟩

theorem around_eq (descends : body.Descends) (known : body.paragraphs[scope]? = some paragraph) :
    body.around scope = paragraph.vars.toList.reverse ++ paragraph.parent.elim [] body.around := by
  have inside := (Array.getElem?_eq_some_iff.1 known).1
  obtain ⟨count, size⟩ := Nat.exists_eq_add_one_of_ne_zero (Nat.ne_zero_of_lt inside)
  rw [around, chain, size, chainFrom, known]
  dsimp only
  rw [List.flatMap_cons]
  refine congrArg _ ?_
  cases parent : paragraph.parent with
  | none => cases count <;> rfl
  | some outer =>
      have below : outer < scope := descends scope paragraph outer known parent
      have enough : outer < count :=
        Nat.lt_of_lt_of_le below (Nat.le_of_lt_succ (Nat.lt_of_lt_of_eq inside size))
      have same : (body.chainFrom count (some outer)).map id =
          (body.chainFrom body.paragraphs.size (some outer)).map id :=
        map_chainFrom descends (Nat.lt_trans below inside) enough (Nat.lt_trans below inside)
          fun other _ paragraph known => ⟨paragraph, known, rfl, rfl⟩
      rw [List.map_id, List.map_id] at same
      rw [same]
      rfl

theorem inSight_eq (sight : Sight) :
    body.inSight sight = (body.around sight.scope).filter (· < sight.visible) := by
  rw [inSight, around, List.filter_flatMap]

/-- The variables in sight have falling numbers. -/
theorem IsOrdered.inSight (ordered : body.IsOrdered scope) (visible : Nat) :
    (body.inSight ⟨scope, visible⟩).Pairwise (· > ·) := by
  rw [inSight_eq]
  exact (List.pairwise_cons.1 ordered.falling).2.sublist List.filter_sublist

/-! ## Changes of the body -/

theorem Arranges.isOrdered (arranges : before.Arranges after) (ordered : before.IsOrdered scope) :
    after.IsOrdered scope := by
  obtain ⟨descends, inside, falling⟩ := ordered
  refine ⟨fun id paragraph parent known around => ?_, arranges.paragraphs ▸ inside, ?_⟩
  · have below : id < before.paragraphs.size :=
      arranges.paragraphs ▸ (Array.getElem?_eq_some_iff.1 known).1
    obtain ⟨later, found, parents, -⟩ := arranges.same id _ (Array.getElem?_eq_getElem below)
    rw [known, Option.some.injEq] at found
    exact descends id _ parent (Array.getElem?_eq_getElem below)
      (by rw [← parents, ← found, around])
  · rw [arranges.vars, around_congr descends inside (Nat.le_of_eq arranges.paragraphs.symm)
      fun other _ => arranges.same other]
    exact falling

theorem arranges_of_same (vars : after.vars = before.vars)
    (paragraphs : after.paragraphs = before.paragraphs) :
    before.Arranges after :=
  ⟨congrArg _ vars, congrArg _ paragraphs, fun _ paragraph known =>
    ⟨paragraph, paragraphs ▸ known, rfl, rfl⟩⟩

theorem arranges_modifyParagraph (id : ParagraphId) {change : Paragraph → Paragraph}
    (parent : ∀ paragraph, (change paragraph).parent = paragraph.parent)
    (vars : ∀ paragraph, (change paragraph).vars = paragraph.vars) :
    body.Arranges (body.modifyParagraph id change) := by
  refine ⟨rfl, Array.size_modify, fun other paragraph known => ?_⟩
  rw [modifyParagraph, Array.getElem?_modify, known]
  split
  · exact ⟨change paragraph, rfl, parent paragraph, vars paragraph⟩
  · exact ⟨paragraph, rfl, rfl, rfl⟩

theorem IsOrdered.addItem (ordered : body.IsOrdered scope) (id : ParagraphId) (item : Item) :
    (body.addItem id item).IsOrdered scope := by
  have arranges : body.Arranges (body.addItem id item) :=
    arranges_modifyParagraph id (fun _ => rfl) fun _ => rfl
  exact arranges.isOrdered ordered

theorem IsOrdered.modifyDetail (ordered : body.IsOrdered scope) (id : ConstructId)
    (change : Detail → Detail) : (body.modifyDetail id change).IsOrdered scope := by
  have arranges : body.Arranges (body.modifyDetail id change) := arranges_of_same rfl rfl
  exact arranges.isOrdered ordered

/-- A paragraph begins without variables of its own. -/
theorem IsOrdered.addParagraph (ordered : body.IsOrdered scope)
    (parent : paragraph.parent = some scope) (blank : paragraph.vars = #[]) :
    (body.addParagraph paragraph).IsOrdered body.paragraphs.size := by
  obtain ⟨descends, inside, falling⟩ := ordered
  have known : (body.addParagraph paragraph).paragraphs[body.paragraphs.size]? =
      some paragraph := by
    rw [Body.addParagraph, Array.getElem?_push, if_pos rfl]
  have old {id : ParagraphId} {other : Paragraph} (shown : body.paragraphs[id]? = some other) :
      (body.addParagraph paragraph).paragraphs[id]? = some other := by
    have below := (Array.getElem?_eq_some_iff.1 shown).1
    rw [Body.addParagraph, Array.getElem?_push, if_neg (Nat.ne_of_lt below), shown]
  have stays : (body.addParagraph paragraph).Descends := by
    intro id other outer shown around
    rw [Body.addParagraph, Array.getElem?_push] at shown
    split at shown
    · rename_i last
      obtain rfl := Option.some.inj shown
      rw [parent, Option.some.injEq] at around
      exact last ▸ around ▸ inside
    · exact descends id other outer shown around
  refine ⟨stays, (Array.getElem?_eq_some_iff.1 known).1, ?_⟩
  rw [around_eq stays known, parent, blank]
  have size : body.paragraphs.size ≤ (body.addParagraph paragraph).paragraphs.size := by
    simp [Body.addParagraph]
  have same : (body.addParagraph paragraph).around scope = body.around scope :=
    around_congr descends inside size fun other _ paragraph shown =>
      ⟨paragraph, old shown, rfl, rfl⟩
  change (body.vars.size :: (body.addParagraph paragraph).around scope).Pairwise (· > ·)
  rw [same]
  exact falling

/-- Variables that are declared in the paragraph continue the numbers. -/
theorem Declares.isOrdered (declares : Declares scope before after)
    (ordered : before.IsOrdered scope) :
    after.IsOrdered scope := by
  obtain ⟨added, nextNode, effort, rfl, -, -⟩ := declares
  obtain ⟨descends, inside, falling⟩ := ordered
  have known := Array.getElem?_eq_getElem inside
  generalize before.paragraphs[scope] = paragraph at known
  have size : (before.extended scope added nextNode effort).paragraphs.size =
      before.paragraphs.size :=
    Array.size_modify
  have shown (id : ParagraphId) : (before.extended scope added nextNode effort).paragraphs[id]? =
      if scope = id then (before.paragraphs[id]?).map fun paragraph => { paragraph with
          vars := paragraph.vars ++ (List.range' before.vars.size added.length).toArray }
        else before.paragraphs[id]? := Array.getElem?_modify
  have own := (shown scope).trans (by rw [if_pos rfl, known, Option.map_some])
  have stays : (before.extended scope added nextNode effort).Descends := by
    intro id other outer found parent
    rw [shown] at found
    split at found
    · obtain ⟨old, shown, rfl⟩ := Option.map_eq_some_iff.1 found
      exact descends id old outer shown parent
    · exact descends id other outer found parent
  refine ⟨stays, size ▸ inside, ?_⟩
  have outside : paragraph.parent.elim [] (before.extended scope added nextNode effort).around =
      paragraph.parent.elim [] before.around := by
    cases parent : paragraph.parent with
    | none => rfl
    | some outer =>
        have below : outer < scope := descends scope paragraph outer known parent
        refine around_congr descends (Nat.lt_trans below inside) (Nat.le_of_eq size.symm)
          fun other low found isFound => ⟨found, ?_, rfl, rfl⟩
        rw [shown, if_neg (Nat.ne_of_gt (Nat.lt_of_le_of_lt low below)), isFound]
  rw [around_eq stays own, show (before.extended scope added nextNode effort).vars.size =
      before.vars.size + added.length by simp [extended]]
  dsimp only
  rw [outside]
  rw [around_eq descends known] at falling
  obtain ⟨above, later⟩ := List.pairwise_cons.1 falling
  have fresh (id : VariableId) (member : id ∈ List.range' before.vars.size added.length) :
      before.vars.size ≤ id ∧ id < before.vars.size + added.length := List.mem_range'_1.1 member
  rw [Array.toList_append, List.reverse_append, List.append_assoc]
  refine List.pairwise_cons.2 ⟨fun id member => ?_, List.pairwise_append.2 ⟨?_, later, ?_⟩⟩
  · rcases List.mem_append.1 member with new | old
    · exact (fresh id (List.mem_reverse.1 new)).2
    · exact Nat.lt_add_right _ (above id old)
  · exact List.pairwise_reverse.2 (List.pairwise_lt_range' ..)
  · exact fun id new other old =>
      Nat.lt_of_lt_of_le (above other old) (fresh id (List.mem_reverse.1 new)).1

theorem ReadsAll.isOrdered {clauses : List Placed} (reads : ReadsAll scope before clauses after)
    (ordered : before.IsOrdered scope) : after.IsOrdered scope := by
  induction reads with
  | nil body => exact ordered
  | cons first others induction => exact induction (first.declares.isOrdered ordered)

theorem ReadsCut.isOrdered (reads : ReadsCut scope before placed after)
    (ordered : before.IsOrdered scope) :
    after.IsOrdered scope := by
  obtain ⟨between, first, added, rfl, -⟩ := reads
  have arranges : between.Arranges { between with sites := between.sites ++ added.toArray } :=
    arranges_of_same rfl rfl
  exact arranges.isOrdered (first.declares.isOrdered ordered)

/-- The class bodies of a statement see what is declared by its end. -/
theorem ReadsCut.sites (reads : ReadsCut scope before placed after) {site : Site}
    (member : site ∈ after.sites) :
    site ∈ before.sites ∨ site.call.sight = after.sightFrom scope := by
  obtain ⟨between, first, added, rfl, places⟩ := reads
  rcases Array.mem_append.1 member with old | new
  · obtain ⟨vars, nextNode, effort, rfl, -, -⟩ := first.declares
    exact .inl old
  · exact .inr ((places site (List.mem_toArray.1 new)).2.trans first.sight)

/-! ## Class bodies -/

/-- What the class body sees is declared, and has falling numbers. -/
structure SeesFalling (body : Body) (site : Site) : Prop where
  fits : site.call.sight.Fits body
  falling : (body.inSight site.call.sight).Pairwise (· > ·)

theorem SeesFalling.mono {site : Site} (sees : before.SeesFalling site)
    (extended : before.Extends after) (descends : before.Descends) : after.SeesFalling site := by
  obtain ⟨fits, falling⟩ := sees
  refine ⟨⟨Nat.lt_of_lt_of_le fits.scope extended.size_le, Nat.le_trans fits.visible
    extended.vars_le⟩, ?_⟩
  rw [extended.inSight descends fits]
  exact falling

theorem IsOrdered.seesFalling {site : Site} (ordered : body.IsOrdered scope)
    (sees : site.call.sight = body.sightFrom scope) : body.SeesFalling site := by
  refine ⟨?_, ?_⟩
  · rw [sees]
    exact ⟨ordered.inside, Nat.le_refl _⟩
  · rw [sees]
    exact ordered.inSight _

end
end Body

/-! ## Steps of the reader -/

/-- The paragraph of the frame below is the one around, or the same. -/
theorem Stacked.isOrdered {body : Body} {frame : Frame} {stack : List Frame}
    (stacked : Stacked body (frame :: stack)) (ordered : body.IsOrdered frame.innermost)
    {lower : Frame} (below : stack.head? = some lower) : body.IsOrdered lower.innermost := by
  obtain ⟨others, rfl⟩ := List.head?_eq_some_iff.1 below
  have points := (List.isChain_cons_cons.1 stacked.seated).1.points
  cases frame with
  | construct upper =>
      obtain ⟨construct, -, -, same⟩ := points
      exact same ▸ ordered
  | paragraph upper =>
      obtain ⟨paragraph, known, parent⟩ := points
      obtain ⟨descends, inside, falling⟩ := ordered
      have smaller := descends upper.id paragraph lower.innermost known parent
      change (body.vars.size :: body.around upper.id).Pairwise (· > ·) at falling
      rw [around_eq descends known, parent] at falling
      refine ⟨descends, Nat.lt_trans smaller inside, falling.sublist ?_⟩
      exact (List.sublist_append_right ..).cons_cons _

namespace Reader

section

variable {text rest : List Char} {body after : Body} {frame : Frame} {frames stack : List Frame}

theorem innermost_taking (own : ParagraphFrame) (label : Option String) :
    (Frame.paragraph (taking { own with label })).innermost = own.id := by
  rw [Frame.innermost, taking_id]

/-- Every step keeps the numbers around the topmost frame in order. -/
theorem Transition.isOrdered (transition : Transition text body frame frames rest after)
    (stacked : Stacked body (frame :: stack)) (ordered : body.IsOrdered frame.innermost)
    {next : Frame}
    (top : (frames ++ stack).head? = some next) : after.IsOrdered next.innermost := by
  have pops {own : ConstructFrame} (isFrame : frame = .construct own)
      (below : stack.head? = some next)
      (keeps : body.IsOrdered own.scope → after.IsOrdered own.scope) :
        after.IsOrdered next.innermost := by
    subst isFrame
    obtain ⟨others, rfl⟩ := List.head?_eq_some_iff.1 below
    obtain ⟨construct, -, -, same⟩ := (List.isChain_cons_cons.1 stacked.seated).1.points
    exact same ▸ keeps ordered
  -- only the last kinds of steps pop a frame
  cases transition with
  | @brace own rest mode =>
      obtain rfl := Option.some.inj top
      have arranges : body.Arranges (body.modifyParagraph own.id
          fun paragraph => { paragraph with braced := true }) :=
        arranges_modifyParagraph own.id (fun _ => rfl) fun _ => rfl
      exact arranges.isOrdered ordered
  | unbraced mode starts solid | label mode | elseIf stage | doWhile stage =>
      obtain rfl := Option.some.inj top
      exact ordered
  | close mode => exact stacked.isOrdered ordered top
  | empty mode =>
      obtain rfl := Option.some.inj top
      rw [innermost_taking]
      exact ordered.addItem _ _
  | statement mode reads =>
      obtain rfl := Option.some.inj top
      rw [innermost_taking]
      exact (reads.isOrdered ordered).addItem _ _
  | block mode starts =>
      obtain rfl := Option.some.inj top
      exact (ordered.addParagraph rfl rfl).addItem _ _
  | @keyword own rest keyword mode =>
      obtain rfl := Option.some.inj top
      have arranges : body.Arranges (body.addConstruct
          { keyword, label := own.label, scope := own.id }) := arranges_of_same rfl rfl
      exact (arranges.isOrdered ordered).addItem _ _
  | @slot own rest keyword outer inner kind change next first second known reads readsInner opens =>
      obtain rfl := Option.some.inj top
      have opened := @IsOrdered.addParagraph _ _ { kind, parent := some own.scope }
        (reads.isOrdered ordered) rfl rfl
      exact (readsInner.isOrdered opened).modifyDetail _ _
  | leave stage => exact pops rfl top id
  | doCondition stage reads | caseLabel stage known reads =>
      exact pops rfl top fun ordered => (reads.declares.isOrdered ordered).modifyDetail _ _
  | @value own rest keyword value between handle stage known exits reads handles =>
      refine pops rfl top fun ordered => ?_
      have arranges :
          between.Arranges { between with returnsHandle := between.returnsHandle || handle } :=
        arranges_of_same rfl rfl
      exact (arranges.isOrdered (reads.isOrdered ordered)).modifyDetail _ _
  | jump stage known jumps | defaultLabel stage known =>
      exact pops rfl top fun ordered => ordered.modifyDetail _ _

/-- A step notes the class bodies of a statement of the topmost frame, or none. -/
theorem Transition.seesFalling (transition : Transition text body frame frames rest after)
    (ordered : body.IsOrdered frame.innermost) (extended : body.Extends after)
    (sees : ∀ site ∈ body.sites, body.SeesFalling site) :
    ∀ site ∈ after.sites, after.SeesFalling site := by
  have old {site : Site} (member : site ∈ body.sites) : after.SeesFalling site :=
    (sees site member).mono extended ordered.descends
  have noted {own : ParagraphId} {placed : Placed} {between : Body} (top : frame.innermost = own)
      (reads : ReadsCut own body placed between) (further : between.Extends after) :
      ∀ site ∈ between.sites, after.SeesFalling site := by
    subst top
    intro site member
    rcases reads.sites member with earlier | new
    · exact old earlier
    · have reached := reads.isOrdered ordered
      exact (reached.seesFalling new).mono further reached.descends
  intro site member
  cases transition with
  | statement mode reads =>
      exact noted rfl reads (extends_modifyParagraph (fun _ => rfl) fun _ => rfl) site member
  | value stage known exits reads handles =>
      exact noted rfl reads (.of_same rfl rfl rfl rfl) site member
  | slot known reads readsInner opens =>
      exact old (reads.cutTrees.2 ▸ readsInner.cutTrees.2 ▸ member)
  | doCondition stage reads | caseLabel stage known reads =>
      exact old (reads.declares.cutTrees.2 ▸ member)
  | _ => exact old member

/-! ## Whole runs -/

/-- The numbers around the topmost frame are in order, and so is what the class bodies see. -/
structure InOrder (reader : Reader) : Prop where
  top : ∀ frame, reader.stack.head? = some frame → reader.body.IsOrdered frame.innermost
  sites : ∀ site ∈ reader.body.sites, reader.body.SeesFalling site

variable {base : Body} {reader next : Reader} {context : Context} {options : Options}

theorem Advances.inOrder (advances : Advances reader next) (since : Since base reader)
    (stacked : reader.IsStacked) (inOrder : reader.InOrder) : next.InOrder := by
  have extended := (advances.edits since).1.extends
  obtain ⟨top, sites⟩ := inOrder
  cases advances with
  | feed reader line => exact ⟨top, sites⟩
  | step transition =>
      have ordered := top _ rfl
      exact ⟨fun frame head => transition.isOrdered stacked ordered head,
        transition.seesFalling ordered extended sites⟩

theorem inOrder_initial (context : Context) (options : Options) :
    (Reader.initial context options).InOrder := by
  have declares := declares_initial context options
  constructor
  · intro frame head
    obtain rfl := Option.some.inj head
    refine declares.isOrdered ⟨?_, Nat.zero_lt_one, List.pairwise_singleton ..⟩
    intro id paragraph parent known around
    obtain ⟨inside, rfl⟩ := Array.getElem?_eq_some_iff.1 known
    obtain rfl := Nat.lt_one_iff.1 inside
    contradiction
  · intro site member
    rw [show (Reader.initial context options).body.sites = #[] from declares.cutTrees.2] at member
    simp at member

theorem Reaches.inOrder (reached : Reaches (Reader.initial context options) reader) :
    reader.InOrder := by
  induction reached with
  | refl => exact inOrder_initial context options
  | tail earlier moves induction =>
      exact moves.advances.inOrder (Reaches.since earlier (since_initial context options))
        (Reaches.isStacked earlier) induction

end
end Reader

/-! ## Captures -/

section

variable {scope : ParagraphId} {base before after body : Body} {context : Context}
  {options : Options} {lines : List String}

/-- No variable that is declared is a field. -/
def Body.HasNoFields (body : Body) : Prop := ∀ entry ∈ body.vars, entry.isField = false

theorem Body.Declares.hasNoFields (declares : Declares scope before after)
    (none : before.HasNoFields) : after.HasNoFields := by
  obtain ⟨added, nextNode, effort, rfl, -, locals⟩ := declares
  intro entry member
  rcases Array.mem_append.1 member with old | new
  · exact none entry old
  · exact (locals entry (List.mem_toArray.1 new)).noField

theorem Edit.hasNoFields (edit : Edit base before after) (none : before.HasNoFields) :
    after.HasNoFields := by
  cases edit with
  | read reads own inside => exact reads.declares.hasNoFields none
  | note new notes =>
      obtain ⟨added, rfl, -⟩ := notes
      exact none
  | _ => exact none

theorem Edits.hasNoFields (edits : Edits base before after) (none : before.HasNoFields) :
    after.HasNoFields := by
  induction edits with
  | refl => exact none
  | tail _ edit induction => exact edit.hasNoFields induction

theorem Body.captures_of_mem_liftFrom {stems : List String} {sites : List Site} {lifted : Lifted}
    (member : lifted ∈ liftFrom body stems sites) :
    lifted.captures = body.captures lifted.call.sight lifted.body.toList := by
  induction sites generalizing stems with
  | nil => contradiction
  | cons site rest induction =>
      rcases List.mem_cons.1 member with rfl | later
      · rfl
      · exact induction later

/-- Captures are told from variables and paragraphs, which making types leaves alone. -/
theorem Body.Captures.lift {sight : Sight} {text : List Char} {captures : List Capture}
    (known : body.Captures sight text captures) (descends : body.Descends)
    (fits : sight.Fits body) :
    body.lift.Captures sight text captures := by
  have extended : body.Extends body.lift := .of_same rfl rfl rfl rfl
  have lookup (name : String) : body.lift.lookupAt sight name = body.lookupAt sight name :=
    extended.lookupAt descends fits name
  have variable_ (name : String) :
      body.lift.variableAt? sight name = body.variableAt? sight name := by
    rw [variableAt?, extended.inSight descends fits]
    rfl
  obtain ⟨names, values, once, inOrder⟩ := known
  refine ⟨?_, ?_, once, ?_⟩
  · simpa only [lookup] using names
  · simpa only [lookup] using values
  · simpa only [variable_] using inOrder

/-- **Captures.**  In a body that is read successfully, every type made from a class body captures
the final parameters and locals that its text refers to: those that a look-up from its constructor
call finds, each once, in the order of declaration. -/
theorem Body.ofLines_captures (read : Body.ofLines context options lines = .ok body) :
    ∀ lifted ∈ body.lifted, body.Captures lifted.call.sight lifted.body.toList lifted.captures := by
  obtain ⟨reader, reached, -, rfl⟩ := Body.ofLines_reaches read
  have start : (Body.initial context options).HasNoFields :=
    (declares_initial context options).hasNoFields (by simp [HasNoFields])
  have since := reached.since (Reader.since_initial context options)
  have locals := since.edits.hasNoFields start
  intro lifted member
  have made : lifted ∈ liftFrom reader.body [] reader.body.sites.toList := List.mem_toArray.1 member
  obtain ⟨site, noted, makes⟩ := exists_mem_of_forall₂ (liftFrom_makes reader.body [] _) made
  have sees := reached.inOrder.sites site (Array.mem_toList_iff.1 noted)
  rw [captures_of_mem_liftFrom made, makes.call]
  exact (captures_captures sees.falling locals _).lift since.sound.tree.descends sees.fits

/-- A final parameter, a loop variable and a variable that hides one of another type are captured; a
variable that is not final hides one that is. -/
theorem Body.ofLines_captures_nested : ∃ body, Body.ofLines { parameters := [⟨"p", "P", true⟩] } {}
        ["final int a = 1, b = 2; \x7b final A a = x; int b;",
          "for (final T c : y) return new E() \x7b z(b, this.p, a, c, p) \x7d; \x7d"] = .ok body ∧
      body.lifted.toList.map (fun lifted => lifted.captures.map fun capture =>
        (capture.name, capture.typeName)) = [[("p", "P"), ("a", "A"), ("c", "T")]] ∧
      ∀ lifted ∈ body.lifted,
        body.Captures lifted.call.sight lifted.body.toList lifted.captures := by
  have runs : ((Body.ofLines { parameters := [⟨"p", "P", true⟩] } {}
      ["final int a = 1, b = 2; \x7b final A a = x; int b;",
        "for (final T c : y) return new E() \x7b z(b, this.p, a, c, p) \x7d; \x7d"]).toOption.map
      fun body => body.lifted.toList.map fun lifted => lifted.captures.map fun capture =>
        (capture.name, capture.typeName)) = some [[("p", "P"), ("a", "A"), ("c", "T")]] := by
    decide +kernel
  revert runs
  cases read : Body.ofLines { parameters := [⟨"p", "P", true⟩] } {}
      ["final int a = 1, b = 2; \x7b final A a = x; int b;",
        "for (final T c : y) return new E() \x7b z(b, this.p, a, c, p) \x7d; \x7d"] with
  | error failure => exact nofun
  | ok body => exact fun made => ⟨body, rfl, Option.some.inj made, Body.ofLines_captures read⟩

end
end MethodLowering
