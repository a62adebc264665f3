import MethodLowering.Proofs.Reader.Chunking
import MethodLowering.Proofs.Reader.Edits
import MethodLowering.Proofs.Reader.Taking

/-!
# The statements that were cut out of the source

The source is all lines with blanks between them.  What waits is always the end of the source that
was fed, and in front of it stand the statements that were cut out, one behind the other: their
trees are the expression statements and the values of `return` and `throw` of the body, and their
class bodies are the sites of the body.
-/

namespace MethodLowering

open MethodLowering.Expr Body

/-! ## Trees of a changed body -/

/-- Trees of entries of which one gets further trees. -/
theorem perm_flatMap_modify {α : Type} (trees : α → List Expr) {entries : List α} {id : Nat}
    {change : α → α} {added : List Expr} (inside : id < entries.length)
    (grown : ∀ entry, entries[id]? = some entry → trees (change entry) = trees entry ++ added) :
    ((entries.modify id change).flatMap trees).Perm (entries.flatMap trees ++ added) := by
  induction entries generalizing id with
  | nil => exact absurd inside (Nat.not_lt_zero _)
  | cons entry rest induction =>
      cases id with
      | zero =>
          rw [List.modify_zero_cons, List.flatMap_cons, List.flatMap_cons, grown entry rfl,
            List.append_assoc, List.append_assoc]
          exact List.perm_append_comm.append_left _
      | succ id =>
          rw [List.modify_succ_cons, List.flatMap_cons, List.flatMap_cons, List.append_assoc]
          refine (induction (Nat.lt_of_succ_lt_succ inside) fun other known => ?_).append_left _
          exact grown other known

section

variable {scope : ParagraphId} {before after body : Body} {id : Nat} {added : List Expr}

theorem Body.Declares.cutTrees (declares : Declares scope before after) :
    after.cutTrees = before.cutTrees ∧ after.sites = before.sites := by
  obtain ⟨added, nextNode, effort, rfl, -, -⟩ := declares
  exact ⟨Reader.cutTrees_modifyParagraph scope fun _ => rfl, rfl⟩

theorem Body.ReadsAll.cutTrees {clauses : List Placed}
    (reads : ReadsAll scope before clauses after) :
    after.cutTrees = before.cutTrees ∧ after.sites = before.sites := by
  induction reads with
  | nil body => exact ⟨rfl, rfl⟩
  | cons first others induction =>
      obtain ⟨trees, sites⟩ := first.declares.cutTrees
      exact ⟨induction.1.trans trees, induction.2.trans sites⟩

/-- A statement that is added counts. -/
theorem perm_addItem {item : Item} (inside : id < body.paragraphs.size) :
    (body.addItem id item).cutTrees.Perm (body.cutTrees ++ item.trees) := by
  have moved : (body.cutTrees ++ item.trees).Perm
      (body.paragraphs.toList.flatMap Paragraph.trees ++ item.trees ++
        body.constructs.toList.flatMap Construct.values) := by
    rw [cutTrees, List.append_assoc, List.append_assoc]
    exact List.perm_append_comm.append_left _
  refine List.Perm.trans ?_ moved.symm
  rw [cutTrees, Body.addItem, Body.modifyParagraph, Array.toList_modify]
  refine (perm_flatMap_modify Paragraph.trees inside fun paragraph _ => ?_).append_right _
  simp [Paragraph.trees]

/-- A construct that changes counts with the values that it gets. -/
theorem perm_modifyDetail {change : Detail → Detail} {construct : Construct}
    (known : body.constructs[id]? = some construct)
    (grown : ({ construct with detail := change construct.detail } : Construct).values =
      construct.values ++ added) :
    (body.modifyDetail id change).cutTrees.Perm (body.cutTrees ++ added) := by
  obtain ⟨inside, -⟩ := Array.getElem?_eq_some_iff.1 known
  rw [cutTrees, cutTrees, List.append_assoc, Body.modifyDetail, Array.toList_modify]
  refine List.Perm.append_left _ (perm_flatMap_modify Construct.values inside fun other here => ?_)
  rw [Array.getElem?_toList, known] at here
  obtain rfl := Option.some.inj here
  exact grown

end

/-! ## Constructs that hand back no value -/

namespace Reader

section

variable {frame : ConstructFrame} {construct : Construct} {text rest : List Char}
  {body after : Body} {frames stack : List Frame}

/-- A construct that is not complete has no value yet. -/
theorem values_of_fits (fits : frame.Fits construct) (open_ : frame.stage ≠ .done) :
    construct.values = [] := by
  obtain ⟨-, fits⟩ := fits
  cases stage : frame.stage with
  | header =>
      rw [stage] at fits
      rcases fits with blank | ⟨-, branches, -, shown⟩
      · simp [Construct.values, blank]
      · simp [Construct.values, shown]
  | afterBranch =>
      rw [stage] at fits
      obtain ⟨-, branches, -, shown⟩ := fits
      simp [Construct.values, shown]
  | afterDoBody | doCondition | afterTryClause =>
      rw [stage] at fits
      obtain ⟨slot, other, shown⟩ := fits
      simp [Construct.values, shown]
  | done => exact absurd stage open_

/-- Opening a body gives a construct no value. -/
theorem Opens.values {slot : ParagraphId} {keyword : Keyword} {stage next : Stage}
    {outer inner : List Placed} {kind : ParagraphKind} {change : Detail → Detail}
    (opens : Opens frame slot body keyword stage outer inner kind change next)
    (blank : construct.values = []) :
    ({ construct with detail := change construct.detail } : Construct).values = [] := by
  obtain ⟨_, _, _, detail⟩ := construct
  cases opens with
  | branch | otherwise => cases detail <;> rfl
  | handler | cleanup => cases detail <;> exact blank
  | _ => rfl

/-- A step of a construct that hands back no value adds no tree that counts. -/
theorem Transition.keeps_cutTrees
    (transition : Transition text body (.construct frame) frames rest after)
    (opened : body.shape.IsOpen (.construct frame :: stack))
    (stays : frame.stage = .header → ∀ keyword,
      body.constructs[frame.id]?.map (·.keyword) = some keyword → keyword.exits = false) :
    after.cutTrees.Perm body.cutTrees ∧ after.sites = body.sites := by
  obtain ⟨construct, known, fits⟩ := opened.holds _ (List.mem_cons_self ..)
  rw [getElem?_shape_constructs] at known
  -- a change that gives no value keeps the trees
  have unchanged {between : Body} {change : Detail → Detail}
      (same : between.constructs[frame.id]? = some construct) (blank : construct.values = [])
      (still : ({ construct with detail := change construct.detail } : Construct).values = []) :
      (between.modifyDetail frame.id change).cutTrees.Perm between.cutTrees := by
    have alike : ({ construct with detail := change construct.detail } : Construct).values =
        construct.values ++ [] := by
      rw [still, blank, List.append_nil]
    have perm := perm_modifyDetail same alike
    rwa [List.append_nil] at perm
  cases transition with
  | slot named reads readsInner opens =>
      rename_i keyword outer inner kind change next first second
      obtain ⟨treesFirst, sitesFirst⟩ := reads.cutTrees
      obtain ⟨treesSecond, sitesSecond⟩ := readsInner.cutTrees
      have slotTrees : (first.addParagraph { kind, parent := some frame.scope }).cutTrees =
          first.cutTrees := by
        simp [cutTrees, Body.addParagraph, Paragraph.trees]
      have open_ : frame.stage ≠ .done := by
        intro done
        rw [done] at opens
        cases opens
      have blank := values_of_fits fits open_
      have same : second.constructs[frame.id]? = some construct := by
        rw [readsInner.sizes.2]
        exact (congrArg (·[frame.id]?) reads.sizes.2).trans known
      refine ⟨(unchanged same blank (opens.values blank)).trans ?_, sitesSecond.trans sitesFirst⟩
      rw [treesSecond, slotTrees, treesFirst]
  | elseIf stage => exact ⟨.refl _, rfl⟩
  | doWhile stage => exact ⟨.refl _, rfl⟩
  | doCondition stage reads =>
      obtain ⟨trees, sites⟩ := reads.declares.cutTrees
      have blank := values_of_fits fits (by simp [stage])
      have same := (congrArg (·[frame.id]?) reads.declares.sizes.2).trans known
      refine ⟨(unchanged same blank ?_).trans (.of_eq trees), sites⟩
      obtain ⟨_, _, _, detail⟩ := construct
      cases detail <;> exact blank
  | leave stage => exact ⟨.refl _, rfl⟩
  | value stage named exits reads handles =>
      have exits' := stays stage _ named
      rcases exits with rfl | rfl <;> contradiction
  | jump stage named jumps =>
      have blank := values_of_fits fits (by simp [stage])
      have keyword : construct.keyword.exits = false := by
        rw [known] at named
        exact stays stage _ (by rw [known]; rfl)
      exact ⟨unchanged known blank (by simp [Construct.values, keyword]), rfl⟩
  | caseLabel stage named reads =>
      obtain ⟨trees, sites⟩ := reads.declares.cutTrees
      have blank := values_of_fits fits (by simp [stage])
      have same := (congrArg (·[frame.id]?) reads.declares.sizes.2).trans known
      exact ⟨(unchanged same blank rfl).trans (.of_eq trees), sites⟩
  | defaultLabel stage named =>
      have blank := values_of_fits fits (by simp [stage])
      exact ⟨unchanged known blank rfl, rfl⟩

end

/-! ## Statements and the source -/

/-- What is known of a reader to which the source was fed, and of the statements that were cut
out. -/
structure Chronicle (source : List Char) (cuttings : List Cutting) (reader : Reader) : Prop where
  /-- What waits is the end of the source. -/
  waits : reader.leftover <:+ source
  /-- The statements stand in front of what waits. -/
  taken : ∀ cutting ∈ cuttings, cutting.stop + reader.leftover.length < source.length
  inOrder : cuttings.Pairwise fun first second => first.stop < second.start
  cut : ∀ cutting ∈ cuttings, cutting.IsCutFrom (source.drop cutting.start)
  roots : ((cuttings.map (·.root.expr)).filter isPresent).Perm reader.body.cutTrees
  sites : List.Forall₂ ClassBody.Owns (cuttings.flatMap Cutting.bodies) reader.body.sites.toList

section

variable {source more text rest : List Char} {cuttings : List Cutting} {cutting : Cutting}
  {reader next : Reader} {body after : Body} {frame : Frame} {stack frames : List Frame}
  {finishing : Bool}

/-- An expression statement adds its tree and notes its class bodies. -/
theorem cutTrees_statement {id : ParagraphId} {between : Body} (inside : id < body.paragraphs.size)
    (declares : Declares id body between) (notes : cutting.Notes between after) :
    (after.addItem id (if cutting.root.isAbsent then .empty else
      .expression cutting.root)).cutTrees.Perm
        (body.cutTrees ++ [cutting.root.expr].filter isPresent) ∧
      ∃ added, after.sites = body.sites ++ added.toArray ∧
        List.Forall₂ ClassBody.Owns cutting.bodies added := by
  obtain ⟨trees, sites⟩ := declares.cutTrees
  obtain ⟨added, noted, owns⟩ := notes
  have same : after.cutTrees = body.cutTrees := by
    rw [noted, ← trees]
    rfl
  have still : id < after.paragraphs.size := by
    rw [noted]
    exact Nat.lt_of_lt_of_eq inside declares.sizes.1.symm
  have added_eq : after.sites = body.sites ++ added.toArray := by rw [noted, ← sites]
  refine ⟨(perm_addItem still).trans (.of_eq ?_), added, added_eq, owns⟩
  rw [same]
  congr 1
  cases absent : cutting.root.isAbsent with
  | true => simp [Item.trees, isPresent, show cutting.root.expr.isAbsent = true from absent]
  | false => simp [Item.trees, isPresent, show cutting.root.expr.isAbsent = false from absent]

/-- A `return` or `throw` adds the tree of its value and notes its class bodies. -/
theorem cutTrees_value {scope id : Nat} {between : Body} {construct : Construct}
    (known : body.constructs[id]? = some construct) (exits : construct.keyword.exits = true)
    (blank : construct.values = []) (declares : Declares scope body between)
    (notes : cutting.Notes between after) (handle : Bool) :
    ({ after with returnsHandle := handle }.modifyDetail id fun _ =>
        .jump cutting.root none).cutTrees.Perm
        (body.cutTrees ++ [cutting.root.expr].filter isPresent) ∧
      ∃ added, after.sites = body.sites ++ added.toArray ∧
        List.Forall₂ ClassBody.Owns cutting.bodies added := by
  obtain ⟨trees, sites⟩ := declares.cutTrees
  obtain ⟨added, noted, owns⟩ := notes
  have same : cutTrees { after with returnsHandle := handle } = body.cutTrees := by
    rw [noted, ← trees]
    rfl
  have still : ({ after with returnsHandle := handle } : Body).constructs[id]? =
    some construct := by
    rw [noted]
    exact (congrArg (·[id]?) declares.sizes.2).trans known
  have added_eq : after.sites = body.sites ++ added.toArray := by rw [noted, ← sites]
  refine ⟨(perm_modifyDetail still ?_).trans (.append_right _ (.of_eq same)), added, added_eq, owns⟩
  rw [blank]
  simp [Construct.values, exits]

section

variable (chronicle : Chronicle source cuttings reader)
include chronicle

/-- What is known stays when a step takes text that is no statement. -/
theorem Chronicle.keep (behind : next.leftover <:+ reader.leftover)
    (trees : next.body.cutTrees.Perm reader.body.cutTrees)
    (sites : next.body.sites = reader.body.sites) : Chronicle source cuttings next where
  waits := behind.trans chronicle.waits
  taken cutting member := by
    have before := chronicle.taken cutting member
    have shorter := behind.length_le
    omega
  inOrder := chronicle.inOrder
  cut := chronicle.cut
  roots := chronicle.roots.trans trees.symm
  sites := by
    rw [sites]
    exact chronicle.sites

/-- A statement that is cut out of what waits comes behind the others. -/
theorem Chronicle.snoc
    (inside : text <:+ reader.leftover) (begins : cutting.start = source.length - text.length)
    (cuts : cutting.IsCutFrom text) (leftover : next.leftover = text.drop (cutting.text.length + 1))
    (trees : next.body.cutTrees.Perm
      (reader.body.cutTrees ++ [cutting.root.expr].filter isPresent))
    (sites : ∃ added, next.body.sites = reader.body.sites ++ added.toArray ∧
      List.Forall₂ ClassBody.Owns cutting.bodies added) :
    Chronicle source (cuttings ++ [cutting]) next := by
  obtain ⟨added, added_eq, owns⟩ := sites
  have within : text <:+ source := inside.trans chronicle.waits
  have short := inside.length_le
  have fits := within.length_le
  have semicolon := cuts.lt
  have stands : source.drop cutting.start = text := by
    rw [begins]
    exact (List.suffix_iff_eq_drop.1 within).symm
  have remaining : next.leftover.length = text.length - (cutting.text.length + 1) := by
    rw [leftover, List.length_drop]
  refine ⟨?_, ?_, ?_, ?_, ?_, ?_⟩
  · rw [leftover]
    exact (List.drop_suffix _ _).trans within
  · intro other member
    rcases List.mem_append.1 member with old | new
    · have before := chronicle.taken other old
      omega
    · rw [List.mem_singleton.1 new, Cutting.stop]
      omega
  · refine List.pairwise_append.2 ⟨chronicle.inOrder, List.pairwise_singleton .., ?_⟩
    intro other member new alone
    have before := chronicle.taken other member
    rw [List.mem_singleton.1 alone]
    omega
  · intro other member
    rcases List.mem_append.1 member with old | new
    · exact chronicle.cut other old
    · rw [List.mem_singleton.1 new, stands]
      exact cuts
  · rw [List.map_append, List.filter_append]
    exact (chronicle.roots.append_right _).trans trees.symm
  · rw [List.flatMap_append, List.flatMap_singleton, added_eq, Array.toList_append]
    exact List.rel_append chronicle.sites owns

/-- The reader takes a step. -/
theorem Chronicle.turn (sound : Sound reader) (moves : reader.turn finishing = .move next) :
    ∃ further, Chronicle source (cuttings ++ further) next := by
  obtain ⟨body, stack, leftover⟩ := reader
  cases stack with
  | nil => contradiction
  | cons frame stack =>
      simp only [Reader.turn] at moves
      cases result : step finishing frame (Text.trimStart leftover) body with
      | error failure after => simp [result] at moves
      | ok outcome after =>
          have trimmed := trimStart_isSuffix leftover
          have takes := step_takes (source.length - (Text.trimStart leftover).length) frame
            outcome after result
          have obeys := step_steps frame outcome after result
          -- every outcome but waiting is alike: the frames do not matter
          obtain ⟨frames, rest, taken, rfl⟩ : ∃ frames rest, taken? outcome = some (frames, rest) ∧
              next = ⟨after, frames ++ stack, rest⟩ := by
            cases outcome with
            | needMore => simp [result] at moves
            | _ =>
                rw [result] at moves
                exact ⟨_, _, rfl, (Turn.move.inj moves).symm⟩
          have transition : Transition (Text.trimStart leftover) body frame frames rest after := by
            rw [Obeys, taken] at obeys
            exact obeys
          have fits := sound.opened.holds frame (List.mem_cons_self ..)
          cases takes frames rest taken with
          | paragraph behind sites trees =>
              exact ⟨[], by
                rw [List.append_nil]
                exact chronicle.keep (behind.trans trimmed) (.of_eq trees) sites⟩
          | construct behind stays =>
              obtain ⟨trees, sites⟩ := transition.keeps_cutTrees sound.opened stays
              exact ⟨[], by
                rw [List.append_nil]
                exact chronicle.keep (behind.trans trimmed) trees sites⟩
          | statement begins cuts declares notes =>
              rename_i frame cutting between after
              obtain ⟨paragraph, known, -⟩ := fits
              have inside : frame.id < body.paragraphs.size := by
                rw [← length_shape_paragraphs]
                exact (List.getElem?_eq_some_iff.1 known).1
              obtain ⟨trees, sites⟩ := cutTrees_statement inside declares notes
              exact ⟨[cutting], chronicle.snoc trimmed begins cuts rfl trees sites⟩
          | value stage named exits begins cuts declares notes =>
              rename_i frame keyword cutting between after handle
              obtain ⟨construct, known, fits⟩ := fits
              rw [getElem?_shape_constructs] at known
              have named : construct.keyword = keyword := by
                rw [known] at named
                exact Option.some.inj named
              have blank := values_of_fits fits (by simp [stage])
              obtain ⟨trees, sites⟩ :=
                cutTrees_value known (named ▸ exits) blank declares notes handle
              exact ⟨[cutting], chronicle.snoc trimmed begins cuts rfl trees sites⟩

/-- One more line is fed. -/
theorem Chronicle.fed (line : List Char) :
    Chronicle (source ++ ' ' :: line) cuttings (reader.fed line) := by
  have leftover : (reader.fed line).leftover <:+ reader.leftover ++ ' ' :: line ∧
      (reader.fed line).leftover.length ≤ reader.leftover.length + line.length + 1 := by
    unfold Reader.fed
    dsimp only
    split
    · rename_i blank
      rw [List.isEmpty_iff.1 blank]
      exact ⟨List.suffix_cons _ _, by simp⟩
    · exact ⟨List.suffix_refl _, by simp; omega⟩
  refine ⟨leftover.1.trans ?_, ?_, chronicle.inOrder, ?_, chronicle.roots, chronicle.sites⟩
  · obtain ⟨front, split⟩ := chronicle.waits
    exact ⟨front, by rw [← List.append_assoc, split]⟩
  · intro cutting member
    have before := chronicle.taken cutting member
    have long := leftover.2
    simp only [List.length_append, List.length_cons]
    omega
  · intro cutting member
    have before := chronicle.taken cutting member
    rw [Cutting.stop] at before
    rw [List.drop_append_of_le_length (by omega)]
    exact (chronicle.cut cutting member).append _

end

/-! ## Runs -/

/-- The reader is on its way, and some statements were cut out of the source. -/
def IsChronicled (source : List Char) (reader : Reader) : Prop :=
  Sound reader ∧ ∃ cuttings, Chronicle source cuttings reader

section

variable (known : IsChronicled source reader)
include known

theorem IsChronicled.turn
    (moves : reader.turn finishing = .move next) : IsChronicled source next := by
  obtain ⟨sound, cuttings, chronicle⟩ := known
  obtain ⟨further, behind⟩ := chronicle.turn sound moves
  exact ⟨(turn_advances moves).sound sound, _, behind⟩

theorem IsChronicled.fed (line : List Char) :
    IsChronicled (source ++ ' ' :: line) (reader.fed line) := by
  obtain ⟨sound, cuttings, chronicle⟩ := known
  exact ⟨(Advances.feed reader line).sound sound, cuttings, chronicle.fed line⟩

theorem IsChronicled.turns (turns : Turns reader next) :
    IsChronicled source next := by
  induction turns with
  | refl => exact known
  | tail _ taken induction =>
      obtain ⟨finishing, moves⟩ := taken
      exact induction.turn moves

theorem IsChronicled.feedAll {lines : List String}
    (fed : feedAll lines reader = .ok () next) :
    IsChronicled (source ++ lines.flatMap fun line => ' ' :: line.toList) next := by
  induction lines generalizing source reader with
  | nil =>
      obtain ⟨-, rfl⟩ := EStateM.Result.ok.inj fed
      simpa using known
  | cons line rest induction =>
      obtain ⟨_, between, first, others⟩ := bind_eq_ok.1 fed
      have further := induction ((known.fed line.toList).turns (run_turns first)) others
      rwa [List.flatMap_cons, ← List.append_assoc]

end

end
end Reader

/-- The source of a body: its lines with blanks between them. -/
theorem toList_intercalate_cons (line : String) (rest : List String) :
    (" ".intercalate (line :: rest)).toList =
      line.toList ++ rest.flatMap fun line => ' ' :: line.toList := by
  induction rest generalizing line with
  | nil => simp [String.intercalate_singleton]
  | cons second rest induction =>
      rw [Reader.toList_join, induction, List.flatMap_cons, List.cons_append]

/-- A body that is read comes from a reader that has taken the whole source. -/
theorem Body.ofLines_chronicle {context : Context} {options : Options} {lines : List String}
    {body : Body} (read : Body.ofLines context options lines = .ok body) :
    ∃ reader cuttings, Reader.Chronicle (" ".intercalate lines).toList cuttings reader ∧
      body = reader.body.lift := by
  have start : Reader.Sound (Reader.initial context options) := Reader.sound_initial context options
  have blank : (Body.initial context options).cutTrees = [] ∧
      (Body.initial context options).sites = #[] :=
    (declares_initial context options).cutTrees
  have begins (line : List Char) :
      Reader.IsChronicled line ((Reader.initial context options).fed line) := by
    refine ⟨(Reader.Advances.feed _ line).sound start, [], ?_⟩
    refine ⟨List.suffix_refl _, nofun, .nil, nofun, ?_, ?_⟩
    · exact .of_eq blank.1.symm
    · rw [show ((Reader.initial context options).fed line).body.sites = #[] from blank.2]
      exact .nil
  rw [Body.ofLines] at read
  split at read
  · rename_i result reader finished
    obtain rfl := Except.ok.inj read
    obtain ⟨_, between, fed, behind⟩ := bind_eq_ok.1 finished
    obtain ⟨_, last, drained, closes⟩ := bind_eq_ok.1 behind
    have chronicled : Reader.IsChronicled (" ".intercalate lines).toList between := by
      cases lines with
      | nil =>
          obtain ⟨-, rfl⟩ := EStateM.Result.ok.inj fed
          exact begins []
      | cons line rest =>
          obtain ⟨_, first, one, others⟩ := bind_eq_ok.1 fed
          rw [toList_intercalate_cons]
          exact ((begins line.toList).turns (Reader.run_turns one)).feedAll others
    obtain ⟨-, cuttings, chronicle⟩ := chronicled.turns (Reader.drain_turns drained)
    obtain ⟨-, -, same⟩ := Reader.finish_reaches behind
    obtain ⟨_, _, asked, rest⟩ := bind_eq_ok.1 closes
    obtain ⟨rfl, rfl⟩ := EStateM.Result.ok.inj asked
    refine ⟨last, cuttings, chronicle, ?_⟩
    cases idle : last.isIdle with
    | true =>
        simp only [idle, if_true] at rest
        obtain ⟨rfl, rfl⟩ := EStateM.Result.ok.inj rest
        rfl
    | false =>
        simp only [idle, Bool.false_eq_true, if_false] at rest
        contradiction
  · contradiction

end MethodLowering
