import MethodLowering.Output
import MethodLowering.Proofs.Lowering.Agreement
import MethodLowering.Proofs.Reader.Stability
import MethodLowering.Proofs.Reader.WellFormed
import MethodLowering.Proofs.Rendering.Agreement
import MethodLowering.Proofs.Rendering.Page

/-!
# Further statements

When the reader is idle behind some lines, what these lines mean is settled: with further lines, the
output only grows at its end.
-/

namespace MethodLowering

open Body Reader

/-! ## The part that was read -/

section

variable {base body part whole : Body} {stems : List String}

/-- Types are made from class bodies one after another. -/
theorem Body.liftFrom_append (stems : List String) (front back : List Site) :
    ∃ later, liftFrom body stems (front ++ back) =
      liftFrom body stems front ++ liftFrom body later back := by
  induction front generalizing stems with
  | nil => exact ⟨stems, rfl⟩
  | cons site rest induction =>
      obtain ⟨later, same⟩ := induction (liftedStem site.baseType :: stems)
      exact ⟨later, by rw [List.cons_append, liftFrom, same, liftFrom, List.cons_append]⟩

theorem Body.call_of_mem_liftFrom {sites : List Site} {type : Lifted}
    (member : type ∈ liftFrom body stems sites) : ∃ site ∈ sites, type.call = site.call := by
  induction sites generalizing stems with
  | nil => simp [liftFrom] at member
  | cons site rest induction =>
      rw [liftFrom] at member
      rcases List.mem_cons.1 member with rfl | later
      · exact ⟨site, by simp, rfl⟩
      · obtain ⟨other, inside, same⟩ := induction later
        exact ⟨other, List.mem_cons_of_mem _ inside, same⟩

/-- The same types are made where class bodies read the same variables. -/
theorem Body.liftFrom_congr {sites : List Site}
    (same : ∀ site ∈ sites, ∀ text, whole.captures site.call.sight text =
      part.captures site.call.sight text) :
    liftFrom whole stems sites = liftFrom part stems sites := by
  induction sites generalizing stems with
  | nil => rfl
  | cons site rest induction =>
      rw [liftFrom, liftFrom, same site (by simp),
        induction fun other member => same other (List.mem_cons_of_mem _ member)]

theorem Expr.Within.lower {low lower high : Mark} {expr : Expr} (within : expr.Within low high)
    (below : lower ≤ low) : expr.Within lower high := by
  intro inner inside
  obtain ⟨own, declared⟩ := within inner inside
  exact ⟨fun node known => ⟨Nat.le_trans below.2 (own node known).1, (own node known).2⟩,
    fun id known => ⟨Nat.le_trans below.1 (declared id known).1, (declared id known).2⟩⟩

theorem Placed.IsNew.isKnown {placed : Placed} (new : placed.IsNew base body) :
    placed.IsKnown body :=
  ⟨new.within.lower ⟨Nat.zero_le _, Nat.zero_le _⟩, new.fits⟩

/-- What a statement refers to comes behind its paragraph. -/
theorem Body.follows_of_mem_targets (tree : body.shape.IsTree) {id target : Nat}
    {paragraph : Paragraph} {item : Item} (known : body.paragraphs[id]? = some paragraph)
    (listed : item ∈ paragraph.items) (member : target ∈ body.targets item) :
    body.Follows id target := by
  have place : (id, target) ∈ body.references := by
    refine mem_numbered.2 ⟨id, paragraph, (Nat.zero_add id).symm, ?_, ?_⟩
    · rw [Array.getElem?_toList, known]
    · exact List.mem_flatMap.2 ⟨item, Array.mem_toList_iff.2 listed, member⟩
  obtain ⟨⟨_, _⟩, numbered, same⟩ := List.mem_map.1 ((references_perm tree).subset place)
  obtain ⟨rfl, rfl⟩ := Prod.mk.inj same
  obtain ⟨position, found, same, shown, parent⟩ := mem_numbered.1 numbered
  rw [Nat.zero_add] at same
  subst same
  refine ⟨?_, ?_⟩
  · rcases tree.parents _ found shown with ⟨-, none⟩ | ⟨around, below, same⟩
    · simp [none] at parent
    · rw [same, Option.mem_toList, Option.some.injEq] at parent
      exact parent ▸ below
  · rw [← length_shape_paragraphs]
    exact (List.getElem?_eq_some_iff.1 shown).1

/-- Every statement of a body that was read refers to what the body knows. -/
theorem Reader.Since.isKnown {context : Context} {options : Options} {reader : Reader}
    (since : Since (Body.initial context options) reader) {id : ParagraphId} {paragraph : Paragraph}
    (known : reader.body.paragraphs[id]? = some paragraph) {item : Item}
    (listed : item ∈ paragraph.items) : item.IsKnown reader.body id := by
  have grown := Edits.grown since.edits
  have tree := since.sound.tree
  cases item with
  | empty => trivial
  | expression placed =>
      exact (grown.isNew_of_hasTree (.inl ⟨paragraph, Array.mem_of_getElem? known, listed⟩)).isKnown
  | block target => exact follows_of_mem_targets tree known listed (List.mem_singleton.2 rfl)
  | construct number =>
      have place : (id, number) ∈ reader.body.constructPlaces := by
        refine mem_numbered.2 ⟨id, paragraph, (Nat.zero_add id).symm, ?_, ?_⟩
        · rw [Array.getElem?_toList, known]
        · exact List.mem_filterMap.2 ⟨_, Array.mem_toList_iff.2 listed, rfl⟩
      obtain ⟨⟨_, _⟩, numbered, same⟩ := List.mem_map.1 ((constructPlaces_perm tree).subset place)
      obtain ⟨rfl, rfl⟩ := Prod.mk.inj same
      obtain ⟨position, construct, same, shown, -⟩ := mem_numbered.1 numbered
      rw [Nat.zero_add] at same
      subst same
      rw [getElem?_shape_constructs] at shown
      refine ⟨construct, shown, fun clause member => ?_, fun slot member => ?_⟩
      · exact (grown.isNew_of_hasTree
          (.inr ⟨construct, Array.mem_of_getElem? shown, member⟩)).isKnown
      · refine follows_of_mem_targets tree known listed ?_
        simpa [targets, shown] using member

/-! ### Lifted bodies -/

theorem Placed.IsKnown.lift {placed : Placed} (known : placed.IsKnown body) :
    placed.IsKnown body.lift :=
  ⟨known.within, known.fits.scope, known.fits.visible⟩

theorem Item.IsKnown.lift {item : Item} {id : ParagraphId} (known : item.IsKnown body id) :
    item.IsKnown body.lift id := by
  cases item with
  | expression placed => exact Placed.IsKnown.lift known
  | construct number =>
      obtain ⟨construct, found, clauses, slots⟩ := known
      exact ⟨construct, found, fun clause member => (clauses clause member).lift, slots⟩
  | _ => exact known

theorem Placed.IsNew.lift {placed : Placed} (new : placed.IsNew base body) :
    placed.IsNew base.lift body.lift :=
  ⟨new.within, new.scope, new.visible, new.origin⟩

theorem Item.IsNew.lift {item : Item} (new : item.IsNew base body) :
    item.IsNew base.lift body.lift := by
  cases item with
  | expression placed => exact Placed.IsNew.lift new
  | _ => exact new

theorem Body.ParagraphsGrown.lift (grown : base.ParagraphsGrown body) :
    base.lift.ParagraphsGrown body.lift := by
  refine ⟨grown.old, fun paragraph known => ?_, fun id paragraph later known item member =>
    (grown.new id paragraph later known item member).lift⟩
  obtain ⟨later, items, shown, kind, append, new⟩ := grown.root paragraph known
  exact ⟨later, items, shown, kind, append, fun item member => (new item member).lift⟩

theorem Body.ConstructsGrown.lift (grown : base.ConstructsGrown body) :
    base.lift.ConstructsGrown body.lift := by
  refine ⟨grown.old, fun id construct later known => ?_⟩
  have new := grown.new id construct later known
  exact ⟨fun clause member => (new.clauses clause member).lift, new.bodies⟩

/-- The lifted body of an idle reader is a part of the lifted body of every later one. -/
theorem Reader.Reaches.isPart {context : Context} {options : Options} {reader later : Reader}
    (reached : Reaches (Reader.initial context options) reader) (idle : reader.isIdle = true)
    (reaches : Reaches reader later) : reader.body.lift.IsPart later.body.lift := by
  have start := reached.since (since_initial context options)
  have since := reaches.since (start.sound.since idle)
  have grown := Edits.grown since.edits
  have extended := since.edits.extends
  obtain ⟨added, sites, new⟩ := grown.sites
  obtain ⟨noted, sitesBefore, newBefore⟩ := (Edits.grown start.edits).sites
  have noSites : (Body.initial context options).sites = #[] := by
    obtain ⟨_, _, _, same, -, -⟩ := declares_initial context options
    rw [same]
    rfl
  obtain ⟨stems, split⟩ := @liftFrom_append later.body [] reader.body.sites.toList added
  refine ⟨⟨extended.context, extended.options, extended.vars, extended.paragraphs⟩,
    start.sound.tree.descends, ⟨liftFrom later.body stems added, ?_, ?_⟩, grown.paragraphs.old,
    grown.constructs.old, fun id paragraph known item listed => (start.isKnown known listed).lift⟩
  · have same : liftFrom later.body [] reader.body.sites.toList =
        liftFrom reader.body [] reader.body.sites.toList := by
      refine liftFrom_congr fun site member text => ?_
      rw [sitesBefore, noSites, Array.empty_append] at member
      exact extended.captures start.sound.tree.descends (newBefore site member).fits text
    simp only [lift, sites, Array.toList_append, split, same]
  · intro type member node known
    obtain ⟨site, inside, call⟩ := call_of_mem_liftFrom member
    rw [call] at known
    exact ((new site inside).within.ownNode known).1

end

/-! ## Lowering further statements -/

section

variable {part whole : Body} {types : TypeReport} {lowered : Lowering}

/-- Statements that were added are lowered between the marks of the part and the whole. -/
theorem itemWithin_of_isNew (constructs : part.ConstructsGrown whole) {item : Item}
    (new : item.IsNew part whole) :
    Lowering.ItemWithin whole part.mark whole.mark (fun id => part.paragraphs.size ≤ id) item := by
  cases item with
  | empty => trivial
  | expression placed => exact new.within
  | block id => exact new
  | construct id =>
      intro construct known
      have fresh := constructs.new id construct new known
      exact ⟨fun clause member => (fresh.clauses clause member).within, fresh.bodies⟩

/-- What a body knows is lowered below its mark. -/
theorem Item.IsKnown.itemWithin {item : Item} {id : ParagraphId} (knows : item.IsKnown part id) :
    Lowering.ItemWithin part .zero part.mark (fun _ => True) item := by
  cases item with
  | empty => trivial
  | expression placed => exact knows.within
  | block id => trivial
  | construct number =>
      obtain ⟨construct, found, clauses, -⟩ := knows
      intro other shown
      rw [found, Option.some.injEq] at shown
      subst shown
      exact ⟨fun clause member => (clauses clause member).within, fun _ _ => trivial⟩

theorem Body.lower_eq_ok {body : Body} : body.lower types = .ok lowered ↔
    Lowering.visitParagraph body body.paragraphs.size root { types } = .ok ((), lowered) := by
  rw [Body.lower]
  cases Lowering.visitParagraph body body.paragraphs.size root { types } with
  | error fault => simp [Except.map]
  | ok pair => simp [Except.map, Prod.ext_iff]

/-- Where the whole body is lowered, its part is, and the lowering of the whole grows from it. -/
theorem Body.IsPart.lower (isPart : part.IsPart whole) (paragraphs : part.ParagraphsGrown whole)
    (constructs : part.ConstructsGrown whole) (some_ : root < part.paragraphs.size)
    (ran : whole.lower types = .ok lowered) :
    ∃ lowering, part.lower types = .ok lowering ∧ lowering.Grows part.mark whole.mark lowered ∧
      Lowering.Grows .zero part.mark { types } lowering := by
  obtain ⟨nesting, size⟩ := Nat.exists_eq_add_one_of_ne_zero (Nat.ne_zero_of_lt some_)
  have bound := isPart.extended.size_le
  obtain ⟨deeper, sizeWhole⟩ : ∃ deeper, whole.paragraphs.size = deeper + 1 :=
    ⟨whole.paragraphs.size - 1, by omega⟩
  have known := Array.getElem?_eq_getElem some_
  generalize part.paragraphs[root] = front at known
  obtain ⟨all, added, shown, -, append, new⟩ := paragraphs.root front known
  -- the statements of the part are lowered first, and alike
  have first : Lowering.visitParagraph part part.paragraphs.size root =
      front.items.toList.forM (Lowering.visitItem whole
        (Lowering.visitParagraph whole deeper)) := by
    rw [size, Lowering.visitParagraph, known]
    refine Lowering.forM_congr fun item listed => ?_
    have knows := isPart.known root front known item (Array.mem_toList_iff.1 listed)
    refine (Lowering.visitItem_part isPart knows fun target follows => ?_).symm
    obtain ⟨behind, within⟩ : (0 : Nat) < target ∧ target < part.paragraphs.size := follows
    have later : 1 ≤ target := behind
    exact Lowering.visitParagraph_part isPart (Nat.ne_of_gt behind) within (by omega) (by omega)
  have both : Lowering.visitParagraph whole whole.paragraphs.size root =
      Lowering.visitParagraph part part.paragraphs.size root >>= fun _ =>
        added.toList.forM (Lowering.visitItem whole (Lowering.visitParagraph whole deeper)) := by
    rw [first, sizeWhole, Lowering.visitParagraph, shown]
    simp only [append, Array.toList_append]
    exact List.forM_append
  -- the others leave alone what the part got
  have rest : Lowering.Lowers part.mark whole.mark (added.toList.forM
      (Lowering.visitItem whole (Lowering.visitParagraph whole deeper))) fun _ => True := by
    refine .forM fun item listed => ?_
    refine Lowering.lowers_item
      (itemWithin_of_isNew constructs (new item (Array.mem_toList_iff.1 listed))) fun id later => ?_
    refine Lowering.lowers_paragraph (fun id paragraph later known item member => ?_) later
    exact itemWithin_of_isNew constructs (paragraphs.new id paragraph later known item member)
  have own : Lowering.Lowers .zero part.mark
      (Lowering.visitParagraph part part.paragraphs.size root) fun _ => True :=
    Lowering.lowers_paragraph (fun id paragraph _ known item member =>
      (isPart.known id paragraph known item member).itemWithin) trivial
  have visited := lower_eq_ok.1 ran
  rw [both] at visited
  obtain ⟨_, lowering, early, late⟩ := Lowering.exists_of_bind visited
  exact ⟨lowering, lower_eq_ok.2 early, (rest _ _ _ late).1, (own _ _ _ early).1⟩

end

/-! ## Writing further statements -/

section

variable {part whole : Rendering}

/-- The lines of the part come first. -/
theorem Rendering.IsPart.rootLines (isPart : part.IsPart whole)
    (paragraphs : part.body.ParagraphsGrown whole.body) (some_ : root < part.body.paragraphs.size) :
    part.paragraphLines root <+: whole.paragraphLines root := by
  obtain ⟨nesting, size⟩ := Nat.exists_eq_add_one_of_ne_zero (Nat.ne_zero_of_lt some_)
  have bound := isPart.body.extended.size_le
  obtain ⟨deeper, sizeWhole⟩ : ∃ deeper, whole.body.paragraphs.size = deeper + 1 :=
    ⟨whole.body.paragraphs.size - 1, by omega⟩
  have known := Array.getElem?_eq_getElem some_
  generalize part.body.paragraphs[root] = front at known
  obtain ⟨all, added, shown, kind, append, -⟩ := paragraphs.root front known
  rw [paragraphLines, paragraphLines, size, sizeWhole, Rendering.paragraphFrom,
    Rendering.paragraphFrom, known, shown]
  simp only [append, Array.toList_append, List.flatMap_append, kind]
  refine ⟨_, congrArg (· ++ _) ?_⟩
  simp only [List.flatMap_def]
  refine congrArg List.flatten (List.map_congr_left fun item listed => ?_)
  have knows := isPart.body.known root front known item (Array.mem_toList_iff.1 listed)
  have lines : whole.itemLines (whole.paragraphFrom deeper) item =
      part.itemLines (part.paragraphFrom nesting) item := by
    refine isPart.itemLines knows fun target follows => ?_
    obtain ⟨behind, within⟩ : (0 : Nat) < target ∧ target < part.body.paragraphs.size := follows
    have later : 1 ≤ target := behind
    exact isPart.paragraphFrom (Nat.ne_of_gt behind) within (by omega) (by omega)
  rw [lines, isPart.isSwitchLabel knows]

/-- The text of a type made from a class body. -/
def Rendering.liftedText (rendering : Rendering) (lifted : Lifted) : String :=
  String.ofList (Page.printed rendering.body.options.indentUnit
    (Page.lines 0 (rendering.liftedLines lifted)))

/-- Types are never too far in. -/
theorem Rendering.textOf_liftedLines (rendering : Rendering) (lifted : Lifted) :
    rendering.textOf 0 (rendering.liftedLines lifted) = .ok (rendering.liftedText lifted) := by
  have kept (captures : List Capture) (level : Nat) (rest : List Page.Step) :
      Page.peak level ((captures.map fun capture =>
        .line (rendering.captureText capture ++ ";")) ++ rest) = Page.peak level rest := by
    induction captures with
    | nil => rfl
    | cons capture captures induction => exact induction
  refine Page.text_eq_ok (Nat.le_trans (?_ : _ ≤ 1) (by decide))
  rw [liftedLines]
  split
  · exact Nat.le_refl _
  · simp only [Page.nested_append, List.cons_append, List.nil_append, opened,
      Page.peak, kept]
    exact Nat.le_refl _

end

/-! ## Whole outputs -/

section

variable {context : Context} {options : Options} {reader : Reader}

theorem Output.ofBody_eq_ok {body : Body} {output : Output} :
    Output.ofBody body = .ok output ↔ body.options.isWritable = true ∧
      ∃ lowering code, body.lower {} = .ok lowering ∧
        (Rendering.mk body lowering.directives).bodyText 0 = .ok code ∧ output =
          { code
            unseenTypes := lowering.types.toList
            liftedTypes := body.lifted.toList.map
              (Rendering.mk body lowering.directives).liftedText
            returnsHandle := body.returnsHandle
            categories := body.vars.toList.map fun entry => (entry.name, entry.category) } := by
  unfold Output.ofBody Draft.lower Draft.rendering
  cases lowered : body.lower {} with
  | error fault => simp [Bind.bind, Except.bind]
  | ok lowering =>
      cases writable : body.options.isWritable with
      | false =>
          simp [Bind.bind, Except.bind, Pure.pure, Except.pure, writable, throw, throwThe,
            MonadExceptOf.throw]
      | true =>
          have types : (body.lifted.toList.mapM fun lifted =>
              (Rendering.mk body lowering.directives).textOf 0
                ((Rendering.mk body lowering.directives).liftedLines lifted)) =
              .ok (body.lifted.toList.map (Rendering.mk body lowering.directives).liftedText) := by
            rw [funext fun lifted => Rendering.textOf_liftedLines _ lifted]
            exact List.mapM_pure
          cases text : (Rendering.mk body lowering.directives).bodyText 0 with
          | error fault => simp [Bind.bind, Except.bind, Pure.pure, Except.pure, writable, text]
          | ok code =>
              simp [Bind.bind, Except.bind, Pure.pure, Except.pure, writable, text, types,
                Draft.categories, eq_comm]

theorem Text.trimStart_of_trim {text : List Char} (blank : Text.trim text = []) :
    Text.trimStart text = [] := by
  have all : ∀ c ∈ Text.trimStart text, Text.isBlank c = true := by
    rw [Text.trim, Text.trimEnd, List.reverse_eq_nil_iff, List.dropWhile_eq_nil_iff] at blank
    simpa using blank
  cases shown : Text.trimStart text with
  | nil => rfl
  | cons first rest =>
      have solid : Text.isBlank first = false := by
        have head := List.head?_dropWhile_not Text.isBlank text
        rw [← Text.trimStart, shown] at head
        simpa using head
      have white := all first (by simp [shown])
      rw [solid] at white
      contradiction

theorem Reader.Sound.root_lt (sound : Sound reader) : Body.root < reader.body.paragraphs.size := by
  obtain ⟨last, bottom, own, rfl, -, first⟩ := sound.bottom
  obtain ⟨paragraph, known, -⟩ := sound.opened.holds _ (List.mem_of_getLast? bottom)
  rw [← length_shape_paragraphs, ← first]
  exact (List.getElem?_eq_some_iff.1 known).1

/-- An idle reader waits for text. -/
theorem Reader.Sound.rests (sound : Sound reader) (idle : reader.isIdle = true) (finishing : Bool) :
    reader.turn finishing = .rest reader := by
  obtain ⟨_, stack, own, rfl, mode, -⟩ := sound.root idle
  obtain ⟨body, frames, leftover⟩ := reader
  obtain rfl : frames = [.paragraph own] := stack
  rw [isIdle, Bool.and_eq_true, List.isEmpty_iff] at idle
  have nothing : Text.trimStart leftover = [] := Text.trimStart_of_trim idle.2
  simp [turn, nothing, step, stepParagraph, mode, stepItem, Pure.pure, EStateM.pure]

/-- An idle reader is finished as it is. -/
theorem Reader.Sound.finish (sound : Sound reader) (idle : reader.isIdle = true) :
    Reader.finish reader = .ok reader.body.lift reader := by
  have ran : run true Limits.stepsPerFeed reader = .ok () reader := by
    rw [show Limits.stepsPerFeed = 999999 + 1 from rfl, run_succ, sound.rests idle]
  have drained : drain Limits.finishRetries reader = .ok () reader := by
    rw [show Limits.finishRetries = 1 + 1 from rfl, drain]
    exact bind_eq_ok.2 ⟨(), reader, ran, bind_eq_ok.2 ⟨reader, reader, rfl, by rw [idle]; rfl⟩⟩
  exact bind_eq_ok.2 ⟨(), reader, drained, bind_eq_ok.2 ⟨reader, reader, rfl, by rw [idle]; rfl⟩⟩

theorem Reader.feedAll_append (front back : List String) :
    feedAll (front ++ back) = (do feedAll front; feedAll back) := by
  induction front with
  | nil => rfl
  | cons line rest induction =>
      rw [List.cons_append, feedAll, feedAll, induction]
      simp only [bind_assoc]

theorem Output.ofLines_eq_ok {lines : List String} {output : Output} :
    Output.ofLines context options lines = .ok output ↔
      ∃ body, Body.ofLines context options lines = .ok body ∧ Output.ofBody body = .ok output := by
  unfold Output.ofLines
  cases Body.ofLines context options lines with
  | error failure => cases failure <;> simp
  | ok body =>
      simp only [Except.ok.injEq, exists_eq_left']
      cases Output.ofBody body <;> simp

theorem Body.ofLines_eq_ok {lines : List String} {body : Body} :
    Body.ofLines context options lines = .ok body ↔
      ∃ reader last, feedAll lines (Reader.initial context options) = .ok () reader ∧
        Reader.finish reader = .ok body last := by
  unfold Body.ofLines
  constructor
  · intro read
    split at read
    · rename_i result last ran
      obtain rfl := Except.ok.inj read
      obtain ⟨_, reader, fed, finished⟩ := bind_eq_ok.1 ran
      exact ⟨reader, last, fed, finished⟩
    · contradiction
  · rintro ⟨reader, last, fed, finished⟩
    rw [bind_eq_ok.2 ⟨(), reader, fed, finished⟩]

/-- **Further statements.**  Where the lines of a method are lowered and the reader is idle behind
the first of them, these are lowered, and their text, types, classes and categories are the
beginning of those of all lines. -/
theorem Output.ofLines_prefix {front back : List String} {whole : Output}
    (fed : feedAll front (Reader.initial context options) = .ok () reader)
    (idle : reader.isIdle = true)
    (lowered : Output.ofLines context options (front ++ back) = .ok whole) :
    ∃ part, Output.ofLines context options front = .ok part ∧
      (∃ rest, whole.code = part.code ++ rest) ∧ part.unseenTypes <+: whole.unseenTypes ∧
      part.liftedTypes <+: whole.liftedTypes ∧ part.categories <+: whole.categories := by
  obtain ⟨body, read, written⟩ := Output.ofLines_eq_ok.1 lowered
  obtain ⟨later, last, fedAll, finished⟩ := Body.ofLines_eq_ok.1 read
  rw [Reader.feedAll_append] at fedAll
  obtain ⟨_, between, fedFront, fedBack⟩ := bind_eq_ok.1 fedAll
  obtain rfl : between = reader := by
    rw [fed, EStateM.Result.ok.injEq] at fedFront
    exact fedFront.2.symm
  obtain ⟨reachesLast, -, rfl⟩ := finish_reaches finished
  have reached := feedAll_reaches fed
  have reaches := (feedAll_reaches fedBack).trans reachesLast
  have start := reached.since (since_initial context options)
  have grown := Edits.grown (Reaches.since reaches (start.sound.since idle)).edits
  have isPart := reached.isPart idle reaches
  have readFront : Body.ofLines context options front = .ok between.body.lift :=
    Body.ofLines_eq_ok.2 ⟨between, between, fed, start.sound.finish idle⟩
  obtain ⟨writable, lowering, code, lowers, text, rfl⟩ := Output.ofBody_eq_ok.1 written
  have some_ : root < between.body.lift.paragraphs.size := start.sound.root_lt
  obtain ⟨first, lowersFirst, grows, own⟩ :=
    isPart.lower grown.paragraphs.lift grown.constructs.lift some_ lowers
  have rendering : Rendering.IsPart ⟨between.body.lift, first.directives⟩
      ⟨last.body.lift, lowering.directives⟩ := by
    refine ⟨isPart, fun node below => grows.below node below, fun node directive member => ?_⟩
    rcases own.given node directive member with old | inner
    · simp [Directives.get] at old
    · exact inner
  have steps := rendering.rootLines grown.paragraphs.lift some_
  obtain ⟨more, append⟩ := steps
  rw [Rendering.bodyText, ← append] at text
  obtain ⟨code, rest, textFirst, starts⟩ := Page.text_append (Nat.zero_le _) text
  rw [isPart.options] at textFirst
  refine ⟨_, Output.ofLines_eq_ok.2 ⟨_, readFront, Output.ofBody_eq_ok.2
    ⟨isPart.options ▸ writable, first, code, lowersFirst, textFirst, rfl⟩⟩, ⟨rest, starts⟩,
    grows.types, ?_, ?_⟩
  · obtain ⟨added, append, -⟩ := isPart.lifted
    have same : (Rendering.mk last.body.lift lowering.directives).liftedText =
        (Rendering.mk between.body.lift first.directives).liftedText := by
      funext lifted
      simp only [Rendering.liftedText, rendering.liftedLines lifted, isPart.options]
    simp only [append, List.map_append, same]
    exact List.prefix_append ..
  · exact isPart.extended.vars.map _

/-- A variable declared behind the first line leaves the lowering of this line as it is. -/
theorem Output.ofLines_prefix_declaration :
    ∃ reader whole, feedAll ["Foo a = f();"] (Reader.initial {} {}) = .ok () reader ∧
      reader.isIdle = true ∧
      Output.ofLines {} {} (["Foo a = f();"] ++ ["int b = a.g();", "return a;"]) = .ok whole ∧
      ∃ part, Output.ofLines {} {} ["Foo a = f();"] = .ok part ∧
        (∃ rest, whole.code = part.code ++ rest) ∧ part.unseenTypes <+: whole.unseenTypes ∧
        part.liftedTypes <+: whole.liftedTypes ∧ part.categories <+: whole.categories := by
  have checked : succeedsWith (feedAll ["Foo a = f();"]) (Reader.initial {} {})
      (fun _ reader => reader.isIdle) = true := by
    decide +kernel
  have lowers : (Output.ofLines {} {}
      (["Foo a = f();"] ++ ["int b = a.g();", "return a;"])).toOption.isSome = true := by
    decide +kernel
  obtain ⟨_, reader, fed, idle⟩ := exists_of_succeedsWith checked
  revert lowers
  cases lowered : Output.ofLines {} {} (["Foo a = f();"] ++ ["int b = a.g();", "return a;"]) with
  | error failure => exact nofun
  | ok whole =>
      exact fun _ => ⟨reader, whole, fed, idle, rfl, Output.ofLines_prefix fed idle lowered⟩

end
end MethodLowering
