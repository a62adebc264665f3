import MethodLowering.Proofs.Body.Stability
import MethodLowering.Proofs.Reader.Edits

/-!
# How a body grows

Since a moment at which the reader was idle, the body only grows: paragraphs, constructs and class
bodies that were there stay as they are, the method body gets further statements, and whatever is
added refers to what came later.
-/

namespace MethodLowering

open Body

section

variable {base before after body : Body} {placed : Placed}

/-! ## Extension -/

theorem Body.Extends.of_same (context : after.context = before.context)
    (options : after.options = before.options) (vars : after.vars = before.vars)
    (paragraphs : after.paragraphs = before.paragraphs) : before.Extends after :=
  ⟨context, options, vars ▸ List.prefix_rfl, fun _ paragraph known =>
    ⟨paragraph, paragraphs ▸ known, rfl, [], by simp, by simp⟩⟩

/-- A change of a paragraph that keeps its parent and its variables. -/
theorem extends_modifyParagraph {id : ParagraphId} {change : Paragraph → Paragraph}
    (parent : ∀ paragraph, (change paragraph).parent = paragraph.parent)
    (vars : ∀ paragraph, (change paragraph).vars = paragraph.vars) :
    body.Extends (body.modifyParagraph id change) := by
  refine ⟨rfl, rfl, List.prefix_rfl, fun other paragraph known => ?_⟩
  rw [modifyParagraph, Array.getElem?_modify, known]
  split
  · exact ⟨change paragraph, rfl, parent paragraph, [], by simp [vars], by simp⟩
  · exact ⟨paragraph, rfl, rfl, [], by simp, by simp⟩

theorem Body.Declares.extends {scope : ParagraphId} (declares : Declares scope before after) :
    before.Extends after := by
  obtain ⟨added, nextNode, effort, rfl, -, -⟩ := declares
  refine ⟨rfl, rfl, by simp [extended], fun other paragraph known => ?_⟩
  rw [extended, Array.getElem?_modify, known]
  split
  · refine ⟨_, rfl, rfl, List.range' before.vars.size added.length, by simp, ?_⟩
    exact fun declared member => (List.mem_range'_1.1 member).1
  · exact ⟨paragraph, rfl, rfl, [], by simp, by simp⟩

/-- An elementary change extends the body. -/
theorem Edit.extends (edit : Edit base before after) : before.Extends after := by
  cases edit with
  | read reads own inside => exact reads.declares.extends
  | note new notes =>
      obtain ⟨added, rfl, -⟩ := notes
      exact .of_same rfl rfl rfl rfl
  | paragraph noItems noVars parent own inside =>
      refine ⟨rfl, rfl, List.prefix_rfl, fun id paragraph known => ?_⟩
      refine ⟨paragraph, ?_, rfl, [], by simp, by simp⟩
      have below := (Array.getElem?_eq_some_iff.1 known).1
      rw [addParagraph, Array.getElem?_push, if_neg (Nat.ne_of_lt below), known]
  | item own new => exact extends_modifyParagraph (fun _ => rfl) fun _ => rfl
  | brace later => exact extends_modifyParagraph (fun _ => rfl) fun _ => rfl
  | _ => exact .of_same rfl rfl rfl rfl

theorem Edits.extends (edits : Edits base before after) : before.Extends after := by
  induction edits with
  | refl => exact .refl _
  | tail _ edit induction => exact induction.trans edit.extends

/-- An elementary change keeps parents in front. -/
theorem Edit.descends (edit : Edit base before after) (descends : before.Descends) :
    after.Descends := by
  intro id paragraph around known shown
  by_cases inside : id < before.paragraphs.size
  · obtain ⟨later, found, parent, -⟩ :=
      edit.extends.paragraphs id _ (Array.getElem?_eq_getElem inside)
    rw [known, Option.some.injEq] at found
    rw [← found, shown] at parent
    exact descends id _ around (Array.getElem?_eq_getElem inside) parent.symm
  · have below := (Array.getElem?_eq_some_iff.1 known).1
    have same (size : after.paragraphs.size = before.paragraphs.size) : around < id :=
      absurd below (size ▸ inside)
    cases edit with
    | read reads own inside => exact same reads.declares.sizes.1
    | note new notes =>
        obtain ⟨added, rfl, -⟩ := notes
        exact same rfl
    | paragraph noItems noVars parent own within =>
        rw [addParagraph, Array.getElem?_push] at known
        split at known
        · obtain rfl := Option.some.inj known
          rw [parent, Option.some.injEq] at shown
          exact Nat.lt_of_lt_of_le (shown ▸ within) (Nat.not_lt.1 inside)
        · exact absurd (Array.getElem?_eq_some_iff.1 known).1 inside
    | item own new => exact same Array.size_modify
    | brace later => exact same Array.size_modify
    | _ => exact same rfl

theorem Placed.IsNew.fits (new : placed.IsNew base body) : placed.sight.Fits body :=
  ⟨new.scope, new.visible⟩

theorem Shape.IsTree.descends (tree : body.shape.IsTree) : body.Descends := by
  intro id paragraph parent known around
  have outlined : body.shape.paragraphs[id]? = some paragraph.outline := by
    simp [Body.shape, known]
  rcases tree.parents id _ outlined with ⟨-, none⟩ | ⟨other, below, same⟩
  · rw [show paragraph.outline.parent = paragraph.parent from rfl, around] at none
    contradiction
  · rw [show paragraph.outline.parent = paragraph.parent from rfl, around,
      Option.some.injEq] at same
    exact same ▸ below

/-! ## Growth of the parts -/

theorem Item.IsNew.outgrows {item : Item} (new : item.IsNew base before)
    (grown : before.Outgrows after) : item.IsNew base after := by
  cases item with
  | expression placed => exact Placed.IsNew.outgrows new grown
  | _ => exact new

theorem Detail.IsNew.outgrows {detail : Detail} (new : detail.IsNew base before)
    (grown : before.Outgrows after) : detail.IsNew base after :=
  ⟨fun clause member => (new.clauses clause member).outgrows grown, new.bodies⟩

/-- Paragraphs that were there are the same, but for further statements of the method body. -/
structure Body.ParagraphsGrown (base body : Body) : Prop where
  old : ∀ id, id ≠ Body.root → id < base.paragraphs.size →
    body.paragraphs[id]? = base.paragraphs[id]?
  root : ∀ paragraph, base.paragraphs[Body.root]? = some paragraph → ∃ later items,
    body.paragraphs[Body.root]? = some later ∧ later.kind = paragraph.kind ∧
      later.items = paragraph.items ++ items ∧ ∀ item ∈ items, item.IsNew base body
  new : ∀ (id : ParagraphId) (paragraph : Paragraph), base.paragraphs.size ≤ id →
    body.paragraphs[id]? = some paragraph → ∀ item ∈ paragraph.items, item.IsNew base body

/-- Constructs that were there are the same. -/
structure Body.ConstructsGrown (base body : Body) : Prop where
  old : ∀ id < base.constructs.size, body.constructs[id]? = base.constructs[id]?
  new : ∀ (id : ConstructId) (construct : Construct), base.constructs.size ≤ id →
    body.constructs[id]? = some construct → construct.detail.IsNew base body

/-- Class bodies that were noted come first. -/
def Body.SitesGrown (base body : Body) : Prop :=
  ∃ added : List Site, body.sites = base.sites ++ added.toArray ∧
    ∀ site ∈ added, site.call.IsNew base body

/-- The body has grown from `base`. -/
structure Body.Grown (base body : Body) : Prop where
  paragraphs : base.ParagraphsGrown body
  constructs : base.ConstructsGrown body
  sites : base.SitesGrown body
  lifted : body.lifted = base.lifted

section

variable (grown : base.ParagraphsGrown before) (outgrows : before.Outgrows after)
include grown outgrows

theorem Body.ParagraphsGrown.keep (same : after.paragraphs = before.paragraphs) :
    base.ParagraphsGrown after := by
  refine ⟨fun id other inside => same ▸ grown.old id other inside, fun paragraph known => ?_,
    fun id paragraph later known item member => ?_⟩
  · obtain ⟨later, items, shown, kind, append, new⟩ := grown.root paragraph known
    exact ⟨later, items, same ▸ shown, kind, append, fun item member =>
      (new item member).outgrows outgrows⟩
  · exact (grown.new id paragraph later (same ▸ known) item member).outgrows outgrows

/-- A paragraph gets further statements. -/
theorem Body.ParagraphsGrown.modify {id : ParagraphId} (added : Array Item) (own : base.IsOwn id)
    (modified : ∃ change, after.paragraphs = before.paragraphs.modify id change ∧
      ∀ paragraph, (change paragraph).kind = paragraph.kind ∧
        (change paragraph).items = paragraph.items ++ added)
    (new : ∀ item ∈ added, item.IsNew base before) : base.ParagraphsGrown after := by
  obtain ⟨change, same, keeps⟩ := modified
  have later (item : Item) (member : item ∈ added) : item.IsNew base after :=
    (new item member).outgrows outgrows
  refine ⟨fun other away inside => ?_, fun paragraph known => ?_,
    fun other paragraph behind known => ?_⟩
  · have apart : id ≠ other := by
      rintro rfl
      rcases own with rfl | behind
      · exact away rfl
      · exact absurd inside (Nat.not_lt.2 behind)
    rw [same, Array.getElem?_modify, if_neg apart]
    exact grown.old other away inside
  · obtain ⟨found, front, shown, kindFound, append, newFront⟩ := grown.root paragraph known
    rw [same, Array.getElem?_modify, shown]
    split
    · refine ⟨change found, front ++ added, rfl, (keeps found).1.trans kindFound, ?_, ?_⟩
      · rw [(keeps found).2, append, Array.append_assoc]
      · intro item member
        rcases Array.mem_append.1 member with early | late
        · exact (newFront item early).outgrows outgrows
        · exact later item late
    · exact ⟨found, front, rfl, kindFound, append, fun item member =>
        (newFront item member).outgrows outgrows⟩
  · rw [same, Array.getElem?_modify] at known
    intro item member
    split at known
    · obtain ⟨found, shown, rfl⟩ := Option.map_eq_some_iff.1 known
      rw [(keeps found).2] at member
      rcases Array.mem_append.1 member with early | late
      · exact (grown.new other found behind shown item early).outgrows outgrows
      · exact later item late
    · exact (grown.new other paragraph behind known item member).outgrows outgrows

/-- A paragraph without statements is added. -/
theorem Body.ParagraphsGrown.push {added : Paragraph} (blank : added.items = #[])
    (same : after.paragraphs = before.paragraphs.push added) : base.ParagraphsGrown after := by
  have keep {id : Nat} {paragraph : Paragraph} (known : before.paragraphs[id]? = some paragraph) :
      after.paragraphs[id]? = some paragraph := by
    have below := (Array.getElem?_eq_some_iff.1 known).1
    rw [same, Array.getElem?_push, if_neg (Nat.ne_of_lt below), known]
  refine ⟨fun id other inside => ?_, fun paragraph known => ?_, fun id found later known => ?_⟩
  · have known := Array.getElem?_eq_getElem inside
    rw [known]
    exact keep ((grown.old id other inside).trans known)
  · obtain ⟨found, items, shown, kind, append, new⟩ := grown.root paragraph known
    exact ⟨found, items, keep shown, kind, append, fun item member =>
      (new item member).outgrows outgrows⟩
  · rw [same, Array.getElem?_push] at known
    split at known
    · obtain rfl := Option.some.inj known
      simp [blank]
    · exact fun item member => (grown.new id found later known item member).outgrows outgrows

end

section

variable (grown : base.ConstructsGrown before) (outgrows : before.Outgrows after)
include grown outgrows

theorem Body.ConstructsGrown.keep (same : after.constructs = before.constructs) :
    base.ConstructsGrown after :=
  ⟨fun id inside => same ▸ grown.old id inside, fun id construct later known =>
    (grown.new id construct later (same ▸ known)).outgrows outgrows⟩

/-- A later construct is changed. -/
theorem Body.ConstructsGrown.modify {id : ConstructId} {construct : Construct}
    (change : Detail → Detail) (later : base.constructs.size ≤ id)
    (known : before.constructs[id]? = some construct)
    (same : after.constructs = (before.modifyDetail id change).constructs)
    (new : construct.detail.IsNew base before → (change construct.detail).IsNew base before) :
    base.ConstructsGrown after := by
  refine ⟨fun other inside => ?_, fun other found behind shown => ?_⟩
  · have apart : id ≠ other := fun equal => absurd inside (Nat.not_lt.2 (equal ▸ later))
    rw [same, modifyDetail, Array.getElem?_modify, if_neg apart]
    exact grown.old other inside
  · rw [same, modifyDetail, Array.getElem?_modify] at shown
    split at shown
    · rename_i equal
      subst equal
      rw [known] at shown
      obtain rfl := Option.some.inj shown
      exact (new (grown.new id construct later known)).outgrows outgrows
    · exact (grown.new other found behind shown).outgrows outgrows

/-- A construct without a header is added. -/
theorem Body.ConstructsGrown.push {added : Construct} (unread : added.detail = .unread)
    (same : after.constructs = before.constructs.push added) : base.ConstructsGrown after := by
  refine ⟨fun id inside => ?_, fun id found later known => ?_⟩
  · have known := Array.getElem?_eq_getElem inside
    have old := (grown.old id inside).trans known
    have below := (Array.getElem?_eq_some_iff.1 old).1
    rw [same, Array.getElem?_push, if_neg (Nat.ne_of_lt below), old, known]
  · rw [same, Array.getElem?_push] at known
    split at known
    · obtain rfl := Option.some.inj known
      rw [unread]
      exact ⟨by simp [Detail.clauses], by simp [Detail.bodies]⟩
    · exact (grown.new id found later known).outgrows outgrows

end

theorem Body.SitesGrown.keep (grown : base.SitesGrown before) (outgrows : before.Outgrows after)
    (same : after.sites = before.sites) : base.SitesGrown after := by
  obtain ⟨added, append, new⟩ := grown
  exact ⟨added, same.trans append, fun site member => (new site member).outgrows outgrows⟩

/-! ## Growth by elementary changes -/

theorem Body.Grown.refl (base : Body) : base.Grown base := by
  refine ⟨⟨fun _ _ _ => rfl, fun paragraph known => ?_, fun id paragraph later known => ?_⟩,
    ⟨fun _ _ => rfl, fun id construct later known => ?_⟩, ⟨[], by simp, by simp⟩, rfl⟩
  · exact ⟨paragraph, #[], known, rfl, by simp, by simp⟩
  · exact absurd (Array.getElem?_eq_some_iff.1 known).1 (Nat.not_lt.2 later)
  · exact absurd (Array.getElem?_eq_some_iff.1 known).1 (Nat.not_lt.2 later)

theorem Edit.grown (edit : Edit base before after) (grown : base.Grown before) :
    base.Grown after := by
  have outgrows := edit.outgrows
  obtain ⟨paragraphs, constructs, sites, lifted⟩ := grown
  cases edit with
  | read reads own inside =>
      obtain ⟨added, nextNode, effort, rfl, -, -⟩ := reads.declares
      refine ⟨paragraphs.modify outgrows #[] own ⟨fun paragraph => { paragraph with
          vars := paragraph.vars ++ (List.range' before.vars.size added.length).toArray },
            rfl, fun _ => ⟨rfl, by simp⟩⟩ (by simp),
        constructs.keep outgrows rfl, sites.keep outgrows rfl, lifted⟩
  | note new notes =>
      obtain ⟨added, rfl, places⟩ := notes
      refine ⟨paragraphs.keep outgrows rfl, constructs.keep outgrows rfl, ?_, lifted⟩
      obtain ⟨front, append, newFront⟩ := sites
      refine ⟨front ++ added, by simp [append], fun site member => ?_⟩
      rcases List.mem_append.1 member with early | late
      · exact (newFront site early).outgrows outgrows
      · obtain ⟨inside, sight⟩ := places site late
        refine Placed.IsNew.outgrows ⟨new.within.inside inside, ?_, ?_,
          fun inner below => ?_⟩ outgrows
        · exact sight ▸ new.scope
        · exact sight ▸ new.visible
        · exact new.origin inner (Expr.mem_preorder_trans inside below)
  | paragraph noItems noVars parent own inside =>
      exact ⟨paragraphs.push outgrows noItems rfl, constructs.keep outgrows rfl,
        sites.keep outgrows rfl, lifted⟩
  | construct unread own =>
      exact ⟨paragraphs.keep outgrows rfl, constructs.push outgrows unread rfl,
        sites.keep outgrows rfl, lifted⟩
  | item own new =>
      rename_i id item
      refine ⟨paragraphs.modify outgrows #[item] own ⟨fun paragraph => { paragraph with
          items := paragraph.items.push item }, rfl, fun _ => ⟨rfl, by simp⟩⟩ ?_,
        constructs.keep outgrows rfl, sites.keep outgrows rfl, lifted⟩
      simpa using new
  | brace later =>
      refine ⟨paragraphs.modify outgrows #[] (.inr later) ⟨fun paragraph => { paragraph with
          braced := true }, rfl, fun _ => ⟨rfl, by simp⟩⟩ (by simp),
        constructs.keep outgrows rfl, sites.keep outgrows rfl, lifted⟩
  | detail later known new undecided still =>
      exact ⟨paragraphs.keep outgrows rfl, constructs.modify outgrows _ later known rfl new,
        sites.keep outgrows rfl, lifted⟩
  | iterator later known new undecided iterates =>
      exact ⟨paragraphs.keep outgrows rfl, constructs.modify outgrows _ later known rfl fun _ =>
        new,
        sites.keep outgrows rfl, lifted⟩
  | value later known new undecided handles =>
      refine ⟨paragraphs.keep outgrows rfl,
        constructs.modify outgrows (fun _ => .jump _ none) later known rfl fun _ => ⟨?_, ?_⟩,
        sites.keep outgrows rfl, lifted⟩
      · simpa [Detail.clauses] using new
      · simp [Detail.bodies]

theorem Edits.grown (edits : Edits base base body) : base.Grown body := by
  induction edits with
  | refl => exact .refl base
  | tail _ edit induction => exact edit.grown induction

end

/-- Reading does not change the options. -/
theorem Body.ofLines_options {context : Context} {options : Options}
    {lines : List String} {body : Body}
    (read : Body.ofLines context options lines = .ok body) : body.options = options := by
  obtain ⟨reader, reached, -, rfl⟩ := Body.ofLines_reaches read
  have kept := (reached.since (Reader.since_initial context options)).edits.extends.options
  exact kept.trans (Body.declares_initial context options).options

end MethodLowering
