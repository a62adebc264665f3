import MethodLowering.Proofs.Body.Answers
import MethodLowering.Proofs.Rendering.Indentation
import MethodLowering.Proofs.Rendering.Nesting

/-!
# Composition of texts

Leaving a construct out of a body leaves the rest of the text as it is.  The text of the method body
is the text without the construct, with the text of the construct at its level put in where it
stands.
-/

namespace MethodLowering

/-- The construct as if nothing of it were read: neither its label nor its header nor its bodies. -/
def Construct.blank (construct : Construct) : Construct :=
  { construct with label := none, detail := .unread }

namespace Rendering

/-- The rendering of a body in which nothing of the construct is read. -/
def without (rendering : Rendering) (id : ConstructId) : Rendering :=
  { rendering with body := { rendering.body with
      constructs := rendering.body.constructs.modify id Construct.blank } }

/-! ## The rest of the text -/

section

variable {rendering : Rendering} {id other : ConstructId} {lines : ParagraphId → List Page.Step}

theorem expressionFrom_without (depth : Nat) :
    (rendering.without id).expressionFrom depth = rendering.expressionFrom depth := by
  induction depth with
  | zero => rfl
  | succ depth induction =>
      funext expr
      rw [expressionFrom, expressionFrom, induction]
      rfl

theorem expression_without : (rendering.without id).expression = rendering.expression :=
  expressionFrom_without Limits.renderDepth

theorem clause_without : (rendering.without id).clause = rendering.clause :=
  funext fun placed => congrFun expression_without placed.expr

theorem expressionLines_without :
    (rendering.without id).expressionLines = rendering.expressionLines := by
  unfold expressionLines preludeLines
  rw [expression_without]
  rfl

theorem branchLines_without (isFirst : Bool) (branches : List Branch) :
    (rendering.without id).branchLines lines isFirst branches =
      rendering.branchLines lines isFirst branches := by
  induction branches generalizing isFirst with
  | nil => rfl
  | cons branch rest induction =>
      rw [branchLines, branchLines, induction, branchHeader, branchHeader, clause_without]

theorem handlerLines_without (handlers : List Handler) :
    (rendering.without id).handlerLines lines handlers = rendering.handlerLines lines handlers := by
  induction handlers with
  | nil => rfl
  | cons handler rest induction =>
      rw [handlerLines, handlerLines, induction, handlerHeader, handlerHeader, clause_without]
      rfl

theorem detailLines_without (keyword : Keyword) (detail : Detail) :
    (rendering.without id).detailLines lines keyword detail =
      rendering.detailLines lines keyword detail := by
  cases detail with
  | conditional branches => exact branchLines_without true branches
  | iterator header byElement body =>
      rw [detailLines, detailLines, iterationHeader, iterationHeader, expression_without]
      rfl
  | tryBlock guarded handlers cleanup =>
      have inner : (rendering.without id).guardedLines lines guarded handlers =
          rendering.guardedLines lines guarded handlers := by
        rw [guardedLines, guardedLines, handlerLines_without]
      cases cleanup with
      | none => exact inner
      | some cleanup =>
          rw [detailLines, detailLines, inner]
          rfl
  | jump value label =>
      unfold detailLines jumpText
      rw [clause_without]
  | counted init condition update body =>
      simp only [detailLines, clauseSuffix, clause_without]
  | defaultLabel => rfl
  | unread => rfl
  | _ => rw [detailLines, detailLines, clause_without]

theorem itemLines_without {item : Item} (apart : item ≠ .construct id) :
    (rendering.without id).itemLines lines item = rendering.itemLines lines item := by
  cases item with
  | empty => rfl
  | expression root => exact congrFun expressionLines_without root.expr
  | block slot => rfl
  | construct other =>
      have kept : (rendering.without id).body.constructs[other]? =
          rendering.body.constructs[other]? := by
        rw [without, Array.getElem?_modify, if_neg fun same : id = other => apart (same ▸ rfl)]
      rw [itemLines, itemLines, kept]
      cases rendering.body.constructs[other]? with
      | none => rfl
      | some construct =>
          exact congrArg (labelLines construct.label ++ ·) (detailLines_without construct.keyword _)

/-- What is left out has no lines. -/
theorem itemLines_without_self : (rendering.without id).itemLines lines (.construct id) = [] := by
  have blank : (rendering.without id).body.constructs[id]? =
      rendering.body.constructs[id]?.map Construct.blank := by
    rw [without, Array.getElem?_modify, if_pos rfl]
  rw [itemLines, blank]
  cases rendering.body.constructs[id]? <;> rfl

theorem isSwitchLabel_without : (rendering.without id).isSwitchLabel = rendering.isSwitchLabel := by
  funext item
  cases item with
  | construct other =>
      rw [isSwitchLabel, isSwitchLabel, without, Array.getElem?_modify]
      split
      · cases rendering.body.constructs[other]? <;> rfl
      · rfl
  | _ => rfl

end

end Rendering

/-! ## Putting lines in -/

namespace Page

/-- The lines `whole` are the lines `hollow` with the part put in so many times. -/
inductive Fills (part : List Line) : (hollow whole : List Line) → (count : Nat) → Prop where
  | nil : Fills part [] [] 0
  | line {hollow whole count} (line : Line) :
      Fills part hollow whole count → Fills part (line :: hollow) (line :: whole) count
  | part {hollow whole count} :
      Fills part hollow whole count → Fills part hollow (part ++ whole) (count + 1)

/-- From a level on, steps write what others write with the part put in at its place, at least once
where it is found; and they lead at least as far in.  The levels count from `base`. -/
structure Holds (part : List Step) (base place level : Nat) (hollow whole : List Step)
    (found : Prop) : Prop where
  rest : Balanced hollow
  all : Balanced whole
  fills : ∃ count, Fills (lines (base + place) part) (lines (base + level) hollow)
    (lines (base + level) whole) count ∧ (found → 0 < count)
  above : peak (base + level) hollow ≤ peak (base + level) whole
  around : found → peak (base + place) part ≤ peak (base + level) whole

section

variable {part hollow whole back further : List Line} {steps : List Step}
  {base place level count more : Nat} {unit : String}

theorem Fills.same (lines : List Line) : Fills part lines lines 0 := by
  induction lines with
  | nil => exact .nil
  | cons line rest induction => exact .line line induction

theorem Fills.append (first : Fills part hollow whole count)
    (second : Fills part back further more) :
    Fills part (hollow ++ back) (whole ++ further) (count + more) := by
  induction first with
  | nil => rwa [Nat.zero_add]
  | line line _ induction => exact .line line induction
  | part _ induction =>
      rw [List.append_assoc, Nat.add_right_comm]
      exact .part induction

theorem composes_holds : Composes (Holds steps base place) where
  same _ _ balanced := ⟨balanced, balanced, ⟨0, .same _, False.elim⟩, Nat.le_refl _, False.elim⟩
  append := by
    intro level first second third fourth front back one other
    obtain ⟨count, fills, some_⟩ := one.fills
    obtain ⟨more, follows, others⟩ := other.fills
    have highest := one.all.peak_append (base + level) fourth
    refine ⟨one.rest.append other.rest, one.all.append other.all, ⟨count + more, ?_, ?_⟩,
      ?_, ?_⟩
    · rw [one.rest.lines_append, one.all.lines_append]
      exact fills.append follows
    · rintro (inFront | behind)
      · exact Nat.add_pos_left (some_ inFront) _
      · exact Nat.add_pos_right _ (others behind)
    · rw [one.rest.peak_append, highest]
      have front := one.above
      have back := other.above
      omega
    · rw [highest]
      rintro (inFront | behind)
      · exact Nat.le_trans (one.around inFront) (Nat.le_max_left ..)
      · exact Nat.le_trans (other.around behind) (Nat.le_max_right ..)
  nest inner := by
    refine ⟨inner.rest.nest, inner.all.nest, ?_, ?_, fun found => ?_⟩
    · rw [inner.rest.lines_nested, inner.all.lines_nested]
      exact inner.fills
    · rw [inner.rest.peak_nested, inner.all.peak_nested]
      exact inner.above
    · rw [inner.all.peak_nested]
      exact inner.around found
  weaken holds stronger :=
    { holds with
      fills := holds.fills.imp fun _ both => ⟨both.1, fun found => both.2 (stronger found)⟩
      around := fun found => holds.around (stronger found) }

/-- The text of the whole is the text without the part, with the text of the part put in. -/
theorem Fills.printed (unit : String) (fills : Fills part hollow whole count) :
    ∃ pieces : List (List Char), pieces.length = count + 1 ∧ printed unit hollow = pieces.flatten ∧
      printed unit whole = (printed unit part).intercalate pieces := by
  have put (pieces : List (List Char)) (some_ : pieces ≠ []) (text : List Char) :
      text.intercalate ([] :: pieces) = text ++ text.intercalate pieces := by
    obtain ⟨first, rest, rfl⟩ := List.exists_cons_of_ne_nil some_
    rw [List.intercalate_cons_cons, List.nil_append]
  have lengthen (first front text : List Char) (rest : List (List Char)) :
      text.intercalate ((front ++ first) :: rest) = front ++ text.intercalate (first :: rest) := by
    cases rest with
    | nil => simp [List.intercalate]
    | cons second rest => simp [List.intercalate_cons_cons]
  induction fills with
  | nil => exact ⟨[[]], rfl, rfl, rfl⟩
  | line line _ induction =>
      obtain ⟨pieces, length, parts, text⟩ := induction
      obtain ⟨first, rest, rfl⟩ := List.exists_cons_of_length_eq_add_one length
      refine ⟨((line.written unit ++ ['\n']) ++ first) :: rest, length, ?_, ?_⟩
      · rw [Page.printed, List.flatMap_cons, ← Page.printed, parts]
        simp
      · rw [Page.printed, List.flatMap_cons, ← Page.printed, text, lengthen]
  | part _ induction =>
      obtain ⟨pieces, length, parts, text⟩ := induction
      refine ⟨[] :: pieces, by rw [List.length_cons, length], parts, ?_⟩
      rw [Page.printed, List.flatMap_append, ← Page.printed, ← Page.printed, text, put]
      exact List.ne_nil_of_length_eq_add_one length

/-- The text of steps that are taken one after another is their texts one after another. -/
theorem text_flatMap {α : Type} {items : List α} {steps : α → List Step}
    (balanced : ∀ item ∈ items, Balanced (steps item))
    (fits : peak level (items.flatMap steps) ≤ highest) :
    ∃ texts, items.mapM (fun item => Page.text unit level (steps item)) = .ok texts ∧
      Page.text unit level (items.flatMap steps) = .ok (String.join texts) := by
  induction items with
  | nil => exact ⟨[], rfl, text_eq_ok fits⟩
  | cons item rest induction =>
      obtain ⟨own, others⟩ := List.forall_mem_cons.1 balanced
      have whole := @text_eq_ok unit level _ fits
      rw [List.flatMap_cons, own.peak_append, Nat.max_le] at fits
      obtain ⟨texts, written, joined⟩ := induction others fits.2
      rw [text_eq_ok fits.2] at joined
      refine ⟨_ :: texts, by rw [List.mapM_cons, text_eq_ok fits.1, written]; rfl, ?_⟩
      rw [whole, List.flatMap_cons, own.lines_append, printed, List.flatMap_append,
        String.ofList_append, ← printed, ← printed, Except.ok.inj joined]
      exact congrArg Except.ok (String.toList_inj.1 (by simp [String.toList_join]))

end
end Page

/-! ## Constructs in the body -/

namespace Rendering

section

variable {rendering : Rendering} {id : ConstructId} {construct : Construct}
  {place nesting level : Nat} {paragraph : Paragraph}

section

variable (wellFormed : rendering.body.WellFormed)
  (known : rendering.body.constructs[id]? = some construct)
  (shown : rendering.body.paragraphs[place]? = some paragraph)
include wellFormed known shown

/-- A construct is a statement of its scope, and of no other paragraph. -/
theorem mem_items_iff : Item.construct id ∈ paragraph.items ↔ construct.scope = place := by
  have places : (place, id) ∈ rendering.body.constructPlaces ↔
      Item.construct id ∈ paragraph.items := by
    have own : id ∈ paragraph.constructs ↔ Item.construct id ∈ paragraph.items := by
      rw [Paragraph.constructs, List.mem_filterMap]
      constructor
      · rintro ⟨item, member, same⟩
        cases item with
        | construct other => exact Option.some.inj same ▸ Array.mem_toList_iff.1 member
        | _ => contradiction
      · exact fun member => ⟨_, Array.mem_toList_iff.2 member, rfl⟩
    rw [← own, Body.constructPlaces, mem_numbered]
    constructor
    · rintro ⟨position, found, same, reached, member⟩
      rw [Array.getElem?_toList, ← Nat.zero_add position, ← same, shown] at reached
      exact Option.some.inj reached ▸ member
    · intro member
      exact ⟨place, paragraph, (Nat.zero_add _).symm, by rw [Array.getElem?_toList, shown], member⟩
  have only : (place, id) ∈ rendering.body.constructPlaces ↔
      (place, id) = (construct.scope, id) := by
    rw [← List.mem_singleton, ← wellFormed.placed id construct known, List.mem_filter]
    simp
  rw [← places, only, Prod.mk.injEq]
  exact ⟨fun same => same.1.symm, fun same => ⟨same.symm, rfl⟩⟩

/-- A construct that is a statement of a paragraph stands at its level there. -/
theorem constructLevel_eq (member : Item.construct id ∈ paragraph.items) :
    rendering.constructLevel id =
      rendering.levelOf place + rendering.shift paragraph (.construct id) := by
  rw [constructLevel, known]
  dsimp only
  rw [(mem_items_iff wellFormed known shown).1 member, shown]
  rfl

end

/-- What holds of the paragraphs in a statement holds of the statement: it is the construct, or it
is the same without the construct but for the paragraphs. -/
theorem holds_item (base : Nat) (wellFormed : rendering.body.WellFormed)
    (known : rendering.body.constructs[id]? = some construct)
    (shown : rendering.body.paragraphs[place]? = some paragraph) {item : Item}
    (member : item ∈ paragraph.items)
    (enough : rendering.body.paragraphs.size ≤ place + (nesting + 1))
    (inner : ∀ slot ∈ rendering.body.targets item,
      Page.Holds (rendering.constructLinesAt id) base (rendering.constructLevel id)
        (rendering.levelOf slot) ((rendering.without id).paragraphFrom nesting slot)
        (rendering.paragraphFrom nesting slot)
        (construct.scope ∈ rendering.body.paragraphsFrom nesting slot)) :
    Page.Holds (rendering.constructLinesAt id) base (rendering.constructLevel id)
      (rendering.levelOf place + rendering.shift paragraph item)
      ((rendering.without id).itemLines ((rendering.without id).paragraphFrom nesting) item)
      (rendering.itemLines (rendering.paragraphFrom nesting) item)
      (item = .construct id ∨ ∃ slot ∈ rendering.body.targets item,
        construct.scope ∈ rendering.body.paragraphsFrom nesting slot) := by
  have distinct := nodup_targets wellFormed shown member
  by_cases own : item = .construct id
  · subst own
    have lines : rendering.itemLines (rendering.paragraphFrom nesting) (.construct id) =
        rendering.constructLinesAt id := by
      refine itemLines_congr distinct fun slot refers => ?_
      obtain ⟨later, -⟩ := parent_of_mem_slots wellFormed (mem_slots shown member refers)
      exact paragraphFrom_stable wellFormed (by omega) (by omega)
    have balanced := balanced_item distinct fun slot _ =>
      balanced_paragraphFrom wellFormed nesting slot
    rw [lines] at balanced
    rw [itemLines_without_self, lines, ← constructLevel_eq wellFormed known shown member]
    refine ⟨.nil, balanced, ⟨1, ?_, fun _ => Nat.one_pos⟩, Page.le_peak .., fun _ => Nat.le_refl _⟩
    simpa [Page.lines] using @Page.Fills.part
      (Page.lines (base + rendering.constructLevel id) (rendering.constructLinesAt id)) _ _ 0 .nil
  · rw [itemLines_without own]
    refine Page.composes_holds.weaken (related_item Page.composes_holds distinct
      fun slot refers => ?_)
      fun found => found.resolve_left own
    rw [← levelOf_slot wellFormed shown member refers]
    exact inner slot refers

/-- The lines of a paragraph are those without the construct, with the construct put in, at least
once where its scope is in the paragraph. -/
theorem holds_paragraphFrom (base : Nat) (wellFormed : rendering.body.WellFormed)
    (known : rendering.body.constructs[id]? = some construct)
    (inside : place < rendering.body.paragraphs.size)
    (enough : rendering.body.paragraphs.size ≤ place + nesting) :
    Page.Holds (rendering.constructLinesAt id) base (rendering.constructLevel id)
      (rendering.levelOf place) ((rendering.without id).paragraphFrom nesting place)
      (rendering.paragraphFrom nesting place)
      (construct.scope ∈ rendering.body.paragraphsFrom nesting place) := by
  induction nesting generalizing place with
  | zero => omega
  | succ nesting induction =>
      have shown := Array.getElem?_eq_getElem inside
      generalize rendering.body.paragraphs[place] = paragraph at shown
      have each (item : Item) (member : item ∈ paragraph.items.toList) := by
        refine holds_item base wellFormed known shown (Array.mem_toList_iff.1 member) enough
          fun slot refers => ?_
        have listed := mem_slots shown (Array.mem_toList_iff.1 member) refers
        obtain ⟨later, -⟩ := parent_of_mem_slots wellFormed listed
        exact induction (wellFormed.lt_of_mem_slots listed) (by omega)
      have kept : (rendering.without id).body.paragraphs[place]? = some paragraph := shown
      rw [paragraphFrom, paragraphFrom, kept, shown]
      dsimp only
      rw [isSwitchLabel_without]
      refine Page.composes_holds.weaken (Page.composes_holds.flatMap fun item member =>
        related_placed Page.composes_holds (each item member)) fun found => ?_
      rcases List.mem_cons.1 found with own | deeper
      · have member := (mem_items_iff wellFormed known shown).2 own
        exact ⟨_, Array.mem_toList_iff.2 member, .inl rfl⟩
      · obtain ⟨slot, refers, found⟩ := List.mem_flatMap.1 deeper
        rw [slots_eq shown] at refers
        obtain ⟨item, member, refers⟩ := List.mem_flatMap.1 refers
        exact ⟨item, member, .inr ⟨slot, refers, found⟩⟩

theorem scope_lt (wellFormed : rendering.body.WellFormed)
    (known : rendering.body.constructs[id]? = some construct) :
    construct.scope < rendering.body.paragraphs.size := by
  have placed : (construct.scope, id) ∈ rendering.body.constructPlaces := by
    refine List.mem_of_mem_filter (p := fun place => place.2 == id) ?_
    rw [wellFormed.placed id construct known]
    exact List.mem_singleton_self _
  obtain ⟨position, paragraph, same, shown, -⟩ := mem_numbered.1 placed
  rw [same, Nat.zero_add]
  exact (List.getElem?_eq_some_iff.1 shown).1

/-- The text of the method body is its text without a construct, with the text of the construct at
its level put in. -/
theorem bodyText_pieces (wellFormed : rendering.body.WellFormed)
    (known : rendering.body.constructs[id]? = some construct)
    (fits : Page.peak level (rendering.paragraphLines Body.root) ≤ Page.highest) :
    ∃ (hollow part text : String) (pieces : List (List Char)), 2 ≤ pieces.length ∧
      (rendering.without id).bodyText level = .ok hollow ∧
      rendering.textOf (level + rendering.constructLevel id) (rendering.constructLinesAt id) =
        .ok part ∧ rendering.bodyText level = .ok text ∧
      hollow.toList = pieces.flatten ∧ text.toList = part.toList.intercalate pieces := by
  obtain ⟨root, first, -⟩ := wellFormed.root
  have inside := (Array.getElem?_eq_some_iff.1 first).1
  have holds := holds_paragraphFrom level wellFormed known inside (Nat.le_add_left ..)
  rw [levelOf_root wellFormed] at holds
  have once := wellFormed.count_paragraphsFrom construct.scope (scope_lt wellFormed known)
    (scope_lt wellFormed known)
  have found := List.count_pos_iff.1 (once ▸ Nat.one_pos)
  obtain ⟨count, fills, some_⟩ := holds.fills
  obtain ⟨pieces, length, hollow, whole⟩ := fills.printed rendering.body.options.indentUnit
  have several := some_ found
  refine ⟨_, _, _, pieces, by omega, Page.text_eq_ok (Nat.le_trans holds.above fits),
    Page.text_eq_ok (Nat.le_trans (holds.around found) fits), Page.text_eq_ok fits, ?_, ?_⟩
  · rw [String.toList_ofList]
    exact hollow
  · rw [String.toList_ofList, String.toList_ofList]
    exact whole

/-- The text of the method body is the text of its statements, one after another. -/
theorem bodyText_eq (wellFormed : rendering.body.WellFormed)
    (first : rendering.body.paragraphs[Body.root]? = some paragraph) (kind : paragraph.kind = .root)
    (fits : Page.peak level (rendering.paragraphLines Body.root) ≤ Page.highest) :
    ∃ texts, paragraph.items.toList.mapM (fun item =>
        rendering.textOf level (rendering.itemLines rendering.paragraphLines item)) = .ok texts ∧
      rendering.bodyText level = .ok (String.join texts) := by
  have steps : rendering.paragraphLines Body.root =
      paragraph.items.toList.flatMap (rendering.itemLines rendering.paragraphLines) := by
    rw [paragraphLines_eq wellFormed first, kind]
    rfl
  rw [steps] at fits
  rw [bodyText, steps]
  refine Page.text_flatMap (fun item member => ?_) fits
  exact balanced_item (nodup_targets wellFormed first (Array.mem_toList_iff.1 member))
    fun slot _ => balanced_paragraphFrom wellFormed _ slot

end
end Rendering

section

variable {context : Context} {options : Options} {lines : List String} {body : Body}
  {types : TypeReport} {lowering : Lowering} {rendering : Rendering}

theorem Body.ofLines_root (read : Body.ofLines context options lines = .ok body) :
    ∃ root, body.paragraphs[Body.root]? = some root ∧ root.kind = .root := by
  obtain ⟨reader, reaches, idle, rfl⟩ := Body.ofLines_reaches read
  have sound := reaches.sound (Reader.sound_initial context options)
  obtain ⟨_, stack, own, rfl, mode, same⟩ := sound.root idle
  obtain ⟨outline, shown, fits⟩ := sound.opened.holds (.paragraph own) (by simp [stack])
  rw [same, getElem?_shape_paragraphs] at shown
  obtain ⟨root, known, rfl⟩ := Option.map_eq_some_iff.1 shown
  rw [ParagraphFrame.Fits, mode] at fits
  exact ⟨root, known, fits⟩

/-- **Composition.**  Take a body that is read from lines without line breaks, under options whose
texts have none.  Its statements are nested to some height.  Above a level that leaves no room for
that height it is not written.  At any other level its text is the text at the outermost level with
the margin in front of every line that is not empty; it is the texts of the statements of the method
body at that level, one after another; and it is the text without a construct, with the text of the
construct at its own level put in.  The construct is put in more than once where it stands in a
handler with alternatives.  Whatever is written of the body, the level is the same behind it as in
front of it. -/
theorem Body.ofLines_composes (solid : ∀ line ∈ lines, Text.Unbroken line.toList)
    (texts : options.IsUnbroken) (read : Body.ofLines context options lines = .ok body)
    (lowered : body.lower types = .ok lowering)
    (ready : Draft.rendering ⟨body, some lowering.directives⟩ = .ok rendering) (level : Nat) :
    let height := Page.height (rendering.paragraphLines Body.root)
    (∀ id (page next : Page),
      page.run (rendering.paragraphLines id) = .ok next → next.level = page.level) ∧
    (level ≤ Page.highest → Page.highest < level + height →
      rendering.bodyText level = .error .unwritable) ∧
    (level + height ≤ Page.highest → ∃ flat text, rendering.bodyText 0 = .ok flat ∧
      rendering.bodyText level = .ok text ∧
      text.toList = Text.indented (Page.margin options.indentUnit level) flat.toList ∧
      (∃ root parts, body.paragraphs[Body.root]? = some root ∧ root.items.toList.mapM (fun item =>
          rendering.textOf level (rendering.itemLines rendering.paragraphLines item)) = .ok parts ∧
        text = String.join parts) ∧
      ∀ id < body.constructs.size, ∃ (hollow part : String) (pieces : List (List Char)),
        2 ≤ pieces.length ∧ (rendering.without id).bodyText level = .ok hollow ∧
        rendering.textOf (level + rendering.constructLevel id) (rendering.constructLinesAt id) =
          .ok part ∧
        hollow.toList = pieces.flatten ∧ text.toList = part.toList.intercalate pieces) := by
  intro height
  have same := Body.ofLines_options read
  obtain rfl : Rendering.mk body lowering.directives = rendering := by
    unfold Draft.rendering at ready
    dsimp only [bind, Except.bind] at ready
    split at ready
    · contradiction
    · exact Except.ok.inj ready
  have wellFormed : body.WellFormed := by
    obtain ⟨reader, reaches, idle, rfl⟩ := Body.ofLines_reaches read
    exact ((reaches.since (Reader.since_initial context options)).wellFormed idle
      (Body.listed_initial context options)).lift
  have unbroken := Body.ofLines_rendering_unbroken solid (same ▸ texts) read lowered
  have balanced (id : ParagraphId) :
      Page.Balanced (Rendering.paragraphLines ⟨body, lowering.directives⟩ id) :=
    @Rendering.balanced_paragraphFrom ⟨body, lowering.directives⟩ wellFormed _ id
  have peak := (balanced Body.root).peak_eq
  refine ⟨fun id page next => (balanced id).run_level, fun within above => ?_, fun fits => ?_⟩
  · exact Page.text_eq_error within (peak level ▸ above)
  have first : height ≤ Page.highest := Nat.le_trans (Nat.le_add_left ..) fits
  rw [← peak] at fits
  refine ⟨_, _, Page.text_eq_ok first, Page.text_eq_ok fits, ?_, ?_, fun id inside => ?_⟩
  · rw [String.toList_ofList, String.toList_ofList, ← same]
    exact Page.printed_indented (Options.unbroken_indentUnit _)
      (Rendering.unbrokenLines_paragraphFrom unbroken _ _) (balanced _) level 0
  · obtain ⟨root, shown, kind⟩ := Body.ofLines_root read
    obtain ⟨parts, written, joined⟩ := Rendering.bodyText_eq wellFormed shown kind fits
    exact ⟨root, parts, shown, written, Except.ok.inj ((Page.text_eq_ok fits).symm.trans joined)⟩
  · obtain ⟨hollow, part, text, pieces, several, without_, own, whole, front, put⟩ :=
      Rendering.bodyText_pieces wellFormed (Array.getElem?_eq_getElem inside) fits
    obtain rfl := Except.ok.inj ((Page.text_eq_ok fits).symm.trans whole)
    exact ⟨hollow, part, pieces, several, without_, own, front, put⟩

/-- A loop in a handler with two alternatives, inside the block of the cleanup, stands two levels
further in. -/
theorem Body.ofLines_composes_handled :
    let lines :=
  ["try \x7b f(); \x7d catch (E | F e)", "\x7b while (c) g(); \x7d finally \x7b h(); \x7d"]
    ∃ body lowering rendering, Body.ofLines {} {} lines = .ok body ∧ body.lower {} = .ok lowering ∧
      Draft.rendering ⟨body, some lowering.directives⟩ = .ok rendering ∧
      rendering.constructLevel 1 = 2 ∧ Page.height (rendering.paragraphLines root) = 3 ∧
      rendering.textOf 0 (rendering.constructLinesAt 1) = .ok "while (c) \x7b\n    g();\n\x7d\n" ∧
      ∃ flat text hollow part pieces, rendering.bodyText 0 = .ok flat ∧
        rendering.bodyText 1 = .ok text ∧ text.toList = Text.indented "    ".toList flat.toList ∧
        2 ≤ pieces.length ∧ (rendering.without 1).bodyText 1 = .ok hollow ∧
        rendering.textOf 3 (rendering.constructLinesAt 1) = .ok part ∧
        hollow.toList = pieces.flatten ∧ text.toList = part.toList.intercalate pieces := by
  intro lines
  have runs : ((Body.ofLines {} {} lines).toOption.bind fun body => (body.lower {}).toOption.map
      fun lowering =>
        let rendering : Rendering := ⟨body, lowering.directives⟩
        (body.constructs.size, rendering.constructLevel 1,
          Page.height (rendering.paragraphLines root),
          (rendering.textOf 0 (rendering.constructLinesAt 1)).toOption)) =
      some (2, 2, 3, some "while (c) \x7b\n    g();\n\x7d\n") := by decide +kernel
  obtain ⟨body, read, found⟩ := Option.bind_eq_some_iff.1 runs
  obtain ⟨lowering, lowered, found⟩ := Option.map_eq_some_iff.1 found
  have read := eq_ok_of_toOption read
  have lowered := eq_ok_of_toOption lowered
  obtain ⟨size, found⟩ := Prod.mk.inj found
  obtain ⟨level, found⟩ := Prod.mk.inj found
  obtain ⟨height, shown⟩ := Prod.mk.inj found
  have solid : ∀ line ∈ lines, Text.Unbroken line.toList := by decide
  have texts : ({} : Options).IsUnbroken := by constructor <;> decide
  have ready : Draft.rendering ⟨body, some lowering.directives⟩ =
      .ok ⟨body, lowering.directives⟩ := by
    rw [Draft.rendering, Body.ofLines_options read]
    rfl
  obtain ⟨flat, text, outer, written, indented, -, put⟩ :=
    (Body.ofLines_composes solid texts read lowered ready 1).2.2 (height ▸ by decide)
  obtain ⟨hollow, part, pieces, several, without_, own, front, whole⟩ :=
    put 1 (size ▸ Nat.one_lt_two)
  rw [level] at own
  exact ⟨body, lowering, _, read, lowered, ready, level, height, eq_ok_of_toOption shown, flat,
    text, hollow, part,
    pieces, outer, written, indented, several, without_, own, front, whole⟩

/-- A block is written at the outermost level, but at the highest one there is no level left for the
statement in it, not even where a level has no width. -/
theorem Body.ofLines_composes_highest :
    let options : Options := { indentWidth := 0 }
    ∃ body lowering, Body.ofLines {} options ["\x7b a; \x7d"] = .ok body ∧
      body.lower {} = .ok lowering ∧
      Rendering.bodyText ⟨body, lowering.directives⟩ 0 = .ok "\x7b\na;\n\x7d\n" ∧
      Rendering.bodyText ⟨body, lowering.directives⟩ Page.highest = .error .unwritable := by
  intro options
  have runs : ((Body.ofLines {} options ["\x7b a; \x7d"]).toOption.bind fun body =>
      (body.lower {}).toOption.map fun lowering =>
        let rendering : Rendering := ⟨body, lowering.directives⟩
        ((rendering.bodyText 0).toOption, rendering.paragraphLines root)) =
      some (some "\x7b\na;\n\x7d\n",
        [.line "\x7b", .indent, .line "a;", .outdent, .line "\x7d"]) := by decide +kernel
  obtain ⟨body, read, found⟩ := Option.bind_eq_some_iff.1 runs
  obtain ⟨lowering, lowered, found⟩ := Option.map_eq_some_iff.1 found
  obtain ⟨text, steps⟩ := Prod.mk.inj found
  refine ⟨body, lowering, eq_ok_of_toOption read, eq_ok_of_toOption lowered,
    eq_ok_of_toOption text, ?_⟩
  rw [Rendering.bodyText, steps]
  exact Page.text_eq_error (Nat.le_refl _) (by decide)

end
end MethodLowering
