import MethodLowering.Proofs.Reader.ClassBodies
import MethodLowering.Proofs.Reader.Forest

/-!
# What a step takes from the text

A step takes its text from the front and leaves the rest behind it.  An expression statement and the
value of a `return` or `throw` are cut out of the text at a semicolon; every other step notes no
class body and keeps the trees that were cut out before.
-/

namespace MethodLowering

open MethodLowering.Expr Body

/-! ## Trees that were cut out of the text -/

namespace Keyword

/-- The keyword ends the method and may hand back a value. -/
def exits (keyword : Keyword) : Bool := keyword == .returns || keyword == .throws

end Keyword

/-- The tree of the value that a `return` or `throw` hands back. -/
def Construct.values (construct : Construct) : List Expr :=
  match construct.detail with
  | .jump value _ => if construct.keyword.exits then [value.expr].filter isPresent else []
  | _ => []

/-- The trees of the expression statements and of the values of `return` and `throw`. -/
def Body.cutTrees (body : Body) : List Expr :=
  body.paragraphs.toList.flatMap Paragraph.trees ++ body.constructs.toList.flatMap Construct.values

namespace Reader

/-! ## Text that is left -/

/-- The text that is left stands at the end of the text. -/
def LeavesEnd (text : List Char) (outcome : Step) : Prop :=
  ∀ frames rest, taken? outcome = some (frames, rest) → rest <:+ text

section

variable {text rest : List Char} {finishing : Bool} {frame : ConstructFrame}

theorem leavesEnd_needMore : LeavesEnd text .needMore := fun _ _ waits => by contradiction

theorem leavesEnd_advance {next : Frame} (behind : rest <:+ text) :
    LeavesEnd text (.advance next rest) := by
  intro frames other taken
  obtain ⟨-, rfl⟩ := Prod.mk.inj (Option.some.inj taken)
  exact behind

theorem leavesEnd_enterBody {stage : Stage} {slot : ParagraphId} (behind : rest <:+ text) :
    LeavesEnd text (enterBody frame stage slot rest) := by
  intro frames other taken
  obtain ⟨-, rfl⟩ := Prod.mk.inj (Option.some.inj taken)
  exact behind

theorem leavesEnd_leave (behind : rest <:+ text) : LeavesEnd text (.leave rest) := by
  intro frames other taken
  obtain ⟨-, rfl⟩ := Prod.mk.inj (Option.some.inj taken)
  exact behind

theorem waits_leavesEnd : AlwaysGives (pure .needMore : ReadM Step) (LeavesEnd text) :=
  .pure leavesEnd_needMore

theorem reject_leavesEnd {error : SourceError} :
    AlwaysGives (reject error : ReadM Step) (LeavesEnd text) := .throw

theorem trimStart_isSuffix (text : List Char) : Text.trimStart text <:+ text :=
  List.dropWhile_suffix Text.isBlank

theorem parenthesized_leavesEnd (keyword : Keyword) (text : List Char) :
    AlwaysGives (parenthesized keyword text) fun found =>
      ∀ inner rest, found = some (inner, rest) → rest <:+ text := by
  unfold parenthesized
  split
  · exact .pure fun _ _ none_ => by contradiction
  · split
    · refine .pure fun inner rest found => ?_
      obtain ⟨close, -, same⟩ := Option.map_eq_some_iff.1 found
      obtain ⟨-, rfl⟩ := Prod.mk.inj same
      exact List.drop_suffix _ _
    · exact .throw

theorem withHeader_leavesEnd {keyword : Keyword} {source : List Char}
    {go : List Char → List Char → ReadM Step} (inside : source <:+ text)
    (leaves : ∀ inner rest, rest <:+ text → AlwaysGives (go inner rest) (LeavesEnd text)) :
    AlwaysGives (withHeader keyword source go) (LeavesEnd text) := by
  refine (parenthesized_leavesEnd keyword source).bind fun found behind => ?_
  split
  · exact leaves _ _ ((behind _ _ rfl).trans inside)
  · exact waits_leavesEnd

theorem stepCondition_leavesEnd : AlwaysGives (stepCondition frame text) (LeavesEnd text) := by
  refine withHeader_leavesEnd (List.suffix_refl _) fun inner rest behind => ?_
  exact .then fun _ => .then fun _ => .then fun _ => .pure (leavesEnd_enterBody behind)

theorem stepFor_leavesEnd : AlwaysGives (stepFor frame text) (LeavesEnd text) := by
  refine withHeader_leavesEnd (List.suffix_refl _) fun inner rest behind => .then fun slot => ?_
  split
  · refine .then fun _ => .then fun _ => .then fun _ => .then fun _ => ?_
    exact .pure (leavesEnd_enterBody behind)
  · exact .then fun _ => .then fun _ => .then fun _ => .pure (leavesEnd_enterBody behind)
  · exact reject_leavesEnd

theorem stepHeader_leavesEnd {keyword : Keyword} {kind : ParagraphKind}
    {detail : Placed → ParagraphId → Detail} :
    AlwaysGives (stepHeader keyword kind detail frame text) (LeavesEnd text) := by
  refine withHeader_leavesEnd (List.suffix_refl _) fun inner rest behind => ?_
  exact .then fun _ => .then fun _ => .then fun _ => .pure (leavesEnd_enterBody behind)

theorem stepJump_leavesEnd : AlwaysGives (stepJump frame text) (LeavesEnd text) := by
  rw [stepJump]
  dsimp only
  split
  · exact waits_leavesEnd
  · exact .then fun _ => .pure (leavesEnd_leave (List.drop_suffix _ _))

theorem stepCase_leavesEnd : AlwaysGives (stepCase frame text) (LeavesEnd text) := by
  rw [stepCase]
  split
  · exact waits_leavesEnd
  · exact reject_leavesEnd
  · exact .then fun _ => .then fun _ => .pure (leavesEnd_leave (List.drop_suffix _ _))

theorem stepDefault_leavesEnd : AlwaysGives (stepDefault frame text) (LeavesEnd text) := by
  unfold stepDefault
  split
  · exact waits_leavesEnd
  · split
    · exact .then fun _ => .pure (leavesEnd_leave (List.suffix_cons _ _))
    · exact reject_leavesEnd

theorem stepKeyword_leavesEnd {keyword : Keyword} (stays : keyword.exits = false) :
    AlwaysGives (stepKeyword frame text keyword) (LeavesEnd text) := by
  have same : text <:+ text := List.suffix_refl _
  cases keyword with
  | ifThen => exact stepCondition_leavesEnd
  | forLoop => exact stepFor_leavesEnd
  | whileLoop => exact stepHeader_leavesEnd
  | doLoop => exact .then fun _ => .then fun _ => .pure (leavesEnd_enterBody same)
  | switch => exact stepHeader_leavesEnd
  | tryBlock => exact .then fun _ => .then fun _ => .pure (leavesEnd_enterBody same)
  | synchronized => exact stepHeader_leavesEnd
  | returns => contradiction
  | throws => contradiction
  | breaks => exact stepJump_leavesEnd
  | continues => exact stepJump_leavesEnd
  | caseLabel => exact stepCase_leavesEnd
  | defaultLabel => exact stepDefault_leavesEnd

theorem stepAfterBranch_leavesEnd :
    AlwaysGives (stepAfterBranch finishing frame text) (LeavesEnd text) := by
  have ends : LeavesEnd text (.leave text) := leavesEnd_leave (List.suffix_refl _)
  rw [stepAfterBranch]
  split
  · split
    · exact .pure ends
    · exact waits_leavesEnd
  · split
    · have trimmed := (trimStart_isSuffix (text.drop 4)).trans (List.drop_suffix 4 text)
      dsimp only
      split
      · exact waits_leavesEnd
      · split
        · exact .pure (leavesEnd_advance ((List.drop_suffix _ _).trans trimmed))
        · refine .then fun _ => .then fun _ => ?_
          exact .pure (leavesEnd_enterBody (List.drop_suffix _ _))
    · exact .pure ends

theorem stepAfterDo_leavesEnd :
    AlwaysGives (stepAfterDo finishing frame text) (LeavesEnd text) := by
  rw [stepAfterDo]
  split
  · exact waits_leavesEnd
  · split
    · exact .pure (leavesEnd_advance (List.drop_suffix _ _))
    · exact reject_leavesEnd

theorem stepDoCondition_leavesEnd :
    AlwaysGives (stepDoCondition finishing frame text) (LeavesEnd text) := by
  refine (parenthesized_leavesEnd _ text).bind fun found behind => ?_
  split
  · split
    · exact reject_leavesEnd
    · exact waits_leavesEnd
  · rename_i inner rest
    have inside := behind inner rest rfl
    dsimp only
    split
    · exact waits_leavesEnd
    · refine AlwaysGives.then fun _ => .then fun _ => .pure (leavesEnd_leave ?_)
      split
      · exact (List.drop_suffix _ _).trans ((trimStart_isSuffix rest).trans inside)
      · exact inside

theorem stepAfterTry_leavesEnd :
    AlwaysGives (stepAfterTry finishing frame text) (LeavesEnd text) := by
  rw [stepAfterTry]
  split
  · exact waits_leavesEnd
  · split
    · have trimmed := (trimStart_isSuffix (text.drop 5)).trans (List.drop_suffix 5 text)
      refine withHeader_leavesEnd trimmed fun inner rest behind => ?_
      exact .then fun _ => .then fun _ => .pure (leavesEnd_enterBody behind)
    · split
      · refine .then fun _ => .then fun _ => ?_
        exact .pure (leavesEnd_enterBody (List.drop_suffix _ _))
      · refine .then fun _ => ?_
        split
        · exact .pure (leavesEnd_leave (List.suffix_refl _))
        · exact reject_leavesEnd

end

/-! ## Steps -/

/-- What a step with the text that waits from `start` on takes, leaves and adds. -/
inductive Takes (start : Nat) (text : List Char) (body : Body) :
    Frame → List Char → Body → Prop where
  /-- A step of a paragraph that reads no statement. -/
  | paragraph {frame : ParagraphFrame} {rest : List Char} {after : Body} (behind : rest <:+ text)
      (sites : after.sites = body.sites) (trees : after.cutTrees = body.cutTrees) :
      Takes start text body (.paragraph frame) rest after
  /-- A step of a construct that hands back no value. -/
  | construct {frame : ConstructFrame} {rest : List Char} {after : Body} (behind : rest <:+ text)
      (stays : frame.stage = .header → ∀ keyword,
        body.constructs[frame.id]?.map (·.keyword) = some keyword → keyword.exits = false) :
      Takes start text body (.construct frame) rest after
  /-- An expression statement. -/
  | statement {frame : ParagraphFrame} {cutting : Cutting} {between after : Body}
      (begins : cutting.start = start) (cuts : cutting.IsCutFrom text)
      (declares : Declares frame.id body between) (notes : cutting.Notes between after) :
      Takes start text body (.paragraph frame) (text.drop (cutting.text.length + 1))
        (after.addItem frame.id (if cutting.root.isAbsent then .empty else
          .expression cutting.root))
  /-- The value of a `return` or `throw`. -/
  | value {frame : ConstructFrame} {keyword : Keyword} {cutting : Cutting} {between after : Body}
      {handle : Bool} (stage : frame.stage = .header)
      (known : body.constructs[frame.id]?.map (·.keyword) = some keyword)
      (exits : keyword.exits = true) (begins : cutting.start = start)
      (cuts : cutting.IsCutFrom text) (declares : Declares frame.scope body between)
      (notes : cutting.Notes between after) :
      Takes start text body (.construct frame) (text.drop (cutting.text.length + 1))
        ({ after with returnsHandle := handle }.modifyDetail frame.id fun _ =>
          .jump cutting.root none)

/-- The step, where it succeeds, waits or takes text. -/
def TakesText (start : Nat) (text : List Char) (body : Body) (frame : Frame)
    (computation : ReadM Step) : Prop :=
  Gives computation body fun outcome after => ∀ frames rest,
    taken? outcome = some (frames, rest) → Takes start text body frame rest after

section

variable {start : Nat} {text rest : List Char} {body : Body} {finishing : Bool}

theorem TakesText.wait {frame : Frame} : TakesText start text body frame (pure .needMore) :=
  .pure fun _ _ waits => by contradiction

theorem TakesText.reject {frame : Frame} {error : SourceError} :
    TakesText start text body frame (reject error) := .throw

theorem TakesText.pure {frame : Frame} {outcome : Step} {before : Body}
    (takes : ∀ frames rest, taken? outcome = some (frames, rest) →
      Takes start text before frame rest body) :
    Gives (Pure.pure outcome : ReadM Step) body fun outcome after => ∀ frames rest,
      taken? outcome = some (frames, rest) → Takes start text before frame rest after :=
  .pure takes

/-! ### Paragraphs -/

section

variable {frame : ParagraphFrame}

theorem cutTrees_modifyParagraph (id : ParagraphId) {change : Paragraph → Paragraph}
    (same : ∀ paragraph, (change paragraph).trees = paragraph.trees) :
    (body.modifyParagraph id change).cutTrees = body.cutTrees := by
  rw [cutTrees, Body.modifyParagraph, Array.toList_modify, flatMap_modify _ _ id same]
  rfl

theorem cutTrees_addItem (id : ParagraphId) {item : Item} (plain : item.trees = []) :
    (body.addItem id item).cutTrees = body.cutTrees :=
  cutTrees_modifyParagraph id fun paragraph => by simp [Paragraph.trees, plain]

theorem openBlock_takes (c : Char) (rest : List Char) :
    TakesText start (c :: rest) body (.paragraph frame) (openBlock frame rest) := by
  refine .next rfl (.next (addItem_eq _) (.pure fun frames other taken => ?_))
  obtain ⟨-, rfl⟩ := Prod.mk.inj (Option.some.inj taken)
  refine .paragraph (List.suffix_cons _ _) rfl ((cutTrees_addItem _ rfl).trans ?_)
  simp [cutTrees, Body.addParagraph, Paragraph.trees]

theorem openConstruct_takes {keyword : Keyword} (behind : rest <:+ text) :
    TakesText start text body (.paragraph frame) (openConstruct frame keyword rest) := by
  refine .next rfl (.next (addItem_eq _) (.pure fun frames other taken => ?_))
  obtain ⟨-, rfl⟩ := Prod.mk.inj (Option.some.inj taken)
  refine .paragraph behind rfl ((cutTrees_addItem _ rfl).trans ?_)
  simp [cutTrees, Body.addConstruct, Construct.values]

theorem stepStatement_takes :
    TakesText start text body (.paragraph frame) (stepStatement frame text) := by
  rw [stepStatement]
  split
  · exact .wait
  · exact .reject
  · rename_i cut found
    refine (readCut_cuts start (Declares frame.id) found fun source before => ?_).bind ?_
    · exact fun placed after read => ⟨⟨_, _, _, .inr read⟩, (readStatement_reads read).declares⟩
    · rintro _ after ⟨cutting, begins, rfl, length, cuts, between, declares, notes⟩
      refine .next (addItem_eq _) (.pure fun frames other taken => ?_)
      obtain ⟨-, rfl⟩ := Prod.mk.inj (Option.some.inj taken)
      rw [← length]
      exact .statement begins cuts declares notes

theorem stepLabel_takes :
    TakesText start text body (.paragraph frame) (stepLabel finishing frame text) := by
  rw [stepLabel]
  split
  · exact stepStatement_takes
  · dsimp only
    split
    · exact .wait
    · split
      · refine .pure fun frames other taken => ?_
        obtain ⟨-, rfl⟩ := Prod.mk.inj (Option.some.inj taken)
        exact .paragraph (List.drop_suffix _ _) rfl rfl
      · exact stepStatement_takes

theorem stepWord_takes :
    TakesText start text body (.paragraph frame) (stepWord finishing frame text) := by
  unfold stepWord
  split
  · exact .reject
  · split
    · exact openConstruct_takes (List.drop_suffix _ _)
    · split
      · exact stepStatement_takes
      · exact stepLabel_takes

theorem stepItem_takes :
    TakesText start text body (.paragraph frame) (stepItem finishing frame text) := by
  unfold stepItem
  split
  · exact .wait
  · split
    · split
      · refine .pure fun frames other taken => ?_
        obtain ⟨-, rfl⟩ := Prod.mk.inj (Option.some.inj taken)
        exact .paragraph (List.suffix_cons _ _) rfl rfl
      · exact .reject
    · split
      · exact openBlock_takes _ _
      · split
        · refine .next (addItem_eq _) (.pure fun frames other taken => ?_)
          obtain ⟨-, rfl⟩ := Prod.mk.inj (Option.some.inj taken)
          exact .paragraph (List.suffix_cons _ _) rfl (cutTrees_addItem _ rfl)
        · exact stepWord_takes

theorem stepOpening_takes :
    TakesText start text body (.paragraph frame) (stepOpening frame text) := by
  unfold stepOpening
  split
  · exact .wait
  · split
    · refine .next rfl (.pure fun frames other taken => ?_)
      obtain ⟨-, rfl⟩ := Prod.mk.inj (Option.some.inj taken)
      exact .paragraph (List.suffix_cons _ _) rfl (cutTrees_modifyParagraph _ fun _ => rfl)
    · refine .pure fun frames other taken => ?_
      obtain ⟨-, rfl⟩ := Prod.mk.inj (Option.some.inj taken)
      exact .paragraph (List.suffix_refl _) rfl rfl

theorem stepParagraph_takes :
    TakesText start text body (.paragraph frame) (stepParagraph finishing frame text) := by
  unfold stepParagraph
  split
  · exact stepOpening_takes
  · refine .pure fun frames other taken => ?_
    obtain ⟨-, rfl⟩ := Prod.mk.inj (Option.some.inj taken)
    exact .paragraph (List.suffix_refl _) rfl rfl
  · exact stepItem_takes

end

/-! ### Constructs -/

section

variable {frame : ConstructFrame}

/-- A step of a construct that hands back no value. -/
theorem TakesText.of_leavesEnd {computation : ReadM Step}
    (leaves : AlwaysGives computation (LeavesEnd text)) (stays : frame.stage = .header → ∀ keyword,
      body.constructs[frame.id]?.map (·.keyword) = some keyword → keyword.exits = false) :
    TakesText start text body (.construct frame) computation :=
  fun outcome after result frames rest taken =>
    .construct (leaves body outcome after result frames rest taken) stays

theorem stepValue_takes {keyword : Keyword} (stage : frame.stage = .header)
    (known : body.constructs[frame.id]?.map (·.keyword) = some keyword)
    (exits : keyword.exits = true) :
    TakesText start text body (.construct frame) (stepValue frame keyword text) := by
  rw [stepValue]
  split
  · exact .wait
  · exact .reject
  · rename_i cut found
    refine (readCut_cuts start (Declares frame.scope) found fun source before => ?_).bind ?_
    · exact fun placed after read => ⟨⟨_, _, _, .inl read⟩, (readExpression_reads read).declares⟩
    · rintro _ between ⟨cutting, begins, rfl, length, cuts, first, declares, notes⟩
      have ends (handle : Bool) :
          Gives (do setDetail frame (.jump cutting.root none)
                    return .leave (text.drop (cut.stop + 1)))
            { between with returnsHandle := handle } fun outcome after => ∀ frames rest,
              taken? outcome = some (frames, rest) →
                Takes start text body (.construct frame) rest after := by
        refine .next rfl (.pure fun frames other taken => ?_)
        obtain ⟨-, rfl⟩ := Prod.mk.inj (Option.some.inj taken)
        rw [← length]
        exact .value stage known exits begins cuts declares notes
      split
      · refine (ask_answer _).bind ?_
        rintro category after ⟨rfl, -⟩
        split
        · exact .next rfl (ends true)
        · exact ends after.returnsHandle
      · exact ends between.returnsHandle

theorem stepConstruct_takes :
    TakesText start text body (.construct frame) (stepConstruct finishing frame text) := by
  unfold stepConstruct
  have other {stage : Stage} (shown : frame.stage = stage) (later : stage ≠ .header)
      (computation : ReadM Step) (leaves : AlwaysGives computation (LeavesEnd text)) :
      TakesText start text body (.construct frame) computation :=
    .of_leavesEnd leaves fun header => absurd (shown.symm.trans header) later
  split <;> rename_i stage
  · exact other stage nofun _ (.pure (leavesEnd_leave (List.suffix_refl _)))
  · exact other stage nofun _ stepAfterBranch_leavesEnd
  · exact other stage nofun _ stepAfterDo_leavesEnd
  · exact other stage nofun _ stepDoCondition_leavesEnd
  · exact other stage nofun _ stepAfterTry_leavesEnd
  · refine .next rfl ?_
    split
    · rename_i construct found
      have known : body.constructs[frame.id]?.map (·.keyword) = some construct.keyword := by
        simp [found]
      cases exits : construct.keyword.exits with
      | true =>
          cases keyword : construct.keyword with
          | returns => exact stepValue_takes stage (keyword ▸ known) rfl
          | throws => exact stepValue_takes stage (keyword ▸ known) rfl
          | _ => simp [keyword, Keyword.exits] at exits
      | false =>
          refine TakesText.of_leavesEnd (stepKeyword_leavesEnd exits) fun _ keyword same => ?_
          rw [known] at same
          rw [← Option.some.inj same, exits]
    · exact TakesText.wait

end

/-- What a step takes from the text. -/
theorem step_takes (start : Nat) (frame : Frame) :
    TakesText start text body frame (step finishing frame text) := by
  cases frame with
  | paragraph frame => exact stepParagraph_takes
  | construct frame => exact stepConstruct_takes

end
end Reader
end MethodLowering
