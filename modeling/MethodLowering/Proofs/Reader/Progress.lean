import MethodLowering.Proofs.Reader.Transitions
import MethodLowering.Text.Lines

/-!
# The reader makes progress

Every step that is taken uses up text, or replaces the top frame by frames that can do less without
text.  Three for each byte of the text that waits and a weight for each open frame make a potential
that falls with every step taken, so a run ends of its own accord.
-/

namespace MethodLowering

/-! ## Bytes of what is left -/

namespace Text

theorem byteLength_drop (text : List Char) (count : Nat) (inside : count ≤ text.length) :
    byteLength (text.drop count) + count ≤ byteLength text := by
  induction text generalizing count with
  | nil =>
      obtain rfl : count = 0 := Nat.le_zero.1 inside
      exact Nat.le_refl _
  | cons c rest induction =>
      cases count with
      | zero => exact Nat.le_refl _
      | succ count =>
          have further := induction count (Nat.le_of_succ_le_succ inside)
          have wide := Char.utf8Size_pos c
          simp only [List.drop_succ_cons, byteLength]
          omega

theorem byteLength_trimStart_le (text : List Char) :
    byteLength (trimStart text) ≤ byteLength text := by
  induction text with
  | nil => exact Nat.le_refl _
  | cons c rest induction =>
      rw [trimStart, List.dropWhile_cons]
      split
      · exact Nat.le_trans induction (Nat.le_add_left _ _)
      · exact Nat.le_refl _

theorem byteLength_rest_lt (c : Char) (rest : List Char) :
    byteLength rest < byteLength (c :: rest) :=
  Nat.lt_add_of_pos_left (Char.utf8Size_pos c)

/-- A statement that ends takes its terminator. -/
theorem byteLength_behind_cut {terminator : Char} {text : List Char} {cut : Cut}
    (found : findCut terminator text = .found cut) :
    byteLength (text.drop (cut.stop + 1)) < byteLength text := by
  have ends := cutFrom_endsWithin terminator {} 0 text
  rw [show cutFrom terminator {} 0 text = .found cut from found] at ends
  have inside : cut.stop < 0 + text.length := ends.2
  have behind := byteLength_drop text (cut.stop + 1) (by omega)
  omega

/-- A word that is taken is as long as it is spelled. -/
theorem byteLength_behind_word {word text : List Char} (starts : startsWithWord word text) :
    byteLength (text.drop word.length) + word.length ≤ byteLength text :=
  byteLength_drop text word.length (length_le_of_startsWithWord starts)

end Text

theorem leadingLabel?_taken_pos {text label : List Char} {taken : Nat}
    (found : leadingLabel? text = some (label, taken)) : 0 < taken := by
  simp only [leadingLabel?] at found
  split_ifs at found
  obtain ⟨-, rfl⟩ := Prod.mk.inj (Option.some.inj found)
  exact Nat.succ_pos _

/-- No keyword is shorter than two characters, and one that opens a text is taken from it. -/
theorem Keyword.byteLength_behind {text : List Char} {keyword : Keyword}
    (opens : Keyword.leading? text = some keyword) :
    Text.byteLength (text.drop keyword.text.length) + 2 ≤ Text.byteLength text := by
  have spelled : keyword.text.toList = Text.leadingWord text := by
    simpa using List.find?_some opens
  have long : 2 ≤ keyword.text.length := by cases keyword <;> decide
  have inside : keyword.text.length ≤ text.length := by
    rw [← String.length_toList, spelled]
    exact length_leadingWord_le text
  have behind := Text.byteLength_drop text keyword.text.length inside
  omega

namespace Reader

/-! ## Weights -/

/-- What a frame can still do without text: a body that waits for its first character becomes one of
a single statement, a statement that is complete is left, and a header that needs no text opens a
body and waits for its end. -/
def weight : Frame → Nat
  | .paragraph frame =>
      match frame.mode with
      | .awaitOpen => 2
      | .single _ => 1
      | .root | .braced => 0
  | .construct frame =>
      match frame.stage with
      | .header => 4
      | .afterBranch | .afterTryClause | .done => 1
      | .afterDoBody | .doCondition => 0

/-- Weight of all frames of a stack. -/
def weights : List Frame → Nat
  | [] => 0
  | frame :: stack => weight frame + weights stack

/-- Three for each byte of the text that waits, and the weight of every open frame. -/
def potential (reader : Reader) : Nat :=
  3 * Text.byteLength reader.leftover + weights reader.stack

theorem weight_le (frame : Frame) : weight frame ≤ 4 := by
  unfold weight
  split <;> split <;> decide

theorem weights_le (stack : List Frame) : weights stack ≤ 4 * stack.length := by
  induction stack with
  | nil => exact Nat.le_refl _
  | cons frame stack induction =>
      have first := weight_le frame
      simp only [weights, List.length_cons] at induction ⊢
      omega

/-- The text weighs three for each byte, and a frame less than five. -/
theorem potential_le (reader : Reader) :
    potential reader ≤ 3 * Text.byteLength reader.leftover + 5 * reader.depth := by
  have stacked := weights_le reader.stack
  rw [potential, depth]
  omega

theorem weight_taking_le (frame : ParagraphFrame) :
    weight (.paragraph (taking frame)) ≤ weight (.paragraph frame) := by
  obtain ⟨id, mode, label⟩ := frame
  cases mode <;> exact Nat.le_refl _

theorem weight_unlabelled (frame : ParagraphFrame) (label : Option String) :
    weight (.paragraph { frame with label }) = weight (.paragraph frame) := by
  obtain ⟨id, mode, old⟩ := frame
  cases mode <;> rfl

/-! ## Steps -/

/-- The step, where it succeeds, waits or leaves text and frames below `bound`. -/
def FallsBelow (bound : Nat) (body : Body) (computation : ReadM Step) : Prop :=
  Gives computation body fun outcome _ => ∀ frames rest, taken? outcome = some (frames, rest) →
    3 * Text.byteLength rest + weights frames < bound

section

variable {bound : Nat} {body : Body} {finishing : Bool} {text : List Char}

theorem FallsBelow.wait : FallsBelow bound body (pure .needMore) :=
  .pure fun _ _ waits => by contradiction

theorem FallsBelow.reject {error : SourceError} : FallsBelow bound body (reject error) := .throw

theorem FallsBelow.advance {frame : Frame} {rest : List Char}
    (less : 3 * Text.byteLength rest + weight frame < bound) :
    FallsBelow bound body (pure (.advance frame rest)) := by
  refine .pure fun frames other taken => ?_
  obtain ⟨rfl, rfl⟩ := Prod.mk.inj (Option.some.inj taken)
  simpa [weights] using less

theorem FallsBelow.enter {frame child : Frame} {rest : List Char}
    (less : 3 * Text.byteLength rest + (weight child + weight frame) < bound) :
    FallsBelow bound body (pure (.enter frame child rest)) := by
  refine .pure fun frames other taken => ?_
  obtain ⟨rfl, rfl⟩ := Prod.mk.inj (Option.some.inj taken)
  simpa [weights] using less

theorem FallsBelow.leave {rest : List Char} (less : 3 * Text.byteLength rest < bound) :
    FallsBelow bound body (pure (.leave rest)) := by
  refine .pure fun frames other taken => ?_
  obtain ⟨rfl, rfl⟩ := Prod.mk.inj (Option.some.inj taken)
  simpa [weights] using less

/-- What comes first does not matter when the rest falls in every body. -/
theorem FallsBelow.behind {α : Type} {first : ReadM α} {next : α → ReadM Step}
    (falls : ∀ value body, FallsBelow bound body (next value)) :
    FallsBelow bound body (first >>= next) :=
  Gives.bind (fun _ _ _ => trivial) fun value between (_ : True) => falls value between

theorem FallsBelow.next {α : Type} {first : ReadM α} {next : α → ReadM Step} {value : α}
    {after : Body} (result : first body = .ok value after)
    (falls : FallsBelow bound after (next value)) : FallsBelow bound body (first >>= next) :=
  Gives.next result falls

/-! ### Paragraphs -/

section

variable {frame : ParagraphFrame}

theorem openBlock_falls (c : Char) (rest : List Char) :
    FallsBelow (3 * Text.byteLength (c :: rest) + weight (.paragraph frame)) body
      (openBlock frame rest) := by
  refine .behind fun block body => .next (addItem_eq _) (.enter ?_)
  have shorter := Text.byteLength_rest_lt c rest
  have lighter := weight_taking_le { frame with label := none }
  have same := weight_unlabelled frame none
  have child : weight (.ofParagraph block .braced) = 0 := rfl
  omega

theorem openConstruct_falls {keyword : Keyword} (opens : Keyword.leading? text = some keyword) :
    FallsBelow (3 * Text.byteLength text + weight (.paragraph frame)) body
      (openConstruct frame keyword (text.drop keyword.text.length)) := by
  refine .behind fun id body => .next (addItem_eq _) (.enter ?_)
  have shorter := Keyword.byteLength_behind opens
  have lighter := weight_taking_le { frame with label := none }
  have same := weight_unlabelled frame none
  have child (id : ConstructId) (scope : ParagraphId) :
      weight (.construct { id, scope, stage := .header }) = 4 := rfl
  rw [child]
  omega

theorem stepStatement_falls :
    FallsBelow (3 * Text.byteLength text + weight (.paragraph frame)) body
      (stepStatement frame text) := by
  rw [stepStatement]
  split
  · exact .wait
  · exact .reject
  · rename_i cut found
    refine .behind fun root body => .next (addItem_eq _) (.advance ?_)
    have shorter := Text.byteLength_behind_cut found
    have lighter := weight_taking_le frame
    omega

theorem stepLabel_falls :
    FallsBelow (3 * Text.byteLength text + weight (.paragraph frame)) body
      (stepLabel finishing frame text) := by
  rw [stepLabel]
  split
  · exact stepStatement_falls
  · rename_i label taken found
    dsimp only
    split
    · exact .wait
    · split
      · refine .advance ?_
        have positive := leadingLabel?_taken_pos found
        have shorter := Text.byteLength_drop text taken (leadingLabel?_taken_le found)
        rw [weight_unlabelled]
        omega
      · exact stepStatement_falls

theorem stepWord_falls :
    FallsBelow (3 * Text.byteLength text + weight (.paragraph frame)) body
      (stepWord finishing frame text) := by
  unfold stepWord
  split
  · exact .reject
  · split
    · rename_i keyword opens
      exact openConstruct_falls opens
    · split
      · exact stepStatement_falls
      · exact stepLabel_falls

theorem stepItem_falls :
    FallsBelow (3 * Text.byteLength text + weight (.paragraph frame)) body
      (stepItem finishing frame text) := by
  unfold stepItem
  split
  · exact .wait
  · rename_i c rest
    have shorter := Text.byteLength_rest_lt c rest
    split
    · split
      · exact .leave (by omega)
      · exact .reject
    · split
      · exact openBlock_falls c rest
      · split
        · have lighter := weight_taking_le frame
          exact .next (addItem_eq _) (.advance (by omega))
        · exact stepWord_falls

theorem stepOpening_falls (mode : frame.mode = .awaitOpen) :
    FallsBelow (3 * Text.byteLength text + weight (.paragraph frame)) body
      (stepOpening frame text) := by
  have waiting : weight (.paragraph frame) = 2 := by simp [weight, mode]
  unfold stepOpening
  split
  · exact .wait
  · rename_i c rest
    have shorter := Text.byteLength_rest_lt c rest
    split
    · refine .behind fun _ body => .advance ?_
      simp only [weight]
      omega
    · refine .advance ?_
      rw [waiting]
      simp only [weight]
      omega

theorem stepParagraph_falls :
    FallsBelow (3 * Text.byteLength text + weight (.paragraph frame)) body
      (stepParagraph finishing frame text) := by
  unfold stepParagraph
  split
  · rename_i mode
    exact stepOpening_falls mode
  · rename_i mode
    have complete : weight (.paragraph frame) = 1 := by simp [weight, mode]
    exact .leave (by omega)
  · exact stepItem_falls

end

/-! ### Constructs -/

section

variable {frame : ConstructFrame}

/-- A body that is opened weighs two until its first character is known, and the construct that
waits for its end at most one. -/
theorem enterBody_falls {stage : Stage} {slot : ParagraphId} {rest : List Char}
    (waits : weight (.construct { frame with stage }) ≤ 1)
    (less : 3 * Text.byteLength rest + 3 < bound) :
    FallsBelow bound body (pure (enterBody frame stage slot rest)) := by
  refine .enter ?_
  have child : weight (.ofParagraph slot .awaitOpen) = 2 := rfl
  omega

/-- The brackets are taken from the text. -/
theorem parenthesized_shortens (keyword : Keyword) :
    Gives (parenthesized keyword text) body fun found _ => ∀ inner rest,
      found = some (inner, rest) → Text.byteLength rest < Text.byteLength text := by
  unfold parenthesized
  split
  · exact .pure fun _ _ none_ => by contradiction
  · rename_i c rest
    split
    · refine .pure fun inner behind found => ?_
      obtain ⟨close, matched, same⟩ := Option.map_eq_some_iff.1 found
      obtain ⟨-, rfl⟩ := Prod.mk.inj same
      have inside := Text.matchingClose?_lt matched
      have shorter := Text.byteLength_drop (c :: rest) (close + 1) inside
      omega
    · exact .throw

theorem withHeader_falls {keyword : Keyword} {go : List Char → List Char → ReadM Step}
    (falls : ∀ inner rest body, Text.byteLength rest < Text.byteLength text →
      FallsBelow bound body (go inner rest)) :
    FallsBelow bound body (withHeader keyword text go) := by
  refine (parenthesized_shortens keyword).bind fun found body shortens => ?_
  split
  · exact falls _ _ _ (shortens _ _ rfl)
  · exact FallsBelow.wait

theorem stepCondition_falls :
    FallsBelow (3 * Text.byteLength text + 4) body (stepCondition frame text) := by
  refine withHeader_falls fun inner rest body shorter => ?_
  refine .behind fun condition body => .behind fun slot body => .behind fun _ body => ?_
  exact enterBody_falls (Nat.le_refl 1) (by omega)

theorem stepFor_falls : FallsBelow (3 * Text.byteLength text + 4) body (stepFor frame text) := by
  refine withHeader_falls fun inner rest body shorter => .behind fun slot body => ?_
  have enters (body : Body) : FallsBelow (3 * Text.byteLength text + 4) body
      (pure (enterBody frame .done slot rest)) :=
    enterBody_falls (Nat.le_refl 1) (by omega)
  split
  · refine .behind fun init body => .behind fun condition body => .behind fun update body => ?_
    exact .behind fun _ body => enters body
  · refine .behind fun header body => .behind fun byElement body => ?_
    exact .behind fun _ body => enters body
  · exact .reject

theorem stepHeader_falls {keyword : Keyword} {kind : ParagraphKind}
    {detail : Placed → ParagraphId → Detail} :
    FallsBelow (3 * Text.byteLength text + 4) body
      (stepHeader keyword kind detail frame text) := by
  refine withHeader_falls fun inner rest body shorter => ?_
  refine .behind fun clause body => .behind fun slot body => .behind fun _ body => ?_
  exact enterBody_falls (Nat.le_refl 1) (by omega)

/-- The body of a `do` follows without text, which is why a header weighs more than the body and the
construct that waits for its end. -/
theorem stepDo_falls : FallsBelow (3 * Text.byteLength text + 4) body (stepDo frame text) :=
  .behind fun _ _ => .behind fun _ _ => enterBody_falls (Nat.zero_le 1) (by omega)

theorem stepTry_falls : FallsBelow (3 * Text.byteLength text + 4) body (stepTry frame text) :=
  .behind fun _ _ => .behind fun _ _ => enterBody_falls (Nat.le_refl 1) (by omega)

theorem stepValue_falls {keyword : Keyword} :
    FallsBelow (3 * Text.byteLength text + 4) body (stepValue frame keyword text) := by
  rw [stepValue]
  split
  · exact .wait
  · exact .reject
  · rename_i cut found
    have shorter := Text.byteLength_behind_cut found
    have leaves (value : Placed) (body : Body) : FallsBelow (3 * Text.byteLength text + 4) body
        (do setDetail frame (.jump value none); return .leave (text.drop (cut.stop + 1))) :=
      .behind fun _ _ => .leave (by omega)
    refine .behind fun value body => ?_
    split
    · refine .behind fun category body => ?_
      split
      · exact .behind fun _ body => leaves value body
      · exact leaves value _
    · exact leaves value _

theorem stepJump_falls : FallsBelow (3 * Text.byteLength text + 4) body (stepJump frame text) := by
  rw [stepJump]
  dsimp only
  split
  · exact .wait
  · rename_i terminated
    have inside : (text.takeWhile (· != ';')).length ≤ text.length :=
      (List.takeWhile_prefix _).length_le
    have terminated : (text.takeWhile (· != ';')).length ≠ text.length := by
      simpa using terminated
    have shorter := Text.byteLength_drop text ((text.takeWhile (· != ';')).length + 1) (by omega)
    exact .behind fun _ _ => .leave (by omega)

theorem stepCase_falls : FallsBelow (3 * Text.byteLength text + 4) body (stepCase frame text) := by
  rw [stepCase]
  split
  · exact .wait
  · exact .reject
  · rename_i cut found
    have shorter := Text.byteLength_behind_cut found
    exact .behind fun _ _ => .behind fun _ _ => .leave (by omega)

theorem stepDefault_falls :
    FallsBelow (3 * Text.byteLength text + 4) body (stepDefault frame text) := by
  unfold stepDefault
  split
  · exact .wait
  · rename_i c rest
    have shorter := Text.byteLength_rest_lt c rest
    split
    · exact .behind fun _ _ => .leave (by omega)
    · exact .reject

theorem stepKeyword_falls (keyword : Keyword) :
    FallsBelow (3 * Text.byteLength text + 4) body (stepKeyword frame text keyword) := by
  cases keyword with
  | ifThen => exact stepCondition_falls
  | forLoop => exact stepFor_falls
  | whileLoop => exact stepHeader_falls
  | doLoop => exact stepDo_falls
  | switch => exact stepHeader_falls
  | tryBlock => exact stepTry_falls
  | synchronized => exact stepHeader_falls
  | returns => exact stepValue_falls
  | throws => exact stepValue_falls
  | breaks => exact stepJump_falls
  | continues => exact stepJump_falls
  | caseLabel => exact stepCase_falls
  | defaultLabel => exact stepDefault_falls

/-- An `else if` goes back to the header, which the words pay for. -/
theorem stepAfterBranch_falls :
    FallsBelow (3 * Text.byteLength text + 1) body (stepAfterBranch finishing frame text) := by
  rw [stepAfterBranch]
  split
  · split
    · exact .leave (by omega)
    · exact .wait
  · split
    · rename_i follows
      have shorter : Text.byteLength (text.drop 4) + 4 ≤ Text.byteLength text :=
        Text.byteLength_behind_word follows
      have trimmed := Text.byteLength_trimStart_le (text.drop 4)
      dsimp only
      split
      · exact .wait
      · split
        · rename_i chained
          have behind :
              Text.byteLength ((Text.trimStart (text.drop 4)).drop 2) + 2 ≤
                Text.byteLength (Text.trimStart (text.drop 4)) :=
            Text.byteLength_behind_word chained
          refine .advance ?_
          simp only [weight]
          omega
        · refine .behind fun slot body => .behind fun _ body => ?_
          exact enterBody_falls (Nat.le_refl 1) (by omega)
    · exact .leave (by omega)

theorem stepAfterDo_falls :
    FallsBelow (3 * Text.byteLength text) body (stepAfterDo finishing frame text) := by
  rw [stepAfterDo]
  split
  · exact .wait
  · split
    · rename_i follows
      have shorter : Text.byteLength (text.drop 5) + 5 ≤ Text.byteLength text :=
        Text.byteLength_behind_word follows
      refine .advance ?_
      simp only [weight]
      omega
    · exact .reject

theorem stepDoCondition_falls :
    FallsBelow (3 * Text.byteLength text) body (stepDoCondition finishing frame text) := by
  refine (parenthesized_shortens _).bind fun found body shortens => ?_
  split
  · split
    · exact FallsBelow.reject
    · exact FallsBelow.wait
  · rename_i inner rest
    have shorter := shortens inner rest rfl
    have trimmed := Text.byteLength_trimStart_le rest
    dsimp only
    split
    · exact FallsBelow.wait
    · refine FallsBelow.behind fun condition body => .behind fun _ body => .leave ?_
      split
      · rename_i ends
        have behind := Text.byteLength_drop (Text.trimStart rest) 1 (by
          cases after : Text.trimStart rest with
          | nil => simp [after] at ends
          | cons c tail => exact Nat.le_add_left _ _)
        omega
      · omega

theorem stepAfterTry_falls (stage : frame.stage = .afterTryClause) :
    FallsBelow (3 * Text.byteLength text + 1) body (stepAfterTry finishing frame text) := by
  rw [stepAfterTry]
  split
  · exact .wait
  · split
    · rename_i follows
      have shorter : Text.byteLength (text.drop 5) + 5 ≤ Text.byteLength text :=
        Text.byteLength_behind_word follows
      have trimmed := Text.byteLength_trimStart_le (text.drop 5)
      refine withHeader_falls fun inner rest body header => ?_
      refine .behind fun slot body => .behind fun _ body => ?_
      exact enterBody_falls (by simp [weight, stage]) (by omega)
    · split
      · rename_i follows
        have shorter : Text.byteLength (text.drop 7) + 7 ≤ Text.byteLength text :=
          Text.byteLength_behind_word follows
        refine .behind fun slot body => .behind fun _ body => ?_
        exact enterBody_falls (Nat.le_refl 1) (by omega)
      · refine .behind fun whole body => ?_
        split
        · exact .leave (by omega)
        · exact .reject

theorem stepConstruct_falls :
    FallsBelow (3 * Text.byteLength text + weight (.construct frame)) body
      (stepConstruct finishing frame text) := by
  unfold stepConstruct
  split <;> rename_i stage
  · exact .leave (by simp [weight, stage])
  · simpa only [weight, stage] using stepAfterBranch_falls
  · simpa only [weight, stage, Nat.add_zero] using stepAfterDo_falls
  · simpa only [weight, stage, Nat.add_zero] using stepDoCondition_falls
  · simpa only [weight, stage] using stepAfterTry_falls stage
  · simp only [weight, stage]
    refine .behind fun whole body => ?_
    split
    · exact stepKeyword_falls _
    · exact .wait

end

/-- A step that is taken leaves less text and weight than it found. -/
theorem step_falls (frame : Frame) :
    FallsBelow (3 * Text.byteLength text + weight frame) body (step finishing frame text) := by
  cases frame with
  | paragraph frame => exact stepParagraph_falls
  | construct frame => exact stepConstruct_falls

/-! ## Runs -/

variable {reader next : Reader}

theorem potential_turn_lt (moves : reader.turn finishing = .move next) :
    potential next < potential reader := by
  obtain ⟨body, stack, leftover⟩ := reader
  cases stack with
  | nil => contradiction
  | cons frame stack =>
      simp only [turn] at moves
      cases taken : step finishing frame (Text.trimStart leftover) body with
      | error failure after => simp [taken] at moves
      | ok outcome after =>
          have falls := step_falls frame outcome after taken
          have trimmed := Text.byteLength_trimStart_le leftover
          cases outcome with
          | needMore => simp [taken] at moves
          | _ =>
              rw [taken] at moves
              obtain rfl := Turn.move.inj moves
              have less := falls _ _ rfl
              simp only [potential, weights] at less ⊢
              omega

end

/-- A run, with the number of steps that top frames made in it.  A step with which the run ends, as
the frame waits or rejects its text, counts like the others. -/
def countedRun (finishing : Bool) : Nat → Reader → EStateM.Result Failure Reader Unit × Nat
  | 0, reader => (run finishing 0 reader, 0)
  | count + 1, reader =>
      match reader.stack, reader.turn finishing with
      | [], _ => (.ok () reader, 0)
      | _ :: _, .rest next => (.ok () next, 1)
      | _ :: _, .fail failure next => (.error failure next, 1)
      | _ :: _, .move next =>
          let (result, steps) := countedRun finishing count next
          (result, steps + 1)

section

variable {finishing : Bool} {reader next : Reader} {count : Nat}

theorem countedRun_eq (finishing : Bool) (count : Nat) (reader : Reader) :
    (countedRun finishing count reader).1 = run finishing count reader := by
  induction count generalizing reader with
  | zero => rfl
  | succ count induction =>
      obtain ⟨body, stack, leftover⟩ := reader
      cases stack with
      | nil => rfl
      | cons frame stack =>
          rw [countedRun, run_succ]
          cases taken : turn finishing ⟨body, frame :: stack, leftover⟩ with
          | rest next => rfl
          | fail failure next => rfl
          | move next => exact induction next

/-- A run makes at most one step more than the potential allows, the one with which it ends. -/
theorem countedRun_steps_le (finishing : Bool) (count : Nat) (reader : Reader) :
    (countedRun finishing count reader).2 ≤ potential reader + 1 := by
  induction count generalizing reader with
  | zero => exact Nat.zero_le _
  | succ count induction =>
      obtain ⟨body, stack, leftover⟩ := reader
      cases stack with
      | nil => exact Nat.zero_le _
      | cons frame stack =>
          rw [countedRun]
          cases taken : turn finishing ⟨body, frame :: stack, leftover⟩ with
          | rest next => exact Nat.le_add_left _ _
          | fail failure next => exact Nat.le_add_left _ _
          | move next =>
              have falls := potential_turn_lt taken
              have further := induction next
              dsimp only
              omega

/-- A run that may make more steps than the potential allows fails only with a failure of the top
frame. -/
theorem fails_of_potential_lt {failure : Failure} (enough : potential reader < count)
    (failed : run finishing count reader = .error failure next) :
    ∃ last, Relation.ReflTransGen (fun before after => turn finishing before = .move after)
      reader last ∧ turn finishing last = .fail failure next := by
  induction count generalizing reader with
  | zero => contradiction
  | succ count induction =>
      rw [run_succ] at failed
      cases taken : turn finishing reader with
      | rest last =>
          rw [taken] at failed
          contradiction
      | fail other last =>
          rw [taken, EStateM.Result.error.injEq] at failed
          obtain ⟨rfl, rfl⟩ := failed
          exact ⟨reader, .refl, taken⟩
      | move between =>
          rw [taken] at failed
          have falls := potential_turn_lt taken
          obtain ⟨last, reached, fails⟩ := induction (by omega) failed
          exact ⟨last, .head taken reached, fails⟩

end

/-- A run always makes progress.  Every step taken lowers the potential, which the bytes of the text
that waits and the number of open frames bound; so the number of steps is bounded, and a run gives
up for the number of its steps only when that bound reaches the limit. -/
theorem run_progresses (finishing : Bool) (reader : Reader) :
    (∀ before after, turn finishing before = .move after → potential after < potential before) ∧
      potential reader ≤ 3 * Text.byteLength reader.leftover + 5 * reader.depth ∧
      (∀ count, (countedRun finishing count reader).1 = run finishing count reader ∧
        (countedRun finishing count reader).2 ≤
          3 * Text.byteLength reader.leftover + 5 * reader.depth + 1) ∧
      (3 * Text.byteLength reader.leftover + 5 * reader.depth < Limits.stepsPerFeed →
        ∀ failure next, run finishing Limits.stepsPerFeed reader = .error failure next →
          ∃ last, Relation.ReflTransGen (fun before after => turn finishing before = .move after)
            reader last ∧ turn finishing last = .fail failure next) := by
  have bounded := potential_le reader
  refine ⟨fun before after => potential_turn_lt, bounded, fun count => ?_, fun less => ?_⟩
  · have steps := countedRun_steps_le finishing count reader
    exact ⟨countedRun_eq finishing count reader, by omega⟩
  · intro failure next failed
    exact fails_of_potential_lt (Nat.lt_of_le_of_lt bounded less) failed

end Reader
end MethodLowering
