import MethodLowering.Proofs.Reader.Turns
import MethodLowering.Proofs.Text.Growth

/-!
# Joining lines

Where a line ends does not matter: lines that are fed one by one and the same lines joined by blanks
give the same body, or the same failure.  Each step of a frame decides on a part of the text that is
complete, so more text behind a blank changes nothing but the rest; a step that needs more text
leaves everything as it was.
-/

namespace MethodLowering

/-- `longer` is `shorter` with a blank and `more` behind it, leading blanks aside. -/
def Text.Extends (more shorter longer : List Char) : Prop :=
  trimStart longer = trimStart (shorter ++ ' ' :: more)

theorem Text.extends_append (more text : List Char) :
    Extends more text (text ++ ' ' :: more) := rfl

theorem Text.extends_drop {text : List Char} {count : Nat} (short : count ≤ text.length)
    (more : List Char) : Extends more (text.drop count) ((text ++ ' ' :: more).drop count) := by
  rw [Extends, List.drop_append_of_le_length short]

namespace Reader

/-- The second step is the first one with more text left behind it. -/
inductive StepExtends (more : List Char) : Step → Step → Prop where
  | advance {frame : Frame} {rest rest' : List Char} (later : Text.Extends more rest rest') :
      StepExtends more (.advance frame rest) (.advance frame rest')
  | enter {frame child : Frame} {rest rest' : List Char} (later : Text.Extends more rest rest') :
      StepExtends more (.enter frame child rest) (.enter frame child rest')
  | leave {rest rest' : List Char} (later : Text.Extends more rest rest') :
      StepExtends more (.leave rest) (.leave rest')

/-- The second outcome is the first one with more text left behind its step. -/
inductive OutcomeExtends (more : List Char) :
    EStateM.Result Failure Body Step → EStateM.Result Failure Body Step → Prop where
  | ok {taken taken' : Step} {body : Body} (later : StepExtends more taken taken') :
      OutcomeExtends more (.ok taken body) (.ok taken' body)
  | error (failure : Failure) (body : Body) :
      OutcomeExtends more (.error failure body) (.error failure body)

/-- On every body, the second computation does what the first does, with more text left. -/
def Mirrors (more : List Char) (short long : ReadM Step) : Prop :=
  ∀ body, OutcomeExtends more (short body) (long body)

/-- On every body, the first computation waits and leaves the body alone, or the second one does the
same with more text left. -/
def Follows (more : List Char) (short long : ReadM Step) : Prop :=
  ∀ body, short body = .ok .needMore body ∨ OutcomeExtends more (short body) (long body)

theorem Mirrors.follows {more : List Char} {short long : ReadM Step}
    (mirrors : Mirrors more short long) : Follows more short long :=
  fun body => .inr (mirrors body)

theorem Mirrors.bind {more : List Char} {α : Type} (first : ReadM α) {short long : α → ReadM Step}
    (mirrors : ∀ value, Mirrors more (short value) (long value)) :
    Mirrors more (first >>= short) (first >>= long) := by
  intro body
  simp only [Bind.bind, EStateM.bind]
  cases first body with
  | ok value after => exact mirrors value after
  | error failure after => exact .error failure after

theorem Mirrors.pure {more : List Char} {taken taken' : Step}
    (later : StepExtends more taken taken') : Mirrors more (pure taken) (pure taken') :=
  fun _ => .ok later

theorem Mirrors.reject (more : List Char) (error : SourceError) :
    Mirrors more (reject error) (reject error) :=
  fun body => .error (.malformed error) body

theorem Follows.needMore (more : List Char) (long : ReadM Step) :
    Follows more (Pure.pure .needMore) long :=
  fun _ => .inl rfl

/-! ## Paragraphs -/

section

variable {text : List Char} (more : List Char)

theorem readCut_append (read : List Char → ReadM Placed) {cut : Text.Cut}
    (inside : cut.stop ≤ text.length) :
    readCut read (text ++ more) cut = readCut read text cut := by
  rw [readCut, readCut, List.take_append_of_le_length inside]

theorem stepStatement_follows (frame : ParagraphFrame) :
    Follows more (stepStatement frame text) (stepStatement frame (text ++ ' ' :: more)) := by
  rw [stepStatement, stepStatement]
  obtain waits | ⟨same, ends⟩ := Text.findCut_append ';' text (' ' :: more)
  · rw [waits]
    exact Follows.needMore more _
  · rw [same]
    cases search : Text.findCut ';' text with
    | incomplete => exact Follows.needMore more _
    | strayClose position =>
        rw [search] at ends
        have inside : position < text.length := by simpa using ends.2
        dsimp only
        rw [List.getElem?_append_left inside]
        exact (Mirrors.reject more _).follows
    | found cut =>
        rw [search] at ends
        have inside : cut.stop < text.length := by simpa using ends.2
        dsimp only
        rw [readCut_append _ _ (Nat.le_of_lt inside)]
        refine (Mirrors.bind _ fun root => Mirrors.bind _ fun frame => ?_).follows
        exact Mirrors.pure (.advance (Text.extends_drop inside more))

theorem acceptsLabel_append (solid : text ≠ []) :
    acceptsLabel (text ++ ' ' :: more) = acceptsLabel text := by
  obtain ⟨c, rest, rfl⟩ := List.exists_cons_of_ne_nil solid
  rw [acceptsLabel, acceptsLabel, Keyword.leading?, Keyword.leading?, Text.leadingWord_append]
  rfl

theorem stepLabel_follows (frame : ParagraphFrame) :
    Follows more (stepLabel false frame text) (stepLabel false frame (text ++ ' ' :: more)) := by
  by_cases blank : Text.trimStart (text.drop (Text.leadingWord text).length) = []
  · -- Only a word is there: it is no label yet, and no statement ends.
    have unlabelled : leadingLabel? text = none := by simp [leadingLabel?, blank]
    rw [stepLabel, unlabelled]
    dsimp only
    rw [stepStatement, Text.findCut_word blank]
    exact Follows.needMore more _
  · rw [stepLabel, stepLabel, leadingLabel?_append text more blank]
    cases found : leadingLabel? text with
    | none => exact stepStatement_follows more frame
    | some labelled =>
        obtain ⟨label, taken⟩ := labelled
        have inside := leadingLabel?_taken_le found
        dsimp only
        rw [List.drop_append_of_le_length inside]
        by_cases waits : Text.trimStart (text.drop taken) = []
        · simp only [waits, List.isEmpty_nil, Bool.not_false, Bool.and_self, if_true]
          exact Follows.needMore more _
        · rw [Text.trimStart_append_of_solid waits]
          have longer : Text.trimStart (text.drop taken) ++ ' ' :: more ≠ [] := by simp
          simp only [List.isEmpty_eq_false_iff.2 waits, List.isEmpty_eq_false_iff.2 longer,
            Bool.false_and, Bool.false_eq_true, if_false, acceptsLabel_append more waits]
          split
          · exact (Mirrors.pure (.advance (Text.extends_append more _))).follows
          · exact stepStatement_follows more frame

theorem stepWord_follows (frame : ParagraphFrame) :
    Follows more (stepWord false frame text) (stepWord false frame (text ++ ' ' :: more)) := by
  have same : (continuationWords.find? fun word =>
        Text.startsWithWord word.toList (text ++ ' ' :: more)) =
      continuationWords.find? fun word => Text.startsWithWord word.toList text := by
    simp only [continuationWords, List.find?_cons, List.find?_nil,
      @Text.startsWithWord_append "else".toList (by decide),
      @Text.startsWithWord_append "catch".toList (by decide),
      @Text.startsWithWord_append "finally".toList (by decide)]
  rw [stepWord, stepWord, same]
  cases continuationWords.find? fun word => Text.startsWithWord word.toList text with
  | some word => exact (Mirrors.reject more _).follows
  | none =>
      dsimp only
      rw [Keyword.leading?, Keyword.leading?, Text.leadingWord_append]
      cases opens : Keyword.ofWord? (Text.leadingWord text) with
      | some keyword =>
          have inside : keyword.text.length ≤ text.length := by
            have spelled := List.find?_some opens
            rw [beq_iff_eq] at spelled
            rw [← String.length_toList, spelled]
            exact length_leadingWord_le text
          refine (Mirrors.bind _ fun id => Mirrors.bind _ fun frame => ?_).follows
          exact Mirrors.pure (.enter (Text.extends_drop inside more))
      | none =>
          dsimp only
          split
          · exact stepStatement_follows more frame
          · exact stepLabel_follows more frame

theorem stepItem_follows (frame : ParagraphFrame) :
    Follows more (stepItem false frame text) (stepItem false frame (text ++ ' ' :: more)) := by
  cases text with
  | nil => exact Follows.needMore more _
  | cons c rest =>
      rw [List.cons_append]
      unfold stepItem
      dsimp only
      split_ifs
      · exact (Mirrors.pure (.leave (Text.extends_append more rest))).follows
      · exact (Mirrors.reject more _).follows
      · refine (Mirrors.bind _ fun block => Mirrors.bind _ fun frame => ?_).follows
        exact Mirrors.pure (.enter (Text.extends_append more rest))
      · refine (Mirrors.bind _ fun frame => ?_).follows
        exact Mirrors.pure (.advance (Text.extends_append more rest))
      · exact stepWord_follows more frame

theorem stepOpening_follows (frame : ParagraphFrame) :
    Follows more (stepOpening frame text) (stepOpening frame (text ++ ' ' :: more)) := by
  cases text with
  | nil => exact Follows.needMore more _
  | cons c rest =>
      rw [List.cons_append]
      unfold stepOpening
      dsimp only
      split_ifs
      · refine (Mirrors.bind _ fun _ => ?_).follows
        exact Mirrors.pure (.advance (Text.extends_append more rest))
      · exact (Mirrors.pure (.advance (Text.extends_append more (c :: rest)))).follows

/-! ## Constructs -/

/-- A header is complete where its closing bracket stands; nothing behind it matters. -/
theorem parenthesized_append (keyword : Keyword) (c : Char) (rest : List Char) :
    parenthesized keyword (c :: rest) = pure none ∨
      (∃ inner behind, parenthesized keyword (c :: rest) = pure (some (inner, behind)) ∧
        parenthesized keyword (c :: rest ++ ' ' :: more) =
          pure (some (inner, behind ++ ' ' :: more))) ∨
      ∃ error, parenthesized keyword (c :: rest) = reject error ∧
        parenthesized keyword (c :: rest ++ ' ' :: more) = reject error := by
  rw [List.cons_append]
  unfold parenthesized
  dsimp only
  by_cases opens : (c == '(') = true
  · rw [if_pos opens, if_pos opens]
    cases found : Text.matchingClose? (c :: rest) with
    | none => exact .inl rfl
    | some close =>
        have inside := Text.matchingClose?_lt found
        rw [List.length_cons] at inside
        rw [← List.cons_append, Text.matchingClose?_append _ found]
        refine .inr (.inl ⟨rest.take (close - 1), (c :: rest).drop (close + 1), rfl, ?_⟩)
        rw [Option.map_some, List.take_append_of_le_length (by omega),
          List.drop_append_of_le_length (by rw [List.length_cons]; omega)]
  · rw [if_neg opens, if_neg opens]
    exact .inr (.inr ⟨_, rfl, rfl⟩)

theorem withHeader_follows (keyword : Keyword) {go : List Char → List Char → ReadM Step}
    (mirrors : ∀ inner rest, Mirrors more (go inner rest) (go inner (rest ++ ' ' :: more))) :
    Follows more (withHeader keyword text go) (withHeader keyword (text ++ ' ' :: more) go) := by
  rw [withHeader, withHeader]
  cases text with
  | nil => exact Follows.needMore more _
  | cons c rest =>
      obtain waits | ⟨inner, behind, short, long⟩ | ⟨error, short, long⟩ :=
        parenthesized_append more keyword c rest
      · rw [waits]
        exact Follows.needMore more _
      · rw [short, long]
        exact (mirrors inner behind).follows
      · rw [short, long]
        exact fun body => .inr (.error (.malformed error) body)

theorem stepCondition_follows (frame : ConstructFrame) :
    Follows more (stepCondition frame text) (stepCondition frame (text ++ ' ' :: more)) := by
  refine withHeader_follows more .ifThen fun inner rest => ?_
  refine Mirrors.bind _ fun condition => Mirrors.bind _ fun body => Mirrors.bind _ fun _ => ?_
  exact Mirrors.pure (.enter (Text.extends_append more rest))

theorem stepFor_follows (frame : ConstructFrame) :
    Follows more (stepFor frame text) (stepFor frame (text ++ ' ' :: more)) := by
  refine withHeader_follows more .forLoop fun inner rest => ?_
  refine Mirrors.bind _ fun body => ?_
  split
  · refine Mirrors.bind _ fun init => Mirrors.bind _ fun condition => ?_
    refine Mirrors.bind _ fun update => Mirrors.bind _ fun _ => ?_
    exact Mirrors.pure (.enter (Text.extends_append more rest))
  · refine Mirrors.bind _ fun header => Mirrors.bind _ fun byElement => Mirrors.bind _ fun _ => ?_
    exact Mirrors.pure (.enter (Text.extends_append more rest))
  · exact Mirrors.reject more _

theorem stepHeader_follows (keyword : Keyword) (kind : ParagraphKind)
    (detail : Placed → ParagraphId → Detail) (frame : ConstructFrame) :
    Follows more (stepHeader keyword kind detail frame text)
      (stepHeader keyword kind detail frame (text ++ ' ' :: more)) := by
  refine withHeader_follows more keyword fun inner rest => ?_
  refine Mirrors.bind _ fun clause => Mirrors.bind _ fun body => Mirrors.bind _ fun _ => ?_
  exact Mirrors.pure (.enter (Text.extends_append more rest))

theorem stepAfterBranch_follows (frame : ConstructFrame) :
    Follows more (stepAfterBranch false frame text)
      (stepAfterBranch false frame (text ++ ' ' :: more)) := by
  by_cases empty : text = []
  · subst empty
    exact Follows.needMore more _
  · have longer : text ++ ' ' :: more ≠ [] := by simp
    unfold stepAfterBranch
    simp only [List.isEmpty_eq_false_iff.2 empty, List.isEmpty_eq_false_iff.2 longer,
      Bool.false_eq_true, if_false, @Text.startsWithWord_append "else".toList (by decide)]
    by_cases other : Text.startsWithWord "else".toList text = true
    · have inside : 4 ≤ text.length := Text.length_le_of_startsWithWord other
      rw [if_pos other, if_pos other, List.drop_append_of_le_length inside]
      by_cases waits : Text.trimStart (text.drop 4) = []
      · simp only [waits, List.isEmpty_nil, Bool.not_false, Bool.and_self, if_true]
        exact Follows.needMore more _
      · have behind : Text.trimStart (text.drop 4) ++ ' ' :: more ≠ [] := by simp
        rw [Text.trimStart_append_of_solid waits]
        simp only [List.isEmpty_eq_false_iff.2 waits, List.isEmpty_eq_false_iff.2 behind,
          Bool.false_and, Bool.false_eq_true, if_false,
          @Text.startsWithWord_append "if".toList (by decide)]
        by_cases chained : Text.startsWithWord "if".toList (Text.trimStart (text.drop 4)) = true
        · rw [if_pos chained, if_pos chained]
          have shorter : 2 ≤ (Text.trimStart (text.drop 4)).length :=
            Text.length_le_of_startsWithWord chained
          exact (Mirrors.pure (.advance (Text.extends_drop shorter more))).follows
        · rw [if_neg chained, if_neg chained]
          refine (Mirrors.bind _ fun body => Mirrors.bind _ fun _ => ?_).follows
          exact Mirrors.pure (.enter (Text.extends_append more _))
    · rw [if_neg other, if_neg other]
      exact (Mirrors.pure (.leave (Text.extends_append more text))).follows

theorem stepAfterDo_follows (frame : ConstructFrame) :
    Follows more (stepAfterDo false frame text)
      (stepAfterDo false frame (text ++ ' ' :: more)) := by
  by_cases empty : text = []
  · subst empty
    exact Follows.needMore more _
  · have longer : text ++ ' ' :: more ≠ [] := by simp
    unfold stepAfterDo
    simp only [List.isEmpty_eq_false_iff.2 empty, List.isEmpty_eq_false_iff.2 longer,
      Bool.false_and, Bool.false_eq_true, if_false,
      @Text.startsWithWord_append "while".toList (by decide)]
    split
    · next loops =>
        have inside : 5 ≤ text.length := Text.length_le_of_startsWithWord loops
        exact (Mirrors.pure (.advance (Text.extends_drop inside more))).follows
    · exact (Mirrors.reject more _).follows

theorem stepDoCondition_follows (frame : ConstructFrame) :
    Follows more (stepDoCondition false frame text)
      (stepDoCondition false frame (text ++ ' ' :: more)) := by
  rw [stepDoCondition, stepDoCondition]
  cases text with
  | nil => exact Follows.needMore more _
  | cons c rest =>
      obtain waits | ⟨inner, behind, short, long⟩ | ⟨error, short, long⟩ :=
        parenthesized_append more .doLoop c rest
      · rw [waits]
        exact Follows.needMore more _
      · rw [short, long]
        simp only [pure_bind]
        by_cases waits : Text.trimStart behind = []
        · simp only [waits, List.isEmpty_nil, Bool.not_false, Bool.and_self, if_true]
          exact Follows.needMore more _
        · have longer : Text.trimStart behind ++ ' ' :: more ≠ [] := by simp
          rw [Text.trimStart_append_of_solid waits]
          simp only [List.isEmpty_eq_false_iff.2 waits, List.isEmpty_eq_false_iff.2 longer,
            Bool.false_and, Bool.false_eq_true, if_false]
          refine (Mirrors.bind _ fun condition => Mirrors.bind _ fun _ => ?_).follows
          obtain ⟨mark, tail, split⟩ := List.exists_cons_of_ne_nil waits
          rw [split]
          simp only [List.cons_append, List.head?_cons, List.drop_succ_cons, List.drop_zero]
          split_ifs
          · exact Mirrors.pure (.leave (Text.extends_append more tail))
          · exact Mirrors.pure (.leave (Text.extends_append more behind))
      · rw [short, long]
        exact fun body => .inr (.error (.malformed error) body)

theorem stepDo_mirrors {longer : List Char} (later : Text.Extends more text longer)
    (frame : ConstructFrame) : Mirrors more (stepDo frame text) (stepDo frame longer) := by
  refine Mirrors.bind _ fun body => Mirrors.bind _ fun _ => ?_
  exact Mirrors.pure (.enter later)

theorem stepTry_mirrors {longer : List Char} (later : Text.Extends more text longer)
    (frame : ConstructFrame) : Mirrors more (stepTry frame text) (stepTry frame longer) := by
  refine Mirrors.bind _ fun body => Mirrors.bind _ fun _ => ?_
  exact Mirrors.pure (.enter later)

section

variable (frame : ConstructFrame)
include frame

theorem stepAfterTry_follows :
    Follows more (stepAfterTry false frame text)
      (stepAfterTry false frame (text ++ ' ' :: more)) := by
  by_cases empty : text = []
  · subst empty
    exact Follows.needMore more _
  · have longer : text ++ ' ' :: more ≠ [] := by simp
    unfold stepAfterTry
    simp only [List.isEmpty_eq_false_iff.2 empty, List.isEmpty_eq_false_iff.2 longer,
      Bool.false_and, Bool.false_eq_true, if_false,
      @Text.startsWithWord_append "catch".toList (by decide),
      @Text.startsWithWord_append "finally".toList (by decide)]
    by_cases handles : Text.startsWithWord "catch".toList text = true
    · have inside : 5 ≤ text.length := Text.length_le_of_startsWithWord handles
      rw [if_pos handles, if_pos handles, List.drop_append_of_le_length inside]
      by_cases waits : Text.trimStart (text.drop 5) = []
      · rw [waits]
        exact Follows.needMore more _
      · rw [Text.trimStart_append_of_solid waits]
        refine withHeader_follows more .tryBlock fun inner rest => ?_
        refine Mirrors.bind _ fun body => Mirrors.bind _ fun _ => ?_
        exact Mirrors.pure (.enter (Text.extends_append more rest))
    · rw [if_neg handles, if_neg handles]
      by_cases cleans : Text.startsWithWord "finally".toList text = true
      · have inside : 7 ≤ text.length := Text.length_le_of_startsWithWord cleans
        rw [if_pos cleans, if_pos cleans]
        refine (Mirrors.bind _ fun body => Mirrors.bind _ fun _ => ?_).follows
        exact Mirrors.pure (.enter (Text.extends_drop inside more))
      · rw [if_neg cleans, if_neg cleans]
        refine (Mirrors.bind _ fun body => ?_).follows
        split_ifs
        · exact Mirrors.pure (.leave (Text.extends_append more text))
        · exact Mirrors.reject more _

theorem stepValue_follows (keyword : Keyword) :
    Follows more (stepValue frame keyword text)
      (stepValue frame keyword (text ++ ' ' :: more)) := by
  rw [stepValue, stepValue]
  obtain waits | ⟨same, ends⟩ := Text.findCut_append ';' text (' ' :: more)
  · rw [waits]
    exact Follows.needMore more _
  · rw [same]
    cases search : Text.findCut ';' text with
    | incomplete => exact Follows.needMore more _
    | strayClose position => exact (Mirrors.reject more _).follows
    | found cut =>
        rw [search] at ends
        have inside : cut.stop < text.length := by simpa using ends.2
        dsimp only
        rw [readCut_append _ _ (Nat.le_of_lt inside)]
        refine (Mirrors.bind _ fun value => ?_).follows
        have leaves : Mirrors more
            (do setDetail frame (.jump value none); return .leave (text.drop (cut.stop + 1)))
            (do
              setDetail frame (.jump value none)
              return .leave ((text ++ ' ' :: more).drop (cut.stop + 1))) :=
          Mirrors.bind _ fun _ => Mirrors.pure (.leave (Text.extends_drop inside more))
        split_ifs
        · refine Mirrors.bind _ fun category => ?_
          split_ifs
          · exact Mirrors.bind _ fun _ => leaves
          · exact leaves
        · exact leaves

theorem stepCase_follows :
    Follows more (stepCase frame text) (stepCase frame (text ++ ' ' :: more)) := by
  rw [stepCase, stepCase]
  obtain waits | ⟨same, ends⟩ := Text.findCut_append ':' text (' ' :: more)
  · rw [waits]
    exact Follows.needMore more _
  · rw [same]
    cases search : Text.findCut ':' text with
    | incomplete => exact Follows.needMore more _
    | strayClose position => exact (Mirrors.reject more _).follows
    | found cut =>
        rw [search] at ends
        have inside : cut.stop < text.length := by simpa using ends.2
        dsimp only
        rw [List.take_append_of_le_length (Nat.le_of_lt inside)]
        refine (Mirrors.bind _ fun value => Mirrors.bind _ fun _ => ?_).follows
        exact Mirrors.pure (.leave (Text.extends_drop inside more))

theorem stepJump_follows :
    Follows more (stepJump frame text) (stepJump frame (text ++ ' ' :: more)) := by
  unfold stepJump
  by_cases waits : ';' ∈ text
  · obtain ⟨front, back, rfl⟩ := List.append_of_mem waits
    have stopped (back : List Char) :
        (front ++ ';' :: back).takeWhile (· != ';') = front.takeWhile (· != ';') :=
      Text.takeWhile_append_stop (by decide) front back
    rw [List.append_assoc, List.cons_append, stopped, stopped]
    have shorter : (front.takeWhile (· != ';')).length ≤ front.length :=
      (List.takeWhile_prefix _).length_le
    have first (back : List Char) :
        ((front.takeWhile (· != ';')).length == (front ++ ';' :: back).length) = false := by
      rw [beq_eq_false_iff_ne, List.length_append, List.length_cons]
      omega
    simp only [first, Bool.false_eq_true, if_false]
    refine (Mirrors.bind _ fun _ => ?_).follows
    have inside : (front.takeWhile (· != ';')).length + 1 ≤ (front ++ ';' :: back).length := by
      rw [List.length_append, List.length_cons]
      omega
    have later := Text.extends_drop inside more
    rw [List.append_assoc, List.cons_append] at later
    exact Mirrors.pure (.leave later)
  · have whole : text.takeWhile (· != ';') = text := by
      rw [List.takeWhile_eq_self_iff]
      intro c member
      rw [bne_iff_ne]
      rintro rfl
      exact waits member
    rw [whole]
    simp only [beq_self_eq_true, if_true]
    exact Follows.needMore more _

theorem stepDefault_follows :
    Follows more (stepDefault frame text) (stepDefault frame (text ++ ' ' :: more)) := by
  cases text with
  | nil => exact Follows.needMore more _
  | cons c rest =>
      rw [List.cons_append]
      unfold stepDefault
      dsimp only
      split_ifs
      · refine (Mirrors.bind _ fun _ => ?_).follows
        exact Mirrors.pure (.leave (Text.extends_append more rest))
      · exact (Mirrors.reject more _).follows

theorem stepKeyword_follows (keyword : Keyword) :
    Follows more (stepKeyword frame text keyword)
      (stepKeyword frame (text ++ ' ' :: more) keyword) := by
  cases keyword with
  | ifThen => exact stepCondition_follows more frame
  | forLoop => exact stepFor_follows more frame
  | whileLoop => exact stepHeader_follows more _ _ _ frame
  | doLoop => exact (stepDo_mirrors more (Text.extends_append more text) frame).follows
  | switch => exact stepHeader_follows more _ _ _ frame
  | tryBlock => exact (stepTry_mirrors more (Text.extends_append more text) frame).follows
  | synchronized => exact stepHeader_follows more _ _ _ frame
  | returns => exact stepValue_follows more frame .returns
  | throws => exact stepValue_follows more frame .throws
  | breaks => exact stepJump_follows more frame
  | continues => exact stepJump_follows more frame
  | caseLabel => exact stepCase_follows more frame
  | defaultLabel => exact stepDefault_follows more frame

end

/-- Without any text, a new construct waits or goes on whatever the text. -/
theorem stepKeyword_nil_follows {longer : List Char} (later : Text.Extends more [] longer)
    (frame : ConstructFrame) (keyword : Keyword) :
    Follows more (stepKeyword frame [] keyword) (stepKeyword frame longer keyword) := by
  cases keyword with
  | doLoop => exact (stepDo_mirrors more later frame).follows
  | tryBlock => exact (stepTry_mirrors more later frame).follows
  | ifThen | forLoop | whileLoop | switch | synchronized | returns | throws | breaks | continues
  | caseLabel | defaultLabel => exact Follows.needMore more _

/-! ## All frames -/

theorem stepParagraph_follows (frame : ParagraphFrame) :
    Follows more (stepParagraph false frame text)
      (stepParagraph false frame (text ++ ' ' :: more)) := by
  unfold stepParagraph
  split
  · exact stepOpening_follows more frame
  · exact (Mirrors.pure (.leave (Text.extends_append more text))).follows
  · exact stepItem_follows more frame

theorem stepParagraph_nil_follows {longer : List Char} (later : Text.Extends more [] longer)
    (frame : ParagraphFrame) :
    Follows more (stepParagraph false frame []) (stepParagraph false frame longer) := by
  unfold stepParagraph
  split
  · exact Follows.needMore more _
  · exact (Mirrors.pure (.leave later)).follows
  · exact Follows.needMore more _

theorem stepConstruct_follows (frame : ConstructFrame) :
    Follows more (stepConstruct false frame text)
      (stepConstruct false frame (text ++ ' ' :: more)) := by
  unfold stepConstruct
  split
  · exact (Mirrors.pure (.leave (Text.extends_append more text))).follows
  · exact stepAfterBranch_follows more frame
  · exact stepAfterDo_follows more frame
  · exact stepDoCondition_follows more frame
  · exact stepAfterTry_follows more frame
  · intro body
    simp only [Bind.bind, EStateM.bind, get_apply]
    cases body.constructs[frame.id]? with
    | none => exact .inl rfl
    | some construct => exact stepKeyword_follows more frame construct.keyword body

theorem stepConstruct_nil_follows {longer : List Char} (later : Text.Extends more [] longer)
    (frame : ConstructFrame) :
    Follows more (stepConstruct false frame []) (stepConstruct false frame longer) := by
  unfold stepConstruct
  split
  · exact (Mirrors.pure (.leave later)).follows
  · exact Follows.needMore more _
  · exact Follows.needMore more _
  · exact Follows.needMore more _
  · exact Follows.needMore more _
  · intro body
    simp only [Bind.bind, EStateM.bind, get_apply]
    cases body.constructs[frame.id]? with
    | none => exact .inl rfl
    | some construct => exact stepKeyword_nil_follows more later frame construct.keyword body

/-- A step that is taken stays the same when more text follows. -/
theorem step_follows (frame : Frame) (trimmed : Text.trimStart text = text) :
    Follows more (step false frame text)
      (step false frame (Text.trimStart (text ++ ' ' :: more))) := by
  by_cases empty : text = []
  · subst empty
    have later : Text.Extends more [] (Text.trimStart ([] ++ ' ' :: more)) :=
      Text.trimStart_trimStart _
    cases frame with
    | paragraph frame => exact stepParagraph_nil_follows more later frame
    | construct frame => exact stepConstruct_nil_follows more later frame
  · rw [Text.trimStart_append_of_solid (by rwa [trimmed]), trimmed]
    cases frame with
    | paragraph frame => exact stepParagraph_follows more frame
    | construct frame => exact stepConstruct_follows more frame

end

/-! ## Readers with more text waiting -/

/-- The second reader is the first one with more text waiting. -/
structure ReaderExtends (more : List Char) (shorter longer : Reader) : Prop where
  body : longer.body = shorter.body
  stack : longer.stack = shorter.stack
  leftover : Text.Extends more shorter.leftover longer.leftover

/-- The readers differ at most in blanks in front of the waiting text. -/
structure Alike (left right : Reader) : Prop where
  body : left.body = right.body
  stack : left.stack = right.stack
  leftover : Text.trimStart left.leftover = Text.trimStart right.leftover

theorem Alike.refl (reader : Reader) : Alike reader reader := ⟨rfl, rfl, rfl⟩

/-- The second turn is the first one with more text waiting, unless the first reader rests. -/
inductive TurnExtends (more : List Char) (reader : Reader) : Turn → Turn → Prop where
  | rest (taken : Turn) : TurnExtends more reader (.rest reader) taken
  | fail (failure : Failure) (left right : Reader) :
      TurnExtends more reader (.fail failure left) (.fail failure right)
  | move {left right : Reader} (later : ReaderExtends more left right) :
      TurnExtends more reader (.move left) (.move right)

/-- A turn that is taken stays the same when more text follows, and a reader that rests is left as
it is. -/
theorem turn_extends {more : List Char} {shorter longer : Reader}
    (later : ReaderExtends more shorter longer) :
    TurnExtends more shorter (shorter.turn false) (longer.turn false) := by
  obtain ⟨body, stack, leftover⟩ := shorter
  obtain ⟨body', stack', leftover'⟩ := longer
  obtain ⟨rfl, rfl, waiting⟩ := later
  cases stack' with
  | nil => exact .rest _
  | cons frame stack =>
      have follows := step_follows more frame (Text.trimStart_trimStart leftover) body'
      rw [Text.trimStart_trimStart_append, ← waiting] at follows
      simp only [turn]
      rcases follows with waits | outcome
      · rw [waits]
        exact .rest _
      · generalize step false frame (Text.trimStart leftover) body' = short at outcome
        generalize step false frame (Text.trimStart leftover') body' = long at outcome
        cases outcome with
        | error failure body => exact .fail failure _ _
        | ok taken =>
            cases taken with
            | advance later => exact .move ⟨rfl, rfl, later⟩
            | enter later => exact .move ⟨rfl, rfl, later⟩
            | leave later => exact .move ⟨rfl, rfl, later⟩

/-- Two turns of readers that are alike. -/
inductive TurnAlike : Turn → Turn → Prop where
  | rest {left right : Reader} (alike : Alike left right) : TurnAlike (.rest left) (.rest right)
  | fail (failure : Failure) (left right : Reader) :
      TurnAlike (.fail failure left) (.fail failure right)
  | move (next : Reader) : TurnAlike (.move next) (.move next)

theorem turn_alike (finishing : Bool) {left right : Reader} (alike : Alike left right) :
    TurnAlike (left.turn finishing) (right.turn finishing) := by
  obtain ⟨body, stack, leftover⟩ := left
  obtain ⟨body', stack', leftover'⟩ := right
  obtain ⟨rfl, rfl, waiting⟩ := alike
  dsimp only at waiting
  cases stack with
  | nil => exact .rest ⟨rfl, rfl, waiting⟩
  | cons frame stack =>
      simp only [turn, waiting]
      cases step finishing frame (Text.trimStart leftover') body with
      | error failure body => exact .fail failure _ _
      | ok taken body =>
          cases taken with
          | needMore => exact .rest ⟨rfl, rfl, waiting⟩
          | advance frame rest => exact .move _
          | enter frame child rest => exact .move _
          | leave rest => exact .move _

theorem settles_alike (finishing : Bool) (count : Nat) {left right : Reader}
    (alike : Alike left right) :
    settles finishing count left = settles finishing count right := by
  cases count with
  | zero => rfl
  | succ count =>
      have turns := turn_alike finishing alike
      rw [settles, settles]
      generalize left.turn finishing = first at turns
      generalize right.turn finishing = second at turns
      cases turns with
      | rest alike => rfl
      | fail failure left right => rfl
      | move next => rfl

/-- Both runs end well with readers that are alike, or both fail in the same way. -/
inductive SameEnd {α : Type} :
    EStateM.Result Failure Reader α → EStateM.Result Failure Reader α → Prop where
  | ok (value : α) {left right : Reader} (alike : Alike left right) :
      SameEnd (.ok value left) (.ok value right)
  | error (failure : Failure) (left right : Reader) :
      SameEnd (.error failure left) (.error failure right)

theorem SameEnd.refl {α : Type} (result : EStateM.Result Failure Reader α) :
    SameEnd result result := by
  cases result with
  | ok value reader => exact .ok value (Alike.refl reader)
  | error failure reader => exact .error failure reader reader

theorem run_alike (finishing : Bool) (count : Nat) {left right : Reader}
    (alike : Alike left right) :
    SameEnd (run finishing (count + 1) left) (run finishing (count + 1) right) := by
  have turns := turn_alike finishing alike
  rw [run_succ, run_succ]
  generalize left.turn finishing = first at turns
  generalize right.turn finishing = second at turns
  cases turns with
  | rest alike => exact .ok () alike
  | fail failure left right => exact .error failure left right
  | move next => exact SameEnd.refl _

/-- Where the reader with less text comes to rest, the one with more text arrives too and goes on;
where the first fails, so does the second. -/
theorem run_extends {more : List Char} {count limit : Nat} {shorter longer : Reader}
    (later : ReaderExtends more shorter longer) (short : settles false count shorter)
    (long : settles false limit longer) :
    (∃ next next' limit', run false count shorter = .ok () next ∧
        ReaderExtends more next next' ∧ settles false limit' next' ∧
        run false limit longer = run false limit' next') ∨
      ∃ failure left right, run false count shorter = .error failure left ∧
        run false limit longer = .error failure right := by
  induction count generalizing limit shorter longer with
  | zero => simp [settles] at short
  | succ count induction =>
      cases limit with
      | zero => simp [settles] at long
      | succ limit =>
          have turns := turn_extends later
          rw [run_succ]
          rw [settles] at short
          generalize shorter.turn false = left at turns short
          generalize taken : longer.turn false = right at turns
          cases turns with
          | rest =>
              exact .inl ⟨shorter, longer, limit + 1, rfl, later, long, rfl⟩
          | fail failure left right =>
              refine .inr ⟨failure, left, right, rfl, ?_⟩
              rw [run_succ, taken]
          | move later =>
              rw [settles, taken] at long
              rw [run_succ, taken]
              exact induction later short long

/-! ## Lines -/

theorem fed_extends (line more : List Char) (reader : Reader) :
    ReaderExtends more (reader.fed line) (reader.fed (line ++ ' ' :: more)) := by
  refine ⟨rfl, rfl, ?_⟩
  unfold fed
  cases reader.leftover with
  | nil => exact Text.extends_append more line
  | cons c rest =>
      simp only [List.isEmpty_cons, Bool.false_eq_true, if_false]
      rw [Text.Extends, List.append_assoc]
      rfl

theorem alike_fed_of_extends {more : List Char} {reader longer : Reader}
    (later : ReaderExtends more reader longer) : Alike longer (reader.fed more) := by
  refine ⟨later.body, later.stack, later.leftover.trans ?_⟩
  unfold fed
  cases reader.leftover with
  | nil => exact Text.trimStart_space more
  | cons c rest => rfl

theorem ReaderExtends.of_alike {more : List Char} {reader longer other : Reader}
    (later : ReaderExtends more reader longer) (alike : Alike other longer) :
    ReaderExtends more reader other :=
  ⟨alike.body.trans later.body, alike.stack.trans later.stack,
    alike.leftover.trans later.leftover⟩

theorem Alike.symm {left right : Reader} (alike : Alike left right) : Alike right left :=
  ⟨alike.body.symm, alike.stack.symm, alike.leftover.symm⟩

theorem toList_join (first second : String) (rest : List String) :
    (" ".intercalate (first :: second :: rest)).toList =
      first.toList ++ ' ' :: (" ".intercalate (second :: rest)).toList := by
  simp [String.toList_intercalate]

theorem feedAll_single (line : String) (reader : Reader) :
    feedAll [line] reader = run false Limits.stepsPerFeed (reader.fed line.toList) := by
  rw [feedAll_cons, feed_eq_run]
  cases run false Limits.stepsPerFeed (reader.fed line.toList) <;> rfl

/-- Feeding lines one by one ends as a run on all of them joined does. -/
theorem feedAll_run (line : String) (rest : List String) {limit : Nat} {reader joined : Reader}
    (alike : Alike joined (reader.fed (" ".intercalate (line :: rest)).toList))
    (apart : settlesOn (line :: rest) reader) (together : settles false limit joined) :
    SameEnd (feedAll (line :: rest) reader) (run false limit joined) := by
  induction rest generalizing line limit reader joined with
  | nil =>
      rw [settlesOn, Bool.and_eq_true] at apart
      have line_eq : " ".intercalate [line] = line := by simp [String.intercalate_singleton]
      rw [line_eq] at alike
      have limited : settles false Limits.stepsPerFeed joined := by
        rw [settles_alike false _ alike]
        exact apart.1
      rw [feedAll_single, run_eq_of_settles together limited]
      exact run_alike false _ alike.symm
  | cons second rest induction =>
      rw [settlesOn, Bool.and_eq_true] at apart
      obtain ⟨settled, others⟩ := apart
      rw [toList_join] at alike
      have later := (fed_extends line.toList _ reader).of_alike alike
      rw [feedAll_cons]
      rw [feed_eq_run] at others ⊢
      obtain ⟨next, next', limit', short, later, long, same⟩ | ⟨failure, left, right,
        short, long⟩ :=
        run_extends later settled together
      · rw [short] at others ⊢
        rw [same]
        exact induction second (alike_fed_of_extends later) others long
      · rw [short, long]
        exact .error failure left right

theorem isIdle_alike {left right : Reader} (alike : Alike left right) :
    left.isIdle = right.isIdle := by
  rw [isIdle, isIdle, Text.trim, Text.trim, alike.stack, alike.leftover]

theorem unfinished_alike {left right : Reader} (alike : Alike left right) :
    left.unfinished = right.unfinished := by
  have same : Text.trim left.leftover = Text.trim right.leftover := by
    rw [Text.trim, Text.trim, alike.leftover]
  rw [unfinished, unfinished, same, alike.stack]

theorem drain_alike (retries : Nat) {left right : Reader} (alike : Alike left right) :
    SameEnd (drain retries left) (drain retries right) := by
  induction retries generalizing left right with
  | zero => exact run_alike true _ alike
  | succ retries induction =>
      have ends :
          SameEnd (run true Limits.stepsPerFeed left) (run true Limits.stepsPerFeed right) :=
        run_alike true _ alike
      simp only [drain, bind, EStateM.bind, get_apply]
      generalize run true Limits.stepsPerFeed left = first at ends
      generalize run true Limits.stepsPerFeed right = second at ends
      cases ends with
      | error failure left right => exact .error failure left right
      | ok value alike =>
          dsimp only
          rw [isIdle_alike alike]
          split
          · exact .ok () alike
          · exact induction alike

theorem finish_alike {left right : Reader} (alike : Alike left right) :
    SameEnd (finish left) (finish right) := by
  have ends := drain_alike Limits.finishRetries alike
  simp only [finish, bind, EStateM.bind, get_apply]
  generalize drain Limits.finishRetries left = first at ends
  generalize drain Limits.finishRetries right = second at ends
  cases ends with
  | error failure left right => exact .error failure left right
  | ok value alike =>
      dsimp only
      rw [isIdle_alike alike, unfinished_alike alike, alike.body]
      split
      · exact .ok _ alike
      · exact .error _ _ _

end Reader

/-- The body of lines whose feeding ends in a given way. -/
def Body.ofFed (result : EStateM.Result Failure Reader Unit) : Except Failure Body :=
  match result with
  | .ok _ reader =>
      match Reader.finish reader with
      | .ok body _ => .ok body
      | .error failure _ => .error failure
  | .error failure _ => .error failure

theorem Body.ofLines_eq (context : Context) (options : Options) (lines : List String) :
    Body.ofLines context options lines =
      Body.ofFed (Reader.feedAll lines (Reader.initial context options)) := by
  simp only [ofLines, ofFed, bind, EStateM.bind]
  cases Reader.feedAll lines (Reader.initial context options) <;> rfl

theorem Body.ofFed_eq {left right : EStateM.Result Failure Reader Unit}
    (ends : Reader.SameEnd left right) : Body.ofFed left = Body.ofFed right := by
  cases ends with
  | error failure left right => rfl
  | @ok value left right alike =>
      have finished := Reader.finish_alike alike
      simp only [ofFed]
      generalize Reader.finish left = first at finished
      generalize Reader.finish right = second at finished
      cases finished <;> rfl

/-- Feeding nothing leaves a new reader as it is. -/
theorem Reader.feedAll_empty (context : Context) (options : Options) :
    feedAll [""] (initial context options) = .ok () (initial context options) := by
  have same : (initial context options).fed "".toList = initial context options := by
    simp [fed, initial]
  have rests : (initial context options).turn false = .rest (initial context options) := rfl
  rw [feedAll_single, same, show Limits.stepsPerFeed = 999999 + 1 from rfl, run_succ, rests]

/-- Lines that are read one by one give the same body, or the same failure, as the same lines joined
by blanks into one, as long as no fed line reaches the limit of steps. -/
theorem Body.ofLines_join (context : Context) (options : Options) (lines : List String)
    (apart : (Reader.initial context options).settlesOn lines)
    (together : (Reader.initial context options).settlesOn [" ".intercalate lines]) :
    Body.ofLines context options lines = Body.ofLines context options [" ".intercalate lines] := by
  rw [Body.ofLines_eq, Body.ofLines_eq]
  cases lines with
  | nil =>
      have nothing : " ".intercalate [] = "" := rfl
      rw [nothing, Reader.feedAll_empty]
      rfl
  | cons line rest =>
      rw [Reader.settlesOn, Bool.and_eq_true] at together
      rw [Reader.feedAll_single]
      exact Body.ofFed_eq (Reader.feedAll_run line rest (Reader.Alike.refl _) apart together.1)

/-- Lines that end behind a label, inside brackets, inside a literal and in front of a
terminator. -/
theorem Body.ofLines_join_broken :
    (Reader.initial {} {}).settlesOn ["outer:", "do f(a[", "i], \"x", "y\"); while (b)", ";"] ∧
      (Reader.initial {} {}).settlesOn ["outer: do f(a[ i], \"x y\"); while (b) ;"] ∧
      Body.ofLines {} {} ["outer:", "do f(a[", "i], \"x", "y\"); while (b)", ";"] =
        Body.ofLines {} {} ["outer: do f(a[ i], \"x y\"); while (b) ;"] :=
  ⟨by decide +kernel, by decide +kernel,
    Body.ofLines_join {} {} ["outer:", "do f(a[", "i], \"x", "y\"); while (b)", ";"]
      (by decide +kernel) (by decide +kernel)⟩

end MethodLowering
