import MethodLowering.Proofs.Roundtrip.Clause

/-!
# Steps over written statements

What one step of the reader does at the start of each kind of written statement, and at each place
inside a construct.
-/

namespace MethodLowering

open Text MethodLowering.Tree

namespace Reader

section

variable {rest : List Char} {body : Body} {tree : Tree}

/-! ## Expression statements -/

theorem isOpen_print (well : tree.isWellFormed = true) (short : tree.isShort = true)
    (more : List Char) : IsOpen (tree.print ++ more) := by
  have nonempty := print_ne_nil well short
  have hidden := sealed_print well
  generalize tree.print = text at nonempty hidden
  cases hidden with
  | nil => contradiction
  | @plain _ c rest symbol free later =>
      have other {mark : Char} (bracket : isPlain mark = false) : c ≠ mark := by
        rintro rfl
        rw [symbol] at bracket
        contradiction
      refine ⟨c, rest ++ more, rfl, other (by decide), other (by decide), ?_⟩
      rintro rfl
      simp [isBare] at free
  | @bracketed _ opening closing inner rest pair inside later =>
      rw [bracketPairs] at pair
      simp only [List.mem_cons, List.not_mem_nil, or_false, Prod.mk.injEq] at pair
      rcases pair with ⟨rfl, rfl⟩ | ⟨rfl, rfl⟩ <;>
        exact ⟨_, _, rfl, by decide, by decide, by decide⟩

/-- A statement in front of a terminator is cut off and read. -/
theorem readCut_sealed {text : List Char} {read : List Char → ReadM Placed}
    {placed : Placed} {after : Body} (reads : read text body = .ok placed after) :
    readCut read (text ++ ';' :: rest) ⟨text.length, []⟩ body = .ok placed after := by
  have source : removeSpans? ((text ++ ';' :: rest).take text.length) [] = some text := by
    rw [List.take_left]
    rfl
  simp only [readCut, source, bind, EStateM.bind, reads]
  cases placed.isAbsent <;> rfl

/-- An expression is a statement. -/
theorem step_expression {frame : ParagraphFrame} (well : tree.isWellFormed = true)
    (short : tree.isShort = true) (mode : takesItems frame.mode) :
    ∃ placed after, stepParagraph true frame (tree.print ++ ';' :: rest) body =
        .ok (.advance (.paragraph (taking frame)) rest)
        (after.addItem frame.id (.expression placed)) ∧
      body.IsCounted after ∧ tree.Pictures placed.expr := by
  obtain ⟨word, tail, text, isWord, ends, plain⟩ :=
    @opensPlain_print tree (';' :: rest) well
      (unlabels_cons (isWordChar_mark _ (by decide)) (by decide) (by decide) _)
  have letters : ∀ c ∈ word, isWordChar c = true := by
    rcases isWord with rfl | isName
    · nofun
    · exact fun c among => (isNameChar_plain (isNameChar_of_mem isName among)).1
  have leads : leadingWord (word ++ tail) = word := leadingWord_append_of _ _ letters ends
  have free : ∀ reserved ∈ reservedWords,
      String.ofList (leadingWord (tree.print ++ ';' :: rest)) ≠ reserved := by
    rw [text, leads]
    rcases isWord with rfl | isName
    · decide
    · exact fun reserved listed => ne_of_isName isName listed
  have unlabelled : leadingLabel? (tree.print ++ ';' :: rest) = none := by
    refine leadingLabel?_eq_none ?_
    rw [text, leads, List.drop_left]
    exact plain
  obtain ⟨placed, after, reads, counted, pictures⟩ :=
    @readStatement_clause (some tree) frame.id body well short
  have present : placed.isAbsent = false := isPresent_of_pictures pictures
  have cut : findCut ';' (tree.print ++ ';' :: rest) = .found ⟨tree.print.length, []⟩ :=
    (sealed_print well).findCut_append (by decide) (by decide) rfl rest
  have read := @readCut_sealed rest body tree.print _ _ _ reads
  have behind : (tree.print ++ ';' :: rest).drop (tree.print.length + 1) = rest := by
    rw [List.drop_length_add_append]
    rfl
  have statement : stepStatement frame (tree.print ++ ';' :: rest) body =
      .ok (.advance (.paragraph (taking frame)) rest)
        (after.addItem frame.id (.expression placed)) := by
    simp only [stepStatement, cut, bind, EStateM.bind, read, present, addItem_eq, behind,
      Bool.false_eq_true, if_false]
    rfl
  refine ⟨placed, after, ?_, counted, pictures⟩
  rw [stepParagraph_item mode, stepItem_word (isOpen_print well short _), stepWord_plain free]
  have labelled : stepLabel true frame (tree.print ++ ';' :: rest) body =
      stepStatement frame (tree.print ++ ';' :: rest) body := by
    rw [stepLabel, unlabelled]
  cases frame.mode with
  | single taken => exact statement
  | _ => exact labelled.trans statement

end

/-! ## Headers -/

section

variable {id : ConstructId} {scope : ParagraphId} {label : Option String} {keyword : Keyword}
  {inner rest : List Char} {bare : Char → Bool} {body after between : Body} {placed : Placed}
  {tree : Tree}

/-- The text in brackets and what stands behind them. -/
theorem parenthesized_sealed (hidden : Sealed bare inner) :
    parenthesized keyword ('(' :: (inner ++ ')' :: rest)) body = .ok (some (inner, rest)) body := by
  have front : (inner ++ ')' :: rest).take (inner.length + 1 - 1) = inner := List.take_left
  have back : ('(' :: (inner ++ ')' :: rest)).drop (inner.length + 1 + 1) = rest := by
    rw [List.drop_succ_cons, List.drop_length_add_append]
    rfl
  rw [parenthesized]
  simp only [beq_self_eq_true, if_true, hidden.matchingClose?_eq, Option.map_some, front, back]
  rfl

/-- A header in brackets is read whole. -/
theorem withHeader_sealed (hidden : Sealed bare inner) (go : List Char → List Char → ReadM Step) :
    withHeader keyword ('(' :: (inner ++ ')' :: rest)) go body = go inner rest body := by
  simp only [withHeader, bind, EStateM.bind, parenthesized_sealed hidden]

/-- The construct opens a body: the paragraph is new, and the construct is told of it. -/
def opened (body : Body) (id : ConstructId) (scope : ParagraphId) (kind : ParagraphKind)
    (change : Detail → Detail) : Body :=
  (body.addParagraph { kind, parent := some scope }).modifyDetail id change

/-- The first step of a construct is that of its keyword. -/
theorem stepConstruct_header {text : List Char} {construct : Construct}
    (known : body.constructs[id]? = some construct) :
    stepConstruct true ⟨id, scope, .header⟩ text body =
      stepKeyword ⟨id, scope, .header⟩ text construct.keyword body := by
  simp only [stepConstruct, bind, EStateM.bind, get_apply, known]

theorem stepCondition_eq (hidden : Sealed bare inner)
    (reads : Body.readExpression scope inner body = .ok placed after) (stage : Stage) :
    stepCondition ⟨id, scope, stage⟩ ('(' :: (inner ++ ')' :: rest)) body =
      .ok (.enter (.construct ⟨id, scope, .afterBranch⟩)
          (.ofParagraph after.paragraphs.size .awaitOpen) rest)
        (opened after id scope .body (Detail.withBranch ⟨placed, after.paragraphs.size⟩)) := by
  rw [stepCondition, withHeader_sealed hidden]
  simp only [bind, EStateM.bind, reads]
  rfl

theorem stepHeader_eq (hidden : Sealed bare inner) {kind : ParagraphKind}
    {detail : Placed → ParagraphId → Detail} {stage : Stage}
    (reads : Body.readExpression scope inner body = .ok placed after) :
    stepHeader keyword kind detail ⟨id, scope, stage⟩ ('(' :: (inner ++ ')' :: rest)) body =
      .ok (.enter (.construct ⟨id, scope, .done⟩)
          (.ofParagraph after.paragraphs.size .awaitOpen) rest)
        (opened after id scope kind fun _ => detail placed after.paragraphs.size) := by
  rw [stepHeader, withHeader_sealed hidden]
  simp only [bind, EStateM.bind, reads]
  rfl

theorem stepDo_eq (stage : Stage) :
    stepDo ⟨id, scope, stage⟩ rest body = .ok (.enter (.construct ⟨id, scope, .afterDoBody⟩)
          (.ofParagraph body.paragraphs.size .awaitOpen) rest) (opened body id scope .body
          fun _ => .doLoop body.paragraphs.size (noClause ⟨id, scope, stage⟩)) := rfl

theorem stepTry_eq (stage : Stage) :
    stepTry ⟨id, scope, stage⟩ rest body = .ok (.enter (.construct ⟨id, scope, .afterTryClause⟩)
          (.ofParagraph body.paragraphs.size .awaitOpen) rest)
        (opened body id scope .body fun _ => .tryBlock body.paragraphs.size [] none) := rfl

/-! ## Behind a body -/

theorem startsWithWord_blank (word : List Char) (letters : ∀ c ∈ word, isWordChar c = true)
    (rest : List Char) : startsWithWord word (word ++ ' ' :: rest) = true := by
  rw [startsWithWord_eq letters, leadingWord_append_of word (' ' :: rest) letters isWordChar_space,
    beq_self_eq_true]

theorem stepAfterBranch_elseIf :
    stepAfterBranch true ⟨id, scope, .afterBranch⟩
        ("else".toList ++ ' ' :: ("if".toList ++ ' ' :: rest)) body =
      .ok (.advance (.construct ⟨id, scope, .header⟩) (' ' :: rest)) body := by
  have starts := startsWithWord_blank "else".toList (letters_of_reserved _ (by decide))
    ("if".toList ++ ' ' :: rest)
  have behind : trimStart (("else".toList ++ ' ' :: ("if".toList ++ ' ' :: rest)).drop 4) =
      "if".toList ++ ' ' :: rest := rfl
  have again := startsWithWord_blank "if".toList (letters_of_reserved _ (by decide)) rest
  rw [stepAfterBranch, starts]
  dsimp only
  rw [behind, again]
  rfl

theorem stepAfterBranch_else (other : startsWithWord "if".toList (trimStart rest) = false) :
    stepAfterBranch true ⟨id, scope, .afterBranch⟩ ("else".toList ++ ' ' :: rest) body =
      .ok (.enter (.construct ⟨id, scope, .done⟩)
          (.ofParagraph body.paragraphs.size .awaitOpen) (' ' :: rest)) (opened body id scope .body
          (Detail.withBranch ⟨noClause ⟨id, scope, .afterBranch⟩, body.paragraphs.size⟩)) := by
  have starts := startsWithWord_blank "else".toList (letters_of_reserved _ (by decide)) rest
  have behind : ("else".toList ++ ' ' :: rest).drop 4 = ' ' :: rest := rfl
  rw [stepAfterBranch, starts]
  dsimp only
  rw [behind, trimStart_space, other]
  simp only [Bool.not_true, Bool.and_false, Bool.false_eq_true, if_false, if_true]
  rfl

theorem stepAfterBranch_leave {text : List Char}
    (other : startsWithWord "else".toList text = false) :
    stepAfterBranch true ⟨id, scope, .afterBranch⟩ text body = .ok (.leave text) body := by
  rw [stepAfterBranch, other]
  simp only [if_true, Bool.false_eq_true, if_false]
  split <;> rfl

theorem stepAfterDo_eq :
    stepAfterDo true ⟨id, scope, .afterDoBody⟩ ("while".toList ++ ' ' :: rest) body =
      .ok (.advance (.construct ⟨id, scope, .doCondition⟩) (' ' :: rest)) body := by
  rw [stepAfterDo, startsWithWord_blank _ (letters_of_reserved "while" (by decide))]
  rfl

theorem stepDoCondition_eq (hidden : Sealed bare inner)
    (reads : Body.readExpression scope inner body = .ok placed after) :
    stepDoCondition true ⟨id, scope, .doCondition⟩ ('(' :: (inner ++ ')' :: ';' :: rest)) body =
      .ok (.leave rest) (after.modifyDetail id (Detail.withCondition placed)) := by
  have solid : trimStart (';' :: rest) = ';' :: rest := trimStart_cons (by decide)
  simp only [stepDoCondition, bind, EStateM.bind, parenthesized_sealed hidden, solid]
  rw [if_neg (by simp)]
  simp only [EStateM.bind, reads]
  rfl

/-! ## Loops with a header of their own -/

theorem stepFor_counted (hidden : Sealed bare inner) {first second third : List Char}
    {init condition update : Placed} {one two three : Body} (stage : Stage)
    (splits : splitTop ';' inner = [first, second, third])
    (readsFirst : Body.readStatement body.paragraphs.size first
      (body.addParagraph { kind := .body, parent := some scope }) = .ok init one)
    (readsSecond : Body.readExpression body.paragraphs.size second one = .ok condition two)
    (readsThird : Body.readExpression body.paragraphs.size third two = .ok update three) :
    stepFor ⟨id, scope, stage⟩ ('(' :: (inner ++ ')' :: rest)) body =
      .ok (.enter (.construct ⟨id, scope, .done⟩) (.ofParagraph body.paragraphs.size .awaitOpen)
        rest)
        (three.modifyDetail id fun _ => .counted init condition update body.paragraphs.size) := by
  have opens : openBody ⟨id, scope, stage⟩ .body body =
      .ok body.paragraphs.size (body.addParagraph { kind := .body, parent := some scope }) := rfl
  rw [stepFor, withHeader_sealed hidden]
  simp only [bind, EStateM.bind, opens, splits, readsFirst, readsSecond, readsThird]
  rfl

theorem stepFor_iterator (hidden : Sealed bare inner) {header : Placed} {byElement : Bool}
    (stage : Stage) (whole : splitTop ';' inner = [inner])
    (reads : Body.readExpression body.paragraphs.size inner
      (body.addParagraph { kind := .body, parent := some scope }) = .ok header after)
    (iterates : iteratesElements header after = .ok byElement after) :
    stepFor ⟨id, scope, stage⟩ ('(' :: (inner ++ ')' :: rest)) body =
      .ok (.enter (.construct ⟨id, scope, .done⟩) (.ofParagraph body.paragraphs.size .awaitOpen)
        rest)
        (after.modifyDetail id fun _ => .iterator header byElement body.paragraphs.size) := by
  have opens : openBody ⟨id, scope, stage⟩ .body body =
      .ok body.paragraphs.size (body.addParagraph { kind := .body, parent := some scope }) := rfl
  rw [stepFor, withHeader_sealed hidden]
  simp only [bind, EStateM.bind, opens, whole, reads, iterates]
  rfl

/-! ## Guarded blocks -/

theorem stepAfterTry_catch (hidden : Sealed bare inner) (alone : alternatives inner = [inner])
    (reads : Body.readExpression body.paragraphs.size inner
      (body.addParagraph { kind := .body, parent := some scope }) = .ok placed after) :
    stepAfterTry true ⟨id, scope, .afterTryClause⟩
        ("catch".toList ++ ' ' :: '(' :: (inner ++ ')' :: rest)) body =
      .ok (.enter (.construct ⟨id, scope, .afterTryClause⟩)
          (.ofParagraph body.paragraphs.size .awaitOpen) rest)
        (after.modifyDetail id (Detail.withHandlers [placed] body.paragraphs.size)) := by
  have starts := startsWithWord_blank "catch".toList (letters_of_reserved _ (by decide))
    ('(' :: (inner ++ ')' :: rest))
  have behind : trimStart (("catch".toList ++ ' ' :: '(' :: (inner ++ ')' :: rest)).drop 5) =
      '(' :: (inner ++ ')' :: rest) := rfl
  have opens : openBody ⟨id, scope, .afterTryClause⟩ .body body =
      .ok body.paragraphs.size (body.addParagraph { kind := .body, parent := some scope }) := rfl
  have solid : ("catch".toList ++ ' ' :: '(' :: (inner ++ ')' :: rest)).isEmpty = false := rfl
  rw [stepAfterTry, solid, starts]
  simp only [Bool.false_and, Bool.false_eq_true, if_false, if_true]
  rw [behind, withHeader_sealed hidden]
  simp only [bind, EStateM.bind, opens, alone, addHandlers, reads]
  rfl

theorem stepAfterTry_finally :
    stepAfterTry true ⟨id, scope, .afterTryClause⟩ ("finally".toList ++ ' ' :: rest) body =
      .ok (.enter (.construct ⟨id, scope, .done⟩)
          (.ofParagraph body.paragraphs.size .awaitOpen) (' ' :: rest))
        (opened body id scope .body (Detail.withCleanup body.paragraphs.size)) := by
  have leads : leadingWord ("finally".toList ++ ' ' :: rest) = "finally".toList :=
    leadingWord_append_of _ _ (letters_of_reserved "finally" (by decide)) isWordChar_space
  have other : startsWithWord "catch".toList ("finally".toList ++ ' ' :: rest) = false := by
    rw [startsWithWord_eq (letters_of_reserved "catch" (by decide)), leads]
    decide
  have starts := startsWithWord_blank "finally".toList (letters_of_reserved _ (by decide)) rest
  have behind : ("finally".toList ++ ' ' :: rest).drop 7 = ' ' :: rest := rfl
  have solid : ("finally".toList ++ ' ' :: rest).isEmpty = false := rfl
  rw [stepAfterTry, solid, other, starts]
  simp only [Bool.false_and, Bool.false_eq_true, if_false, if_true]
  rw [behind]
  rfl

theorem stepAfterTry_leave {text : List Char}
    (noHandler : startsWithWord "catch".toList text = false)
    (noCleanup : startsWithWord "finally".toList text = false) (has : hasClause body id = true) :
    stepAfterTry true ⟨id, scope, .afterTryClause⟩ text body = .ok (.leave text) body := by
  rw [stepAfterTry, noHandler, noCleanup]
  simp only [Bool.not_true, Bool.and_false, Bool.false_eq_true, if_false, bind, EStateM.bind,
    get_apply, has, if_true]
  rfl

/-! ## Jumps and labels of a switch -/

/-- The category of a name is known. -/
theorem category_of_isIdentifier {expr : Expr} {sight : Sight}
    (identifier : expr.isIdentifier = true) :
    ∃ category, body.category sight expr = .ok category := by
  unfold Expr.isIdentifier at identifier
  split at identifier
  · exact ⟨_, rfl⟩
  · contradiction

theorem stepValue_eq {clause : Option Tree} (well : clause.all isWellFormed = true)
    (short : clause.all isShort = true) (stage : Stage) :
    ∃ placed after handle, stepValue ⟨id, scope, stage⟩ keyword
          (Statement.clause clause ++ ';' :: rest) body =
        .ok (.leave rest) ({ after with returnsHandle := handle }.modifyDetail id
          fun _ => .jump placed none) ∧ body.IsCounted after ∧ PicturesAt clause placed := by
  obtain ⟨placed, after, reads, counted, pictures⟩ :=
    @reads_clause clause scope body well short
  have hidden : ∃ bare, Sealed bare (Statement.clause clause) ∧ bare ';' = false := by
    cases clause with
    | none => exact ⟨fun _ => false, .nil, rfl⟩
    | some tree => exact ⟨_, sealed_print well, rfl⟩
  obtain ⟨bare, hidden, free⟩ := hidden
  have cut : findCut ';' (Statement.clause clause ++ ';' :: rest) =
      .found ⟨(Statement.clause clause).length, []⟩ :=
    hidden.findCut_append (by decide) (by decide) free rest
  have behind : (Statement.clause clause ++ ';' :: rest).drop
      ((Statement.clause clause).length + 1) = rest := by
    rw [List.drop_length_add_append]
    rfl
  have read := @readCut_sealed rest body (Statement.clause clause) _ _ _ reads
  simp only [stepValue, cut, bind, EStateM.bind, read, behind]
  split
  · next asks =>
      simp only [Bool.and_eq_true] at asks
      obtain ⟨category, answer⟩ := @category_of_isIdentifier after placed.expr placed.sight asks.2
      simp only [EStateM.bind, ask, bind, get_apply, answer, pure, EStateM.pure]
      split
      · exact ⟨placed, after, true, rfl, counted, pictures⟩
      · exact ⟨placed, after, after.returnsHandle, rfl, counted, pictures⟩
  · exact ⟨placed, after, after.returnsHandle, rfl, counted, pictures⟩

theorem stepJump_eq {word : Option (List Char)} (label : word.all isLabel = true) (stage : Stage) :
    stepJump ⟨id, scope, stage⟩ (word.getD [] ++ ';' :: rest) body =
      .ok (.leave rest) (body.modifyDetail id
        fun _ => .jump (noClause ⟨id, scope, stage⟩) (word.map String.ofList)) := by
  have letters : ∀ c ∈ word.getD [], isWordChar c = true := by
    cases word with
    | none => nofun
    | some chars =>
        simp only [Option.all_some, isLabel, Bool.and_eq_true] at label
        exact List.all_eq_true.1 label.1.2
  have front : (word.getD [] ++ ';' :: rest).takeWhile (· != ';') = word.getD [] := by
    rw [List.takeWhile_append_of_pos, List.takeWhile_cons]
    · simp
    · intro c among
      rw [bne_iff_ne]
      rintro rfl
      have isChar := letters _ among
      rw [isWordChar_mark ';' (by decide)] at isChar
      contradiction
  have behind : (word.getD [] ++ ';' :: rest).drop ((word.getD []).length + 1) = rest := by
    rw [List.drop_length_add_append]
    rfl
  have trimmed : trim (word.getD []) = word.getD [] := by
    have solid {c : Char} (among : c ∈ word.getD []) : isBlank c = false :=
      isBlank_of_isWordChar (letters c among)
    rw [trim, trimStart_eq_self, trimEnd_eq_self]
    · rw [Option.any_eq_true]
      rintro ⟨c, last, blank⟩
      rw [solid (List.mem_of_getLast? last)] at blank
      contradiction
    · rw [Option.any_eq_true]
      rintro ⟨c, first, blank⟩
      rw [solid (List.mem_of_head? first)] at blank
      contradiction
  have short : ((word.getD []).length == (word.getD [] ++ ';' :: rest).length) = false := by
    simp
  have same :
      (if (word.getD []).isEmpty = true then none else some (String.ofList (word.getD []))) =
      word.map String.ofList := by
    cases word with
    | none => rfl
    | some chars =>
        simp only [Option.all_some, isLabel, Bool.and_eq_true, Bool.not_eq_true'] at label
        simp [label.1.1.1]
  rw [stepJump, front, short]
  simp only [trimmed, behind, same, Bool.false_eq_true, if_false]
  rfl

theorem stepCase_eq (well : tree.isWellFormed = true) (short : tree.isShort = true)
    (hides : tree.hidesColon = true) (stage : Stage) :
    ∃ placed after, stepCase ⟨id, scope, stage⟩ (tree.print ++ ':' :: rest) body =
        .ok (.leave rest) (after.modifyDetail id fun _ => .caseLabel placed) ∧
      body.IsCounted after ∧ tree.Pictures placed.expr := by
  obtain ⟨placed, after, reads, counted, pictures⟩ :=
    @reads_print tree scope body well short
  have hidden := sealed_print well
  rw [hides] at hidden
  have cut : findCut ':' (tree.print ++ ':' :: rest) = .found ⟨tree.print.length, []⟩ :=
    hidden.findCut_append (by decide) (by decide) rfl rest
  have behind : (tree.print ++ ':' :: rest).drop (tree.print.length + 1) = rest := by
    rw [List.drop_length_add_append]
    rfl
  refine ⟨placed, after, ?_, counted, pictures⟩
  simp only [stepCase, cut, bind, EStateM.bind, List.take_left, reads, behind]
  rfl

theorem stepDefault_eq (stage : Stage) :
    stepDefault ⟨id, scope, stage⟩ (':' :: rest) body =
      .ok (.leave rest) (body.modifyDetail id fun _ => .defaultLabel) := rfl

end

end Reader
end MethodLowering
