import MethodLowering.Proofs.Roundtrip.Constructs

/-!
# Loops with a header of their own

The clauses of a `for` belong to the paragraph of its body, which is opened before they are read.
-/

namespace MethodLowering

open Text MethodLowering.Tree Reader Body MethodLowering.Expr

namespace Statement

section

variable {init condition update : Option Tree} {source : Tree} {type name : List Char}
  {body : Suite}
  {label : Option (List Char)} {scope : ParagraphId} {more : List Char} {start : Body}

/-! ## Clauses between semicolons -/

theorem sealed_clause {clause : Option Tree} (well : clause.all Tree.isWellFormed = true) :
    Sealed (isBare true) (Statement.clause clause) := by
  cases clause with
  | none => exact .nil
  | some tree => exact sealed_tokens well Bool.noConfusion

theorem sealed_furtherClause {clause : Option Tree} (well : clause.all Tree.isWellFormed = true) :
    Sealed (isBare true) (furtherClause clause) := by
  cases clause with
  | none => exact .nil
  | some tree => exact .plain rfl rfl (sealed_tokens well Bool.noConfusion)

section

variable (wellInit : init.all Tree.isWellFormed = true)
  (wellCondition : condition.all Tree.isWellFormed = true)
  (wellUpdate : update.all Tree.isWellFormed = true)
include wellInit wellCondition wellUpdate

/-- The clauses of a counted loop are what stands between the semicolons. -/
theorem splitTop_counted :
    splitTop ';' (clause init ++ ';' :: (furtherClause condition ++ ';' :: furtherClause update)) =
      [clause init, furtherClause condition, furtherClause update] := by
  rw [(sealed_clause wellInit).splitTop_append rfl rfl,
    (sealed_furtherClause wellCondition).splitTop_append rfl rfl,
    (sealed_furtherClause wellUpdate).splitTop_eq rfl]

theorem sealed_counted :
    Sealed (fun _ => true)
      (clause init ++ ';' :: (furtherClause condition ++ ';' :: furtherClause update)) := by
  have wide {text : List Char} (hidden : Sealed (isBare true) text) : Sealed (fun _ => true) text :=
    hidden.mono fun _ _ => rfl
  exact (wide (sealed_clause wellInit)).append (.plain rfl rfl
    ((wide (sealed_furtherClause wellCondition)).append
      (.plain rfl rfl (wide (sealed_furtherClause wellUpdate)))))

/-- A counted loop is read. -/
theorem counted_arrives (shortInit : init.all isShort = true)
    (shortCondition : condition.all isShort = true) (shortUpdate : update.all isShort = true)
    (reads : body.Reads) (follows : Follows body.endsOpen more) (stack : List Frame)
    (id : ConstructId) (start : Body)
    (unread : start.HasConstruct id .forLoop scope label .unread) :
    ∃ after found,
      Arrives (body.steps + 2)
        ⟨start, .construct ⟨id, scope, .header⟩ :: stack, ' ' :: '(' ::
          ((clause init ++ ';' :: (furtherClause condition ++ ';' :: furtherClause update)) ++
            ')' :: ' ' :: body.printOn more)⟩
        ⟨after, stack, more⟩ ∧ Inside id .forLoop scope label found start after ∧
      ∀ final, Retains start after final → ∃ first second third slot,
        found = .counted first second third slot ∧ PicturesAt init first ∧
        PicturesAt condition second ∧ PicturesAt update third ∧ body.StandsAt final scope slot := by
  let slot := start.paragraphs.size
  let added := start.addParagraph { kind := .body, parent := some scope }
  obtain ⟨first, one, readsFirst, countedFirst, picturesFirst⟩ :=
    @readStatement_clause init slot added wellInit shortInit
  obtain ⟨second, two, readsSecond, countedSecond, picturesSecond⟩ :=
    @reads_furtherClause condition slot one wellCondition shortCondition
  obtain ⟨third, three, readsThird, countedThird, picturesThird⟩ :=
    @reads_furtherClause update slot two wellUpdate shortUpdate
  let now := three.modifyDetail id fun _ => .counted first second third slot
  have opens : stepKeyword ⟨id, scope, .header⟩ (trimStart (' ' :: '(' ::
      ((clause init ++ ';' :: (furtherClause condition ++ ';' :: furtherClause update)) ++
        ')' :: ' ' :: body.printOn more))) .forLoop start =
      .ok (.enter (.construct ⟨id, scope, .done⟩) (.ofParagraph slot .awaitOpen)
        (' ' :: body.printOn more)) now := by
    rw [trimStart_space, trimStart_cons (by decide)]
    exact stepFor_counted (sealed_counted wellInit wellCondition wellUpdate) .header
      (splitTop_counted wellInit wellCondition wellUpdate) readsFirst readsSecond readsThird
  have within : Inside id .forLoop scope label (.counted first second third slot) start now := by
    have unopened : Inside id .forLoop scope label .unread start added :=
      Inside.beside ⟨.refl start, unread⟩ (changes_addParagraph _ start) fun _ => False.elim
    exact (((unopened.counted countedFirst).counted countedSecond).counted countedThird).modify
      fun _ => .counted first second third slot
  have empty : now.HasParagraph slot .body scope none false [] :=
    countedThird.hasParagraph (countedSecond.hasParagraph (countedFirst.hasParagraph
      (hasParagraph_addParagraph .body scope start)))
  obtain ⟨after, arrives, -, inside, stands⟩ :=
    opened_arrives unread opens within (Nat.le_refl _) empty
    (reads slot scope more now empty follows) stack
  exact ⟨after, _, arrives, inside, fun final retains =>
    ⟨first, second, third, slot, rfl, picturesFirst,
    picturesSecond, picturesThird, stands final retains⟩⟩

end

theorem reads_counted (fine : label.all isLabel = true)
    (wellInit : init.all Tree.isWellFormed = true)
    (wellCondition : condition.all Tree.isWellFormed = true)
    (wellUpdate : update.all Tree.isWellFormed = true) (shortInit : init.all isShort = true)
    (shortCondition : condition.all isShort = true) (shortUpdate : update.all isShort = true)
    (reads : body.Reads) : (Statement.counted label init condition update body).Reads := by
  intro scope mode stack more now inside stands follows
  obtain ⟨after, item, arrives, adds, found⟩ :=
    construct_arrives .forLoop inside fine (MayStand.takesItems stands) (MayStand.labels stands)
      (.inr rfl) (by exact isWordChar_space) _
      (counted_arrives wellInit wellCondition wellUpdate shortInit shortCondition
        shortUpdate reads follows
        (.paragraph (taking ⟨scope, mode, none⟩) :: stack))
  refine ⟨after, item, arrives, adds, fun final retains => ?_⟩
  obtain ⟨id, detail, same, has, first, second, third, slot, rfl, one, two, three, stands⟩ :=
    found final retains
  exact ⟨id, first, second, third, slot, same, has, one, two, three, stands⟩

/-! ## Loops over a collection -/

/-- The brackets of a declaration are closed. -/
theorem sealed_declaration {bare : Char → Bool} (isType : isTypeWord type = true)
    (isVar : isName name = true) (letters : ∀ c, isNameChar c = true → bare c = true)
    (blank : bare ' ' = true) : Sealed bare (type ++ ' ' :: name) := by
  have word {chars : List Char} (all : ∀ c ∈ chars, isNameChar c = true) : Sealed bare chars :=
    .of_plain fun c among => ⟨(isPlain_of_isNameChar (all c among) true).1, letters c (all c among)⟩
  exact (word (typeWord_of_isTypeWord isType).letters).append
    (.plain rfl blank (word fun c among => isNameChar_of_mem isVar among))

theorem sealed_header (isType : isTypeWord type = true) (isVar : isName name = true)
    (well : source.isWellFormed = true) :
    Sealed (isBare true) (type ++ ' ' :: (name ++ ' ' :: ':' :: ' ' :: source.print)) := by
  have behind : Sealed (isBare true) (' ' :: ':' :: ' ' :: source.print) :=
    .plain rfl rfl (.plain rfl rfl (.plain rfl rfl (sealed_tokens well Bool.noConfusion)))
  have front : Sealed (isBare true) (type ++ ' ' :: name) :=
    sealed_declaration isType isVar (fun _ isChar => (isPlain_of_isNameChar isChar true).2) rfl
  have hidden := front.append behind
  rwa [List.append_assoc, List.cons_append] at hidden

/-- Whether the loop goes over the elements of a container can be told. -/
theorem iteratesElements_header {header : Placed} {text : List Char} {before after : Body}
    (read : Body.readExpression scope text before = .ok header after)
    (isHeader : Header start source header.expr) :
    ∃ byElement, iteratesElements header after = .ok byElement after := by
  obtain ⟨node, declaration, collection, same, ⟨place, rfl⟩, pictures⟩ := isHeader
  have whole : collection.Whole := by
    intro inner inside
    have among : inner ∈ header.expr.preorder := by
      rw [same, preorder]
      exact List.mem_cons_of_mem _ (List.mem_append_right _ inside)
    exact (readExpression_settled read inner among).whole
  obtain ⟨category, answer⟩ := category_of_pictures after header.sight whole pictures
  refine ⟨category == .container, ?_⟩
  rw [iteratesElements, same]
  simp only [ask, bind, EStateM.bind, get_apply, answer, pure, EStateM.pure]

/-- A loop over a collection is read. -/
theorem iterator_arrives (isType : isTypeWord type = true) (isVar : isName name = true)
    (well : source.isWellFormed = true) (rank : 22 ≤ source.rank) (short : source.isShort = true)
    (reads : body.Reads) (follows : Follows body.endsOpen more) (stack : List Frame)
    (id : ConstructId) (start : Body)
    (unread : start.HasConstruct id .forLoop scope label .unread) :
    ∃ after found,
      Arrives (body.steps + 2)
        ⟨start, .construct ⟨id, scope, .header⟩ :: stack, ' ' :: '(' ::
          ((type ++ ' ' :: (name ++ ' ' :: ':' :: ' ' :: source.print)) ++
            ')' :: ' ' :: body.printOn more)⟩
        ⟨after, stack, more⟩ ∧ Inside id .forLoop scope label found start after ∧
      ∀ final, Retains start after final → ∃ placed byElement slot,
        found = .iterator placed byElement slot ∧
        (∃ node declared collection, placed.expr = .operation node .colon declared collection ∧
          final.HasVariable slot type name declared ∧ source.Pictures collection) ∧
        body.StandsAt final scope slot := by
  let slot := start.paragraphs.size
  let added := start.addParagraph { kind := .body, parent := some scope }
  obtain ⟨expr, nextNode, effort, read, isHeader⟩ :=
    readExpression_header (typeWord_of_isTypeWord isType) isVar well rank
      (of_decide_eq_true short) slot
      added
  let declared : Body := { start.openedWith scope type name with nextNode, effort }
  obtain ⟨byElement, iterates⟩ := iteratesElements_header read isHeader
  let header : Placed := ⟨expr, ⟨slot, added.vars.size + 1⟩⟩
  let now := declared.modifyDetail id fun _ => .iterator header byElement slot
  have hidden := sealed_header isType isVar well
  have opens : stepKeyword ⟨id, scope, .header⟩ (trimStart (' ' :: '(' ::
      ((type ++ ' ' :: (name ++ ' ' :: ':' :: ' ' :: source.print)) ++
        ')' :: ' ' :: body.printOn more))) .forLoop start =
      .ok (.enter (.construct ⟨id, scope, .done⟩) (.ofParagraph slot .awaitOpen)
        (' ' :: body.printOn more)) now := by
    rw [trimStart_space, trimStart_cons (by decide)]
    exact stepFor_iterator hidden .header (hidden.splitTop_eq rfl) read iterates
  have counted : (start.openedWith scope type name).IsCounted declared := ⟨nextNode, effort, rfl⟩
  have within : Inside id .forLoop scope label (.iterator header byElement slot) start now := by
    have unopened :
        Inside id .forLoop scope label .unread start (start.openedWith scope type name) :=
      Inside.beside ⟨.refl start, unread⟩ (changes_openedWith start scope type name)
        fun _ => False.elim
    exact (unopened.counted counted).modify fun _ => .iterator header byElement slot
  have empty : now.HasParagraph slot .body scope none false [] :=
    counted.hasParagraph (hasParagraph_openedWith start scope type name)
  obtain ⟨after, arrives, changes, inside, stands⟩ := opened_arrives unread opens within
    (Nat.le_refl _) empty (reads slot scope more now empty follows) stack
  refine ⟨after, _, arrives, inside, fun final retains =>
    ⟨header, byElement, slot, rfl, ?_, stands final retains⟩⟩
  obtain ⟨node, declaration, collection, same, ⟨place, rfl⟩, pictures⟩ := isHeader
  exact ⟨node, _, collection, same, retains.hasVariable changes (Nat.le_refl _)
    (getElem?_vars_openedWith start scope type name), pictures⟩

theorem reads_iterator (fine : label.all isLabel = true) (isType : isTypeWord type = true)
    (isVar : isName name = true) (well : source.isWellFormed = true) (rank : 22 ≤ source.rank)
    (short : source.isShort = true) (reads : body.Reads) :
    (Statement.iterator label type name source body).Reads := by
  intro scope mode stack more now inside stands follows
  obtain ⟨after, item, arrives, adds, found⟩ :=
    construct_arrives .forLoop inside fine (MayStand.takesItems stands) (MayStand.labels stands)
      (.inr rfl) (by exact isWordChar_space) _
      (iterator_arrives isType isVar well rank short reads follows
        (.paragraph (taking ⟨scope, mode, none⟩) :: stack))
  refine ⟨after, item, arrives, adds, fun final retains => ?_⟩
  obtain ⟨id, detail, same, has, placed, byElement, slot, rfl, header, stands⟩ :=
    found final retains
  exact ⟨id, placed, byElement, slot, same, has, header, stands⟩

end

end Statement
end MethodLowering
