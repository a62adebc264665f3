import MethodLowering.Proofs.Roundtrip.Cast

/-!
# Qualified names

The dots of a qualified type are folded like those of members, from the left, one in a round.  What
stands in front of the first dot is read by itself, and so is what stands behind the last one: there
the type is put together, where a variable is declared behind it.
-/

namespace MethodLowering

open Text Reduction

/-- A word that can be part of a type or name a variable. -/
structure Identifier where
  chars : List Char
  isName : isVariableName chars = true
  other : chars ≠ Op.instanceOf.spelling

/-- Qualifiers with a dot behind each of them. -/
def qualifierTokens (qualifiers : List Identifier) : List Token :=
  qualifiers.flatMap fun qualifier => [.word qualifier.chars, .op .dot]

/-! ## Words of a name -/

namespace Text

variable {text word : List Char} {c : Char}

theorem isTypeChar_of_isWordChar (isWord : isWordChar c = true) :
    isTypeChar c = true ∧ c ≠ '<' ∧ c ≠ '>' := by
  have other {mark : Char} (symbol : isWordChar mark = false) : c ≠ mark := by
    rintro rfl
    rw [isWord] at symbol
    contradiction
  exact ⟨by rw [isTypeChar, isWord]; rfl, other (by decide), other (by decide)⟩

/-- A text of word characters is one word. -/
theorem isPiece_of_letters (present : text ≠ []) (letters : ∀ c ∈ text, isWordChar c = true) :
    IsPiece text := by
  refine isPiece_of_solid present fun c among => ?_
  have isWord := letters c among
  obtain ⟨-, less, greater⟩ := isTypeChar_of_isWordChar isWord
  refine ⟨isBlank_of_isWordChar isWord, Scanner.not_isQuoteMark_of_isWordChar isWord,
    less, greater, ?_⟩
  rintro rfl
  revert isWord
  decide

theorem dotParts_ne_nil (text : List Char) : dotParts text ≠ [] := by
  cases text with
  | nil => exact List.cons_ne_nil _ _
  | cons c rest =>
      rw [dotParts]
      split
      · exact List.cons_ne_nil _ _
      · split
        · exact List.cons_ne_nil _ _
        · exact List.cons_ne_nil _ _

theorem dotParts_append (text rest : List Char) :
    dotParts (text ++ '.' :: rest) = dotParts text ++ dotParts rest := by
  induction text with
  | nil => rfl
  | cons c text induction =>
      rw [List.cons_append, dotParts, dotParts, induction]
      split
      · rfl
      · obtain ⟨part, parts, same⟩ := List.exists_cons_of_ne_nil (dotParts_ne_nil text)
        rw [same, List.cons_append]
        rfl

/-- A name without dots is its only part. -/
theorem dotParts_of_letters (letters : ∀ c ∈ word, isWordChar c = true) :
    dotParts word = [word] := by
  induction word with
  | nil => rfl
  | cons c word induction =>
      have other : c ≠ '.' := by
        rintro rfl
        exact absurd (letters '.' List.mem_cons_self) (by decide)
      rw [dotParts, if_neg (by simpa using other),
        induction fun c' among => letters c' (List.mem_cons_of_mem c among)]

/-- A name is a part of a qualified name. -/
theorem isPart_of_isVariableName (isName : isVariableName word = true) :
    (!(trim word).isEmpty && (trim word).all isWordChar) = true := by
  have letters := isWordChar_of_isVariableName isName
  obtain ⟨first, rest, same, -⟩ := exists_of_isVariableName isName
  rw [trim_of_solid fun c among => isBlank_of_isWordChar (letters c among),
    List.all_eq_true.2 letters, same]
  rfl

theorem isQualifiedName_word (isName : isVariableName word = true) :
    isQualifiedName word = true := by
  have part := isPart_of_isVariableName isName
  obtain ⟨first, rest, same, -⟩ := exists_of_isVariableName isName
  rw [isQualifiedName, dotParts_of_letters (isWordChar_of_isVariableName isName),
    List.all_cons, part, same]
  rfl

theorem isQualifiedName_append (qualified : isQualifiedName text = true)
    (isName : isVariableName word = true) : isQualifiedName (text ++ '.' :: word) = true := by
  have part := isPart_of_isVariableName isName
  rw [isQualifiedName, Bool.and_eq_true] at qualified ⊢
  refine ⟨by simp, ?_⟩
  rw [dotParts_append, List.all_append, qualified.2,
    dotParts_of_letters (isWordChar_of_isVariableName isName),
    List.all_cons, part]
  rfl

end Text

namespace Identifier

variable (word : Identifier)

theorem letters : ∀ c ∈ word.chars, isWordChar c = true := isWordChar_of_isVariableName word.isName

theorem ne_nil : word.chars ≠ [] := by
  obtain ⟨first, rest, same, -⟩ := exists_of_isVariableName word.isName
  rw [same]
  exact List.cons_ne_nil _ _

theorem isPiece : IsPiece word.chars := isPiece_of_letters word.ne_nil word.letters

theorem head : word.chars.head?.any isDigit = false := by
  obtain ⟨first, rest, same, digit⟩ := exists_of_isVariableName word.isName
  rw [same, List.head?_cons, Option.any_some, digit]

end Identifier

section

variable {rest : List Char}

theorem text_qualifierTokens (qualifiers : List Identifier) :
    Token.text (qualifierTokens qualifiers) = qualifiers.flatMap fun qualifier =>
      qualifier.chars ++ ['.'] := by
  rw [qualifierTokens, Token.text, List.flatMap_assoc]
  rfl

theorem reads_qualifiers (qualifiers : List Identifier) (digit : rest.head?.any isDigit = false) :
    Scanner.Reads (qualifierTokens qualifiers) rest := by
  induction qualifiers with
  | nil => exact Scanner.reads_nil rest
  | cons qualifier qualifiers induction =>
      have point : isWordChar '.' = false := by decide
      have behind : (Token.text (qualifierTokens qualifiers) ++ rest).head?.any isDigit =
          false := by
        cases qualifiers with
        | nil => exact digit
        | cons next others =>
            rw [text_qualifierTokens, List.flatMap_cons, List.append_assoc, List.append_assoc,
              List.head?_append_of_ne_nil _ next.ne_nil]
            exact next.head
      have alone : ∀ next : Option Char, next.any Op.dot.absorbs = false := by
        rintro (_ | c) <;> rfl
      refine Scanner.Reads.cons (Scanner.reads_word qualifier.letters fun _ starts =>
        not_isBlank_behind qualifier.letters qualifier.other ?_ starts)
        (Scanner.Reads.cons (Scanner.reads_symbol (by decide) (alone _) fun _ => behind) induction)
      exact point
end

/-! ## Folding the dots of a type -/

namespace Reduction
namespace OnSegments

open MethodLowering.Tree

section

variable {operands : Operands} {segments before after : List Segment} {segment : Segment}
  {state : Reduction}
  {nesting depth count : Nat} {text chars more word type name : List Char}
    {form : LeafForm} {span : Span}
  {subject expr : Expr}

/-- The operator that is next among dots is the first of them. -/
theorem best?_dot (operand : ∀ segment ∈ before, segment.isOperand = true)
    (isDot : segment.op? = some .dot)
    (dots : ∀ other ∈ after, other.op? = none ∨ other.op? = some .dot) :
    best? (before ++ segment :: after) = some ⟨segment.span.start, .dot, false⟩ := by
  cases best : best? (before ++ segment :: after) with
  | none => exact absurd (isClosing_of_best?_eq_none best rfl isDot) (by decide)
  | some chosen =>
      obtain ⟨front, found, back, split, isOp, -, same, isChosen⟩ := exists_of_best?_eq_some best
      have inBefore {other : Segment} (among : other ∈ before) : other.op? = none :=
        Option.isNone_iff_eq_none.1 (operand other among)
      have isFirst : front = before ∧ found = segment := by
        rcases List.append_eq_append_iff.1 split with ⟨middle, rfl, rest⟩ | ⟨middle, rfl, rest⟩
        · cases middle with
          | nil => exact ⟨by simp, (List.cons.inj rest).1.symm⟩
          | cons other middle =>
              -- the chosen operator would be a dot behind the first one
              obtain ⟨rfl, later⟩ := List.cons.inj rest
              have isLater : found ∈ after := by
                rw [later]
                simp
              have laterDot : chosen.op = .dot := by
                rcases dots found isLater with none | dot
                · rw [isOp] at none
                  contradiction
                · exact Option.some.inj (isOp.symm.trans dot)
              have level : chosen.level = 7 := by
                rw [same, laterDot]
                rfl
              have among : candidateOf (before.getLast?.or none) segment .dot ∈
                  candidatesFrom none (before ++ segment :: middle) := mem_candidatesFrom isDot rfl
              have tighter := isChosen.earlier level (by decide) _ among
              rw [level_candidateOf _ _ (by decide) (by decide)] at tighter
              exact absurd tighter (by decide)
        · cases middle with
          | nil => exact ⟨by simp, (List.cons.inj rest).1⟩
          | cons other middle =>
              obtain ⟨rfl, -⟩ := List.cons.inj rest
              rw [inBefore (by simp)] at isOp
              contradiction
      obtain ⟨rfl, rfl⟩ := isFirst
      rw [isDot, Option.some.injEq] at isOp
      rw [same, ← isOp]
      rfl

theorem candidatesFrom_operands (operand : ∀ segment ∈ segments, segment.isOperand = true)
    (last : Option Segment) : candidatesFrom last segments = [] := by
  induction segments generalizing last with
  | nil => rfl
  | cons segment segments induction =>
      have none : segment.op? = .none :=
        Option.isNone_iff_eq_none.1 (operand segment List.mem_cons_self)
      rw [candidatesFrom, none]
      exact induction (fun other among => operand other (List.mem_cons_of_mem segment among)) _

/-- Plain text is reduced to the leaf that it reads as. -/
theorem reduce_words (filled : segments ≠ []) (words : ∀ segment ∈ segments, segment.piece = .word)
    (nesting depth : Nat) (state : Reduction) :
    ∃ begun, Quiet state begun ∧ reduce (nesting + 1) depth segments state =
      (some <$> classify (hull segments) ((hull segments).slice state.ledger.chars)) begun := by
  obtain ⟨count, enough⟩ := exists_reductionRounds
  let deeper : Reduction := { state with deepest := max state.deepest depth }
  have operand (segment : Segment) (among : segment ∈ segments) : segment.isOperand = true :=
    isOperand_of_word (words segment among)
  have noTree : segments.any (·.tree?.isSome) = false := by
    rw [List.any_eq_false]
    intro segment among
    rw [Segment.tree?, words segment among]
    exact Bool.false_ne_true
  have noExpr : whole? segments = none := by
    obtain ⟨segment, rest, rfl⟩ := List.exists_cons_of_ne_nil filled
    cases rest with
    | nil => rw [whole?, Segment.tree?, words segment List.mem_cons_self]
    | cons => rfl
  have noOp : next segments = pure none := by
    rw [next, best?, candidatesFrom_operands operand, headsOf_operands operand]
    rfl
  have classified : rounds (reduce nesting (depth + 1)) (count + 1) segments deeper =
      classify (hull segments) ((hull segments).slice state.ledger.chars) (counted deeper) := by
    rw [rounds]
    refine (bind_of_ok (show modifyBody _ deeper = .ok () (counted deeper) from rfl) _).trans ?_
    rw [noExpr, noOp, pure_bind]
    dsimp only
    rw [leaf, noTree, if_neg Bool.false_ne_true]
    refine (bind_of_ok (show getLedger (counted deeper) =
      .ok state.ledger (counted deeper) from rfl) _).trans ?_
    rw [Ledger.slice_eq]
  refine ⟨counted deeper, ⟨rfl, rfl, _, _, rfl⟩, ?_⟩
  rw [reduce_eq_map filled, enough]
  simp only [Functor.map, EStateM.map]
  rw [show rounds (reduce nesting (depth + 1)) (count + 1) segments _ = _ from classified]

theorem textAt_of_holds (inside : state.ledger.holds span = true) :
    textAt span state = .ok (state.ledger.textAt span) state :=
  (textAt_cases span state).elim And.right fun ⟨outside, _⟩ =>
    Bool.noConfusion (inside.symm.trans outside)

theorem newNode_of_holds (inside : state.ledger.holds span = true) :
    newNode span state = .ok ⟨state.body.nextNode, span, state.ledger.textAt span⟩
      { state with body := { state.body with nextNode := state.body.nextNode + 1 } } :=
  bind_of_ok (textAt_of_holds inside) _

/-- Without rounds left, nothing is read. -/
theorem exists_of_stalls {α : Type} (span : Span) (state : Reduction) : ∃ failure after,
    (do reject (.resolveStalled (← textAt span)) : ReduceM α) state = .error failure after := by
  rcases textAt_cases span state with ⟨-, reads⟩ | ⟨-, fails⟩
  · exact ⟨_, _, bind_eq_error.2 (.inr ⟨_, _, reads, rfl⟩)⟩
  · exact ⟨_, _, bind_eq_error.2 (.inl fails)⟩

theorem classify_leaf (isForm : leafForm? word = some form)
    (inside : state.ledger.holds span = true) :
    ∃ node after, classify span word state = .ok (.leaf node form) after ∧ Quiet state after ∧
      node.span = span ∧ node.text = state.ledger.textAt span := by
  rw [classify, isForm]
  exact ⟨_, _, bind_of_ok (newNode_of_holds inside) _, ⟨rfl, rfl, _, _, rfl⟩, rfl, rfl⟩

theorem classify_gains {name typeName : String} {isFinal isStatic : Bool}
    (noForm : leafForm? word = none)
    (declares : declared? (words word) = some (.variable name typeName isFinal isStatic))
    (inside : state.ledger.holds span = true) :
    ∃ node after, classify span word state =
      .ok (.declaration node state.body.vars.size false) after ∧ node.span = span ∧
      Gains (Variable.ofType state.body.extraContainers name typeName isFinal isStatic
        .body (some state.scope))
        state after := by
  rw [classify, noForm]
  dsimp only
  rw [declares]
  let declared : Reduction := { state with body := state.body.declare (Variable.ofType
    state.body.extraContainers name typeName isFinal isStatic .body (some state.scope)) }
  exact ⟨_, _, bind_of_ok (@newNode_of_holds declared span inside) _, rfl, rfl, rfl, _, _, rfl⟩

theorem classify_malformed (noForm : leafForm? word = none)
    (nothing : declared? (words word) = none)
    (span : Span) (state : Reduction) :
    classify span word state = .error (.malformed (.malformedDeclaration (String.ofList word)))
      state := by
  rw [classify, noForm]
  dsimp only
  rw [nothing]
  rfl

/-- The expression stands for the start of the text, and the name of a type may follow it. -/
structure Qualifies (chars : List Char) (expr : Expr) : Prop where
  noType : expr.constructedType? = none
  node : ∃ node, expr.node? = some node ∧ node.span = ⟨0, chars.length⟩ ∧
    node.text = String.ofList chars

/-- What stands in front of a dot is read as a qualifier. -/
structure Leads (operands : Operands) (text chars : List Char) (before : List Segment) : Prop where
  within : chars.length ≤ text.length
  operand : ∀ segment ∈ before, segment.isOperand = true
  apart : ∀ segment ∈ before, segment.span.start ≠ chars.length
  reads : ∀ state : Reduction, state.ledger.chars = text → ∃ expr after,
    operands before state = .ok (some expr) after ∧ Quiet state after ∧ Qualifies chars expr

/-- The segment of a dot. -/
def dotAt (position : Nat) : Segment := ⟨⟨position, position + 1⟩, .op .dot⟩

/-- A round that folds a dot. -/
theorem rounds_dot (operand : ∀ segment ∈ before, segment.isOperand = true) {position : Nat}
    (apart : ∀ segment ∈ before, segment.span.start ≠ position)
    (dots : ∀ other ∈ after, other.op? = none ∨ other.op? = some .dot) (count : Nat) :
    rounds operands (count + 1) (before ++ dotAt position :: after) = (do
      modifyBody fun body =>
        { body with effort := { body.effort with rounds := body.effort.rounds + 1 } }
      let folded ← access operands position before after
      if folded.front.isEmpty && folded.back.isEmpty then return folded.expr
      else
        let span := (folded.expr.node?.map (·.span)).getD (hull (before ++ dotAt position :: after))
        rounds operands count (folded.front ++ ⟨span, .tree folded.expr⟩ :: folded.back)) := by
  have isDot : (dotAt position).op? = some .dot := rfl
  have split : splitAt position (before ++ dotAt position :: after) = (before, after) := by
    have earlier (other : Segment) (among : other ∈ before) :
        (other.span.start != position) = true :=
      bne_iff_ne.2 (apart other among)
    rw [splitAt, List.takeWhile_append_of_pos earlier, List.dropWhile_append_of_pos earlier]
    simp [dotAt]
  rw [rounds, whole?_of_op isDot, next, best?_dot operand isDot dots]
  dsimp only
  rw [pure_bind]
  dsimp only
  rw [show (dotAt position).span.start = position from rfl, split]
  rfl

/-- What is read in front of a dot and behind it. -/
theorem access_of_ok {chars : List Char} {member : Expr} {first second : Reduction}
    (operand : ∀ segment ∈ before, segment.isOperand = true)
    (left : operands before state = .ok (some subject) first)
    (right : operands (firstOperands after) first = .ok (some member) second)
    (qualifies : Qualifies chars subject) (position : Nat) :
    access operands position before after state = (do
      match ← qualifyDeclaration? subject member with
      | some declaration => return ⟨[], declaration, skipOperands after⟩
      | none =>
          return ⟨[], .access (← newNodeAround ⟨position, position + 1⟩ [subject, member])
            subject member,
            skipOperands after⟩ : ReduceM Folded) second := by
  have all : lastOperands before = before := List.rtakeWhile_eq_self_iff.2 operand
  have none : dropOperands before = [] := List.rdropWhile_eq_nil_iff.2 operand
  have noConstruction : qualifyConstruction? subject member second = .ok .none second := by
    rw [qualifyConstruction?, qualifies.noType]
    rfl
  rw [access, all, none]
  refine (bind_of_ok left _).trans ?_
  refine (bind_of_ok (show required (some subject) .dot _ first =
    .ok subject first from rfl) _).trans ?_
  refine (bind_of_ok right _).trans ?_
  refine (bind_of_ok (show required (some member) .dot _ second =
    .ok member second from rfl) _).trans ?_
  exact bind_of_ok noConstruction _

/-- A word that may be a qualifier is a leaf, and no construction. -/
theorem exists_leafForm (name : Identifier) :
    ∃ form, leafForm? name.chars = some form ∧ ∀ typeName, form ≠ .construction typeName := by
  have alone : (words name.chars).length ≤ 1 :=
    length_words_of_solid fun c among => isBlank_of_isWordChar (name.letters c among)
  unfold leafForm?
  split
  · exact ⟨.null, rfl, nofun⟩
  · exact ⟨.receiver, rfl, nofun⟩
  · exact ⟨.receiver, rfl, nofun⟩
  · rw [if_pos alone]
    split
    · exact ⟨.literal, rfl, nofun⟩
    · exact ⟨.identifier, rfl, nofun⟩

theorem reduce_name (name : Identifier) (slice : span.slice text = name.chars)
    (order : span.start ≤ span.stop) (inside : span.stop ≤ text.length)
    (same : state.ledger.chars = text) (nesting depth : Nat) :
    ∃ node form after, reduce (nesting + 1) depth [⟨span, .word⟩] state =
      .ok (some (.leaf node form)) after ∧
      Quiet state after ∧ node.span = span ∧ node.text = String.ofList name.chars ∧
      ∀ typeName, form ≠ .construction typeName := by
  obtain ⟨form, isForm, noType⟩ := exists_leafForm name
  obtain ⟨begun, quiet, reduces⟩ := @reduce_words [⟨span, .word⟩] (List.cons_ne_nil _ _)
    (by simp) nesting depth state
  have whole : (hull [⟨span, .word⟩]).slice state.ledger.chars = name.chars := by
    rw [same]
    exact slice
  rw [whole] at reduces
  obtain ⟨node, after, classified, quiet', place, spelled⟩ :=
    @classify_leaf begun _ _ (hull [⟨span, .word⟩]) isForm
      (holds_of_le (by rw [quiet.ledger, same]) order inside)
  refine ⟨node, form, after, reduces.trans (map_of_ok classified _), quiet.trans quiet',
    place, ?_, noType⟩
  rw [spelled, Ledger.textAt_eq, quiet.ledger, whole]

/-- The expression of a qualifier leads on. -/
theorem leads_tree (qualifies : Qualifies chars expr) (present : chars ≠ [])
    (within : chars.length ≤ text.length) :
    Leads (reduce (nesting + 1) depth) text chars [⟨⟨0, chars.length⟩, .tree expr⟩] := by
  refine ⟨within, by simp [Segment.isOperand, Segment.op?], ?_, fun state _ => ?_⟩
  · rintro segment among
    rw [List.mem_singleton.1 among]
    exact fun same => present (List.eq_nil_of_length_eq_zero same.symm)
  · obtain ⟨after, reduces, quiet⟩ := @reduce_tree state nesting depth ⟨0, chars.length⟩ expr
    exact ⟨expr, after, reduces, quiet, qualifies⟩

/-- The first word of a type is its first qualifier. -/
theorem leads_word (name : Identifier) (split : text = name.chars ++ more) :
    Leads (reduce (nesting + 1) depth) text name.chars [⟨⟨0, name.chars.length⟩, .word⟩] := by
  have slice : Span.slice ⟨0, name.chars.length⟩ text = name.chars := by
    rw [split]
    simpa using slice_word [] name.chars more
  have within : name.chars.length ≤ text.length := by simp [split]
  refine ⟨within, by simp [Segment.isOperand, Segment.op?], ?_, fun state same => ?_⟩
  · rintro segment among
    rw [List.mem_singleton.1 among]
    exact fun same => name.ne_nil (List.eq_nil_of_length_eq_zero same.symm)
  · obtain ⟨node, form, after, reduces, quiet, place, spelled, noType⟩ :=
      reduce_name name slice (Nat.zero_le _) within same nesting depth
    refine ⟨.leaf node form, after, reduces, quiet, ?_, node, rfl, place, spelled⟩
    cases form with
    | construction typeName => exact absurd rfl (noType typeName)
    | _ => rfl

/-- A dot with a qualifier on both sides makes a longer qualifier. -/
theorem access_link (leads : Leads (reduce (nesting + 1) depth) text chars before)
    (name : Identifier)
    (split : text = chars ++ '.' :: name.chars ++ more) (same : state.ledger.chars = text) :
    ∃ expr final, access (reduce (nesting + 1) depth) chars.length before
        (⟨⟨chars.length + 1, chars.length + 1 + name.chars.length⟩, .word⟩ ::
          dotAt (chars.length + 1 + name.chars.length) :: after) state =
        .ok ⟨[], expr, dotAt (chars.length + 1 + name.chars.length) :: after⟩ final ∧
      Quiet state final ∧ Qualifies (chars ++ '.' :: name.chars) expr := by
  let position := chars.length
  let stop := chars.length + 1 + name.chars.length
  have length : (chars ++ '.' :: name.chars).length = stop := by
    rw [List.length_append, List.length_cons]
    omega
  have within : stop ≤ text.length := by
    rw [split, List.length_append, length]
    exact Nat.le_add_right ..
  have behind : Span.slice ⟨position + 1, stop⟩ text = name.chars := by
    have found := slice_word (chars ++ ['.']) name.chars more
    rw [List.length_append, List.length_singleton] at found
    rw [split, show chars ++ '.' :: name.chars ++ more =
      chars ++ ['.'] ++ name.chars ++ more by simp]
    exact found
  have whole : Span.slice ⟨0, stop⟩ text = chars ++ '.' :: name.chars := by
    rw [split, ← length]
    simpa using slice_word [] (chars ++ '.' :: name.chars) more
  obtain ⟨subject, first, left, quiet₁, qualifies⟩ := leads.reads state same
  have same₁ : first.ledger.chars = text := by rw [quiet₁.ledger, same]
  obtain ⟨member, form, second, right, quiet₂, place, -⟩ :=
    reduce_name name behind (Nat.le_add_right ..) within same₁ nesting depth
  have same₂ : second.ledger.chars = text := by rw [quiet₂.ledger, same₁]
  obtain ⟨node, isNode, span, -⟩ := qualifies.node
  -- the node of the member access reaches from the start of the text to the end of the word
  have around : ((⟨position, position + 1⟩ : Span).join node.span).join member.span =
      ⟨0, stop⟩ := by
    rw [span, place]
    simp only [Span.join, Span.mk.injEq]
    omega
  let joined : Node :=
    { id := second.body.nextNode, span := ⟨0, stop⟩, text := second.ledger.textAt ⟨0, stop⟩ }
  let final : Reduction :=
    { second with body := { second.body with nextNode := second.body.nextNode + 1 } }
  have made : newNodeAround ⟨position, position + 1⟩ [subject, .leaf member form] second =
      .ok joined final := by
    rw [newNodeAround, List.foldl_cons, List.foldl_cons, List.foldl_nil, isNode]
    dsimp only [Expr.node?]
    rw [around]
    exact newNode_of_holds (holds_of_le same₂ (Nat.zero_le _) within)
  have noDeclaration : qualifyDeclaration? subject (.leaf member form) second =
      .ok none second := by
    unfold qualifyDeclaration?
    rw [isNode]
    rfl
  have alone : firstOperands (⟨⟨position + 1, stop⟩, .word⟩ :: dotAt stop :: after) =
      [⟨⟨position + 1, stop⟩, .word⟩] := rfl
  rw [← alone] at right
  refine ⟨.access joined subject (.leaf member form), final, ?_,
    quiet₁.trans (quiet₂.trans ⟨rfl, rfl, _, _, rfl⟩), rfl, joined, rfl, ?_, ?_⟩
  · rw [access_of_ok leads.operand left right qualifies]
    refine (bind_of_ok noDeclaration _).trans ?_
    exact bind_of_ok made _
  · rw [length]
  · exact (Ledger.textAt_eq ..).trans (by rw [same₂, whole])

/-- Such a dot is folded in one round. -/
theorem rounds_link (leads : Leads (reduce (nesting + 1) depth) text chars before)
    (name : Identifier)
    (split : text = chars ++ '.' :: name.chars ++ more) (same : state.ledger.chars = text)
    (dots : ∀ other ∈ after, other.op? = none ∨ other.op? = some .dot) (count : Nat) :
    ∃ expr begun, Quiet state begun ∧ Qualifies (chars ++ '.' :: name.chars) expr ∧
      rounds (reduce (nesting + 1) depth) (count + 1) (before ++ dotAt chars.length ::
          ⟨⟨chars.length + 1, chars.length + 1 + name.chars.length⟩, .word⟩ ::
          dotAt (chars.length + 1 + name.chars.length) :: after) state =
        rounds (reduce (nesting + 1) depth) count
          (⟨⟨0, (chars ++ '.' :: name.chars).length⟩, .tree expr⟩ ::
            dotAt (chars.length + 1 + name.chars.length) :: after) begun := by
  have counts : Quiet state (counted state) := ⟨rfl, rfl, _, _, rfl⟩
  obtain ⟨expr, final, folds, quiet, qualifies⟩ :=
    @access_link before after (counted state) nesting depth text chars more leads name split same
  obtain ⟨node, isNode, span, -⟩ := qualifies.node
  refine ⟨expr, final, counts.trans quiet, qualifies, ?_⟩
  rw [rounds_dot leads.operand leads.apart (by simpa [Segment.op?, dotAt] using dots)]
  refine (bind_of_ok (show modifyBody _ state = .ok () (counted state) from rfl) _).trans ?_
  refine (bind_of_ok folds _).trans ?_
  dsimp only
  rw [isNode, Option.map_some, Option.getD_some, span]
  rfl

/-- Plain text that declares a variable. -/
structure SpellsDeclaration (text : List Char) (segments : List Segment)
    (type name : List Char) : Prop where
  filled : segments ≠ []
  words : ∀ segment ∈ segments, segment.piece = .word
  order : (hull segments).start ≤ (hull segments).stop
  within : (hull segments).stop ≤ text.length
  noForm : leafForm? ((hull segments).slice text) = none
  declares : declared? (Text.words ((hull segments).slice text)) =
    some (.variable (String.ofList name) (String.ofList type) false false)

section

variable (leads : Leads (reduce (nesting + 1) depth) text chars before)
  (qualified : isQualifiedName chars = true) (spells : SpellsDeclaration text segments type name)
  (same : state.ledger.chars = text)
include leads qualified spells same

/-- The last dot of a type puts the qualifiers in front of its name. -/
theorem access_last :
    ∃ node final, access (reduce (nesting + 1) depth) chars.length before segments state =
        .ok ⟨[], .declaration node state.body.vars.size false, []⟩ final ∧
      Gains (state.body.written state.scope (chars ++ '.' :: type) name) state final := by
  have operand (segment : Segment) (among : segment ∈ segments) : segment.isOperand = true :=
    isOperand_of_word (spells.words segment among)
  have all : firstOperands segments = segments := List.takeWhile_eq_self_iff.2 operand
  have rest : skipOperands segments = [] := List.dropWhile_eq_nil_iff.2 operand
  obtain ⟨subject, first, left, quiet₁, qualifies⟩ := leads.reads state same
  have same₁ : first.ledger.chars = text := by rw [quiet₁.ledger, same]
  obtain ⟨begun, quiet₂, reduces⟩ := reduce_words spells.filled spells.words nesting depth first
  rw [same₁] at reduces
  have same₂ : begun.ledger.chars = text := by rw [quiet₂.ledger, same₁]
  obtain ⟨member, second, classified, behind, gains⟩ :=
    @classify_gains begun _ (hull segments) _ _ _ _ spells.noForm spells.declares
      (holds_of_le same₂ spells.order spells.within)
  have right := reduces.trans (map_of_ok classified _)
  rw [← all] at right
  obtain ⟨node, isNode, front, spelled⟩ := qualifies.node
  have quiet : Quiet state begun := quiet₁.trans quiet₂
  have size : begun.body.vars.size = state.body.vars.size := by
    obtain ⟨_, _, body⟩ := quiet.body
    rw [body]
  -- the variable just declared gets the qualified type
  let typeName := node.text ++ "." ++ String.ofList type
  let final : Reduction := { second with body := second.body.retype begun.body.vars.size typeName }
  have renamed : typeName = String.ofList (chars ++ '.' :: type) := by
    rw [← String.toList_inj]
    simp [typeName, spelled]
  have gained : Gains (begun.body.written begun.scope (chars ++ '.' :: type) name) begun final := by
    obtain ⟨nextNode, effort, body⟩ := gains.body
    refine ⟨gains.ledger, gains.scope, nextNode, effort, ?_⟩
    have retyped := congrArg (fun declared : Body => { declared with nextNode, effort })
      (Body.retype_declare begun.body (begun.body.written begun.scope type name) typeName)
    change second.body.retype begun.body.vars.size typeName = _
    rw [body]
    refine Eq.trans retyped ?_
    rw [renamed]
    rfl
  have known : second.body.vars[begun.body.vars.size]? =
      some (begun.body.written begun.scope type name) := by
    obtain ⟨nextNode, effort, body⟩ := gains.body
    rw [body]
    change (begun.body.declare (begun.body.written begun.scope type
      name)).vars[begun.body.vars.size]? = _
    rw [Body.vars_declare, Array.getElem?_push_size]
  have isQualified : isQualifiedName node.text.toList = true :=
    by rw [spelled, String.toList_ofList, qualified]
  let whole := node.span.join member.span
  let joined : Node := { member with span := whole, text := second.ledger.textAt whole }
  obtain ⟨ordered, inside⟩ : whole.start ≤ whole.stop ∧ whole.stop ≤ text.length := by
    dsimp only [whole, Span.join]
    rw [front, behind]
    exact ⟨(Nat.min_le_left ..).trans (Nat.zero_le _), Nat.max_le.2 ⟨leads.within, spells.within⟩⟩
  have declaration :
      qualifyDeclaration? subject (.declaration member begun.body.vars.size false) second =
      .ok (some (.declaration joined begun.body.vars.size false)) final := by
    unfold qualifyDeclaration?
    rw [isNode]
    dsimp only
    rw [isQualified, if_pos rfl]
    refine (bind_of_ok (show (get : ReduceM Reduction) second =
      .ok second second from rfl) _).trans ?_
    rw [known]
    have read : textAt whole final = .ok (second.ledger.textAt whole) final :=
      textAt_of_holds (holds_of_le (gains.ledger ▸ same₂) ordered inside)
    exact bind_of_ok read _
  have whole := quiet.gains gained
  rw [quiet.written] at whole
  refine ⟨joined, final, ?_, whole⟩
  rw [access_of_ok leads.operand left right qualifies, rest, ← size]
  exact bind_of_ok declaration _

/-- With the last dot, the declaration is complete. -/
theorem rounds_last (count : Nat) :
    ∃ node after, rounds (reduce (nesting + 1) depth) (count + 1)
        (before ++ dotAt chars.length :: segments) state =
          .ok (.declaration node state.body.vars.size false) after ∧
      Gains (state.body.written state.scope (chars ++ '.' :: type) name) state after := by
  have counts : Quiet state (counted state) := ⟨rfl, rfl, _, _, rfl⟩
  have noOp (segment : Segment) (among : segment ∈ segments) : segment.op? = none :=
    Option.isNone_iff_eq_none.1 (isOperand_of_word (spells.words segment among))
  obtain ⟨node, final, folds, gains⟩ :=
    @access_last segments before (counted state) nesting depth text chars type name leads
      qualified spells same
  refine ⟨node, final, ?_, counts.gains gains⟩
  rw [rounds_dot leads.operand leads.apart fun other among => .inl (noOp other among)]
  refine (bind_of_ok (show modifyBody _ state = .ok () (counted state) from rfl) _).trans ?_
  exact bind_of_ok folds _

end

/-- The dots behind the first qualifier, with the qualifiers behind them. -/
theorem segments_links (name : Identifier) (qualifiers : List Identifier) (position : Nat) :
    Token.segments position (.op .dot :: qualifierTokens (name :: qualifiers)) =
      dotAt position :: ⟨⟨position + 1, position + 1 + name.chars.length⟩, .word⟩ ::
        Token.segments (position + 1 + name.chars.length)
        (.op .dot :: qualifierTokens qualifiers) := rfl

/-- A qualifier with the dot behind it, and the others. -/
theorem segments_qualifiers (name : Identifier) (qualifiers : List Identifier) (position : Nat) :
    Token.segments position (qualifierTokens (name :: qualifiers)) =
      ⟨⟨position, position + name.chars.length⟩, .word⟩ :: dotAt (position + name.chars.length) ::
        Token.segments (position + name.chars.length + 1) (qualifierTokens qualifiers) := rfl

theorem dots_segments (qualifiers : List Identifier) (position : Nat) :
    ∀ segment ∈ Token.segments position (qualifierTokens qualifiers),
      segment.op? = none ∨ segment.op? = some .dot := by
  induction qualifiers generalizing position with
  | nil => nofun
  | cons name qualifiers induction =>
      intro segment among
      rcases List.mem_cons.1 among with rfl | among
      · exact .inl rfl
      · rcases List.mem_cons.1 among with rfl | among
        · exact .inr rfl
        · exact induction _ segment among

/-- The step from one dot to the next. -/
theorem rounds_next (leads : Leads (reduce (nesting + 1) depth) text chars before)
    (next : Identifier) (qualifiers : List Identifier)
    (spells : SpellsDeclaration text segments type name)
    (split : text = chars ++ Token.text (.op .dot :: qualifierTokens (next :: qualifiers)) ++ more)
    (same : state.ledger.chars = text) (count : Nat) :
    ∃ expr begun, Quiet state begun ∧ Qualifies (chars ++ '.' :: next.chars) expr ∧
      rounds (reduce (nesting + 1) depth) (count + 1)
          (before ++ (Token.segments chars.length
            (.op .dot :: qualifierTokens (next :: qualifiers)) ++ segments))
          state =
        rounds (reduce (nesting + 1) depth) count
          ([⟨⟨0, (chars ++ '.' :: next.chars).length⟩, .tree expr⟩] ++
            (Token.segments (chars ++ '.' :: next.chars).length
              (.op .dot :: qualifierTokens qualifiers) ++
              segments)) begun := by
  have length : (chars ++ '.' :: next.chars).length = chars.length + 1 + next.chars.length := by
    rw [List.length_append, List.length_cons]
    omega
  have split' : text = chars ++ '.' :: next.chars ++
      (Token.text (.op .dot :: qualifierTokens qualifiers) ++ more) := by
    rw [split]
    simp [qualifierTokens, Token.chars, show Op.dot.spelling = ['.'] from rfl]
  have dots (other : Segment) (among : other ∈
      Token.segments (chars.length + 1 + next.chars.length + 1) (qualifierTokens qualifiers) ++
        segments) :
      other.op? = none ∨ other.op? = some .dot := by
    rcases List.mem_append.1 among with inTokens | inLast
    · exact dots_segments qualifiers _ other inTokens
    · exact .inl (Option.isNone_iff_eq_none.1 (isOperand_of_word (spells.words other inLast)))
  obtain ⟨expr, begun, quiet, qualifies, step⟩ := rounds_link leads next split' same dots count
  refine ⟨expr, begun, quiet, qualifies, ?_⟩
  rw [segments_links]
  refine step.trans ?_
  rw [length]
  rfl

/-- The dots of a type without modifiers are folded into one declaration, where there are enough
rounds. -/
theorem rounds_qualified (qualifiers : List Identifier)
    (leads : Leads (reduce (nesting + 1) depth) text chars before)
    (qualified : isQualifiedName chars = true)
    (spells : SpellsDeclaration text segments type name)
    (split : text = chars ++ Token.text (.op .dot :: qualifierTokens qualifiers) ++ more)
    (same : state.ledger.chars = text) (count : Nat) :
    let result := rounds (reduce (nesting + 1) depth) count
      (before ++ (Token.segments chars.length (.op .dot :: qualifierTokens qualifiers) ++ segments))
        state
    (qualifiers.length < count → ∃ node after,
      result = .ok (.declaration node state.body.vars.size false) after ∧
      Gains (state.body.written state.scope
        (chars ++ Token.text (.op .dot :: qualifierTokens qualifiers) ++ type) name) state after) ∧
    (count ≤ qualifiers.length → ∃ failure after, result = .error failure after) := by
  induction qualifiers generalizing chars before state count with
  | nil =>
      cases count with
      | zero =>
          exact ⟨fun enough => absurd enough (Nat.not_lt_zero _), fun _ => exists_of_stalls _ _⟩
      | succ count =>
          refine ⟨fun _ => ?_, fun few => absurd few (Nat.not_succ_le_zero _)⟩
          have dot : chars ++ Token.text (.op .dot :: qualifierTokens []) ++ type =
              chars ++ '.' :: type := by
            simp [qualifierTokens, Token.chars, show Op.dot.spelling = ['.'] from rfl]
          rw [dot]
          exact rounds_last leads qualified spells same count
  | cons next qualifiers induction =>
      cases count with
      | zero =>
          exact ⟨fun enough => absurd enough (Nat.not_lt_zero _), fun _ => exists_of_stalls _ _⟩
      | succ count =>
          have longer (rest : List Char) :
              chars ++ Token.text (.op .dot :: qualifierTokens (next :: qualifiers)) ++ rest =
                chars ++ '.' :: next.chars ++ Token.text (.op .dot :: qualifierTokens qualifiers) ++
                  rest := by
            simp [qualifierTokens, Token.chars, show Op.dot.spelling = ['.'] from rfl]
          obtain ⟨expr, begun, quiet, qualifies, step⟩ :=
            rounds_next leads next qualifiers spells split same count
          obtain ⟨reads, fails⟩ := induction
              (leads_tree qualifies (by simp) (by rw [split, longer]; simp))
            (isQualifiedName_append qualified next.isName) (split.trans (longer more))
            (by rw [quiet.ledger, same]) count
          have size : begun.body.vars.size = state.body.vars.size := by
            obtain ⟨_, _, body⟩ := quiet.body
            rw [body]
          constructor
          · intro enough
            obtain ⟨node, after, declares, gains⟩ := reads (Nat.lt_of_succ_lt_succ enough)
            have whole := quiet.gains gains
            rw [quiet.written, ← longer] at whole
            rw [size] at declares
            exact ⟨node, after, step.trans declares, whole⟩
          · intro few
            obtain ⟨failure, after, failed⟩ := fails (Nat.le_of_succ_le_succ few)
            exact ⟨failure, after, step.trans failed⟩

/-- Where nothing is declared in front of the first dot, nothing is read. -/
theorem rounds_malformed (filled : before ≠ []) (words : ∀ segment ∈ before, segment.piece = .word)
    {position : Nat} (apart : ∀ segment ∈ before, segment.span.start ≠ position)
    (dots : ∀ other ∈ after, other.op? = none ∨ other.op? = some .dot)
    (slice : (hull before).slice state.ledger.chars = word) (noForm : leafForm? word = none)
    (nothing : declared? (Text.words word) = none) (count : Nat) :
    ∃ after', rounds (reduce (nesting + 1) depth) (count + 1)
    (before ++ dotAt position :: after) state =
      .error (.malformed (.malformedDeclaration (String.ofList word))) after' := by
  have operand (segment : Segment) (among : segment ∈ before) : segment.isOperand = true :=
    isOperand_of_word (words segment among)
  have all : lastOperands before = before := List.rtakeWhile_eq_self_iff.2 operand
  obtain ⟨begun, -, reduces⟩ := reduce_words filled words nesting depth (counted state)
  have fails : reduce (nesting + 1) depth before (counted state) =
      .error (.malformed (.malformedDeclaration (String.ofList word))) begun := by
    rw [reduces, show (counted state).ledger.chars = state.ledger.chars from rfl, slice]
    exact map_of_error (classify_malformed noForm nothing _ _) some
  refine ⟨begun, ?_⟩
  rw [rounds_dot operand apart dots]
  refine bind_eq_error.2 (.inr ⟨(), counted state, rfl, bind_eq_error.2 (.inl ?_)⟩)
  rw [access, all]
  exact bind_eq_error.2 (.inl fails)

/-- A statement is what its segments are reduced to. -/
theorem statement_eq_ok {after : Reduction}
    (reduces : reduce nesting 1 segments (begun state) = .ok (some expr) after) :
    ∃ final, statement nesting segments state = .ok expr final ∧ Quiet after final := by
  unfold statement
  exact ⟨_, bind_eq_ok.2 ⟨(), begun state, rfl, bind_eq_ok.2 ⟨some expr, after, reduces, rfl⟩⟩,
    ⟨rfl, rfl, _, _, rfl⟩⟩

theorem statement_eq_error {failure : Failure} {after : Reduction}
    (fails : reduce nesting 1 segments (begun state) = .error failure after) :
    statement nesting segments state = .error failure after := by
  unfold statement
  exact bind_eq_error.2 (.inr ⟨(), begun state, rfl, bind_eq_error.2 (.inl fails)⟩)

/-- The state in which the rounds of a statement start. -/
def opened (state : Reduction) : Reduction :=
  { begun state with deepest := max (begun state).deepest 1 }

theorem statement_of_rounds {after : Reduction} (filled : segments ≠ [])
    (rounds : rounds (reduce nesting 2) Limits.reductionRounds segments (opened state) =
      .ok expr after) :
    ∃ final, statement (nesting + 1) segments state = .ok expr final ∧ Quiet after final :=
  statement_eq_ok (by rw [reduce_eq_map filled]; exact map_of_ok rounds some)

theorem statement_of_rounds_error {failure : Failure} {after : Reduction} (filled : segments ≠ [])
    (rounds : rounds (reduce nesting 2) Limits.reductionRounds segments (opened state) =
      .error failure after) :
    statement (nesting + 1) segments state = .error failure after := by
  refine statement_eq_error ?_
  rw [reduce_eq_map filled]
  exact map_of_error rounds some

end

end OnSegments
end Reduction
end MethodLowering
