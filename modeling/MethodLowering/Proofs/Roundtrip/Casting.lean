import MethodLowering.Proofs.Reduction.Openings
import MethodLowering.Proofs.Roundtrip.Literal

/-!
# Casts

A primitive type in round brackets in front of a chain is a cast of the whole chain.  Its operand is
reduced as it is by itself, and the cast is an operand of what follows.
-/

namespace MethodLowering

open Text

namespace TypeName

/-- Names of primitive types are read as identifiers. -/
theorem leafForm?_of_primitive : ∀ type ∈ primitives,
    Reduction.leafForm? type.toList = some .identifier := by
  decide

theorem castType?_of_primitive {type : String} (primitive : type ∈ primitives) {expr : Expr}
    (leaf : Reduction.IsLeaf .identifier type.toList expr) :
    Reduction.castType? expr = some type := by
  have names : ∀ type ∈ primitives, trim type.toList = type.toList ∧
      type.toList.all Reduction.isCastChar = true ∧
      isPrimitive (Reduction.lastName type.toList) = true := by decide +kernel
  obtain ⟨trimmed, cast, last⟩ := names type primitive
  obtain ⟨node, rfl, spelled⟩ := leaf
  have text : (Expr.leaf node .identifier).trimmedChars = type.toList := by
    rw [Expr.trimmedChars, show (Expr.leaf node .identifier).text = node.text from rfl, spelled,
      String.toList_ofList, trimmed]
  rw [Reduction.castType?, text, cast, last]
  simp

end TypeName

namespace Reduction

open MethodLowering.Tree

section

variable {shift stop : Nat} {whole : List Char} {state left right after : Reduction}

/-- Where nothing of note has changed, the text is copied still. -/
theorem Copying.quiet (copying : Copying shift stop whole left right) (quiet : Quiet right after) :
    Copying shift stop whole left after := by
  obtain ⟨nextNode, effort, body⟩ := quiet.body
  obtain ⟨nextNode', effort', body'⟩ := copying.body
  refine ⟨?_, ?_, quiet.scope.trans copying.scope, nextNode, effort, by rw [body, body']⟩
  · rw [quiet.ledger, copying.chars]
  · rw [quiet.ledger]
    exact copying.slice

end

namespace OnSegments

/-- The segments of a type name in round brackets. -/
def typeSegments (length : Nat) : List Segment :=
  [⟨⟨0, 1⟩, .op .openParen⟩, ⟨⟨1, 1 + length⟩, .word⟩, ⟨⟨1 + length, 2 + length⟩, .op .closeParen⟩]

/-- The operands give the type name as a leaf. -/
def GivesType (operands : Operands) (whole : List Char) (type : String) : Prop :=
  ∀ other, other.ledger.chars = whole →
    Yields other (fun result => ∃ expr, result = some expr ∧ IsLeaf .identifier type.toList expr)
      (operands [⟨⟨1, 1 + type.toList.length⟩, .word⟩] other)

section

variable {text whole : List Char} {state left right final : Reduction}
  {operands operands' : Operands} {shift stop first last count position length : Nat}
    {segments copies opened opened' trail : List Segment} {expr : Expr} {type : String}

/-- The operand of a cast is all of a copied chain, and no more. -/
theorem castFrom_opened (all : AllCopy shift stop opened opened')
    (shown : Shows state first last opened) (chain : IsChain opened) (filled : opened ≠ [])
    (none : roundCount opened = 0) (ends : Ends (stop + shift) trail)
    (enough : opened.length ≤ count) :
    castFrom count [] (opened' ++ trail) = (opened', trail) := by
  have begun : firstOperands opened ≠ [] := by
    obtain ⟨segment, rest, rfl⟩ := List.exists_cons_of_ne_nil filled
    rcases chain.first segment rfl with isOperand | isOp
    · rw [firstOperands, List.takeWhile_cons_of_pos isOperand]
      exact List.cons_ne_nil _ _
    · rw [roundCount_op isOp] at none
      exact absurd none (Nat.succ_ne_zero _)
  have whole := castFrom_of_areLinks shown chain.nested chain.links
    (show [] ++ firstOperands opened ≠ [] from begun) enough
  have parts := castFrom_copies count .nil all
  rw [whole] at parts
  have rest : (castFrom count [] opened').2 = [] := List.forall₂_nil_left_iff.1 parts.2
  have joined := castFrom_append count [] opened'
  rw [rest, List.append_nil, List.nil_append] at joined
  rw [castFrom_ends ends _ _ (lt_of_mem_headsOf_copies all), joined, rest, List.nil_append]

theorem paren_cast {content copy : Expr} {close : Nat} (isType : castType? content = some type)
    (takes : castFrom count [] (opened' ++ trail) = (opened', trail)) (filled : opened' ≠ [])
    (reduces : operands opened' left = .ok (some copy) right) :
    Strays (paren operands 0 close count (some content) [] (opened' ++ trail) left) ∨
      ∃ node after, paren operands 0 close count (some content) [] (opened' ++ trail) left =
        .ok ⟨[], .cast node type copy, trail⟩ after ∧
      after.ledger = right.ledger ∧ node.span.start = 0 := by
  have solid : opened'.isEmpty = false := by simpa using filled
  have runs : paren operands 0 close count (some content) [] (opened' ++ trail) left =
      (newNodeAround ⟨0, close + 1⟩ [copy] >>= fun node =>
        pure ⟨[], .cast node type copy, trail⟩) right := by
    unfold paren
    rw [if_neg (by simp [lastOperands]), takes]
    dsimp only
    rw [solid, if_neg Bool.false_ne_true, Option.bind_some, isType]
    dsimp only
    rw [bind_of_ok reduces]
  rw [runs]
  rcases newNode_cases ([copy].foldl joinNode ⟨0, close + 1⟩) right with ⟨-, made⟩ | ⟨-, fails⟩
  · refine .inr ⟨_, _, bind_of_ok made _, rfl, ?_⟩
    dsimp only [List.foldl, joinNode]
    split
    · exact Nat.zero_min _
    · rfl
  · exact .inl (Strays.bind ⟨right, fails⟩ _)

section

variable (primitive : type ∈ TypeName.primitives) (gives : GivesType operands whole type)
  (operand : ∀ other, Copying shift stop whole left other → ∃ copy after,
    operands opened' other = .ok (some copy) after ∧ Copying shift stop whole final after ∧
      expr.Copies shift stop copy)
include primitive gives operand

/-- Folding the brackets of a type in front of a chain makes a cast. -/
theorem bracket_cast
    (takes : castFrom count [] (opened' ++ trail) = (opened', trail)) (filled : opened' ≠ [])
    (copying : Copying shift stop whole left right) :
    let folds := bracket operands .openParen 0 count [] (⟨⟨1, 1 + type.toList.length⟩, .word⟩ ::
      ⟨⟨1 + type.toList.length, 2 + type.toList.length⟩, .op .closeParen⟩ :: (opened' ++ trail))
    Strays (folds right) ∨ ∃ node copy after,
      folds right = .ok ⟨[], .cast node type copy, trail⟩ after ∧
      after.ledger.chars = whole ∧ node.span.start = 0 ∧ expr.Copies shift stop copy := by
  have present : type.toList.length ≠ 0 := by
    have names : ∀ type ∈ TypeName.primitives, type.toList.length ≠ 0 := by decide
    exact names type primitive
  have split : splitAt (1 + type.toList.length) (⟨⟨1, 1 + type.toList.length⟩, .word⟩ ::
      ⟨⟨1 + type.toList.length, 2 + type.toList.length⟩, .op .closeParen⟩ :: (opened' ++ trail)) =
      ([⟨⟨1, 1 + type.toList.length⟩, .word⟩], opened' ++ trail) := by
    simp [splitAt, present]
  have recorded : recordPair 0 (1 + type.toList.length) right = .ok () { right with
      pairs := (0, 1 + type.toList.length) :: right.pairs } := rfl
  have copying₁ : Copying shift stop whole left { right with
      pairs := (0, 1 + type.toList.length) :: right.pairs } :=
    ⟨copying.chars, copying.slice, copying.scope, copying.body⟩
  intro folds
  have runs : folds right = (do
      let content ← operands [⟨⟨1, 1 + type.toList.length⟩, .word⟩]
      paren operands 0 (1 + type.toList.length) count content [] (opened' ++ trail)) { right with
        pairs := (0, 1 + type.toList.length) :: right.pairs } := by
    dsimp only [folds]
    unfold bracket
    dsimp only [Op.closing?]
    rw [show (headsOf _).find? _ = some (1 + type.toList.length, Op.closeParen) from rfl]
    dsimp only
    rw [split, bind_of_ok recorded]
  rw [runs]
  rcases (gives _ copying₁.chars).cases with
    strays | ⟨_, right₂, typed, quiet, named, rfl, leaf⟩
  · exact .inl (strays.bind _)
  rw [bind_of_ok typed]
  obtain ⟨copy, right₃, reduces, copying₃, copied⟩ := operand right₂ (copying₁.quiet quiet)
  have isType := TypeName.castType?_of_primitive primitive leaf
  rcases @paren_cast _ _ _ count _ _ _ named copy (1 + type.toList.length) isType takes filled
    reduces with strays | ⟨node, after, casts, ledger, start⟩
  · exact .inl strays
  · exact .inr ⟨node, copy, after, casts, by rw [ledger, copying₃.chars], start, copied⟩

/-- The brackets of a type are folded into a cast of what is left of the chain behind them. -/
theorem rounds_cast
    (takes : castFrom (hull (typeSegments type.toList.length ++ opened' ++ trail)).length []
      (opened' ++ trail) = (opened', trail))
    (filled : opened' ≠ []) (none : roundCount (opened' ++ trail) = 0)
    (copying : Copying shift stop whole left right) (more : Nat) :
    let reads := rounds operands (more + 1) (typeSegments type.toList.length ++ opened' ++ trail)
    Strays (reads right) ∨ ∃ node copy after, after.ledger.chars = whole ∧ node.span.start = 0 ∧
      expr.Copies shift stop copy ∧ reads right = (if trail.isEmpty then pure (.cast node type copy)
        else rounds operands more (⟨node.span, .tree (.cast node type copy)⟩ :: trail)) after := by
  intro reads
  have quiet : Quiet right (counted right) := ⟨rfl, rfl, _, _, rfl⟩
  have last : roundCount (⟨⟨1, 1 + type.toList.length⟩, .word⟩ ::
      ⟨⟨1 + type.toList.length, 2 + type.toList.length⟩, .op .closeParen⟩ :: (opened' ++ trail)) =
        0 :=
    none
  have rounds := @rounds_openParen operands [] _ ⟨⟨0, 1⟩, .op .openParen⟩ rfl last rfl more
  have runs : reads right = _ := (congrFun rounds right).trans
    (bind_of_ok (show modifyBody _ right = .ok () (counted right) from rfl) _)
  rcases bracket_cast primitive gives operand takes filled (copying.quiet quiet) with
    strays | ⟨node, copy, after, folds, chars, start, copied⟩
  · exact .inl (runs ▸ strays.bind _)
  · exact .inr ⟨node, copy, after, chars, start, copied, runs.trans (bind_of_ok folds _)⟩

end

/-! ## Products -/

theorem reduce_tree {nesting depth : Nat} (span : Span) (expr : Expr) :
    ∃ after, reduce (nesting + 1) depth [⟨span, .tree expr⟩] state = .ok (some expr) after ∧
      Quiet state after := by
  obtain ⟨count, rounds⟩ := exists_reductionRounds
  refine ⟨counted { state with deepest := max state.deepest depth }, ?_, rfl, rfl, _, _, rfl⟩
  unfold reduce
  rw [if_neg (by simp), rounds, OnSegments.rounds]
  rfl

theorem reduce_tree_yields {nesting depth : Nat} (span : Span) (expr : Expr) :
    Yields state (· = some expr) (reduce (nesting + 1) depth [⟨span, .tree expr⟩] state) := by
  obtain ⟨after, reduces, quiet⟩ := @reduce_tree state nesting depth span expr
  rw [reduces]
  exact ⟨quiet, rfl⟩

/-- The segments of a product behind its first factor. -/
def factorSegments (position length : Nat) : List Segment :=
  [⟨⟨position, position + 1⟩, .op .times⟩, ⟨⟨position + 2, position + 2 + length⟩, .word⟩]

theorem ends_factor {length : Nat} (behind : last ≤ position) :
    Ends last (factorSegments position length) := by
  refine ⟨fun segment first => ?_, fun head among => ?_, fun segment among => ?_⟩
  · obtain rfl := Option.some.inj first
    rfl
  · obtain rfl := List.mem_singleton.1 among
    exact ⟨nofun, rfl, rfl⟩
  · simp only [factorSegments, List.mem_cons, List.not_mem_nil, or_false] at among
    rcases among with rfl | rfl <;> (dsimp only; omega)

/-- A finished expression in front of a sign of multiplication and a name is the product of both. -/
theorem rounds_product {nesting depth : Nat} {span : Span} (chars : state.ledger.chars = whole)
    (before : span.start ≠ position) (isForm : leafForm?
      (Span.slice ⟨position + 2, position + 2 + length⟩ whole) = some .identifier) (more : Nat) :
    Yields state (fun product => ∃ node factor, product = .operation node .times expr factor ∧
        IsLeaf .identifier (Span.slice ⟨position + 2, position + 2 + length⟩ whole) factor)
      (rounds (reduce (nesting + 1) depth) (more + 1)
        (⟨span, .tree expr⟩ :: factorSegments position length)
        state) := by
  have split : splitAt position (⟨span, .tree expr⟩ :: factorSegments position length) =
      ([⟨span, .tree expr⟩], [⟨⟨position + 2, position + 2 + length⟩, .word⟩]) := by
    simp [splitAt, factorSegments, before]
  have next : next (⟨span, .tree expr⟩ :: factorSegments position length) =
      pure (some ⟨position, .times, false⟩) := rfl
  rw [rounds]
  refine Yields.bind (modifyBody_yields fun body => ⟨_, _, rfl⟩) fun _ state₁ quiet₁ _ => ?_
  have chars₁ : state₁.ledger.chars = whole := by rw [quiet₁.ledger, chars]
  rw [show whole? _ = none from rfl, next, pure_bind]
  dsimp only
  rw [split, fold_binary rfl, binary]
  dsimp only
  simp only [bind_assoc]
  refine Yields.bind (reduce_tree_yields span expr) fun _ state₂ quiet₂ same => ?_
  subst same
  have chars₂ : state₂.ledger.chars = whole := by rw [quiet₂.ledger, chars₁]
  refine Yields.bind (reduce_word_yields chars₂ isForm) fun _ state₃ _ isFactor => ?_
  obtain ⟨factor, rfl, isFactor⟩ := isFactor
  exact Yields.bind (newNodeAround_yields _ _) fun node _ _ _ =>
    Yields.pure ⟨node, factor, rfl, isFactor⟩

/-! ## Casts of operands -/

/-- Segments that are there are reduced by the rounds of the next level. -/
theorem reduce_eq_map (filled : segments ≠ []) (nesting depth : Nat) (state : Reduction) :
    reduce (nesting + 1) depth segments state =
      (some <$> rounds (reduce nesting (depth + 1)) Limits.reductionRounds segments)
        { state with deepest := max state.deepest depth } := by
  have solid : segments.isEmpty = false := by simpa using filled
  unfold reduce
  refine (bind_of_ok (modify_apply _ _) _).trans ?_
  rw [solid, if_neg Bool.false_ne_true]
  exact congrFun (bind_pure_comp some
    (rounds (reduce nesting (depth + 1)) Limits.reductionRounds segments)) _

theorem reduce_eq_ok {nesting depth : Nat} (filled : segments ≠ []) :
    reduce (nesting + 1) depth segments left = .ok (some expr) final ↔
      rounds (reduce nesting (depth + 1)) Limits.reductionRounds segments
        { left with deepest := max left.deepest depth } = .ok expr final := by
  rw [reduce_eq_map filled, map_eq_ok]
  simp

/-- Behind a type in brackets, a chain is folded into the operand of a cast. -/
theorem rounds_typed {nesting deeper depth depth' : Nat} {range : Span}
    (primitive : type ∈ TypeName.primitives)
    (slice : Span.slice ⟨1, 1 + type.toList.length⟩ whole = type.toList)
    (wide : shift = type.toList.length + 3)
    (both : ChainCopy text whole range shift stop segments copies left right)
    (deep : nesting ≤ deeper) (few : roundCount segments + 2 ≤ Limits.reductionRounds)
    (reads : rounds (reduce nesting (depth + 1)) Limits.reductionRounds segments left =
      .ok expr final) (ends : Ends (stop + shift) trail) :
    let again := reduce (deeper + 1) (depth' + 1)
    let casts := rounds again Limits.reductionRounds
      (typeSegments type.toList.length ++ copies ++ trail)
    Strays (casts right) ∨ ∃ node copy after more, after.ledger.chars = whole ∧
      node.span.start = 0 ∧ expr.Copies shift stop copy ∧
      casts right = (if trail.isEmpty then pure (.cast node type copy)
        else rounds again (more + 1) (⟨node.span, .tree (.cast node type copy)⟩ :: trail))
          after := by
  intro again casts
  have surrounds : Surrounds shift (stop + shift) (typeSegments type.toList.length) trail := by
    refine ⟨nofun, rfl, fun segment among => ?_, ends⟩
    simp only [typeSegments, List.mem_cons, List.not_mem_nil, or_false] at among
    rcases among with rfl | rfl | rfl <;> (dsimp only; omega)
  have follows := @reduce_follows shift stop whole nesting (deeper + 1) (Nat.le_succ_of_le deep)
    (depth + 1) (depth' + 1)
  obtain ⟨opened, opened', left', right', opening, none, ⟨fewer, bound, final', reads'⟩, used,
    most, opens⟩ :=
    rounds_opened follows (reduce_paired _ _) (reduce_fit _ _) surrounds both reads
  obtain ⟨more, rounds⟩ : ∃ more, Limits.reductionRounds = used + (more + 1 + 1) :=
    ⟨Limits.reductionRounds - used - 2, by omega⟩
  obtain ⟨copying, all, filled, chain, ⟨state, depicts⟩, -⟩ := opening
  have filled' : opened' ≠ [] := by
    rintro rfl
    exact filled (List.forall₂_nil_right_iff.1 all)
  have gives : GivesType (reduce (deeper + 1) (depth' + 1)) whole type := by
    intro other chars
    have word :=
      @reduce_word_yields other whole .identifier ⟨1, 1 + type.toList.length⟩ deeper (depth' + 1)
      chars (by rw [slice, TypeName.leafForm?_of_primitive type primitive])
    rwa [slice] at word
  have operand (other : Reduction) (copying : Copying shift stop whole left' other) : ∃ copy after,
      reduce (deeper + 1) (depth' + 1) opened' other = .ok (some copy) after ∧
        Copying shift stop whole final' after ∧ expr.Copies shift stop copy := by
    have entered :
        Copying shift stop whole left' { other with deepest := max other.deepest (depth' + 1) } :=
      ⟨copying.chars, copying.slice, copying.scope, copying.body⟩
    have copied := rounds_follows (@reduce_follows shift stop whole nesting deeper deep (depth + 1)
      (depth' + 1 + 1)) entered all filled bound
    rw [reads'] at copied
    revert copied
    cases again : OnSegments.rounds (reduce deeper (depth' + 1 + 1)) Limits.reductionRounds opened'
      { other with deepest := max other.deepest (depth' + 1) } with
    | error => exact False.elim
    | ok copy after => exact fun copied => ⟨copy, after, (reduce_eq_ok filled').2 again, copied⟩
  have enough :=
    Nat.le_trans (length_le_hull_copies all filled depicts.shown) (surrounds.hull_le all filled)
  have runs : casts right = _ := rounds ▸ opens (more + 1 + 1)
  rcases rounds_cast primitive gives operand
    (castFrom_opened all depicts.shown chain filled none ends enough) filled'
    (by rw [roundCount_append, roundCount_copies all, none, ends.roundCount]) copying (more + 1)
    with strays | ⟨node, copy, after, chars, start, copied, folds⟩
  · exact .inl (runs ▸ strays)
  · exact .inr ⟨node, copy, after, more, chars, start, copied, runs.trans folds⟩

theorem ChainCopy.deepen {range : Span}
    (both : ChainCopy text whole range shift stop segments copies left right)
    (depth depth' : Nat) : ChainCopy text whole range shift stop segments copies
      { left with deepest := max left.deepest depth }
      { right with deepest := max right.deepest depth' } := by
  obtain ⟨⟨chars, slice, scope, body⟩, all, filled, chain, depicts, text⟩ := both
  exact ⟨⟨chars, slice, scope, body⟩, all, filled, chain, depicts, text⟩

/-- The expression casts a copy of another one. -/
def IsCastOf (type : String) (shift stop : Nat) (operand expr : Expr) : Prop :=
  ∃ node copy, expr = .cast node type copy ∧ operand.Copies shift stop copy

section

variable {nesting deeper depth depth' : Nat} {range : Span} (primitive : type ∈ TypeName.primitives)
  (slice : Span.slice ⟨1, 1 + type.toList.length⟩ whole = type.toList)
  (wide : shift = type.toList.length + 3)
  (both : ChainCopy text whole range shift stop segments copies left right)
  (deep : nesting ≤ deeper) (few : roundCount segments + 2 ≤ Limits.reductionRounds)
  (reads : reduce (nesting + 1) depth segments left = .ok (some expr) final)
include primitive slice wide both deep few reads

/-- A type in brackets casts the chain behind it. -/
theorem reduce_cast :
    let result := reduce (deeper + 2) depth' (typeSegments type.toList.length ++ copies) right
    Strays result ∨ ∃ cast after, result = .ok (some cast) after ∧
      IsCastOf type shift stop expr cast := by
  intro result
  have runs : result = _ := reduce_eq_map (by simp [typeSegments]) _ _ _
  rcases @rounds_typed _ _ _ _ _ _ _ _ _ [] _ _ _ _ _ depth'
    _ primitive slice wide (both.deepen depth depth') deep few
      ((reduce_eq_ok both.filled).1 reads) (ends_nil _) with
    ⟨after, strays⟩ | ⟨node, copy, after, more, -, -, copied, rounds⟩
  · rw [List.append_nil] at strays
    exact .inl ⟨after, runs.trans (map_of_error strays _)⟩
  · rw [List.append_nil] at rounds
    exact .inr ⟨_, after, runs.trans (map_of_ok rounds _), node, copy, rfl, copied⟩

/-- The cast is the first factor of a product. -/
theorem reduce_cast_product {length : Nat} (behind : stop + shift ≤ position)
    (isForm : leafForm? (Span.slice ⟨position + 2, position + 2 + length⟩ whole) =
      some .identifier) :
    let result := reduce (deeper + 2) depth'
      (typeSegments type.toList.length ++ copies ++ factorSegments position length) right
    Strays result ∨ ∃ node cast factor after,
      result = .ok (some (.operation node .times cast factor)) after ∧
      IsCastOf type shift stop expr cast ∧
      IsLeaf .identifier (Span.slice ⟨position + 2, position + 2 + length⟩ whole) factor := by
  intro result
  have runs : result = _ := reduce_eq_map (by simp [typeSegments]) _ _ _
  rcases @rounds_typed _ _ _ _ _ _ _ _ _
    (factorSegments position length) _ _ _ _ _ depth' _ primitive slice wide
      (both.deepen depth depth') deep few
    ((reduce_eq_ok both.filled).1 reads) (ends_factor behind) with
    ⟨after, strays⟩ | ⟨node, copy, after, more, chars, start, copied, rounds⟩
  · exact .inl ⟨after, runs.trans (map_of_error strays _)⟩
  rcases (@rounds_product _ _ position length (.cast node type copy) deeper (depth' + 1) node.span
      chars (by rw [start]; omega) isForm more).cases with
    ⟨after', strays⟩ | ⟨_, after', product, -, node', factor, rfl, isFactor⟩
  · exact .inl ⟨after', runs.trans (map_of_error (rounds.trans strays) _)⟩
  · exact .inr ⟨node', _, factor, after', runs.trans (map_of_ok (rounds.trans product) _),
      ⟨node, copy, rfl, copied⟩, isFactor⟩

end

end

end OnSegments
end Reduction
end MethodLowering
