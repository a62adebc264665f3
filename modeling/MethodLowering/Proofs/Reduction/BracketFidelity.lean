import MethodLowering.Proofs.Reduction.Fidelity

/-!
# Folded brackets are faithful to the text

Calls, casts, groups, indices and initializers are made of their brackets and what stands between
them.
-/

namespace MethodLowering
namespace Reduction

open Text MethodLowering.Expr

section

variable {text : List Char} {state other : Reduction} {start stop : Nat} {anchor : Span}
  {before after segments inner core : List Segment} {segment : Segment} {expr : Expr}
  {onSegments : OnSegments.Operands} {content : Option Expr}

/-! ## Between brackets -/

/-- What stands between brackets is laid out by its expression. -/
theorem laid_content (depicts : Depicts text state start stop inner)
    (resolves : Covers inner content) :
    Laid text start stop [.child (content.getD .absent)] := by
  cases content with
  | none =>
      obtain rfl : inner = [] := resolves
      exact ⟨depicts.shown.le, depicts.shown.1.between depicts.portrays⟩
  | some expr =>
      obtain ⟨node, known, span⟩ := Option.map_eq_some_iff.1 resolves.2
      obtain ⟨gap, -, gap', nonempty⟩ := depicts.shown.hull resolves.1
      rw [Option.getD_some, Laid, known]
      rw [← span] at gap gap' nonempty
      exact ⟨gap.1, gap.between depicts.portrays, nonempty, gap'.1, gap'.between depicts.portrays⟩

theorem items_eq (content : Option Expr) : items content = (content.getD .absent).commaItems := by
  cases content <;> rfl

theorem laid_items (depicts : Depicts text state start stop inner)
    (resolves : Resolves text inner content) :
    Laid text start stop (listParts (items content)) := by
  rw [items_eq]
  exact Laid.commaItems resolves.2 (laid_content depicts resolves.1)

theorem items_faithful (resolves : Resolves text inner content) :
    ∀ item ∈ items content, item.Faithful text := by
  rw [items_eq]
  exact resolves.2.commaItems

/-- The type of a cast is spelled by what stands between the brackets. -/
theorem squeeze_castType? {typeName : String} (typed : castType? expr = some typeName) :
    squeeze typeName.toList = squeeze expr.text.toList := by
  obtain ⟨-, same⟩ := Option.ite_none_right_eq_some.1 typed
  obtain rfl := Option.some.inj same
  rw [String.toList_ofList, trimmedChars, squeeze_trim]

theorem squeeze_text {node : Node} (exact_ : expr.IsExact text node) :
    squeeze expr.text.toList = between text node.span.start node.span.stop := by
  rw [Expr.text, exact_.node?]
  dsimp only
  rw [exact_.text_eq, String.toList_ofList]
  rfl

/-- A cast type stands between its brackets. -/
theorem laid_castType {typeName : String} (depicts : Depicts text state start stop inner)
    (resolves : Resolves text inner content) (typed : content.bind castType? = some typeName) :
    Laid text start stop [.token (squeeze typeName.toList)] := by
  cases content with
  | none => contradiction
  | some expr =>
      obtain ⟨node, known, span⟩ := Option.map_eq_some_iff.1 resolves.1.2
      obtain ⟨⟨_, exact_⟩, -⟩ := (faithful_iff (isPresent_iff.2 ⟨_, known⟩)).1 resolves.2
      obtain rfl := Option.some.inj (known.symm.trans exact_.node?)
      obtain ⟨gap, -, gap', nonempty⟩ := depicts.shown.hull resolves.1.1
      rw [squeeze_castType? typed, squeeze_text exact_]
      rw [← span] at gap gap' nonempty
      have low := gap.1
      have high := gap'.1
      refine Laid.token depicts.shown.le ?_
      rw [← between_append text low (show node.span.start ≤ stop by omega),
        ← between_append text (Nat.le_of_lt nonempty) high, gap.between depicts.portrays,
        gap'.between depicts.portrays, List.nil_append, List.append_nil]

/-! ## Round brackets -/

theorem paren_ensures {position close count : Nat} (fit : FitOperands text onSegments)
    (left : Depicts text state start position before)
    (right : Depicts text state (close + 1) stop after) (present : core ≠ [])
    (spans : hull core = ⟨position, close + 1⟩) (order : position < close + 1)
    (listed : Laid text position (close + 1) (.token Op.openParen.spelling ::
      listParts (items content) ++ [.token Op.closeParen.spelling]))
    (typed : ∀ typeName, content.bind castType? = some typeName →
      Laid text position (close + 1) [.token Op.openParen.spelling,
        .token (squeeze typeName.toList), .token Op.closeParen.spelling])
    (faithful : ∀ item ∈ items content, item.Faithful text) (chars : other.ledger.chars = text) :
    Ensures text (FoldFits text (before ++ core ++ after))
      (OnSegments.paren onSegments position close count content before after other) := by
  have inside := left.shown.stop_le_size
  have inside' := right.shown.stop_le_size
  have bounds := right.shown.le
  have leftNone : Depicts text state position position [] := Depicts.nil left.portrays inside
  have rightNone : Depicts text state (close + 1) (close + 1) [] :=
    Depicts.nil left.portrays (by omega)
  have nothing : Covers [] none := rfl
  have nonempty : (Span.mk position (close + 1)).start < (Span.mk position (close + 1)).stop :=
    order
  unfold OnSegments.paren
  dsimp only
  split
  · obtain ⟨low, last⟩ := left.lastOperands
    refine Ensures.bind (fit _ _ _ _ other last chars) fun result state₁ chars₁ resolves₁ => ?_
    cases result with
    | none => exact .rejectBracket
    | some callee =>
        have around := joinNode_around last.shown rightNone.shown nonempty resolves₁.1 nothing
        refine Ensures.bind (newNodeAround_ensures around (spread_bounds last rightNone nonempty)
          chars₁) fun node state₂ chars₂ ⟨span, read⟩ => ?_
        have split : before ++ core ++ after = OnSegments.dropOperands before ++
            (OnSegments.lastOperands before ++ core ++ []) ++ after := by
          rw [List.append_nil, ← List.append_assoc, dropOperands_append]
        refine ⟨chars₂, foldFits_around split present spans nonempty last rightNone rfl
          span read ?_ ?_⟩
        · exact (laid_front last resolves₁.1).append listed
        · have faithfulCallee : callee.Faithful text := resolves₁.2
          exact children_faithful (by simpa [faithfulCallee] using faithful)
  · have found : ∃ operand back, OnSegments.castFrom count [] after = (operand, back) :=
      ⟨_, _, rfl⟩
    obtain ⟨operand, back, cast⟩ := found
    rw [cast]
    dsimp only
    cases typing : (if operand.isEmpty = true then none else content.bind castType?) with
    | none =>
        obtain ⟨inner, ends⟩ := spread_bounds leftNone rightNone nonempty
        refine Ensures.bind (newNode_ensures inner ends chars)
          fun node state₁ chars₁ ⟨span, read⟩ => ?_
        have split : before ++ core ++ after = before ++ ([] ++ core ++ []) ++ after := by simp
        refine ⟨chars₁, foldFits_around split present spans nonempty leftNone rightNone rfl span
          read listed ?_⟩
        exact children_faithful faithful
    | some typeName =>
        have isTyped : content.bind castType? = some typeName := by
          split at typing
          · contradiction
          · exact typing
        have all := castFrom_append count [] after
        rw [cast, List.nil_append] at all
        obtain ⟨high, first⟩ : ∃ high, Depicts text state (close + 1) high operand := by
          rw [← all] at right
          obtain ⟨high, first, -⟩ := right.parts
          exact ⟨high, first⟩
        refine Ensures.bind (fit _ _ _ _ other first chars) fun result state₁ chars₁ resolves₁ => ?_
        cases result with
        | none => exact .rejectBracket
        | some target =>
            have around := joinNode_around leftNone.shown first.shown nonempty nothing resolves₁.1
            refine Ensures.bind (newNodeAround_ensures around
              (spread_bounds leftNone first nonempty) chars₁)
              fun node state₂ chars₂ ⟨span, read⟩ => ?_
            have split : before ++ core ++ after = before ++ ([] ++ core ++ operand) ++ back := by
              rw [← all]
              simp
            refine ⟨chars₂, foldFits_around split present spans nonempty leftNone first rfl
              span read ?_ ?_⟩
            · have behind : Laid text (close + 1) (spread [] ⟨position, close + 1⟩ operand).stop
                  [.child target] :=
                @laid_back text state high ⟨position, close + 1⟩ [] operand _ first resolves₁.1
              exact (typed typeName isTyped).append behind
            · have faithfulTarget : target.Faithful text := resolves₁.2
              exact children_faithful (by simp [faithfulTarget])

/-! ## Square brackets -/

theorem indexParts_append (left right : List Expr) :
    indexParts (left ++ right) = indexParts left ++ indexParts right := by
  induction left with
  | nil => rfl
  | cons entry rest induction => simp [indexParts, induction]

theorem Segment.Fits.tree (fits : segment.Fits text) (isTree : segment.tree? = some expr) :
    expr.Faithful text := by
  obtain ⟨span, piece⟩ := segment
  cases piece with
  | op op => contradiction
  | word => contradiction
  | tree other =>
      obtain rfl := Option.some.inj isTree
      exact fits

theorem Segment.StandsIn.tree (stands : segment.StandsIn state)
    (isTree : segment.tree? = some expr) :
    HasSpan expr segment.span := by
  obtain ⟨span, piece⟩ := segment
  cases piece with
  | op op => contradiction
  | word => contradiction
  | tree other =>
      obtain rfl := Option.some.inj isTree
      exact stands.placed other rfl

/-- An expression that an index takes in is made of indices and an initializer. -/
theorem absorbed?_fits {span : Span} {further : List Expr} {initializer : Expr}
    (absorbs : absorbed? expr = some (further, initializer)) (faithful : expr.Faithful text)
    (placed : HasSpan expr span) :
    Laid text span.start span.stop (indexParts further ++ [.child initializer]) ∧
      (∀ item ∈ further, item.Faithful text) ∧ initializer.Faithful text := by
  obtain ⟨node, known, rfl⟩ := Option.map_eq_some_iff.1 placed
  obtain ⟨⟨_, exact_⟩, children⟩ := (faithful_iff (isPresent_iff.2 ⟨_, known⟩)).1 faithful
  obtain rfl := Option.some.inj (known.symm.trans exact_.node?)
  unfold absorbed? at absorbs
  split at absorbs
  · obtain ⟨rfl, rfl⟩ := Prod.mk.inj (Option.some.inj absorbs)
    refine ⟨exact_.laid, fun item member => ?_, ?_⟩
    · exact faithful_of_mem children (by simp [member])
    · exact faithful_of_mem children (by simp)
  · obtain ⟨rfl, rfl⟩ := Prod.mk.inj (Option.some.inj absorbs)
    exact ⟨Laid.child known exact_.nonempty, nofun, faithful⟩
  · contradiction

/-- What an index takes in is laid out behind it. -/
theorem absorb_fits (count : Nat) (indices : List Expr)
    (depicts : Depicts text state start stop segments) :
    ∃ added, (OnSegments.absorb count indices start segments).1.1 = indices ++ added ∧
      Laid text start (OnSegments.absorb count indices start segments).1.2.2
        (indexParts added ++ [.child (OnSegments.absorb count indices start segments).1.2.1]) ∧
      (∀ item ∈ added, item.Faithful text) ∧
      (OnSegments.absorb count indices start segments).1.2.1.Faithful text := by
  have stays (indices : List Expr) (start : Nat) : ∃ added, indices = indices ++ added ∧
      Laid text start start (indexParts added ++ [.child .absent]) ∧
      (∀ item ∈ added, item.Faithful text) ∧ absent.Faithful text :=
    ⟨[], by simp, ⟨Nat.le_refl _, between_self ..⟩, nofun, faithful_absent⟩
  induction count generalizing start segments indices with
  | zero => exact stays indices start
  | succ count induction =>
      cases segments with
      | nil => exact stays indices start
      | cons segment rest =>
          have split : Depicts text state start stop ([] ++ segment :: rest) := depicts
          obtain ⟨front, fits, stands, later⟩ := split.split
          have gap := front.shown.1
          have blank := gap.between depicts.portrays
          have order := gap.1
          rw [OnSegments.absorb]
          cases taken : segment.tree?.bind absorbed? with
          | none => exact stays indices start
          | some both =>
              obtain ⟨further, initializer⟩ := both
              obtain ⟨expr, isTree, absorbs⟩ := Option.bind_eq_some_iff.1 taken
              obtain ⟨laid, faithful, faithful'⟩ := absorbed?_fits absorbs
                (fits.tree isTree) (stands.tree isTree)
              dsimp only
              split
              · exact ⟨further, rfl, laid.behind order blank, faithful, faithful'⟩
              · next absent_ =>
                  have gone : initializer = .absent := by
                    cases initializer <;> simp_all [isPresent, isAbsent]
                  subst gone
                  obtain ⟨added, all, laidRest, faithfulRest, faithfulLast⟩ :=
                    induction (indices ++ further) later
                  refine ⟨further ++ added, by rw [all, List.append_assoc], ?_, ?_, faithfulLast⟩
                  · obtain ⟨middle, laidFurther, ends⟩ := laid_append.1 laid
                    rw [indexParts_append, List.append_assoc]
                    exact (laidFurther.behind order blank).append (laidRest.behind ends.1 ends.2)
                  · intro item member
                    rcases List.mem_append.1 member with inFront | inBack
                    · exact faithful item inFront
                    · exact faithfulRest item inBack

theorem index_ensures {position close count : Nat} (fit : FitOperands text onSegments)
    (left : Depicts text state start position before)
    (right : Depicts text state (close + 1) stop after) (present : core ≠ [])
    (spans : hull core = ⟨position, close + 1⟩) (order : position < close + 1)
    (indexed : Laid text position (close + 1) [.token Op.openBracket.spelling,
      .child (content.getD .absent), .token Op.closeBracket.spelling])
    (faithful : (content.getD .absent).Faithful text) (chars : other.ledger.chars = text) :
    Ensures text (FoldFits text (before ++ core ++ after))
      (OnSegments.index onSegments position close count content before after other) := by
  have nonempty : (Span.mk position (close + 1)).start < (Span.mk position (close + 1)).stop :=
    order
  obtain ⟨low, last⟩ := left.lastOperands
  unfold OnSegments.index
  refine Ensures.bind (fit _ _ _ _ other last chars) fun result state₁ chars₁ resolves₁ => ?_
  obtain ⟨taken, all, ends⟩ := absorb_split count [content.getD .absent] (close + 1) after
  obtain ⟨added, listed, laid, faithfulAdded, faithfulLast⟩ :=
    absorb_fits count [content.getD .absent] right
  generalize OnSegments.absorb count [content.getD .absent] (close + 1) after = absorbed
    at all ends listed laid faithfulLast ⊢
  obtain ⟨⟨indices, initializer, final⟩, back⟩ := absorbed
  dsimp only at all ends listed laid faithfulLast ⊢
  obtain ⟨high, first⟩ : ∃ high, Depicts text state (close + 1) high taken := by
    rw [all] at right
    obtain ⟨high, first, -⟩ := right.parts
    exact ⟨high, first⟩
  obtain ⟨inner, within⟩ := spread_bounds last first nonempty
  have made (around : Span)
      (same : around = spread (OnSegments.lastOperands before) ⟨position, close + 1⟩ taken) :
      Ensures text (fun node => node.span = spread (OnSegments.lastOperands before)
          ⟨position, close + 1⟩ taken ∧ node.text = String.ofList (node.span.slice text))
        (newNode around state₁) := by
    subst same
    exact newNode_ensures inner within chars₁
  refine Ensures.bind (made _ (congrArg₂ Span.mk ?_ ends)) fun node state₂ chars₂ placed => ?_
  · cases result with
    | none =>
        rw [show OnSegments.lastOperands before = [] from resolves₁.1]
        rfl
    | some target =>
        obtain ⟨targetNode, known, placed⟩ := Option.map_eq_some_iff.1 resolves₁.1.2
        rw [Option.getD_some, known]
        dsimp only
        rw [placed]
        exact (@spread_start_eq _ taken ⟨position, close + 1⟩ resolves₁.1.1).symm
  obtain ⟨span, read⟩ := placed
  have split : before ++ core ++ after = OnSegments.dropOperands before ++
      (OnSegments.lastOperands before ++ core ++ taken) ++ back := by
    conv_lhs => rw [← dropOperands_append before, all]
    simp
  refine ⟨chars₂, foldFits_around split present spans nonempty last first rfl
    span read ?_ ?_⟩
  · rw [show (spread (OnSegments.lastOperands before) ⟨position, close + 1⟩ taken).stop = final from
      ends.symm, parts, listed, indexParts_append]
    exact (laid_front last resolves₁.1).append (indexed.append laid)
  · subst listed
    refine children_faithful fun item member => ?_
    have faithfulTarget := resolves₁.2
    simp only [List.mem_append, List.mem_cons, List.not_mem_nil, or_false] at member
    rcases member with (rfl | rfl | inAdded) | rfl
    · exact faithfulTarget
    · exact faithful
    · exact faithfulAdded item inAdded
    · exact faithfulLast

/-! ## All brackets -/

theorem bracket_ensures (count : Nat) {op : Op} (fit : FitOperands text onSegments)
    (depicts : Depicts text state start stop (before ++ segment :: after))
    (isOp : segment.op? = some op) (opens : op.isOpening) (chars : other.ledger.chars = text) :
    Ensures text (FoldFits text (before ++ segment :: after))
      (OnSegments.bracket onSegments op segment.span.start count before after other) := by
  obtain ⟨front, fits, stands, back⟩ := depicts.split
  unfold OnSegments.bracket
  cases closes : op.closing? with
  | none => exact .rejectBracket
  | some closing =>
      dsimp only
      cases found : (headsOf after).find? (·.2 == closing) with
      | none => exact .rejectBracket
      | some head =>
          obtain ⟨close, found'⟩ := head
          have same := List.find?_some found
          obtain rfl : found' = closing := eq_of_beq same
          obtain ⟨inner, last, rest, rfl, isClosing, rfl⟩ :=
            exists_of_mem_headsOf (List.mem_of_find?_eq_some found)
          obtain ⟨depictsInner, fitsLast, standsLast, depictsRest⟩ := back.split
          have widthLast : last.span.start + 1 = last.span.stop := by
            rw [standsLast.span_eq isClosing, opSpan, closing?_width closes]
          have nonempty := stands.nonempty
          have nonempty' := standsLast.nonempty
          have order := depictsInner.shown.le
          dsimp only
          rw [splitAt_eq back.shown]
          refine Ensures.bind (show Ensures text (fun _ => True) _ from ⟨chars, trivial⟩)
            fun _ state₀ chars₀ _ => ?_
          refine Ensures.bind (fit _ _ _ inner state₀ depictsInner chars₀)
            fun content state₁ chars₁ resolves₁ => ?_
          rw [show before ++ segment :: (inner ++ last :: rest) =
            before ++ (segment :: inner ++ [last]) ++ rest by simp]
          have spans : hull (segment :: inner ++ [last]) =
              ⟨segment.span.start, last.span.start + 1⟩ := by
            rw [widthLast]
            exact congrArg₂ Span.mk rfl (hull_append_stop (segment :: inner) last)
          have opening := fits.laid isOp nonempty
          have closing := fitsLast.laid isClosing nonempty'
          have listed := opening.append ((laid_items depictsInner resolves₁).append closing)
          rw [← widthLast] at closing listed depictsRest
          dsimp only
          cases op with
          | openParen =>
              obtain rfl := Option.some.inj closes
              refine paren_ensures fit front depictsRest (by simp) spans (by omega) listed ?_
                (items_faithful resolves₁) chars₁
              intro typeName typed
              exact opening.append ((laid_castType depictsInner resolves₁ typed).append closing)
          | openBracket =>
              obtain rfl := Option.some.inj closes
              exact index_ensures fit front depictsRest (by simp) spans (by omega)
                (opening.append ((laid_content depictsInner resolves₁.1).append closing))
                resolves₁.2 chars₁
          | openBrace =>
              obtain rfl := Option.some.inj closes
              have inside := front.shown.stop_le_size
              have inside' := depictsRest.shown.stop_le_size
              have bounds := depictsRest.shown.le
              have size := depicts.portrays.size
              refine Ensures.bind (newNode_ensures (show segment.span.start < last.span.start + 1
                by omega) (show last.span.start + 1 ≤ text.length by omega) chars₁)
                fun node state₂ chars₂ new => ?_
              obtain ⟨span, read⟩ := new
              refine ⟨chars₂, foldFits_around
                (show before ++ (segment :: inner ++ [last]) ++ rest =
                  before ++ ([] ++ (segment :: inner ++ [last]) ++ []) ++ rest by simp)
                (by simp) spans (by dsimp only; omega)
                (Depicts.nil depicts.portrays inside)
                (Depicts.nil depicts.portrays (by dsimp only; omega)) rfl span read listed ?_⟩
              exact children_faithful (items_faithful resolves₁)
          | _ => contradiction

end

end Reduction
end MethodLowering
