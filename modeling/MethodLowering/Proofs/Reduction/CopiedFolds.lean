import MethodLowering.Proofs.Brackets.Matching
import MethodLowering.Proofs.Ledger.Scanning
import MethodLowering.Proofs.Reduction.Copying
import MethodLowering.Proofs.Reduction.Simulation

/-!
# Folding copies

Every fold of segments gives, where the segments stand further on, a copy of its expression with the
copies of the segments that are left.
-/

namespace MethodLowering
namespace Reduction

/-- Copies of segments are reduced to a copy of what the segments are reduced to. -/
def FollowsOperands (shift stop : Nat) (whole : List Char)
    (operands operands' : OnSegments.Operands) : Prop :=
  ∀ segments copies left right, AllCopy shift stop segments copies →
    Copying shift stop whole left right →
    Follows shift stop whole (Option.Rel (Expr.Copies shift stop)) (operands segments left)
      (operands' copies right)

namespace OnSegments

/-- A fold and its copy. -/
structure Folded.Copies (shift stop : Nat) (folded copy : Folded) : Prop where
  front : AllCopy shift stop folded.front copy.front
  expr : folded.expr.Copies shift stop copy.expr
  back : AllCopy shift stop folded.back copy.back

section

variable {shift stop : Nat} {whole : List Char} {left right : Reduction}
  {operands operands' : Operands} {op : Op}
  {position : Nat} {before before' after after' : List Segment}

/-! ## Operators -/

theorem opSpan_shift (op : Op) (position shift : Nat) :
    (opSpan op position).shift shift = opSpan op (position + shift) := by
  rw [opSpan, opSpan, Span.shift, Nat.add_right_comm]

theorem opNode_follows (copying : Copying shift stop whole left right) {exprs exprs' : List Expr}
    (within : position + op.width ≤ stop)
    (copies : List.Forall₂ (Expr.Copies shift stop) exprs exprs') :
    Follows shift stop whole (Node.Copies shift stop)
    (newNodeAround (opSpan op position) exprs left)
      (newNodeAround (opSpan op (position + shift)) exprs' right) := by
  rw [← opSpan_shift]
  exact newNodeAround_follows copying within copies

section

variable (follows : FollowsOperands shift stop whole operands operands')
  (copying : Copying shift stop whole left right) (front : AllCopy shift stop before before')
  (back : AllCopy shift stop after after') (within : position + op.width ≤ stop)
include follows copying front back within

theorem binary_follows :
    Follows shift stop whole (Folded.Copies shift stop)
    (binary operands op position before after left)
      (binary operands' op (position + shift) before' after' right) := by
  refine (follows _ _ _ _ front copying).bind fun first first' _ _ copying copied => ?_
  refine (follows _ _ _ _ back copying).bind fun second second' _ _ copying copied' => ?_
  have first := Expr.getD_copies copied
  have second := Expr.getD_copies copied'
  refine (opNode_follows copying within (.cons first (.cons second .nil))).bind
    fun node node' _ _ copying nodes => .pure copying ⟨.nil, .operation nodes first second, .nil⟩

theorem assignment_follows :
    Follows shift stop whole (Folded.Copies shift stop)
    (assignment operands op position before after left)
      (assignment operands' op (position + shift) before' after' right) := by
  refine (follows _ _ _ _ front copying).bind fun first first' _ _ copying copied => ?_
  refine (required_follows copying copied _ _).bind fun target target' _ _ copying first => ?_
  refine (follows _ _ _ _ back copying).bind fun second second' _ _ copying copied' => ?_
  have second := Expr.getD_copies copied'
  refine (opNode_follows copying within (.cons first (.cons second .nil))).bind
    fun node node' _ _ copying nodes => .pure copying ⟨.nil, .assignment nodes first second, .nil⟩

end

theorem pairedColon?_shift (depth : Nat) (heads : List (Nat × Op)) :
    pairedColon? depth (heads.map fun head => (head.1 + shift, head.2)) =
      (pairedColon? depth heads).map (· + shift) := by
  induction heads generalizing depth with
  | nil => rfl
  | cons head rest induction =>
      obtain ⟨position, op⟩ := head
      cases op with
      | question => exact induction _
      | colon =>
          rw [List.map_cons, pairedColon?, pairedColon?]
          split
          · rfl
          · exact induction _
      | _ => exact induction _

theorem mem_of_pairedColon? {depth colon : Nat} {heads : List (Nat × Op)}
    (paired : pairedColon? depth heads = some colon) : (colon, Op.colon) ∈ heads := by
  induction heads generalizing depth with
  | nil => contradiction
  | cons head rest induction =>
      obtain ⟨position, op⟩ := head
      cases op with
      | question => exact List.mem_cons_of_mem _ (induction paired)
      | colon =>
          rw [pairedColon?] at paired
          split at paired
          · obtain rfl := Option.some.inj paired
            exact List.mem_cons_self
          · exact List.mem_cons_of_mem _ (induction paired)
      | _ => exact List.mem_cons_of_mem _ (induction paired)

theorem conditional_follows (follows : FollowsOperands shift stop whole operands operands')
    (copying : Copying shift stop whole left right) (front : AllCopy shift stop before before')
    (back : AllCopy shift stop after after') (within : position + 1 ≤ stop) :
    Follows shift stop whole (Folded.Copies shift stop)
    (conditional operands position before after left)
      (conditional operands' (position + shift) before' after' right) := by
  unfold conditional
  rw [headsOf_copies back, pairedColon?_shift]
  cases paired : pairedColon? 0 (headsOf after) with
  | none => trivial
  | some colon =>
      have inside := width_le_of_mem_headsOf back (mem_of_pairedColon? paired)
      obtain ⟨inFront, behind⟩ := splitAt_copies back colon
      refine (follows _ _ _ _ front copying).bind fun condition condition' _ _ copying copied => ?_
      refine (follows _ _ _ _ inFront copying).bind fun first first' _ _ copying copied₁ => ?_
      refine (follows _ _ _ _ behind copying).bind fun second second' _ _ copying copied₂ => ?_
      have condition := Expr.getD_copies copied
      have first := Expr.getD_copies copied₁
      have second := Expr.getD_copies copied₂
      refine (@opNode_follows _ _ _ _ _ .colon colon copying _ _ inside
        (.cons first (.cons second .nil))).bind fun inner inner' _ _ copying nodes => ?_
      have branches := @Expr.Copies.operation _ _ _ _ .colon _ _ _ _ nodes first second
      refine (@opNode_follows _ _ _ _ _ .question position copying _ _ within
        (.cons condition (.cons branches .nil))).bind fun node node' _ _ copying nodes => ?_
      exact .pure copying ⟨.nil, .operation nodes condition branches, .nil⟩

theorem qualifyConstruction?_follows (copying : Copying shift stop whole left right)
    {subject subject' member member' : Expr} (first : subject.Copies shift stop subject')
    (second : member.Copies shift stop member') :
    Follows shift stop whole (Option.Rel (Expr.Copies shift stop))
    (qualifyConstruction? subject member left) (qualifyConstruction? subject' member' right) := by
  have nothing : Follows shift stop whole (Option.Rel (Expr.Copies shift stop))
      ((Pure.pure none : ReduceM (Option Expr)) left) ((Pure.pure none : ReduceM _) right) :=
    .pure copying .none
  unfold qualifyConstruction?
  have subjects := first.node?
  have names := second.memberName?
  have members := second.node?
  rw [first.constructedType?]
  revert subjects names members
  generalize subject.node? = subjectNode
  generalize subject'.node? = subjectNode'
  generalize memberName? member = named
  generalize memberName? member' = named'
  generalize member.node? = memberNode
  generalize member'.node? = memberNode'
  intro subjects names members
  cases subject.constructedType? with
  | none => exact nothing
  | some qualifier =>
      cases subjects with
      | none => exact nothing
      | @some subjectNode subjectNode' subjects =>
          cases names with
          | none => exact nothing
          | @some named named' names =>
              cases members with
              | none => exact nothing
              | @some memberNode memberNode' members =>
                  obtain ⟨name, rebuild⟩ := named
                  obtain ⟨name', rebuild'⟩ := named'
                  obtain ⟨names, rebuilt⟩ := names
                  dsimp only at names rebuilt ⊢
                  have nameSpan : (⟨subjectNode'.span.start, name'.span.stop⟩ : Span) =
                      Span.shift shift ⟨subjectNode.span.start, name.span.stop⟩ := by
                    rw [subjects.span, names.span]
                    rfl
                  have whole : (⟨subjectNode'.span.start, memberNode'.span.stop⟩ : Span) =
                      Span.shift shift ⟨subjectNode.span.start, memberNode.span.stop⟩ := by
                    rw [subjects.span, members.span]
                    rfl
                  rw [nameSpan, whole, names.text]
                  refine (@textAt_follows _ _ _ _ _ copying
                    ⟨subjectNode.span.start, name.span.stop⟩ names.within).bind
                    fun text _ _ _ copying same => ?_
                  refine (@textAt_follows _ _ _ _ _ copying
                    ⟨subjectNode.span.start, memberNode.span.stop⟩ members.within).bind
                    fun all _ _ _ copying same' => ?_
                  subst same same'
                  refine .pure copying (.some ((rebuilt _ _ (.leaf ?_)).relocate members.within))
                  exact ⟨rfl, rfl, names.within⟩

theorem qualifyDeclaration?_follows (copying : Copying shift stop whole left right)
    {subject subject' member member' : Expr} (first : subject.Copies shift stop subject')
    (second : member.Copies shift stop member') :
    Follows shift stop whole (Option.Rel (Expr.Copies shift stop))
    (qualifyDeclaration? subject member left) (qualifyDeclaration? subject' member' right) := by
  have nothing : Follows shift stop whole (Option.Rel (Expr.Copies shift stop))
      ((Pure.pure none : ReduceM (Option Expr)) left) ((Pure.pure none : ReduceM _) right) :=
    .pure copying .none
  unfold qualifyDeclaration?
  have subjects := first.node?
  revert subjects
  generalize subject.node? = subjectNode
  generalize subject'.node? = subjectNode'
  intro subjects
  cases subjects with
  | none => exact nothing
  | @some subjectNode subjectNode' subjects =>
      cases second with
      | @declaration node node' declared continued nodes =>
          dsimp only
          rw [subjects.text]
          split
          · obtain ⟨nextNode, effort, body⟩ := copying.body
            have vars : right.body.vars = left.body.vars := by rw [body]
            refine .get ?_
            rw [vars]
            cases left.body.vars[declared]? with
            | none => exact nothing
            | some entry =>
                refine (modifyBody_follows copying fun _ nextNode effort =>
                  ⟨nextNode, effort, rfl⟩).bind fun _ _ _ _ copying _ => ?_
                rw [subjects.span, nodes.span, ← Span.shift_join]
                have within : (subjectNode.span.join node.span).stop ≤ stop :=
                  Nat.max_le.2 ⟨subjects.within, nodes.within⟩
                refine (textAt_follows copying within).bind fun text _ _ _ copying same => ?_
                subst same
                exact .pure copying (.some (.declaration ⟨rfl, rfl, within⟩))
          · exact nothing
      | _ => exact nothing

theorem access_follows (follows : FollowsOperands shift stop whole operands operands')
    (copying : Copying shift stop whole left right) (front : AllCopy shift stop before before')
    (back : AllCopy shift stop after after') (within : position + 1 ≤ stop) :
    Follows shift stop whole (Folded.Copies shift stop) (access operands position before after left)
      (access operands' (position + shift) before' after' right) := by
  have inFront := dropOperands_copies front
  have behind := skipOperands_copies back
  refine (follows _ _ _ _ (lastOperands_copies front) copying).bind
    fun first first' _ _ copying copied => ?_
  refine (required_follows copying copied _ _).bind fun subject subject' _ _ copying first => ?_
  refine (follows _ _ _ _ (firstOperands_copies back) copying).bind
    fun second second' _ _ copying copied => ?_
  refine (required_follows copying copied _ _).bind fun member member' _ _ copying second => ?_
  refine (qualifyConstruction?_follows copying first second).bind
    fun construction construction' _ _ copying copied => ?_
  cases copied with
  | some copied => exact .pure copying ⟨inFront, copied, behind⟩
  | none =>
      refine (qualifyDeclaration?_follows copying first second).bind
        fun declaration declaration' _ _ copying copied => ?_
      cases copied with
      | some copied => exact .pure copying ⟨inFront, copied, behind⟩
      | none =>
          refine (@opNode_follows _ _ _ _ _ .dot position copying _ _ within
            (.cons first (.cons second .nil))).bind fun node node' _ _ copying nodes => ?_
          exact .pure copying ⟨inFront, .access nodes first second, behind⟩

theorem isEmpty_copies {segments copies : List Segment} (all : AllCopy shift stop segments copies) :
    copies.isEmpty = segments.isEmpty := by
  cases all <;> rfl

section

variable (follows : FollowsOperands shift stop whole operands operands')
  (copying : Copying shift stop whole left right) (front : AllCopy shift stop before before')
  (back : AllCopy shift stop after after')
include follows copying front back

theorem typeTest_follows :
    Follows shift stop whole (Folded.Copies shift stop) (typeTest operands before after left)
      (typeTest operands' before' after' right) := by
  have typeName := firstOperands_copies back
  refine (follows _ _ _ _ (lastOperands_copies front) copying).bind
    fun first first' _ _ copying copied => ?_
  refine (required_follows copying copied _ _).bind fun operand operand' _ _ copying first => ?_
  rw [isEmpty_copies typeName]
  split
  · trivial
  · next present =>
      obtain ⟨same, within⟩ := hull_copies typeName (mt List.isEmpty_iff.2 present)
      rw [same]
      refine (textAt_follows copying within).bind fun text _ _ _ copying same => ?_
      subst same
      refine (newNodeAround_follows copying within (.cons first .nil)).bind
        fun node node' _ _ copying nodes => ?_
      exact .pure copying ⟨dropOperands_copies front, .typeTest nodes first,
        skipOperands_copies back⟩

theorem unary_follows (within : position + op.width ≤ stop) :
    Follows shift stop whole (Folded.Copies shift stop)
    (unary operands op position before after left)
      (unary operands' op (position + shift) before' after' right) := by
  unfold unary
  rw [isEmpty_copies (lastOperands_copies front)]
  split
  · refine (follows _ _ _ _ (lastOperands_copies front) copying).bind
      fun first first' _ _ copying copied => ?_
    refine (required_follows copying copied _ _).bind fun operand operand' _ _ copying first => ?_
    refine (opNode_follows copying within (.cons first .nil)).bind
      fun node node' _ _ copying nodes => ?_
    exact .pure copying ⟨dropOperands_copies front, .operation nodes first .absent, back⟩
  · refine (follows _ _ _ _ (firstOperands_copies back) copying).bind
      fun first first' _ _ copying copied => ?_
    refine (required_follows copying copied _ _).bind fun operand operand' _ _ copying first => ?_
    refine (opNode_follows copying within (.cons first .nil)).bind
      fun node node' _ _ copying nodes => ?_
    exact .pure copying ⟨front, .operation nodes .absent first, skipOperands_copies back⟩

end

end

/-! ## Brackets -/

section

variable {shift stop : Nat} {whole : List Char} {left right : Reduction}
  {operands operands' : Operands} {op : Op}
  {position close count more : Nat} {before before' after after' segments copies : List Segment}
  {segment copy : Segment} {content content' : Option Expr}

theorem closingHead?_shift (opening closing : Op) (depth : Nat) (heads : List (Nat × Op)) :
    closingHead? opening closing depth (heads.map fun head => (head.1 + shift, head.2)) =
      (closingHead? opening closing depth heads).map (· + shift) := by
  induction heads generalizing depth with
  | nil => rfl
  | cons head rest induction =>
      rw [List.map_cons, closingHead?, closingHead?]
      split
      · exact induction _
      · split
        · split
          · rfl
          · exact induction _
        · exact induction _

/-- Two parts of a list and their copies. -/
def PartsCopy (shift stop : Nat) (parts parts' : List Segment × List Segment) : Prop :=
  AllCopy shift stop parts.1 parts'.1 ∧ AllCopy shift stop parts.2 parts'.2

theorem bracketed?_copies (copied : segment.Copies shift stop copy) (op : Op)
    (all : AllCopy shift stop segments copies) :
    Option.Rel (PartsCopy shift stop) (bracketed? op segment segments)
    (bracketed? op copy copies) := by
  unfold bracketed?
  split
  · cases op.closing? with
    | none => exact .none
    | some closing =>
        rw [Option.bind_some, Option.bind_some, headsOf_copies (.cons copied all),
          closingHead?_shift]
        cases closingHead? op closing 0 (headsOf (segment :: segments)) with
        | none => exact .none
        | some close =>
            have same (segment copy : Segment) (copied : segment.Copies shift stop copy) :
                decide (copy.span.start ≤ close + shift) = decide (segment.span.start ≤ close) := by
              rw [copied.start]
              exact decide_eq_decide.2 Nat.add_le_add_iff_right
            exact .some ⟨forall₂_takeWhile same all, forall₂_dropWhile same all⟩
  · exact .none

theorem allCopy_append {segments' copies' : List Segment}
    (first : AllCopy shift stop segments copies) (second : AllCopy shift stop segments' copies') :
    AllCopy shift stop (segments ++ segments') (copies ++ copies') :=
  List.rel_append first second

theorem castFrom_copies (count : Nat) {taken taken' : List Segment}
    (first : AllCopy shift stop taken taken') (all : AllCopy shift stop segments copies) :
    PartsCopy shift stop (castFrom count taken segments) (castFrom count taken' copies) := by
  induction count generalizing taken taken' segments copies with
  | zero => exact ⟨allCopy_append first (firstOperands_copies all), skipOperands_copies all⟩
  | succ count induction =>
      have operand := allCopy_append first (firstOperands_copies all)
      have rest := skipOperands_copies all
      rw [castFrom, castFrom]
      revert operand rest
      generalize taken ++ firstOperands segments = operand
      generalize taken' ++ firstOperands copies = operand'
      generalize skipOperands segments = rest
      generalize skipOperands copies = rest'
      intro operandCopied restCopied
      cases restCopied with
      | nil => exact ⟨operandCopied, .nil⟩
      | @cons next next' behind behind' nextCopied behindCopied =>
          have stays :
              PartsCopy shift stop (operand, next :: behind) (operand', next' :: behind') :=
            ⟨operandCopied, .cons nextCopied behindCopied⟩
          dsimp only
          rw [isEmpty_copies operandCopied, nextCopied.op?]
          split
          · exact stays
          · split
            · exact induction (allCopy_append operandCopied (.cons nextCopied .nil)) behindCopied
            · cases next.op? with
              | none => exact stays
              | some op =>
                  have bracketed := bracketed?_copies nextCopied op behindCopied
                  rw [Option.bind_some, Option.bind_some]
                  revert bracketed
                  generalize bracketed? op next behind = parts
                  generalize bracketed? op next' behind' = parts'
                  rintro (⟨inside, tail⟩ | -)
                  · exact induction (allCopy_append operandCopied (.cons nextCopied inside)) tail
                  · exact stays

theorem paren_follows (follows : FollowsOperands shift stop whole operands operands')
    (copying : Copying shift stop whole left right) (front : AllCopy shift stop before before')
    (back : AllCopy shift stop after after') (within : close + 1 ≤ stop)
    (copied : Option.Rel (Expr.Copies shift stop) content content') :
    Follows shift stop whole (Folded.Copies shift stop)
      (paren operands position close count content before after left)
      (paren operands' (position + shift) (close + shift) count content' before' after' right) := by
  have span : (⟨position + shift, close + shift + 1⟩ : Span) =
      Span.shift shift ⟨position, close + 1⟩ := by
    rw [Span.shift, Nat.add_right_comm]
  have items := Expr.items_copies copied
  unfold paren
  rw [isEmpty_copies (lastOperands_copies front), span]
  split
  · refine (follows _ _ _ _ (lastOperands_copies front) copying).bind
      fun callee callee' _ _ copying copied => ?_
    cases copied with
    | none => trivial
    | some copied =>
        refine (newNodeAround_follows copying within (.cons copied .nil)).bind
          fun node node' _ _ copying nodes => ?_
        exact .pure copying ⟨dropOperands_copies front, .call nodes copied items, back⟩
  · have cast := castFrom_copies count .nil back
    revert cast
    generalize castFrom count [] after = parts
    generalize castFrom count [] after' = parts'
    obtain ⟨operand, rest⟩ := parts
    obtain ⟨operand', rest'⟩ := parts'
    rintro ⟨operandCopied, restCopied⟩
    dsimp only at operandCopied restCopied ⊢
    have reads : content'.bind castType? = content.bind castType? := by
      cases copied with
      | none => rfl
      | some copied => exact copied.castType?
    rw [isEmpty_copies operandCopied, reads]
    generalize (if operand.isEmpty = true then none else content.bind castType?) = type
    cases type with
    | none =>
        refine (newNode_follows copying within).bind fun node node' _ _ copying nodes => ?_
        exact .pure copying ⟨front, .group nodes items, back⟩
    | some typeName =>
        refine (follows _ _ _ _ operandCopied copying).bind
          fun target target' _ _ copying copied => ?_
        cases copied with
        | none => trivial
        | some copied =>
            refine (newNodeAround_follows copying within (.cons copied .nil)).bind
              fun node node' _ _ copying nodes => ?_
            exact .pure copying ⟨front, .cast nodes copied, restCopied⟩

/-- What an index takes in, and its copy. -/
theorem absorb_copies (all : AllCopy shift stop segments copies) (count : Nat)
    {indices indices' : List Expr}
    (first : List.Forall₂ (Expr.Copies shift stop) indices indices') {last : Nat}
    (within : last ≤ stop) :
    List.Forall₂ (Expr.Copies shift stop) (absorb count indices last segments).1.1
        (absorb count indices' (last + shift) copies).1.1 ∧
      (absorb count indices last segments).1.2.1.Copies shift stop
        (absorb count indices' (last + shift) copies).1.2.1 ∧
      (absorb count indices' (last + shift) copies).1.2.2 =
        (absorb count indices last segments).1.2.2 + shift ∧
      (absorb count indices last segments).1.2.2 ≤ stop ∧
      AllCopy shift stop (absorb count indices last segments).2
        (absorb count indices' (last + shift) copies).2 := by
  induction count generalizing segments copies indices indices' last with
  | zero => exact ⟨first, .absent, rfl, within, all⟩
  | succ count induction =>
      cases all with
      | nil => exact ⟨first, .absent, rfl, within, .nil⟩
      | @cons segment copy rest rest' copied later =>
          have trees :
              Option.Rel (fun taken taken' =>
                List.Forall₂ (Expr.Copies shift stop) taken.1 taken'.1 ∧
              taken.2.Copies shift stop taken'.2) (segment.tree?.bind absorbed?)
              (copy.tree?.bind absorbed?) := by
            have trees := copied.tree?
            revert trees
            generalize segment.tree? = tree
            generalize copy.tree? = tree'
            rintro (same | -)
            · exact same.absorbed?
            · exact .none
          have ends : copy.span.stop = segment.span.stop + shift := congrArg Span.stop copied.span
          rw [absorb, absorb]
          revert trees
          generalize segment.tree?.bind absorbed? = taken
          generalize copy.tree?.bind absorbed? = taken'
          rintro (⟨further, initializers⟩ | -)
          · next taken taken' =>
            dsimp only
            have joined := List.rel_append first further
            rw [initializers.isPresent]
            split
            · exact ⟨joined, initializers, ends, copied.within, later⟩
            · rw [ends]
              exact induction later joined copied.within
          · exact ⟨first, .absent, rfl, within, .cons copied later⟩

theorem index_follows (follows : FollowsOperands shift stop whole operands operands')
    (copying : Copying shift stop whole left right) (front : AllCopy shift stop before before')
    (back : AllCopy shift stop after after') (within : close + 1 ≤ stop)
    (copied : Option.Rel (Expr.Copies shift stop) content content') :
    Follows shift stop whole (Folded.Copies shift stop)
      (index operands position close count content before after left)
      (index operands' (position + shift) (close + shift) count content' before' after' right) := by
  unfold index
  refine (follows _ _ _ _ (lastOperands_copies front) copying).bind
    fun target target' _ _ copying targetCopied => ?_
  have targets := Expr.getD_copies targetCopied
  have absorbed := absorb_copies back count (.cons (Expr.getD_copies copied) .nil) within
  rw [Nat.add_right_comm close]
  revert absorbed
  generalize absorb count [content.getD .absent] (close + 1) after = taken
  generalize absorb count [content'.getD .absent] (close + 1 + shift) after' = taken'
  obtain ⟨⟨indices, initializer, last⟩, rest⟩ := taken
  obtain ⟨⟨indices', initializer', last'⟩, rest'⟩ := taken'
  rintro ⟨indicesCopied, initializerCopied, ends, bound, restCopied⟩
  dsimp only at indicesCopied initializerCopied ends bound restCopied ⊢
  subst ends
  have nodes := targets.node?
  revert nodes
  generalize (target.getD .absent).node? = node
  generalize (target'.getD .absent).node? = node'
  intro nodes
  have made (start : Nat) : Follows shift stop whole (Folded.Copies shift stop)
      ((newNode ⟨start, last⟩ >>= fun node => pure
        ⟨dropOperands before, .index node (target.getD .absent) indices initializer, rest⟩) _)
      ((newNode (Span.shift shift ⟨start, last⟩) >>= fun node => pure
        ⟨dropOperands before', .index node (target'.getD .absent) indices' initializer', rest'⟩)
          _) :=
    (@newNode_follows _ _ _ _ _ copying ⟨start, last⟩ bound).bind
      fun node node' _ _ copying nodes =>
      .pure copying ⟨dropOperands_copies front, .index nodes targets indicesCopied
        initializerCopied,
        restCopied⟩
  cases nodes with
  | none => exact made position
  | @some node node' nodes =>
      dsimp only
      rw [nodes.span]
      exact made node.span.start

theorem recordPair_follows (copying : Copying shift stop whole left right)
    (opening closing opening' closing' : Nat) :
    Follows shift stop whole (fun _ _ => True) (recordPair opening closing left)
      (recordPair opening' closing' right) :=
  ⟨⟨copying.chars, copying.slice, copying.scope, copying.body⟩, trivial⟩

theorem bracket_follows (follows : FollowsOperands shift stop whole operands operands')
    (copying : Copying shift stop whole left right) (front : AllCopy shift stop before before')
    (back : AllCopy shift stop after after') (op : Op) :
    Follows shift stop whole (Folded.Copies shift stop)
      (bracket operands op position count before after left)
      (bracket operands' op (position + shift) count before' after' right) := by
  unfold bracket
  cases op.closing? with
  | none => trivial
  | some closing =>
      dsimp only
      rw [headsOf_copies back, List.find?_map,
        show ((·.2 == closing) ∘ fun head : Nat × Op => (head.1 + shift, head.2)) =
        (·.2 == closing) from rfl]
      cases search : (headsOf after).find? (·.2 == closing) with
      | none => trivial
      | some head =>
          obtain ⟨close, found⟩ := head
          have inside := width_le_of_mem_headsOf back (List.mem_of_find?_eq_some search)
          have positive := Ledger.width_pos found
          have within : close + 1 ≤ stop := by omega
          obtain ⟨inner, rest⟩ := splitAt_copies back close
          refine (recordPair_follows copying _ _ _ _).bind fun _ _ _ _ copying _ => ?_
          refine (follows _ _ _ _ inner copying).bind
            fun content content' state state' copying copied => ?_
          have group : Follows shift stop whole (Folded.Copies shift stop)
              ((newNode ⟨position, close + 1⟩ >>= fun node => pure
                ⟨before, .group node true (items content), (splitAt close after).2⟩) state)
              ((newNode ⟨position + shift, close + shift + 1⟩ >>= fun node => pure
                ⟨before', .group node true (items content'), (splitAt (close + shift) after').2⟩)
                state') := by
            rw [show (⟨position + shift, close + shift + 1⟩ : Span) =
              Span.shift shift ⟨position, close + 1⟩ by rw [Span.shift, Nat.add_right_comm]]
            exact (newNode_follows copying within).bind fun node node' _ _ copying nodes =>
              .pure copying ⟨front, .group nodes (Expr.items_copies copied), rest⟩
          cases op with
          | openParen => exact paren_follows follows copying front rest within copied
          | openBracket => exact index_follows follows copying front rest within copied
          | _ => exact group

/-! ## Rounds -/

theorem fold_follows (follows : FollowsOperands shift stop whole operands operands')
    (copying : Copying shift stop whole left right) (front : AllCopy shift stop before before')
    (back : AllCopy shift stop after after') {candidate : Candidate}
    (within : candidate.position + candidate.op.width ≤ stop) :
    Follows shift stop whole (Folded.Copies shift stop)
    (fold operands candidate count before after left)
      (fold operands' (shiftCandidate shift candidate) count before' after' right) := by
  obtain ⟨position, op, isSign⟩ := candidate
  dsimp only at within
  by_cases own : op ∈ ownFolds
  · simp only [ownFolds, List.mem_cons, List.not_mem_nil, or_false] at own
    rcases own with rfl | rfl | rfl | rfl | rfl | rfl | rfl | rfl | rfl
    · exact bracket_follows follows copying front back .openParen
    · exact bracket_follows follows copying front back .openBracket
    · exact @bracket_follows _ _ _ _ _ _ _ position count _ _ _ _ follows copying front
        back .openBrace
    · exact conditional_follows follows copying front back within
    · exact access_follows follows copying front back within
    · exact typeTest_follows follows copying front back
    · exact unary_follows follows copying front back within
    · exact unary_follows follows copying front back within
    · exact unary_follows follows copying front back within
  · rw [fold_other own, shiftCandidate, fold_other own]
    dsimp only
    split
    · exact unary_follows follows copying front back within
    · split
      · exact assignment_follows follows copying front back within
      · split
        · trivial
        · exact binary_follows follows copying front back within

theorem leaf_follows (copying : Copying shift stop whole left right)
    (all : AllCopy shift stop segments copies) (present : segments ≠ []) :
    Follows shift stop whole (Expr.Copies shift stop) (leaf segments left) (leaf copies right) := by
  obtain ⟨same, within⟩ := hull_copies all present
  have trees : (copies.any fun segment => segment.tree?.isSome) =
      segments.any fun segment => segment.tree?.isSome := by
    clear same within present
    induction all with
    | nil => rfl
    | @cons segment copy rest rest' first later induction =>
        have tree := first.tree?
        rw [List.any_cons, List.any_cons, induction]
        congr 1
        revert tree
        generalize segment.tree? = tree
        generalize copy.tree? = tree'
        rintro (- | -)
        · rfl
        · rfl
  unfold leaf
  rw [trees, same]
  split
  · exact newLeaf_follows copying within .verbatim
  · refine .getLedger ?_
    rw [Ledger.slice_eq, Ledger.slice_eq, (copying.slice _ within).1]
    exact classify_follows copying within _

theorem whole?_copies (all : AllCopy shift stop segments copies) :
    Option.Rel (Expr.Copies shift stop) (whole? segments) (whole? copies) := by
  cases all with
  | nil => exact .none
  | cons first rest =>
      cases rest with
      | nil => exact first.tree?
      | cons => exact .none

/-- The expression of a fold as a segment. -/
theorem treeSegment_copies {expr expr' : Expr} {span : Span} (copied : expr.Copies shift stop expr')
    (within : span.stop ≤ stop) :
    Segment.Copies shift stop ⟨(expr.node?.map (·.span)).getD span, .tree expr⟩
      ⟨(expr'.node?.map (·.span)).getD (span.shift shift), .tree expr'⟩ := by
  have nodes := copied.node?
  revert nodes
  generalize expr.node? = node
  generalize expr'.node? = node'
  rintro (nodes | -)
  · exact ⟨nodes.span, nodes.within, .tree copied⟩
  · exact ⟨rfl, within, .tree copied⟩

theorem effort_follows (copying : Copying shift stop whole left right) (change : Effort → Effort) :
    Follows shift stop whole (fun _ _ => True)
      (modifyBody (fun body => { body with effort := change body.effort }) left)
      (modifyBody (fun body => { body with effort := change body.effort }) right) :=
  modifyBody_follows copying fun _ nextNode effort => ⟨nextNode, change effort, rfl⟩

theorem rounds_follows (follows : FollowsOperands shift stop whole operands operands')
    (copying : Copying shift stop whole left right) (all : AllCopy shift stop segments copies)
    (present : segments ≠ []) (enough : count ≤ more) :
    Follows shift stop whole (Expr.Copies shift stop) (rounds operands count segments left)
      (rounds operands' more copies right) := by
  induction count generalizing left right segments copies more with
  | zero => exact stalls_follows
  | succ count induction =>
      obtain ⟨more, rfl⟩ : ∃ fewer, more = fewer + 1 := ⟨more - 1, by omega⟩
      refine (effort_follows copying fun effort => { effort with rounds := effort.rounds + 1 }).bind
        fun _ _ _ _ copying _ => ?_
      have whole := whole?_copies all
      revert whole
      generalize whole? segments = expr
      generalize whole? copies = expr'
      rintro (copied | -)
      · exact .pure copying copied
      · dsimp only
        unfold next
        rw [best?_copies all]
        cases best : best? segments with
        | none =>
            rw [headsOf_copies all, List.head?_map]
            cases (headsOf segments).head? with
            | none => exact leaf_follows copying all present
            | some head => trivial
        | some candidate =>
            have among : (candidate.position, candidate.op) ∈ headsOf segments := by
              obtain ⟨before, segment, after, rfl, isOp, position⟩ := exists_of_best? best
              rw [headsOf_append, headsOf_op isOp, position]
              exact List.mem_append_right _ List.mem_cons_self
            obtain ⟨inFront, behind⟩ := splitAt_copies all candidate.position
            obtain ⟨same, within⟩ := hull_copies all present
            dsimp only [Option.map_some]
            rw [pure_bind, pure_bind, same, Span.length_shift]
            refine (fold_follows follows copying inFront behind
              (width_le_of_mem_headsOf all among)).bind
              fun folded folded' _ _ copying ⟨front, copied, back⟩ => ?_
            rw [isEmpty_copies front, isEmpty_copies back]
            split
            · exact .pure copying copied
            · exact induction copying (allCopy_append front
                (.cons (treeSegment_copies copied within) back))
                (by simp) (Nat.le_of_succ_le_succ enough)

/-- More levels of nesting may be entered for the copy. -/
theorem reduce_follows {nesting deeper : Nat} (enough : nesting ≤ deeper) (depth depth' : Nat) :
    FollowsOperands shift stop whole (reduce nesting depth) (reduce deeper depth') := by
  induction nesting generalizing deeper depth depth' with
  | zero => exact fun _ _ _ _ _ _ => stalls_follows
  | succ nesting induction =>
      intro segments copies left right all copying
      obtain ⟨deeper, rfl⟩ : ∃ fewer, deeper = fewer + 1 := ⟨deeper - 1, by omega⟩
      have entered : Copying shift stop whole { left with deepest := max left.deepest depth }
          { right with deepest := max right.deepest depth' } :=
        ⟨copying.chars, copying.slice, copying.scope, copying.body⟩
      change Follows shift stop whole _ ((if segments.isEmpty = true then pure none
          else do return some (← rounds (reduce nesting (depth + 1))
            Limits.reductionRounds segments) :
          ReduceM (Option Expr)) { left with deepest := max left.deepest depth })
        ((if copies.isEmpty = true then pure none
          else do return some (← rounds (reduce deeper (depth' + 1))
            Limits.reductionRounds copies) :
          ReduceM (Option Expr)) { right with deepest := max right.deepest depth' })
      rw [isEmpty_copies all]
      split
      · exact .pure entered .none
      · next present =>
          have operands := induction (Nat.le_of_succ_le_succ enough) (depth + 1) (depth' + 1)
          exact (rounds_follows operands entered all (mt List.isEmpty_iff.2 present)
            (Nat.le_refl _)).bind
            fun expr expr' _ _ copying copied => .pure copying (.some copied)

end

end OnSegments

end Reduction
end MethodLowering
