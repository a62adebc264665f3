import MethodLowering.Proofs.Expr.Tightness
import MethodLowering.Proofs.Reduction.Ownership
import MethodLowering.Proofs.Text.Wording

/-!
# Folds of shut texts

Where the text between the operators of a range is shut, and so are the expressions that wait in it,
a fold makes a tight expression: what it takes from the text itself lies between operators.  The
variables that are declared on the way have shut names and types.
-/

namespace MethodLowering

open Text

/-- The name and the type of the variable are shut. -/
structure Variable.IsTight (entry : Variable) : Prop where
  name : Shut noSemicolon entry.name.toList
  typeName : Shut noSemicolon entry.typeName.toList

/-- The variables from a number on are tight. -/
def Body.TightFrom (base : VariableId) (body : Body) : Prop :=
  ∀ id entry, base ≤ id → body.vars[id]? = some entry → entry.IsTight

namespace Body

variable {base declared : VariableId} {body : Body} {entry : Variable}

theorem TightFrom.declare (tight : body.TightFrom base) (isTight : entry.IsTight) :
    (body.declare entry).TightFrom base := by
  have vars : (body.declare entry).vars = body.vars.push entry := by
    unfold Body.declare
    dsimp only
    split <;> rfl
  intro id other above known
  rw [vars, Array.getElem?_push] at known
  split at known
  · obtain rfl := Option.some.inj known
    exact isTight
  · exact tight id other above known

/-- A shut qualifier may be put in front of a type. -/
theorem TightFrom.retype (tight : body.TightFrom base) (known : body.vars[declared]? = some entry)
    {qualifier : String} (shut : Shut noSemicolon qualifier.toList) :
    (body.retype declared (qualifier ++ "." ++ entry.typeName)).TightFrom base := by
  intro id other above found
  rw [Body.retype, Array.getElem?_modify] at found
  split at found
  · rename_i same
    obtain rfl := same
    rw [known] at found
    obtain rfl := Option.some.inj found
    have own := tight declared entry above known
    refine ⟨own.name, ?_⟩
    change Shut noSemicolon (qualifier ++ "." ++ entry.typeName).toList
    rw [String.toList_append, String.toList_append]
    exact (shut.append (shut_plain (by decide))).append own.typeName
  · exact tight id other above found

end Body

namespace Reduction

open MethodLowering.Expr

/-- Segments shown in a range whose text is shut between the operators, and whose expressions are
tight. -/
structure Arranged (text : List Char) (state : Reduction) (start stop : Nat)
    (segments : List Segment) : Prop where
  depicts : Depicts text state start stop segments
  spaced : Spaced text stop start (headsOf segments)
  tight : ∀ expr ∈ treesIn segments, expr.Tight

/-- The reduction goes on reading the text, and the variables from `base` on are tight. -/
structure Ready (text : List Char) (base : VariableId) (state : Reduction) : Prop where
  chars : state.ledger.chars = text
  vars : state.body.TightFrom base

/-- A successful result has the property, in a state that is still ready. -/
def Secures {α : Type} (text : List Char) (base : VariableId) (property : α → Prop) :
    EStateM.Result Failure Reduction α → Prop
  | .ok value state => Ready text base state ∧ property value
  | .error .. => True

/-- Operands are reduced to faithful and tight expressions. -/
def TightOperands (text : List Char) (base : VariableId) (onSegments : OnSegments.Operands) :
    Prop :=
  ∀ state start stop segments other, Arranged text state start stop segments →
    Ready text base other →
    Secures text base
      (fun result => Resolves text segments result ∧ (result.getD .absent).Tight)
      (onSegments segments other)

section

variable {α β : Type} {text : List Char} {base : VariableId} {other state : Reduction}
  {start stop low high : Nat} {front back before after segments : List Segment} {segment : Segment}
  {op : Op} {bare : Char → Bool}

/-! ## Results -/

theorem Secures.bind {first : α → Prop} {second : β → Prop} {computation : ReduceM α}
    {next : α → ReduceM β} (secures : Secures text base first (computation other))
    (later : ∀ value state, Ready text base state → first value →
      Secures text base second (next value state)) :
    Secures text base second ((computation >>= next) other) := by
  simp only [Bind.bind, EStateM.bind]
  generalize computation other = result at secures
  cases result with
  | ok value state => exact later value state secures.1 secures.2
  | error failure state => trivial

theorem Secures.and_ensures {first second : α → Prop} {result : EStateM.Result Failure Reduction α}
    (secures : Secures text base first result) (ensures : Ensures text second result) :
    Secures text base (fun value => second value ∧ first value) result := by
  cases result with
  | ok value state => exact ⟨secures.1, ensures.2, secures.2⟩
  | error failure state => trivial

theorem Secures.and_balances {first : α → Prop} {second : α → List (Nat × Nat) → Prop} {safe : Prop}
    {result : EStateM.Result Failure Reduction α} (secures : Secures text base first result)
    (balances : Balances state safe second result) :
    Secures text base (fun value => (∃ added, second value added) ∧ first value) result := by
  cases result with
  | ok value state =>
      obtain ⟨-, added, -, holds⟩ := balances
      exact ⟨secures.1, ⟨added, holds⟩, secures.2⟩
  | error failure state => trivial

theorem newNode_secures (span : Span) (ready : Ready text base other) :
    Secures text base (fun node => node.span = span ∧ node.text = String.ofList (span.slice text))
      (newNode span other) := by
  rcases newNode_cases span other with ⟨-, made⟩ | ⟨-, fails⟩
  · rw [made]
    exact ⟨⟨ready.chars, ready.vars⟩, rfl, by simp only [Ledger.textAt_eq, ready.chars]⟩
  · rw [fails]
    trivial

theorem newNodeAround_secures (anchor : Span) (operands : List Expr)
    (ready : Ready text base other) :
    Secures text base (fun node => node.span = operands.foldl joinNode anchor ∧
        node.text = String.ofList (node.span.slice text))
      (newNodeAround anchor operands other) := by
  have secures := newNode_secures (operands.foldl joinNode anchor) ready
  change Secures text base _ (newNode (operands.foldl joinNode anchor) other)
  generalize newNode (operands.foldl joinNode anchor) other = result at secures
  cases result with
  | ok node state => exact ⟨secures.1, secures.2.1, secures.2.1 ▸ secures.2.2⟩
  | error failure state => trivial

theorem textAt_secures (span : Span) (ready : Ready text base other) :
    Secures text base (fun read => read = String.ofList (span.slice text)) (textAt span other) := by
  rcases textAt_cases span other with ⟨-, reads⟩ | ⟨-, fails⟩
  · rw [reads]
    exact ⟨ready, by simp only [Ledger.textAt_eq, ready.chars]⟩
  · rw [fails]
    trivial

theorem required_secures (operand : Option Expr) (op : Op) (context : String)
    (ready : Ready text base other) :
    Secures text base (fun expr => operand = some expr) (required operand op context other) := by
  cases operand with
  | none => trivial
  | some expr => exact ⟨ready, rfl⟩

theorem get_secures {property : β → Prop} {next : Reduction → ReduceM β}
    (later : Secures text base property (next other other)) :
    Secures text base property ((get >>= next) other) :=
  later

theorem modifyBody_secures {property : β → Prop} {change : Body → Body} {next : PUnit → ReduceM β}
    (later : Secures text base property (next ⟨⟩ { other with body := change other.body })) :
    Secures text base property ((modifyBody change >>= next) other) :=
  later

/-- A new expression whose parts are tight. -/
theorem tight_of_parts (items : List Expr) {expr : Expr} (present : expr.isPresent = true)
    (parts : expr.children = items.filter isPresent) (own : expr.IsTight)
    (inner : ∀ item ∈ items, item.Tight) : expr.Tight :=
  everywhere_of_parts items present parts own inner

/-! ## Parts of a range -/

/-- An operator splits what is arranged. -/
theorem Arranged.split (arranged : Arranged text state start stop (front ++ segment :: back))
    (isOp : segment.op? = some op) :
    Arranged text state start segment.span.start front ∧ segment.StandsIn state ∧
      segment.span.slice text = op.spelling ∧ Arranged text state segment.span.stop stop back := by
  obtain ⟨depicts, spaced, tight⟩ := arranged
  obtain ⟨left, -, stands, right⟩ := depicts.split
  have same := stands.span_eq isOp
  rw [headsOf_append, headsOf_op isOp, spaced_append_cons] at spaced
  obtain ⟨spacedFront, spelled, spacedBack⟩ := spaced
  have stop : segment.span.start + op.width = segment.span.stop := by rw [same]; rfl
  rw [stop] at spelled spacedBack
  refine ⟨⟨left, spacedFront, fun expr among => tight expr ?_⟩, stands, spelled,
    right, spacedBack, fun expr among => tight expr ?_⟩
  · rw [treesIn_append]
    exact List.mem_append_left _ among
  · rw [treesIn_append, List.mem_append]
    exact .inr ((List.sublist_cons_self segment back).filterMap _ |>.subset among)

/-- What stands in front of an operator, or of nothing, is arranged. -/
theorem Arranged.leading (arranged : Arranged text state start stop (front ++ back))
    (ends : ∀ segment ∈ back.head?, segment.isOperand = false) :
    ∃ middle, Arranged text state start middle front := by
  cases back with
  | nil =>
      rw [List.append_nil] at arranged
      exact ⟨stop, arranged⟩
  | cons segment back =>
      obtain ⟨op, isOp⟩ :=
        Option.isSome_iff_exists.1 (Option.isNone_eq_false_iff.1 (ends segment rfl))
      exact ⟨_, (arranged.split isOp).1⟩

/-- What stands behind an operator, or behind nothing, is arranged. -/
theorem Arranged.trailing (arranged : Arranged text state start stop (front ++ back))
    (ends : ∀ segment ∈ front.getLast?, segment.isOperand = false) :
    ∃ middle, Arranged text state middle stop back := by
  rcases List.eq_nil_or_concat' front with rfl | ⟨front, segment, rfl⟩
  · exact ⟨start, arranged⟩
  · obtain ⟨op, isOp⟩ := Option.isSome_iff_exists.1
      (Option.isNone_eq_false_iff.1 (ends segment (by simp)))
    rw [List.append_assoc] at arranged
    exact ⟨_, (arranged.split isOp).2.2.2⟩

theorem Arranged.lastOperands (arranged : Arranged text state start stop before) :
    ∃ middle, Arranged text state middle stop (OnSegments.lastOperands before) := by
  rw [← dropOperands_append before] at arranged
  refine arranged.trailing fun segment isLast => ?_
  by_cases none : OnSegments.dropOperands before = []
  · rw [none] at isLast
    contradiction
  · obtain rfl : (OnSegments.dropOperands before).getLast none = segment := by
      rw [List.getLast?_eq_some_getLast none] at isLast
      exact Option.some.inj isLast
    exact Bool.eq_false_iff.2 (List.rdropWhile_last_not Segment.isOperand before none)

theorem isOperand_of_head?_skipOperands
    (isFirst : segment ∈ (OnSegments.skipOperands after).head?) : segment.isOperand = false := by
  have first := List.head?_dropWhile_not (·.isOperand) after
  rw [show (after.dropWhile (·.isOperand)).head? = some segment from isFirst] at first
  exact first

theorem Arranged.firstOperands (arranged : Arranged text state start stop after) :
    ∃ middle, Arranged text state start middle (OnSegments.firstOperands after) := by
  rw [← firstOperands_append after] at arranged
  exact arranged.leading fun _ => isOperand_of_head?_skipOperands

/-- Text without operators is shut. -/
theorem Arranged.shut (arranged : Arranged text state start stop segments)
    (plain : headsOf segments = []) : Shut anyChar (Span.slice ⟨start, stop⟩ text) := by
  have spaced := arranged.spaced
  rw [plain] at spaced
  exact spaced.2

theorem isBlank_of_between {c : Char} (blank : between text low high = [])
    (among : c ∈ Span.slice ⟨low, high⟩ text) : isBlank c = true := by
  by_contra solid
  have inside : c ∈ between text low high := List.mem_filter.2 ⟨among, by simpa using solid⟩
  rw [blank] at inside
  contradiction

/-- Blanks are shut. -/
theorem shut_of_between (blank : between text low high = []) :
    Shut anyChar (Span.slice ⟨low, high⟩ text) :=
  Lenient.shut_blank (fun _ _ => rfl) fun _ among => isBlank_of_between blank among

theorem Arranged.shut_hull (arranged : Arranged text state start stop segments)
    (plain : headsOf segments = []) (present : segments ≠ []) :
    Shut anyChar ((hull segments).slice text) := by
  obtain ⟨gap, -, gap', nonempty⟩ := arranged.depicts.shown.hull present
  have blank' := gap'.between arranged.depicts.portrays
  have whole := arranged.shut plain
  have high := gap'.1
  rw [← slice_append text gap.1 (show (hull segments).start ≤ stop by omega),
    ← slice_append text (Nat.le_of_lt nonempty) high] at whole
  exact (whole.behind (shut_of_between (gap.between arranged.depicts.portrays))).2.before
    (shut_of_between blank') fun c among => isQuoteMark_of_isBlank (isBlank_of_between blank' among)

/-- The operands around an operator, and the text between them. -/
theorem Arranged.around (arranged : Arranged text state start stop (before ++ segment :: after))
    (isOp : segment.op? = some op) (plain : op.isBracket = false)
    (presentLeft : OnSegments.lastOperands before ≠ [])
    (presentRight : OnSegments.firstOperands after ≠ []) :
    (hull (OnSegments.lastOperands before)).stop ≤ (hull (OnSegments.firstOperands after)).start ∧
      Shut anyChar (Span.slice ⟨(hull (OnSegments.lastOperands before)).stop,
        (hull (OnSegments.firstOperands after)).start⟩ text) := by
  obtain ⟨left, stands, spelled, right⟩ := arranged.split isOp
  obtain ⟨low, last⟩ := left.lastOperands
  obtain ⟨high, first⟩ := right.firstOperands
  obtain ⟨-, -, gap, -⟩ := last.depicts.shown.hull presentLeft
  obtain ⟨gap', -, -, -⟩ := first.depicts.shown.hull presentRight
  have order := gap.1
  have order' := gap'.1
  have nonempty := stands.nonempty
  refine ⟨by omega, ?_⟩
  rw [← slice_append text order (by omega), ← slice_append text (Nat.le_of_lt nonempty) order']
  refine (shut_of_between (gap.between left.depicts.portrays)).append (Shut.append ?_
    (shut_of_between (gap'.between left.depicts.portrays)))
  rw [show Span.slice ⟨segment.span.start, segment.span.stop⟩ text = op.spelling from spelled]
  exact (framed_spelling plain).shut

/-! ## Folds of operators -/

variable {onSegments : OnSegments.Operands}

theorem tight_absent : absent.Tight := everywhere_absent

section

variable (tight : TightOperands text base onSegments) (plain : op.isBracket = false)
  (arranged : Arranged text state start stop (before ++ segment :: after))
  (isOp : segment.op? = some op) (ready : Ready text base other)
include tight plain arranged isOp ready

theorem binary_secures :
    Secures text base (fun folded => folded.expr.Tight)
      (OnSegments.binary onSegments op segment.span.start before after other) := by
  obtain ⟨left, -, -, right⟩ := arranged.split isOp
  unfold OnSegments.binary
  refine Secures.bind (tight _ _ _ before other left ready) fun first state₁ ready₁ made₁ => ?_
  refine Secures.bind (tight _ _ _ after state₁ right ready₁) fun second state₂ ready₂ made₂ => ?_
  refine Secures.bind (newNodeAround_secures _ _ ready₂) fun node state₃ ready₃ _ => ?_
  refine ⟨ready₃, tight_of_parts [first.getD .absent, second.getD .absent] rfl rfl plain ?_⟩
  simp [made₁.2, made₂.2]

theorem assignment_secures :
    Secures text base (fun folded => folded.expr.Tight)
      (OnSegments.assignment onSegments op segment.span.start before after other) := by
  obtain ⟨left, -, -, right⟩ := arranged.split isOp
  unfold OnSegments.assignment
  refine Secures.bind (tight _ _ _ before other left ready) fun first state₁ ready₁ made₁ => ?_
  refine Secures.bind (required_secures _ _ _ ready₁) fun target state₂ ready₂ found => ?_
  subst found
  refine Secures.bind (tight _ _ _ after state₂ right ready₂) fun second state₃ ready₃ made₂ => ?_
  refine Secures.bind (newNodeAround_secures _ _ ready₃) fun node state₄ ready₄ _ => ?_
  refine ⟨ready₄, tight_of_parts [target, second.getD .absent] rfl rfl plain ?_⟩
  have tightTarget : target.Tight := made₁.2
  simp [tightTarget, made₂.2]

end

theorem conditional_secures (tight : TightOperands text base onSegments)
    (arranged : Arranged text state start stop (before ++ segment :: after))
    (isOp : segment.op? = some .question) (ready : Ready text base other) :
    Secures text base (fun folded => folded.expr.Tight)
      (OnSegments.conditional onSegments segment.span.start before after other) := by
  obtain ⟨left, -, -, right⟩ := arranged.split isOp
  unfold OnSegments.conditional
  cases found : pairedColon? 0 (headsOf after) with
  | none => trivial
  | some colon =>
      obtain ⟨upper, divider, lower, rfl, isColon, rfl⟩ :=
        exists_of_mem_headsOf (mem_of_pairedColon? found)
      obtain ⟨arrangedUpper, -, -, arrangedLower⟩ := right.split isColon
      dsimp only
      rw [splitAt_eq right.depicts.shown]
      refine Secures.bind (tight _ _ _ before other left ready)
        fun condition state₁ ready₁ made₁ => ?_
      refine Secures.bind (tight _ _ _ upper state₁ arrangedUpper ready₁)
        fun first state₂ ready₂ made₂ => ?_
      refine Secures.bind (tight _ _ _ lower state₂ arrangedLower ready₂)
        fun second state₃ ready₃ made₃ => ?_
      refine Secures.bind (newNodeAround_secures _ _ ready₃) fun inner state₄ ready₄ _ => ?_
      refine Secures.bind (newNodeAround_secures _ _ ready₄) fun node state₅ ready₅ _ => ?_
      let branches : Expr := .operation inner .colon (first.getD .absent) (second.getD .absent)
      have tightBranches : branches.Tight :=
        tight_of_parts [first.getD .absent, second.getD .absent] rfl rfl rfl
          (by simp [made₂.2, made₃.2])
      refine ⟨ready₅, tight_of_parts [condition.getD .absent, branches] rfl rfl rfl ?_⟩
      simp [made₁.2, tightBranches]

theorem unary_secures (tight : TightOperands text base onSegments) (plain : op.isBracket = false)
    (arranged : Arranged text state start stop (before ++ segment :: after))
    (isOp : segment.op? = some op) (ready : Ready text base other) :
    Secures text base (fun folded => folded.expr.Tight)
      (OnSegments.unary onSegments op segment.span.start before after other) := by
  obtain ⟨left, -, -, right⟩ := arranged.split isOp
  unfold OnSegments.unary
  split
  · obtain ⟨low, last⟩ := left.lastOperands
    refine Secures.bind (tight _ _ _ _ other last ready) fun result state₁ ready₁ made => ?_
    refine Secures.bind (required_secures _ _ _ ready₁) fun operand state₂ ready₂ found => ?_
    subst found
    refine Secures.bind (newNodeAround_secures _ _ ready₂) fun node state₃ ready₃ _ => ?_
    exact ⟨ready₃, tight_of_parts [operand] rfl rfl plain (List.forall_mem_singleton.2 made.2)⟩
  · obtain ⟨high, first⟩ := right.firstOperands
    refine Secures.bind (tight _ _ _ _ other first ready) fun result state₁ ready₁ made => ?_
    refine Secures.bind (required_secures _ _ _ ready₁) fun operand state₂ ready₂ found => ?_
    subst found
    refine Secures.bind (newNodeAround_secures _ _ ready₂) fun node state₃ ready₃ _ => ?_
    exact ⟨ready₃, tight_of_parts [operand] rfl rfl plain (List.forall_mem_singleton.2 made.2)⟩

theorem typeTest_secures (tight : TightOperands text base onSegments)
    (arranged : Arranged text state start stop (before ++ segment :: after))
    (isOp : segment.op? = some .instanceOf) (ready : Ready text base other) :
    Secures text base (fun folded => folded.expr.Tight)
      (OnSegments.typeTest onSegments before after other) := by
  obtain ⟨left, -, -, right⟩ := arranged.split isOp
  obtain ⟨low, last⟩ := left.lastOperands
  obtain ⟨high, first⟩ := right.firstOperands
  unfold OnSegments.typeTest
  refine Secures.bind (tight _ _ _ _ other last ready) fun result state₁ ready₁ made => ?_
  refine Secures.bind (required_secures _ _ _ ready₁) fun operand state₂ ready₂ found => ?_
  subst found
  split
  · trivial
  · next present =>
      rw [List.isEmpty_iff] at present
      refine Secures.bind (textAt_secures _ ready₂) fun typeName state₃ ready₃ typed => ?_
      refine Secures.bind (newNodeAround_secures _ _ ready₃) fun node state₄ ready₄ placed => ?_
      obtain ⟨span, read⟩ := placed
      obtain ⟨resolves, tightOperand⟩ := made
      obtain ⟨order, between⟩ := arranged.around isOp rfl resolves.1.1 present
      have shutLeft := last.shut_hull (headsOf_lastOperands _) resolves.1.1
      have shutRight := first.shut_hull (headsOf_firstOperands _) present
      obtain ⟨-, -, -, innerLeft⟩ := last.depicts.shown.hull resolves.1.1
      obtain ⟨-, -, -, innerRight⟩ := first.depicts.shown.hull present
      rw [List.foldl_cons, List.foldl_nil, resolves.1.2.joinNode, Span.join,
        Nat.min_eq_right (by omega), Nat.max_eq_left (by omega)] at span
      have whole : node.text.toList = (Span.slice (hull (OnSegments.lastOperands before)) text ++
          Span.slice ⟨(hull (OnSegments.lastOperands before)).stop,
            (hull (OnSegments.firstOperands after)).start⟩ text) ++
          Span.slice (hull (OnSegments.firstOperands after)) text := by
        rw [read, String.toList_ofList, span]
        exact slice_around text (Nat.le_of_lt innerLeft) order (Nat.le_of_lt innerRight)
      refine ⟨ready₄, tight_of_parts [operand] rfl rfl ⟨?_, fun bare lenient shut => ?_⟩
        (List.forall_mem_singleton.2 tightOperand)⟩
      · rw [whole]
        exact (shutLeft.append between).append shutRight
      · rw [whole] at shut
        rw [typed, String.toList_ofList]
        exact (shut.behind (shutLeft.append between)).2

/-! ## Access to members -/

theorem memberName?_tight {member : Expr} {name : Node} {rebuild : Expr → Expr}
    (found : memberName? member = some (name, rebuild)) (tight : member.Tight) :
    Shut anyChar name.text.toList := by
  have own {expr : Expr} (inner : (Expr.leaf name .identifier).Tight) :
      Shut anyChar name.text.toList :=
    ((everywhere_iff rfl).1 inner).1.1
  unfold memberName? at found
  split at found
  · obtain ⟨rfl, rfl⟩ := Prod.mk.inj (Option.some.inj found)
    exact ((everywhere_iff rfl).1 tight).1.1
  · rename_i node name' arguments
    obtain ⟨rfl, rfl⟩ := Prod.mk.inj (Option.some.inj found)
    have inner :=
      Everywhere.part (.leaf name' .identifier :: arguments) tight rfl rfl List.mem_cons_self
    exact ((everywhere_iff rfl).1 inner).1.1
  · rename_i node name' indices initializer
    obtain ⟨rfl, rfl⟩ := Prod.mk.inj (Option.some.inj found)
    have inner :=
      Everywhere.part (.leaf name' .identifier :: indices ++ [initializer]) tight rfl rfl
      List.mem_cons_self
    exact ((everywhere_iff rfl).1 inner).1.1
  · contradiction

/-- A member whose name is widened to the front stays tight. -/
theorem relocate_tight {member : Expr} {memberNode name widened : Node} {rebuild : Expr → Expr}
    {form : LeafForm} (found : memberName? member = some (name, rebuild))
    (known : member.node? = some memberNode) (tight : member.Tight)
    (own : (Expr.leaf widened form).IsTight) (read : widened.text =
      String.ofList (Span.slice ⟨widened.span.start, name.span.stop⟩ text)) :
    ((rebuild (Expr.leaf widened form)).relocate ⟨widened.span.start, memberNode.span.stop⟩
      (String.ofList (Span.slice ⟨widened.span.start, memberNode.span.stop⟩ text))).Tight := by
  have leafTight : (Expr.leaf widened form).Tight :=
    tight_of_parts [] rfl rfl own (List.forall_mem_nil _)
  unfold memberName? at found
  split at found
  · obtain ⟨rfl, rfl⟩ := Prod.mk.inj (Option.some.inj found)
    obtain rfl := Option.some.inj known
    refine tight_of_parts [] rfl rfl ?_ (List.forall_mem_nil _)
    rw [← read]
    exact own
  · rename_i node name' arguments
    obtain ⟨rfl, rfl⟩ := Prod.mk.inj (Option.some.inj found)
    refine tight_of_parts (.leaf widened form :: arguments) rfl rfl trivial ?_
    refine List.forall_mem_cons.2 ⟨leafTight, fun item member => ?_⟩
    exact Everywhere.part (.leaf name' .identifier :: arguments) tight rfl rfl
      (List.mem_cons_of_mem _ member)
  · rename_i node name' indices initializer
    obtain ⟨rfl, rfl⟩ := Prod.mk.inj (Option.some.inj found)
    refine tight_of_parts (.leaf widened form :: (indices ++ [initializer])) rfl rfl trivial ?_
    refine List.forall_mem_cons.2 ⟨leafTight, fun item member => ?_⟩
    exact Everywhere.part (.leaf name' .identifier :: (indices ++ [initializer])) tight rfl rfl
      (List.mem_cons_of_mem _ member)
  · contradiction

theorem qualifyConstruction?_secures {subject member : Expr} {subjectNode memberNode : Node}
    (knownSubject : subject.node? = some subjectNode) (knownMember : member.node? = some memberNode)
    (faithfulSubject : subject.Faithful text) (faithfulMember : member.Faithful text)
    (tightSubject : subject.Tight) (tightMember : member.Tight)
    (order : subjectNode.span.stop ≤ memberNode.span.start)
    (between : Shut anyChar (Span.slice ⟨subjectNode.span.stop, memberNode.span.start⟩ text))
    (ready : Ready text base other) :
    Secures text base (fun result => ∀ expr, result = some expr → expr.Tight)
      (qualifyConstruction? subject member other) := by
  have nothing (expr : Expr) (same : none = some expr) : expr.Tight :=
    absurd same.symm (Option.some_ne_none expr)
  unfold qualifyConstruction?
  rw [knownSubject, knownMember]
  cases typed : subject.constructedType? with
  | none => exact ⟨ready, nothing⟩
  | some qualifier =>
      cases found : memberName? member with
      | none => exact ⟨ready, nothing⟩
      | some named =>
          obtain ⟨name, rebuild⟩ := named
          obtain ⟨exactName, low, blank, -⟩ := memberName?_exact found knownMember faithfulMember
          refine Secures.bind (textAt_secures _ ready) fun nameText state₁ ready₁ readName => ?_
          refine Secures.bind (textAt_secures _ ready₁) fun whole state₂ ready₂ readWhole => ?_
          refine ⟨ready₂, fun expr same => ?_⟩
          obtain rfl := Option.some.inj same
          subst readName readWhole
          obtain ⟨⟨_, exactSubject⟩, -⟩ :=
            (faithful_iff (isPresent_iff.2 ⟨_, knownSubject⟩)).1 faithfulSubject
          obtain rfl := Option.some.inj (knownSubject.symm.trans exactSubject.node?)
          have shutSubject := Tight.shut subject tightSubject faithfulSubject _ knownSubject
          have shutName := memberName?_tight found tightMember
          have shelters : Shelters subjectNode.text.toList qualifier.toList := by
            unfold constructedType? at typed
            split at typed
            · obtain rfl := Option.some.inj typed
              obtain rfl := Option.some.inj knownSubject
              exact ((everywhere_iff rfl).1 tightSubject).1.2 _ rfl
            · contradiction
          rw [exactSubject.text_eq, String.toList_ofList] at shutSubject shelters
          rw [exactName.text_eq, String.toList_ofList] at shutName
          have gap := between.append (shut_of_between blank)
          rw [slice_append text order low] at gap
          have split := slice_around text (Nat.le_of_lt exactSubject.nonempty)
            (Nat.le_trans order low) (Nat.le_of_lt exactName.nonempty)
          refine relocate_tight found knownMember tightMember
            ⟨?_, fun typeName same bare lenient shut => ?_⟩ rfl
          · rw [String.toList_ofList, split]
            exact (shutSubject.append gap).append shutName
          · obtain rfl := LeafForm.construction.inj same
            rw [String.toList_ofList, split] at shut
            obtain ⟨shutBoth, shutLast⟩ := shut.behind (shutSubject.append gap)
            have shutFront := (shutBoth.behind shutSubject).1
            rw [Text.trimmed_eq, exactName.text_eq]
            simp only [String.toList_append, String.toList_ofList]
            exact ((shelters bare lenient shutFront).append (lenient.shut (by decide))).append
              shutLast.trim

/-- A qualified name is plain. -/
theorem isPlain_of_isQualifiedName {name : List Char} (qualified : isQualifiedName name = true) :
    ∀ c ∈ name, isPlain c = true ∧ c ≠ ';' := by
  have parts (name : List Char) (c : Char) (among : c ∈ name) :
      c = '.' ∨ ∃ part ∈ dotParts name, c ∈ part := by
    induction name with
    | nil => contradiction
    | cons first rest induction =>
        rw [dotParts]
        split
        · rename_i dot
          rcases List.mem_cons.1 among with rfl | later
          · exact .inl (eq_of_beq dot)
          · exact (induction later).imp_right fun ⟨part, member, inside⟩ =>
              ⟨part, List.mem_cons_of_mem _ member, inside⟩
        · split
          · rename_i none
            rcases List.mem_cons.1 among with rfl | later
            · exact .inr ⟨[c], List.mem_singleton_self _, List.mem_singleton_self _⟩
            · refine (induction later).imp_right fun ⟨part, member, inside⟩ => ?_
              rw [none] at member
              contradiction
          · rename_i part others split
            rcases List.mem_cons.1 among with rfl | later
            · exact .inr ⟨c :: part, List.mem_cons_self, List.mem_cons_self⟩
            · refine (induction later).imp_right fun ⟨other, member, inside⟩ => ?_
              rw [split] at member
              rcases List.mem_cons.1 member with rfl | behind
              · exact ⟨first :: other, List.mem_cons_self, List.mem_cons_of_mem _ inside⟩
              · exact ⟨other, List.mem_cons_of_mem _ behind, inside⟩
  simp only [isQualifiedName, Bool.and_eq_true, List.all_eq_true] at qualified
  intro c among
  rcases parts name c among with rfl | ⟨part, member, inside⟩
  · exact ⟨rfl, by decide⟩
  · obtain ⟨front, back, around, blank, blank'⟩ := exists_trim part
    rw [around] at inside
    simp only [List.mem_append] at inside
    rcases inside with (inFront | letter) | inBack
    · exact ⟨isPlain_of_isBlank (blank c inFront), ne_semicolon_of_isBlank (blank c inFront)⟩
    · exact isPlain_of_isWordChar ((qualified.2 part member).2 c letter)
    · exact ⟨isPlain_of_isBlank (blank' c inBack), ne_semicolon_of_isBlank (blank' c inBack)⟩

theorem qualifyDeclaration?_secures {subject member : Expr} {subjectNode memberNode : Node}
    (knownSubject : subject.node? = some subjectNode) (knownMember : member.node? = some memberNode)
    (tightMember : member.Tight)
    (joined : Shut anyChar ((subjectNode.span.join memberNode.span).slice text))
    (ready : Ready text base other) :
    Secures text base (fun result => ∀ expr, result = some expr → expr.Tight)
      (qualifyDeclaration? subject member other) := by
  have nothing (expr : Expr) (same : none = some expr) : expr.Tight :=
    absurd same.symm (Option.some_ne_none expr)
  unfold qualifyDeclaration?
  rw [knownSubject]
  cases member with
  | declaration node declared continued =>
      obtain rfl := Option.some.inj knownMember
      dsimp only
      split
      · rename_i qualified
        have shut : Shut noSemicolon subjectNode.text.toList :=
          Lenient.shut (fun c other => by simpa using other) (isPlain_of_isQualifiedName qualified)
        refine get_secures ?_
        cases entered : other.body.vars[declared]? with
        | none => exact ⟨ready, nothing⟩
        | some entry =>
            refine modifyBody_secures ?_
            refine Secures.bind (textAt_secures _ ⟨ready.chars, ready.vars.retype entered shut⟩)
              fun read state₁ ready₁ readWhole => ⟨ready₁, fun expr same => ?_⟩
            obtain rfl := Option.some.inj same
            subst readWhole
            refine tight_of_parts [] rfl rfl ?_ (List.forall_mem_nil _)
            change Shut anyChar (String.ofList _).toList
            rw [String.toList_ofList]
            exact joined
      · exact ⟨ready, nothing⟩
  | _ => exact ⟨ready, nothing⟩

theorem access_secures (tight : TightOperands text base onSegments)
    (arranged : Arranged text state start stop (before ++ segment :: after))
    (isOp : segment.op? = some .dot) (ready : Ready text base other) :
    Secures text base (fun folded => folded.expr.Tight)
      (OnSegments.access onSegments segment.span.start before after other) := by
  obtain ⟨left, -, -, right⟩ := arranged.split isOp
  obtain ⟨low, last⟩ := left.lastOperands
  obtain ⟨high, first⟩ := right.firstOperands
  unfold OnSegments.access
  refine Secures.bind (tight _ _ _ _ other last ready) fun result state₁ ready₁ made₁ => ?_
  refine Secures.bind (required_secures _ _ _ ready₁) fun subject state₂ ready₂ found => ?_
  subst found
  refine Secures.bind (tight _ _ _ _ state₂ first ready₂) fun result state₃ ready₃ made₂ => ?_
  refine Secures.bind (required_secures _ _ _ ready₃) fun member state₄ ready₄ found => ?_
  subst found
  obtain ⟨⟨⟨presentLeft, spanLeft⟩, faithfulLeft⟩, tightSubject⟩ := made₁
  obtain ⟨⟨⟨presentRight, spanRight⟩, faithfulRight⟩, tightMember⟩ := made₂
  obtain ⟨subjectNode, knownSubject, placedSubject⟩ := Option.map_eq_some_iff.1 spanLeft
  obtain ⟨memberNode, knownMember, placedMember⟩ := Option.map_eq_some_iff.1 spanRight
  obtain ⟨order, between⟩ := arranged.around isOp rfl presentLeft presentRight
  have shutLeft := last.shut_hull (headsOf_lastOperands _) presentLeft
  have shutRight := first.shut_hull (headsOf_firstOperands _) presentRight
  obtain ⟨-, -, -, innerLeft⟩ := last.depicts.shown.hull presentLeft
  obtain ⟨-, -, -, innerRight⟩ := first.depicts.shown.hull presentRight
  rw [← placedSubject, ← placedMember] at order between
  rw [← placedSubject] at shutLeft innerLeft
  rw [← placedMember] at shutRight innerRight
  refine Secures.bind (qualifyConstruction?_secures knownSubject knownMember
    faithfulLeft faithfulRight
    tightSubject tightMember order between ready₄) fun construction state₅ ready₅ outcome => ?_
  cases construction with
  | some construction => exact ⟨ready₅, outcome _ rfl⟩
  | none =>
      have joined : Shut anyChar ((subjectNode.span.join memberNode.span).slice text) := by
        rw [Span.join, Nat.min_eq_left (by omega), Nat.max_eq_right (by omega),
          slice_around text (Nat.le_of_lt innerLeft) order (Nat.le_of_lt innerRight)]
        exact (shutLeft.append between).append shutRight
      refine Secures.bind (qualifyDeclaration?_secures knownSubject knownMember tightMember joined
        ready₅) fun declaration state₆ ready₆ outcome => ?_
      cases declaration with
      | some declaration => exact ⟨ready₆, outcome _ rfl⟩
      | none =>
          refine Secures.bind (newNodeAround_secures _ _ ready₆) fun node state₇ ready₇ _ => ?_
          refine ⟨ready₇, tight_of_parts [subject, member] rfl rfl trivial ?_⟩
          have tightLeft : subject.Tight := tightSubject
          have tightRight : member.Tight := tightMember
          simp [tightLeft, tightRight]

end
end Reduction
end MethodLowering
