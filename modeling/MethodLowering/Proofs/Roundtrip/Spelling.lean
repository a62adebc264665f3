import Mathlib.Data.List.Chain
import MethodLowering.Proofs.Reduction.Questions
import MethodLowering.Proofs.Roundtrip.Tree
import MethodLowering.Reduction.Operators

/-!
# Segments that spell a tree

A tree is built from its own operators and from smaller forms.  While it is reduced, some forms
inside it are folded to expressions and the others are still spelled out.  Wherever an operator
stands, it belongs to one form, and folding that form leaves a list that spells the same tree.
-/

namespace MethodLowering
namespace Tree

open Reduction

/-! ## What trees are built from -/

/-- What may be folded to one expression. -/
inductive Form where
  | tree (tree : Tree)
  /-- Indices behind another one. -/
  | indices (items : List Tree)

/-- A piece of a form. -/
inductive Part where
  | op (op : Op)
  | word (chars : List Char)
  | form (form : Form)

/-- The arguments of a call with their commas. -/
def listParts : List Tree → List Part
  | [] => []
  | [only] => [.form (.tree only)]
  | first :: next :: rest => .form (.tree first) :: .op .comma :: listParts (next :: rest)

/-- A pair of square brackets and the indices behind it. -/
def indexParts (first : Tree) (further : List Tree) : List Part :=
  [.op .openBracket, .form (.tree first), .op .closeBracket, .form (.indices further)]

/-- The parts of a form in the order in which they are written. -/
def Form.parts : Form → List Part
  | .tree (.name chars) => [.word chars]
  | .tree (.group inner) => [.op .openParen, .form (.tree inner), .op .closeParen]
  | .tree (.call callee arguments) =>
      .word callee :: .op .openParen :: listParts arguments ++ [.op .closeParen]
  | .tree (.index target []) => [.form (.tree target)]
  | .tree (.index target (first :: further)) => .form (.tree target) :: indexParts first further
  | .tree (.member subject link) => [.form (.tree subject), .op .dot, .form (.tree link)]
  | .tree (.leading op operand) => [.op op, .form (.tree operand)]
  | .tree (.trailing operand op) => [.form (.tree operand), .op op]
  | .tree (.binary op left right) => [.form (.tree left), .op op, .form (.tree right)]
  | .tree (.conditional condition first second) =>
      [.form (.tree condition), .op .question, .form (.tree first), .op .colon,
        .form (.tree second)]
  | .tree (.assignment op target value) => [.form (.tree target), .op op, .form (.tree value)]
  | .indices [] => []
  | .indices (first :: further) => indexParts first further

/-- The expression has the shape of the form. -/
def Form.Pictures : Form → Expr → Prop
  | .tree whole, expr => whole.Pictures expr
  | .indices items, expr =>
      ∃ node exprs, expr = .index node .absent exprs .absent ∧
      List.Forall₂ Tree.Pictures items exprs

theorem Form.exists_pictures (form : Form) : ∃ expr, form.Pictures expr := by
  cases form with
  | tree whole => exact Tree.exists_pictures whole
  | indices items =>
      obtain ⟨exprs, all⟩ := exists_forall₂_pictures items
      exact ⟨.index ⟨0, ⟨0, 0⟩, ""⟩ .absent exprs .absent, _, exprs, rfl, all⟩

/-- The segments are those of the parts, in their order; a form is folded or spelled out. -/
inductive Spelled (text : List Char) : List Part → List Segment → Prop where
  | nil : Spelled text [] []
  | op {op : Op} {rest : List Part} {segment : Segment} {segments : List Segment}
      (isOp : segment.piece = .op op) (behind : Spelled text rest segments) :
      Spelled text (.op op :: rest) (segment :: segments)
  | word {chars : List Char} {rest : List Part} {segment : Segment} {segments : List Segment}
      (isWord : segment.piece = .word) (spells : segment.span.slice text = chars)
      (behind : Spelled text rest segments) :
      Spelled text (.word chars :: rest) (segment :: segments)
  | folded {form : Form} {expr : Expr} {rest : List Part} {segment : Segment}
      {segments : List Segment} (isTree : segment.piece = .tree expr)
        (pictures : form.Pictures expr)
      (behind : Spelled text rest segments) :
      Spelled text (.form form :: rest) (segment :: segments)
  | spelled {form : Form} {rest : List Part} {inner segments : List Segment}
      (first : Spelled text form.parts inner) (behind : Spelled text rest segments) :
      Spelled text (.form form :: rest) (inner ++ segments)

/-- The operator stands somewhere among the segments. -/
def Occurs (op : Op) (segments : List Segment) : Prop := ∃ segment ∈ segments, segment.op? = some op

section

variable {text : List Char} {parts front back rest : List Part}
  {segments before after : List Segment} {segment : Segment} {op : Op} {form : Form} {tree : Tree}

theorem op?_of_piece (isOp : segment.piece = .op op) : segment.op? = some op := by
  rw [Segment.op?, isOp]

theorem piece_of_op? (isOp : segment.op? = some op) : segment.piece = .op op := by
  rw [Segment.op?] at isOp
  split at isOp
  · next found => rw [found, Option.some.inj isOp]
  · contradiction
  · contradiction

theorem isOperand_of_word (isWord : segment.piece = .word) : segment.isOperand = true := by
  rw [Segment.isOperand, Segment.op?, isWord]
  rfl

theorem isOperand_of_tree {expr : Expr} (isTree : segment.piece = .tree expr) :
    segment.isOperand = true := by
  rw [Segment.isOperand, Segment.op?, isTree]
  rfl

theorem isOperand_of_op (isOp : segment.op? = some op) : segment.isOperand = false := by
  rw [Segment.isOperand, isOp]
  rfl

/-! ## Taking spellings apart -/

theorem spelled_nil : Spelled text [] segments ↔ segments = [] := by
  constructor
  · rintro ⟨⟩
    rfl
  · rintro rfl
    exact .nil

theorem spelled_op :
    Spelled text (.op op :: rest) segments ↔
      ∃ segment behind, segments = segment :: behind ∧ segment.op? = some op ∧
        Spelled text rest behind := by
  constructor
  · intro spelled
    cases spelled with
    | op isOp behind => exact ⟨_, _, rfl, op?_of_piece isOp, behind⟩
  · rintro ⟨segment, behind, rfl, isOp, spelled⟩
    exact .op (piece_of_op? isOp) spelled

theorem Spelled.append (left : Spelled text front before) (right : Spelled text back after) :
    Spelled text (front ++ back) (before ++ after) := by
  induction left with
  | nil => exact right
  | op isOp _ induction => exact .op isOp induction
  | word isWord spells _ induction => exact .word isWord spells induction
  | folded isTree pictures _ induction => exact .folded isTree pictures induction
  | spelled first _ _ induction =>
      rw [List.append_assoc]
      exact .spelled first induction

theorem spelled_append :
    Spelled text (front ++ back) segments ↔
      ∃ before after, segments = before ++ after ∧ Spelled text front before ∧
        Spelled text back after := by
  constructor
  · intro spelled
    induction front generalizing segments with
    | nil => exact ⟨[], segments, rfl, .nil, spelled⟩
    | cons part front induction =>
        cases spelled with
        | op isOp behind =>
            obtain ⟨before, after, rfl, left, right⟩ := induction behind
            exact ⟨_ :: before, after, rfl, .op isOp left, right⟩
        | word isWord spells behind =>
            obtain ⟨before, after, rfl, left, right⟩ := induction behind
            exact ⟨_ :: before, after, rfl, .word isWord spells left, right⟩
        | folded isTree pictures behind =>
            obtain ⟨before, after, rfl, left, right⟩ := induction behind
            exact ⟨_ :: before, after, rfl, .folded isTree pictures left, right⟩
        | spelled first behind =>
            obtain ⟨before, after, rfl, left, right⟩ := induction behind
            exact ⟨_ ++ before, after, (List.append_assoc ..).symm, .spelled first left, right⟩
  · rintro ⟨before, after, rfl, left, right⟩
    exact left.append right

theorem spelled_form_cons :
    Spelled text (.form form :: rest) segments ↔
      ∃ before after, segments = before ++ after ∧ Spelled text [.form form] before ∧
        Spelled text rest after := by
  rw [← List.singleton_append, spelled_append]

theorem spelled_concat_op :
    Spelled text (front ++ [.op op]) segments ↔
      ∃ before segment, segments = before ++ [segment] ∧ Spelled text front before ∧
        segment.op? = some op := by
  rw [spelled_append]
  constructor
  · rintro ⟨before, after, rfl, left, right⟩
    obtain ⟨segment, behind, rfl, isOp, none⟩ := spelled_op.1 right
    rw [spelled_nil.1 none]
    exact ⟨before, segment, rfl, left, isOp⟩
  · rintro ⟨before, segment, rfl, left, isOp⟩
    exact ⟨before, [segment], rfl, left, spelled_op.2 ⟨segment, [], rfl, isOp, .nil⟩⟩

theorem Spelled.occurs (spelled : Spelled text parts segments) (member : .op op ∈ parts) :
    Occurs op segments := by
  obtain ⟨front, back, rfl⟩ := List.append_of_mem member
  obtain ⟨before, after, rfl, -, right⟩ := spelled_append.1 spelled
  obtain ⟨segment, behind, rfl, isOp, -⟩ := spelled_op.1 right
  exact ⟨segment, by simp, isOp⟩

/-- A form alone is folded or spelled out. -/
theorem Spelled.form_cases (spelled : Spelled text [.form form] segments) :
    (∃ segment expr, segments = [segment] ∧ segment.piece = .tree expr ∧ form.Pictures expr) ∨
      Spelled text form.parts segments := by
  cases spelled with
  | folded isTree pictures behind =>
      rw [spelled_nil.1 behind]
      exact .inl ⟨_, _, rfl, isTree, pictures⟩
  | spelled first behind =>
      rw [spelled_nil.1 behind, List.append_nil]
      exact .inr first

theorem Spelled.asForm (spelled : Spelled text form.parts segments) :
    Spelled text [.form form] segments := by
  have whole : Spelled text [.form form] (segments ++ []) := .spelled spelled .nil
  rwa [List.append_nil] at whole

/-! ## The form of an operator -/

/-- The operator between `before` and `after` belongs to a form of the given kind; folding the form
leaves a spelling of the same parts. -/
inductive Site (text : List Char) (kind : Form → Prop) (parts : List Part) (op : Op) :
    List Segment → List Segment → Prop where
  | mk {form : Form} {front back : List Part} {outerLeft left right outerRight : List Segment}
      (holds : kind form) (own : form.parts = front ++ .op op :: back)
      (spelledFront : Spelled text front left) (spelledBack : Spelled text back right)
      (refold : ∀ segment expr, segment.piece = .tree expr → form.Pictures expr →
        Spelled text parts (outerLeft ++ segment :: outerRight)) :
      Site text kind parts op (outerLeft ++ left) (right ++ outerRight)

/-- The kind passes to the forms inside a form whose operators are all present. -/
def Inherits (kind : Form → Prop) (present : Op → Prop) : Prop :=
  ∀ form, kind form → (∀ op, .op op ∈ form.parts → present op) →
    ∀ inner, .form inner ∈ form.parts → kind inner

/-- The operator between `before` and `after` is one of the parts themselves, or belongs to a form
inside them. -/
def Belongs (text : List Char) (kind : Form → Prop) (parts : List Part) (op : Op)
    (before after : List Segment) : Prop :=
  (∃ front back, parts = front ++ .op op :: back ∧ Spelled text front before ∧
    Spelled text back after) ∨ Site text kind parts op before after

/-- A further part in front does not matter. -/
theorem Belongs.behind {kind : Form → Prop} (belongs : Belongs text kind rest op before after)
    (part : Part) (head : List Segment) (grows : ∀ {parts segments}, Spelled text parts segments →
      Spelled text (part :: parts) (head ++ segments)) :
    Belongs text kind (part :: rest) op (head ++ before) after := by
  rcases belongs with ⟨front, back, rfl, left, right⟩ | ⟨holds, own, left, right, refold⟩
  · exact .inl ⟨part :: front, back, rfl, grows left, right⟩
  · refine .inr ?_
    rw [← List.append_assoc]
    refine .mk holds own left right fun segment expr isTree pictures => ?_
    rw [List.append_assoc]
    exact grows (refold segment expr isTree pictures)

/-- A place in a joined list is in one of the two lists. -/
theorem append_eq_split {α : Type} {left right before after : List α} {x : α}
    (split : left ++ right = before ++ x :: after) :
    (∃ earlier, before = left ++ earlier ∧ right = earlier ++ x :: after) ∨
      ∃ later, left = before ++ x :: later ∧ after = later ++ right := by
  rcases List.append_eq_append_iff.1 split with ⟨earlier, rfl, behind⟩ | ⟨middle, rfl, behind⟩
  · exact .inl ⟨earlier, rfl, behind⟩
  · rcases List.cons_eq_append_iff.1 behind with ⟨rfl, same⟩ | ⟨later, rfl, same⟩
    · exact .inl ⟨[], by simp, by simpa using same⟩
    · exact .inr ⟨later, rfl, same⟩

/-- Every operator is one of the parts themselves or belongs to a form inside them. -/
theorem Spelled.belongs {kind : Form → Prop} {present : Op → Prop}
    (inherits : Inherits kind present)
    (spelled : Spelled text parts segments) (all : ∀ form, .form form ∈ parts → kind form)
    (known : ∀ op, Occurs op segments → present op)
    (split : segments = before ++ segment :: after) (isOp : segment.op? = some op) :
    Belongs text kind parts op before after := by
  -- a segment that is no operator, or a part that is folded, only moves the place by one
  have occursLater {head : Segment} {tail : List Segment}
      (known : ∀ op, Occurs op (head :: tail) → present op) (op : Op) (occurs : Occurs op tail) :
      present op := by
    obtain ⟨found, member, isFound⟩ := occurs
    exact known op ⟨found, List.mem_cons_of_mem _ member, isFound⟩
  induction spelled generalizing before after with
  | nil => simp at split
  | @op first rest found found' isFirst behind induction =>
      rcases List.cons_eq_append_iff.1 split with ⟨rfl, same⟩ | ⟨earlier, rfl, later⟩
      · obtain ⟨rfl, rfl⟩ := List.cons.inj same
        obtain rfl : op = first := by
          rw [op?_of_piece isFirst] at isOp
          exact (Option.some.inj isOp).symm
        exact .inl ⟨[], rest, rfl, .nil, behind⟩
      · have found := induction (fun form member => all form (List.mem_cons_of_mem _ member))
          (occursLater known) later
        exact found.behind (.op first) [_] fun spelled => .op isFirst spelled
  | @word chars rest found found' isWord spells behind induction =>
      rcases List.cons_eq_append_iff.1 split with ⟨rfl, same⟩ | ⟨earlier, rfl, later⟩
      · obtain ⟨rfl, rfl⟩ := List.cons.inj same
        rw [piece_of_op? isOp] at isWord
        contradiction
      · have found := induction (fun form member => all form (List.mem_cons_of_mem _ member))
          (occursLater known) later
        exact found.behind (.word chars) [_] fun spelled => .word isWord spells spelled
  | @folded form expr rest found found' isTree pictures behind induction =>
      rcases List.cons_eq_append_iff.1 split with ⟨rfl, same⟩ | ⟨earlier, rfl, later⟩
      · obtain ⟨rfl, rfl⟩ := List.cons.inj same
        rw [piece_of_op? isOp] at isTree
        contradiction
      · have found := induction (fun form member => all form (List.mem_cons_of_mem _ member))
          (occursLater known) later
        exact found.behind (.form form) [_] fun spelled => .folded isTree pictures spelled
  | @spelled form rest inner outer first behind firstInduction induction =>
      rcases append_eq_split split with ⟨earlier, rfl, later⟩ | ⟨later, rfl, rfl⟩
      · have found := induction (fun form member => all form (List.mem_cons_of_mem _ member))
          (fun op ⟨found, among, isFound⟩ =>
            known op ⟨found, List.mem_append_right _ among, isFound⟩) later
        exact found.behind (.form form) inner fun spelled => .spelled first spelled
      · have knownInner (op : Op) (occurs : Occurs op (before ++ segment :: later)) :
            present op := by
          obtain ⟨found, member, isFound⟩ := occurs
          exact known op ⟨found, List.mem_append_left _ member, isFound⟩
        have kindForm := all form List.mem_cons_self
        have kinds := inherits form kindForm fun op member => knownInner op (first.occurs member)
        rcases firstInduction kinds knownInner rfl with
          ⟨front, back, own, left, right⟩ | ⟨holds, own, left, right, refold⟩
        · have site : Site text kind (.form form :: rest) op ([] ++ before) (later ++ outer) :=
            .mk kindForm own left right fun segment expr isTree pictures =>
              .folded isTree pictures behind
          exact .inr site
        · refine .inr ?_
          rw [List.append_assoc]
          refine .mk holds own left right fun segment expr isTree pictures => ?_
          have whole := Spelled.spelled (refold segment expr isTree pictures) behind
          rwa [List.append_assoc, List.cons_append] at whole

/-! ## Operands alternate with operators -/

/-- The part is no operator. -/
def Part.isOperand : Part → Bool
  | .op _ => false
  | .word _ | .form _ => true

/-- No two operands are next to each other. -/
def Apart {α : Type} (isOperand : α → Bool) (items : List α) : Prop :=
  items.IsChain fun left right => (isOperand left && isOperand right) = false

theorem apart_listParts (items : List Tree) : Apart Part.isOperand (listParts items) := by
  induction items using listParts.induct with
  | case1 => exact .nil
  | case2 only => exact .singleton _
  | case3 first next rest induction =>
      rw [listParts, Apart]
      refine .cons_cons rfl ?_
      cases rest with
      | nil => exact .cons_cons rfl (.singleton _)
      | cons other rest => exact .cons_cons rfl induction

theorem apart_parts (form : Form) : Apart Part.isOperand form.parts := by
  cases form with
  | indices items =>
      cases items with
      | nil => exact .nil
      | cons first further => simp [Form.parts, indexParts, Apart, Part.isOperand]
  | tree tree =>
      cases tree with
      | call callee arguments =>
          have arguments := apart_listParts arguments
          refine .cons_cons rfl (List.isChain_cons.2 ⟨fun _ _ => rfl, ?_⟩)
          refine List.isChain_append.2 ⟨arguments, .singleton _, fun _ _ last found => ?_⟩
          obtain rfl := Option.some.inj found
          simp [Part.isOperand]
      | index target indices =>
          cases indices with
          | nil => exact .singleton _
          | cons first further => simp [Form.parts, indexParts, Apart, Part.isOperand]
      | _ => simp [Form.parts, Apart, Part.isOperand]

theorem Spelled.head (spelled : Spelled text parts segments)
    (first : parts.head?.all (!·.isOperand) = true) : segments.head?.all (!·.isOperand) = true := by
  cases spelled with
  | nil => rfl
  | op isOp behind =>
      rw [List.head?_cons, Option.all_some, isOperand_of_op (op?_of_piece isOp)]
      rfl
  | word isWord spells behind => contradiction
  | folded isTree pictures behind => contradiction
  | spelled first behind => contradiction

theorem Spelled.apart (spelled : Spelled text parts segments) (apart : Apart Part.isOperand parts) :
    Apart Segment.isOperand segments := by
  -- an operand is the last part, or an operator follows it
  have further {part : Part} {rest : List Part} (apart : Apart Part.isOperand (part :: rest))
      (operand : part.isOperand = true) : rest.head?.all (!·.isOperand) = true := by
    cases rest with
    | nil => rfl
    | cons next rest =>
        have first := (List.isChain_cons_cons.1 apart).1
        rw [operand, Bool.true_and] at first
        rw [List.head?_cons, Option.all_some, first]
        rfl
  have joins {segment : Segment} {segments : List Segment}
      (apart : Apart Segment.isOperand segments)
      (head : segments.head?.all (!·.isOperand) = true) :
        Apart Segment.isOperand (segment :: segments) := by
    refine List.isChain_cons.2 ⟨fun next found => ?_, apart⟩
    rw [found, Option.all_some, Bool.not_eq_true'] at head
    rw [head, Bool.and_false]
  induction spelled with
  | nil => exact .nil
  | op isOp behind induction =>
      refine List.isChain_cons.2 ⟨fun next found => ?_, induction apart.tail⟩
      rw [isOperand_of_op (op?_of_piece isOp), Bool.false_and]
  | word isWord spells behind induction =>
      exact joins (induction apart.tail) (behind.head (further apart rfl))
  | folded isTree pictures behind induction =>
      exact joins (induction apart.tail) (behind.head (further apart rfl))
  | spelled first behind firstInduction induction =>
      have head := behind.head (further apart rfl)
      refine List.isChain_append.2
        ⟨firstInduction (apart_parts _), induction apart.tail, fun last _ next found => ?_⟩
      rw [found, Option.all_some, Bool.not_eq_true'] at head
      rw [head, Bool.and_false]

/-! ## Whose operator it is -/

theorem op_mem_listParts {items : List Tree} (among : .op op ∈ listParts items) : op = .comma := by
  induction items using listParts.induct with
  | case1 => contradiction
  | case2 only => simp [listParts] at among
  | case3 first next rest induction =>
      rw [listParts] at among
      rcases List.mem_cons.1 among with same | later
      · cases same
      · rcases List.mem_cons.1 later with same | last
        · exact Part.op.inj same
        · exact induction last

/-- An operator of a form with the parts in front of it and behind it; `.closing` stands for the
operators that only follow another one of their form. -/
inductive Owns : Form → List Part → Op → List Part → Prop where
  | group {inner : Tree} :
      Owns (.tree (.group inner)) [] .openParen [.form (.tree inner), .op .closeParen]
  | call {callee : List Char} {arguments : List Tree} :
      Owns (.tree (.call callee arguments)) [.word callee] .openParen
        (listParts arguments ++ [.op .closeParen])
  | index {target first : Tree} {further : List Tree} :
      Owns (.tree (.index target (first :: further))) [.form (.tree target)] .openBracket
        [.form (.tree first), .op .closeBracket, .form (.indices further)]
  | indices {first : Tree} {further : List Tree} :
      Owns (.indices (first :: further)) [] .openBracket
        [.form (.tree first), .op .closeBracket, .form (.indices further)]
  | member {subject link : Tree} :
      Owns (.tree (.member subject link)) [.form (.tree subject)] .dot [.form (.tree link)]
  | leading {op : Op} {operand : Tree} :
      Owns (.tree (.leading op operand)) [] op [.form (.tree operand)]
  | trailing {op : Op} {operand : Tree} :
      Owns (.tree (.trailing operand op)) [.form (.tree operand)] op []
  | binary {op : Op} {left right : Tree} :
      Owns (.tree (.binary op left right)) [.form (.tree left)] op [.form (.tree right)]
  | conditional {condition first second : Tree} :
      Owns (.tree (.conditional condition first second)) [.form (.tree condition)] .question
        [.form (.tree first), .op .colon, .form (.tree second)]
  | assignment {op : Op} {target value : Tree} :
      Owns (.tree (.assignment op target value)) [.form (.tree target)] op [.form (.tree value)]
  | closing {form : Form} {front back : List Part} {op : Op}
      (closes : op ∈ [Op.closeParen, Op.closeBracket, Op.comma, Op.colon]) : Owns form front op back

theorem owns_indexParts {first : Tree} {further : List Tree}
    (own : indexParts first further = front ++ .op op :: back) :
    op = .closeBracket ∨ front = [] ∧ op = .openBracket ∧
      back = [.form (.tree first), .op .closeBracket, .form (.indices further)] := by
  rw [indexParts] at own
  rcases front with _ | ⟨one, _ | ⟨two, _ | ⟨three, _ | ⟨four, rest⟩⟩⟩⟩ <;> simp_all

theorem owns_of_parts (own : form.parts = front ++ .op op :: back) : Owns form front op back := by
  cases form with
  | indices items =>
      cases items with
      | nil => simp [Form.parts] at own
      | cons first further =>
          rcases owns_indexParts own with rfl | ⟨rfl, rfl, rfl⟩
          · exact .closing (by simp)
          · exact .indices
  | tree tree =>
      cases tree with
      | name chars =>
          rcases front with _ | ⟨one, rest⟩ <;> simp [Form.parts] at own
      | group inner =>
          rcases front with _ | ⟨one, _ | ⟨two, _ | ⟨three, rest⟩⟩⟩ <;> simp [Form.parts] at own
          · obtain ⟨rfl, rfl⟩ := own
            exact .group
          · obtain ⟨-, -, rfl, -⟩ := own
            exact .closing (by simp)
      | call callee arguments =>
          rcases front with _ | ⟨one, _ | ⟨two, rest⟩⟩ <;> simp [Form.parts] at own
          · obtain ⟨rfl, rfl, rfl⟩ := own
            exact .call
          · have among : .op op ∈ listParts arguments ++ [.op .closeParen] := by
              rw [own.2.2]
              simp
            rcases List.mem_append.1 among with inside | last
            · rw [op_mem_listParts inside]
              exact .closing (by simp)
            · obtain rfl : op = .closeParen := by simpa using last
              exact .closing (by simp)
      | index target indices =>
          cases indices with
          | nil =>
              rcases front with _ | ⟨one, rest⟩ <;> simp [Form.parts] at own
          | cons first further =>
              cases front with
              | nil => simp [Form.parts] at own
              | cons one front =>
                  obtain ⟨rfl, behind⟩ := List.cons.inj own
                  rcases owns_indexParts behind with rfl | ⟨rfl, rfl, rfl⟩
                  · exact .closing (by simp)
                  · exact .index
      | member subject link =>
          rcases front with _ | ⟨one, _ | ⟨two, _ | ⟨three, rest⟩⟩⟩ <;> simp [Form.parts] at own
          obtain ⟨rfl, rfl, rfl⟩ := own
          exact .member
      | leading found operand =>
          rcases front with _ | ⟨one, _ | ⟨two, rest⟩⟩ <;> simp [Form.parts] at own
          obtain ⟨rfl, rfl⟩ := own
          exact .leading
      | trailing operand found =>
          rcases front with _ | ⟨one, _ | ⟨two, rest⟩⟩ <;> simp [Form.parts] at own
          obtain ⟨rfl, rfl, rfl⟩ := own
          exact .trailing
      | binary found left right =>
          rcases front with _ | ⟨one, _ | ⟨two, _ | ⟨three, rest⟩⟩⟩ <;> simp [Form.parts] at own
          obtain ⟨rfl, rfl, rfl⟩ := own
          exact .binary
      | conditional condition first second =>
          rcases front with _ | ⟨one, _ | ⟨two, _ | ⟨three, _ | ⟨four, _ | ⟨five, rest⟩⟩⟩⟩⟩ <;>
            simp [Form.parts] at own
          · obtain ⟨rfl, rfl, rfl⟩ := own
            exact .conditional
          · obtain ⟨-, -, -, rfl, -⟩ := own
            exact .closing (by simp)
      | assignment found target value =>
          rcases front with _ | ⟨one, _ | ⟨two, _ | ⟨three, rest⟩⟩⟩ <;> simp [Form.parts] at own
          obtain ⟨rfl, rfl, rfl⟩ := own
          exact .assignment

/-! ## Ranks -/

/-- Forms of well-formed trees whose rank is not below a bound. -/
def Form.AtLeast (least : Nat) : Form → Prop
  | .tree whole => whole.isWellFormed = true ∧ least ≤ whole.rank
  | .indices items => areWellFormed items = true

theorem isWellFormed_of_mem {items : List Tree} (all : areWellFormed items = true)
    (among : tree ∈ items) : tree.isWellFormed = true := by
  induction items with
  | nil => contradiction
  | cons first rest induction =>
      rw [areWellFormed, Bool.and_eq_true] at all
      rcases List.mem_cons.1 among with rfl | later
      · exact all.1
      · exact induction all.2 later

theorem form_mem_listParts {items : List Tree} (among : .form form ∈ listParts items) :
    ∃ item ∈ items, form = .tree item := by
  induction items using listParts.induct with
  | case1 => contradiction
  | case2 only => exact ⟨only, by simp, by simpa [listParts] using among⟩
  | case3 first next rest induction =>
      rw [listParts] at among
      rcases List.mem_cons.1 among with same | later
      · exact ⟨first, by simp, by simpa using same⟩
      · rcases List.mem_cons.1 later with same | last
        · cases same
        · obtain ⟨item, listed, same⟩ := induction last
          exact ⟨item, List.mem_cons_of_mem _ listed, same⟩

theorem four_le_rank (well : tree.isWellFormed = true) : 4 ≤ tree.rank := by
  cases tree with
  | binary op left right =>
      simp only [isWellFormed, Op.isBinary, Bool.and_eq_true, decide_eq_true_eq] at well
      rw [rank]
      omega
  | _ => simp [rank]

theorem rank_of_isLink (link : tree.isLink = true) : tree.rank = 22 := by
  cases tree <;> first | rfl | contradiction

/-- The forms inside a form are well formed, and without brackets none has a lower rank. -/
theorem Form.AtLeast.inner {least : Nat} {inner : Form} (holds : form.AtLeast least)
    (among : .form inner ∈ form.parts) :
    inner.AtLeast 0 ∧
      (.op .openParen ∉ form.parts → .op .openBracket ∉ form.parts → inner.AtLeast least) := by
  cases form with
  | indices items =>
      cases items with
      | nil => simp [Form.parts] at among
      | cons first further =>
          have well : (first.isWellFormed && areWellFormed further) = true := holds
          rw [Bool.and_eq_true] at well
          refine ⟨?_, fun _ square => absurd (by simp [Form.parts, indexParts]) square⟩
          rcases (by simpa [Form.parts, indexParts] using among :
            inner = .tree first ∨ inner = .indices further) with rfl | rfl
          · exact ⟨well.1, Nat.zero_le _⟩
          · exact well.2
  | tree tree =>
      obtain ⟨well, bound⟩ := holds
      cases tree with
      | name chars => simp [Form.parts] at among
      | group wrapped =>
          refine ⟨?_, fun round _ => absurd (by simp [Form.parts]) round⟩
          obtain rfl : inner = .tree wrapped := by simpa [Form.parts] using among
          exact ⟨well, Nat.zero_le _⟩
      | call callee arguments =>
          refine ⟨?_, fun round _ => absurd (by simp [Form.parts]) round⟩
          rw [isWellFormed, Bool.and_eq_true] at well
          have inside : .form inner ∈ listParts arguments := by simpa [Form.parts] using among
          obtain ⟨item, listed, rfl⟩ := form_mem_listParts inside
          exact ⟨isWellFormed_of_mem well.2 listed, Nat.zero_le _⟩
      | index target indices =>
          simp only [isWellFormed, Bool.and_eq_true] at well
          obtain ⟨⟨⟨takes, wellTarget⟩, some⟩, wellIndices⟩ := well
          cases indices with
          | nil => contradiction
          | cons first further =>
              rw [areWellFormed, Bool.and_eq_true] at wellIndices
              refine ⟨?_, fun _ square => absurd (by simp [Form.parts, indexParts]) square⟩
              rcases (by simpa [Form.parts, indexParts] using among :
                inner = .tree target ∨ inner = .tree first ∨ inner = .indices further) with
                rfl | rfl | rfl
              · exact ⟨wellTarget, Nat.zero_le _⟩
              · exact ⟨wellIndices.1, Nat.zero_le _⟩
              · exact wellIndices.2
      | member subject link =>
          simp only [isWellFormed, Bool.and_eq_true, decide_eq_true_eq] at well
          obtain ⟨⟨⟨high, wellSubject⟩, isLink⟩, wellLink⟩ := well
          rw [rank] at bound
          rcases (by simpa [Form.parts] using among :
            inner = .tree subject ∨ inner = .tree link) with rfl | rfl
          · exact ⟨⟨wellSubject, Nat.zero_le _⟩, fun _ _ => ⟨wellSubject, by omega⟩⟩
          · have linkRank := rank_of_isLink isLink
            exact ⟨⟨wellLink, Nat.zero_le _⟩, fun _ _ => ⟨wellLink, by omega⟩⟩
      | leading found operand =>
          simp only [isWellFormed, Bool.and_eq_true, Bool.or_eq_true, decide_eq_true_eq] at well
          rw [rank] at bound
          obtain rfl : inner = .tree operand := by simpa [Form.parts] using among
          exact ⟨⟨well.2, Nat.zero_le _⟩, fun _ _ => ⟨well.2, by omega⟩⟩
      | trailing operand found =>
          simp only [isWellFormed, Bool.and_eq_true, decide_eq_true_eq] at well
          rw [rank] at bound
          obtain rfl : inner = .tree operand := by simpa [Form.parts] using among
          exact ⟨⟨well.2, Nat.zero_le _⟩, fun _ _ => ⟨well.2, by omega⟩⟩
      | binary found left right =>
          simp only [isWellFormed, Bool.and_eq_true, decide_eq_true_eq] at well
          rw [rank] at bound
          rcases (by simpa [Form.parts] using among :
            inner = .tree left ∨ inner = .tree right) with rfl | rfl
          · exact ⟨⟨well.1.2, Nat.zero_le _⟩, fun _ _ => ⟨well.1.2, by omega⟩⟩
          · exact ⟨⟨well.2, Nat.zero_le _⟩, fun _ _ => ⟨well.2, by omega⟩⟩
      | conditional condition first second =>
          simp only [isWellFormed, Bool.and_eq_true, decide_eq_true_eq] at well
          rw [rank] at bound
          rcases (by simpa [Form.parts] using among :
            inner = .tree condition ∨ inner = .tree first ∨ inner = .tree second) with
            rfl | rfl | rfl
          · exact ⟨⟨well.1.1.2, Nat.zero_le _⟩, fun _ _ => ⟨well.1.1.2, by omega⟩⟩
          · exact ⟨⟨well.1.2, Nat.zero_le _⟩, fun _ _ => ⟨well.1.2, by omega⟩⟩
          · exact ⟨⟨well.2, Nat.zero_le _⟩, fun _ _ => ⟨well.2, by omega⟩⟩
      | assignment found target value =>
          simp only [isWellFormed, Bool.and_eq_true, decide_eq_true_eq] at well
          rw [rank] at bound
          have valueRank := four_le_rank well.2
          rcases (by simpa [Form.parts] using among :
            inner = .tree target ∨ inner = .tree value) with rfl | rfl
          · exact ⟨⟨well.1.2, Nat.zero_le _⟩, fun _ _ => ⟨well.1.2, by omega⟩⟩
          · exact ⟨⟨well.2, Nat.zero_le _⟩, fun _ _ => ⟨well.2, by omega⟩⟩

theorem inherits_wellFormed : Inherits (Form.AtLeast 0) fun _ => True :=
  fun _ holds _ _ among => (holds.inner among).1

theorem inherits_atLeast (least : Nat) :
    Inherits (Form.AtLeast least) fun op => op ≠ .openParen ∧ op ≠ .openBracket :=
  fun _ holds present _ among =>
    (holds.inner among).2 (fun round => (present _ round).1 rfl) fun square =>
      (present _ square).2 rfl

/-! ## Folded forms -/

theorem Occurs.append_left (occurs : Occurs op before) : Occurs op (before ++ after) := by
  obtain ⟨segment, among, isOp⟩ := occurs
  exact ⟨segment, List.mem_append_left _ among, isOp⟩

theorem Occurs.append_right (occurs : Occurs op after) : Occurs op (before ++ after) := by
  obtain ⟨segment, among, isOp⟩ := occurs
  exact ⟨segment, List.mem_append_right _ among, isOp⟩

theorem Occurs.cons (occurs : Occurs op segments) : Occurs op (segment :: segments) := by
  obtain ⟨found, among, isOp⟩ := occurs
  exact ⟨found, List.mem_cons_of_mem _ among, isOp⟩

/-- Operators with those that only follow them in the same form. -/
def followers : List (Op × Op) :=
  [(.openParen, .closeParen), (.openBracket, .closeBracket), (.openParen, .comma),
    (.question, .colon)]

theorem Form.AtLeast.leader {least : Nat} {leader follower : Op}
    (pair : (leader, follower) ∈ followers) (holds : form.AtLeast least)
    (among : .op follower ∈ form.parts) : .op leader ∈ form.parts := by
  have cases_ : (leader = .openParen ∧ (follower = .closeParen ∨ follower = .comma)) ∨
      (leader = .openBracket ∧ follower = .closeBracket) ∨
      (leader = .question ∧ follower = .colon) := by
    simp only [followers, List.mem_cons, Prod.mk.injEq, List.not_mem_nil, or_false] at pair
    tauto
  -- an operator that a constructor carries follows no other
  have carried {op : Op} (same : follower = op)
      (kind : op.isMark = true ∨ op.isStep = true ∨ op.isBinary = true ∨ op.isAssignment = true) :
      False := by
    subst same
    rcases cases_ with ⟨-, rfl | rfl⟩ | ⟨-, rfl⟩ | ⟨-, rfl⟩ <;> revert kind <;> decide
  cases form with
  | indices items =>
      cases items with
      | nil => simp [Form.parts] at among
      | cons first further =>
          rcases cases_ with ⟨rfl, rfl | rfl⟩ | ⟨rfl, rfl⟩ | ⟨rfl, rfl⟩ <;>
            simp_all [Form.parts, indexParts]
  | tree tree =>
      have well := holds.1
      cases tree with
      | call callee arguments =>
          have inside : follower = .closeParen ∨ .op follower ∈ listParts arguments := by
            rcases cases_ with ⟨-, rfl | rfl⟩ | ⟨-, rfl⟩ | ⟨-, rfl⟩ <;>
              simp_all [Form.parts]
          have round : leader = .openParen := by
            rcases inside with rfl | inside
            · simpa using cases_
            · rw [op_mem_listParts inside] at cases_
              simpa using cases_
          rw [round]
          simp [Form.parts]
      | index target indices =>
          cases indices with
          | nil => simp [Form.parts] at among
          | cons first further =>
              rcases cases_ with ⟨rfl, rfl | rfl⟩ | ⟨rfl, rfl⟩ | ⟨rfl, rfl⟩ <;>
                simp_all [Form.parts, indexParts]
      | leading op operand =>
          simp only [isWellFormed, Bool.and_eq_true, Bool.or_eq_true, decide_eq_true_eq] at well
          exact (carried (by simpa [Form.parts] using among) (by tauto)).elim
      | trailing operand op =>
          simp only [isWellFormed, Bool.and_eq_true, decide_eq_true_eq] at well
          exact (carried (by simpa [Form.parts] using among) (.inr (.inl well.1.1))).elim
      | binary op left right =>
          simp only [isWellFormed, Bool.and_eq_true, decide_eq_true_eq] at well
          exact (carried (by simpa [Form.parts] using among) (.inr (.inr (.inl well.1.1.1.1)))).elim
      | assignment op target value =>
          simp only [isWellFormed, Bool.and_eq_true, decide_eq_true_eq] at well
          exact (carried (by simpa [Form.parts] using among) (.inr (.inr (.inr well.1.1.1)))).elim
      | _ =>
          rcases cases_ with ⟨rfl, rfl | rfl⟩ | ⟨rfl, rfl⟩ | ⟨rfl, rfl⟩ <;> simp_all [Form.parts]

/-- An operator that follows another one does so in every spelling. -/
theorem Spelled.occurs_leader {leader follower : Op} (pair : (leader, follower) ∈ followers)
    (spelled : Spelled text parts segments) (well : ∀ form, .form form ∈ parts → form.AtLeast 0)
    (notOwn : .op follower ∉ parts) (occurs : Occurs follower segments) :
    Occurs leader segments := by
  obtain ⟨segment, among, isOp⟩ := occurs
  obtain ⟨before, after, rfl⟩ := List.append_of_mem among
  rcases spelled.belongs inherits_wellFormed well (fun _ _ => trivial) rfl isOp with
    ⟨front, back, rfl, -, -⟩ | ⟨holds, own, left, right, -⟩
  · simp at notOwn
  · have whole := left.append (.op (piece_of_op? isOp) right)
    rw [← own] at whole
    have found := whole.occurs (holds.leader pair (by simp [own]))
    rw [List.append_assoc]
    refine Occurs.append_right ?_
    rw [← List.cons_append, ← List.append_assoc]
    exact found.append_left

/-- A tree with an operator of its own that is gone is folded. -/
theorem Spelled.folded_of_gone (spelled : Spelled text [.form form] segments)
    (own : .op op ∈ form.parts) (gone : ¬ Occurs op segments) :
    ∃ segment expr, segments = [segment] ∧ segment.piece = .tree expr ∧ form.Pictures expr :=
  spelled.form_cases.resolve_right fun inner => gone (inner.occurs own)

/-- A name, or a tree with an operator of its own that is gone, is a single segment. -/
theorem Spelled.single (spelled : Spelled text [.form (.tree tree)] segments)
    (gone : (∃ chars, tree = .name chars) ∨
      ∃ op, .op op ∈ (Form.tree tree).parts ∧ ¬ Occurs op segments) :
    ∃ segment, segments = [segment] ∧ segment.isOperand = true := by
  rcases gone with ⟨chars, rfl⟩ | ⟨op, own, gone⟩
  · rcases spelled.form_cases with ⟨segment, expr, rfl, isTree, -⟩ | inner
    · exact ⟨segment, rfl, isOperand_of_tree isTree⟩
    · cases inner with
      | word isWord spells behind =>
          rw [spelled_nil.1 behind]
          exact ⟨_, rfl, isOperand_of_word isWord⟩
  · obtain ⟨segment, expr, rfl, isTree, -⟩ := spelled.folded_of_gone own gone
    exact ⟨segment, rfl, isOperand_of_tree isTree⟩

/-- The parts end in a word or a tree. -/
def EndsSolid (parts : List Part) : Prop :=
  (∃ chars, parts.getLast? = some (.word chars)) ∨ ∃ tree, parts.getLast? =
    some (.form (.tree tree))

/-- A form ends in an operator that ends operands, or in a word or a tree. -/
theorem Form.AtLeast.ends {least : Nat} {whole : Tree} (holds : (Form.tree whole).AtLeast least) :
    (∃ op, .op op ∈ (Form.tree whole).parts ∧ op.endsOperand = true) ∨
      EndsSolid (Form.tree whole).parts := by
  have well := holds.1
  cases whole with
  | name chars => exact .inr (.inl ⟨chars, rfl⟩)
  | group inner => exact .inl ⟨.closeParen, by simp [Form.parts], rfl⟩
  | call callee arguments => exact .inl ⟨.closeParen, by simp [Form.parts], rfl⟩
  | index target indices =>
      cases indices with
      | nil => simp [isWellFormed] at well
      | cons first further => exact .inl ⟨.closeBracket, by simp [Form.parts, indexParts], rfl⟩
  | trailing operand op =>
      simp only [isWellFormed, Bool.and_eq_true, Op.isStep, Bool.or_eq_true, beq_iff_eq] at well
      refine .inl ⟨op, by simp [Form.parts], ?_⟩
      rcases well.1.1 with rfl | rfl <;> rfl
  | member subject link => exact .inr (.inr ⟨link, rfl⟩)
  | leading op operand => exact .inr (.inr ⟨operand, rfl⟩)
  | binary op left right => exact .inr (.inr ⟨right, rfl⟩)
  | conditional condition first second => exact .inr (.inr ⟨second, rfl⟩)
  | assignment op target value => exact .inr (.inr ⟨value, rfl⟩)

theorem EndsSolid.tail {part next : Part} (ends : EndsSolid (part :: next :: rest)) :
    EndsSolid (next :: rest) := by
  rw [EndsSolid, List.getLast?_cons_cons] at ends
  exact ends

/-- Where no operator ends an operand, the last segment is one. -/
theorem Spelled.exists_last (spelled : Spelled text parts segments)
    (well : ∀ form, .form form ∈ parts → form.AtLeast 0) (ends : EndsSolid parts)
    (none : ∀ op, Occurs op segments → op.endsOperand = false) :
    ∃ earlier last, segments = earlier ++ [last] ∧ last.isOperand = true := by
  have behind {head : Segment} {tail : List Segment}
      (found : ∃ earlier last, tail = earlier ++ [last] ∧ last.isOperand = true) :
      ∃ earlier last, head :: tail = earlier ++ [last] ∧ last.isOperand = true := by
    obtain ⟨earlier, last, rfl, isLast⟩ := found
    exact ⟨head :: earlier, last, rfl, isLast⟩
  induction spelled with
  | nil => rcases ends with ⟨_, found⟩ | ⟨_, found⟩ <;> contradiction
  | @op op rest segment segments isOp later induction =>
      cases rest with
      | nil => rcases ends with ⟨_, found⟩ | ⟨_, found⟩ <;> cases found
      | cons next rest =>
          exact behind (induction (fun form among => well form (List.mem_cons_of_mem _ among))
            ends.tail fun op occurs => none op occurs.cons)
  | @word chars rest segment segments isWord spells later induction =>
      cases rest with
      | nil =>
          rw [spelled_nil.1 later]
          exact ⟨[], segment, rfl, isOperand_of_word isWord⟩
      | cons next rest =>
          exact behind (induction (fun form among => well form (List.mem_cons_of_mem _ among))
            ends.tail fun op occurs => none op occurs.cons)
  | @folded form expr rest segment segments isTree pictures later induction =>
      cases rest with
      | nil =>
          rw [spelled_nil.1 later]
          exact ⟨[], segment, rfl, isOperand_of_tree isTree⟩
      | cons next rest =>
          exact behind (induction (fun form among => well form (List.mem_cons_of_mem _ among))
            ends.tail fun op occurs => none op occurs.cons)
  | @spelled form rest inner outer first later firstInduction induction =>
      cases rest with
      | nil =>
          rw [spelled_nil.1 later, List.append_nil] at none ⊢
          have holds := well form List.mem_cons_self
          obtain ⟨whole, rfl⟩ : ∃ whole, form = .tree whole := by
            rcases ends with ⟨_, found⟩ | ⟨whole, found⟩
            · cases found
            · cases found
              exact ⟨whole, rfl⟩
          rcases holds.ends with ⟨op, own, endsOperand⟩ | solid
          · rw [none op (first.occurs own)] at endsOperand
            contradiction
          · exact firstInduction (fun form among => (holds.inner among).1) solid none
      | cons next rest =>
          obtain ⟨earlier, last, rfl, isLast⟩ :=
            induction (fun form among => well form (List.mem_cons_of_mem _ among)) ends.tail
              fun op occurs => none op occurs.append_right
          exact ⟨inner ++ earlier, last, (List.append_assoc ..).symm, isLast⟩

/-! ## Conditionals inside -/

/-- The number of open conditionals behind the parts; none when a colon has no partner. -/
def openBehind : Nat → List Part → Option Nat
  | depth, [] => some depth
  | depth, part :: rest =>
      match part with
      | .op .question => openBehind (depth + 1) rest
      | .op .colon => if depth == 0 then none else openBehind (depth - 1) rest
      | _ => openBehind depth rest

theorem openBehind_op (depth : Nat) (rest : List Part) (question : op ≠ .question)
    (colon : op ≠ .colon) : openBehind depth (.op op :: rest) = openBehind depth rest := by
  cases op <;> first | rfl | contradiction

theorem openBehind_listParts (depth : Nat) (items : List Tree) (more : List Part) :
    openBehind depth (listParts items ++ more) = openBehind depth more := by
  induction items using listParts.induct with
  | case1 => rfl
  | case2 only => rfl
  | case3 first next rest induction => exact induction

theorem openBehind_parts (holds : form.AtLeast 0) (depth : Nat) :
    openBehind depth form.parts = some depth := by
  have plain {op : Op} {rest : List Part}
      (kind : op.isMark = true ∨ op.isStep = true ∨ op.isBinary = true ∨ op.isAssignment = true) :
      openBehind depth (.op op :: rest) = openBehind depth rest := by
    refine openBehind_op depth rest ?_ ?_ <;> rintro rfl <;> revert kind <;> decide
  cases form with
  | indices items =>
      cases items with
      | nil => rfl
      | cons first further => rfl
  | tree tree =>
      have well := holds.1
      cases tree with
      | call callee arguments => exact openBehind_listParts depth arguments _
      | index target indices =>
          cases indices with
          | nil => rfl
          | cons first further => rfl
      | leading op operand =>
          simp only [isWellFormed, Bool.and_eq_true, Bool.or_eq_true, decide_eq_true_eq] at well
          exact plain (by tauto)
      | trailing operand op =>
          simp only [isWellFormed, Bool.and_eq_true, decide_eq_true_eq] at well
          exact plain (.inr (.inl well.1.1))
      | binary op left right =>
          simp only [isWellFormed, Bool.and_eq_true, decide_eq_true_eq] at well
          exact plain (.inr (.inr (.inl well.1.1.1.1)))
      | assignment op target value =>
          simp only [isWellFormed, Bool.and_eq_true, decide_eq_true_eq] at well
          exact plain (.inr (.inr (.inr well.1.1.1)))
      | _ => rfl

/-- Conditionals inside a tree take their own colons. -/
theorem Spelled.pairedColon? {depth final : Nat} (spelled : Spelled text parts segments)
    (well : ∀ form, .form form ∈ parts → form.AtLeast 0)
    (opens : openBehind depth parts = some final) (more : List (Nat × Op)) :
    pairedColon? depth (headsOf segments ++ more) = pairedColon? final more := by
  induction spelled generalizing depth final more with
  | nil =>
      obtain rfl := Option.some.inj opens
      rfl
  | @op op rest segment segments isOp behind induction =>
      have later := fun form among => well form (List.mem_cons_of_mem _ among)
      rw [headsOf_op (op?_of_piece isOp), List.cons_append]
      by_cases question : op = .question
      · subst question
        exact induction later opens more
      · by_cases colon : op = .colon
        · subst colon
          rw [openBehind] at opens
          split at opens
          · contradiction
          · next some =>
              rw [Reduction.pairedColon?, if_neg some]
              exact induction later opens more
        · rw [openBehind_op depth rest question colon] at opens
          have skips : Reduction.pairedColon? depth
              ((segment.span.start, op) :: (headsOf segments ++ more)) =
                Reduction.pairedColon? depth (headsOf segments ++ more) := by
            cases op <;> first | rfl | contradiction
          rw [skips]
          exact induction later opens more
  | word isWord spells behind induction =>
      rw [headsOf_operand (isOperand_of_word isWord)]
      exact induction (fun form among => well form (List.mem_cons_of_mem _ among)) opens more
  | folded isTree pictures behind induction =>
      rw [headsOf_operand (isOperand_of_tree isTree)]
      exact induction (fun form among => well form (List.mem_cons_of_mem _ among)) opens more
  | @spelled form rest inner outer first behind firstInduction induction =>
      have holds := well form List.mem_cons_self
      rw [headsOf_append, List.append_assoc,
        firstInduction (fun _ among => (holds.inner among).1) (openBehind_parts holds depth)]
      exact induction (fun form among => well form (List.mem_cons_of_mem _ among)) opens more

end

end Tree
end MethodLowering
