import MethodLowering.Proofs.Expr.Everywhere

/-!
# How an expression lies in its text

An expression consists of tokens of its own and of its written parts, in the order in which they
stand in the text.  A tree is faithful to a text when every node has the text at its span, and this
text is made of exactly the tokens and parts of the node, blanks aside.
-/

namespace MethodLowering

namespace Text

/-- The text without any blanks. -/
def squeeze (text : List Char) : List Char := text.filter fun c => !isBlank c

@[simp]
theorem squeeze_nil : squeeze [] = [] := rfl

@[simp]
theorem squeeze_append (left right : List Char) :
    squeeze (left ++ right) = squeeze left ++ squeeze right :=
  List.filter_append ..

/-- What stands from one position up to another, without blanks. -/
def between (text : List Char) (start stop : Nat) : List Char :=
  squeeze (Span.slice ⟨start, stop⟩ text)

@[simp]
theorem between_self (text : List Char) (position : Nat) : between text position position = [] := by
  simp [between, Span.slice, Span.length]

theorem between_append (text : List Char) {start middle stop : Nat} (low : start ≤ middle)
    (high : middle ≤ stop) :
    between text start middle ++ between text middle stop = between text start stop := by
  have lengths : stop - start = (middle - start) + (stop - middle) := by omega
  rw [between, between, between, ← squeeze_append, Span.slice, Span.slice, Span.slice, Span.length,
    Span.length, Span.length, lengths, List.take_add, List.drop_drop, Nat.add_sub_cancel' low]

end Text

namespace Expr

open Text

/-- A piece of the written form of an expression. -/
inductive Part where
  /-- Characters of the expression's own. -/
  | token (chars : List Char)
  /-- Commas of a list, at least `least` of them: empty items leave no other trace. -/
  | commas (least : Nat)
  /-- A part of the expression, which may be absent. -/
  | child (expr : Expr)

/-- The items of a list with commas, as they go on behind an item. -/
def furtherParts : List Expr → List Part
  | [] => [.commas 0]
  | item :: rest => .commas 1 :: .child item :: furtherParts rest

/-- The items of a list with commas between them. -/
def listParts : List Expr → List Part
  | [] => [.commas 0]
  | item :: rest => .commas 0 :: .child item :: furtherParts rest

/-- Each index in its own pair of square brackets. -/
def indexParts : List Expr → List Part
  | [] => []
  | entry :: rest => .token ['['] :: .child entry :: .token [']'] :: indexParts rest

/-- What a leaf is spelled by. -/
def leafToken (node : Node) : LeafForm → List Char
  | .construction typeName => "new".toList ++ squeeze typeName.toList
  | _ => squeeze node.text.toList

/-- The tokens and parts of an expression in the order in which they are written. -/
def parts : Expr → List Part
  | absent => []
  | leaf node form => [.token (leafToken node form)]
  | declaration node _ _ => [.token (squeeze node.text.toList)]
  | operation _ op left right => [.child left, .token op.spelling, .child right]
  | assignment _ op target value => [.child target, .token op.spelling, .child value]
  | typeTest _ operand typeName =>
      [.child operand, .token Op.instanceOf.spelling, .token (squeeze typeName.toList)]
  | access _ subject member => [.child subject, .token Op.dot.spelling, .child member]
  | group _ false items =>
      .token Op.openParen.spelling :: listParts items ++ [.token Op.closeParen.spelling]
  | group _ true items =>
      .token Op.openBrace.spelling :: listParts items ++ [.token Op.closeBrace.spelling]
  | cast _ typeName operand =>
      [.token Op.openParen.spelling, .token (squeeze typeName.toList),
        .token Op.closeParen.spelling, .child operand]
  | call _ callee arguments =>
      .child callee :: .token Op.openParen.spelling :: listParts arguments ++
        [.token Op.closeParen.spelling]
  | index _ target indices initializer =>
      .child target :: indexParts indices ++ [.child initializer]

/-- The text from one position up to another is made of the parts, with blanks between them. -/
def Laid (text : List Char) : Nat → Nat → List Part → Prop
  | start, stop, [] => start ≤ stop ∧ between text start stop = []
  | start, stop, .token chars :: rest =>
      ∃ middle, start ≤ middle ∧ between text start middle = chars ∧ Laid text middle stop rest
  | start, stop, .commas least :: rest =>
      ∃ middle count, start ≤ middle ∧ least ≤ count ∧
        between text start middle = List.replicate count ',' ∧ Laid text middle stop rest
  | start, stop, .child expr :: rest =>
      match expr.node? with
      | none => Laid text start stop rest
      | some node =>
          start ≤ node.span.start ∧ between text start node.span.start = [] ∧
            node.span.start < node.span.stop ∧ Laid text node.span.stop stop rest

/-- The node of an expression has the text at its span, and this text is made of the tokens and
parts of the expression. -/
structure IsExact (text : List Char) (expr : Expr) (node : Node) : Prop where
  node? : expr.node? = some node
  inside : node.span.stop ≤ text.length
  nonempty : node.span.start < node.span.stop
  text_eq : node.text = String.ofList (node.span.slice text)
  laid : Laid text node.span.start node.span.stop expr.parts

/-- Every node of the tree is exact. -/
def Faithful (text : List Char) (expr : Expr) : Prop :=
  ∀ inner ∈ expr.preorder, ∃ node, inner.IsExact text node

/-- Reading the parts in order, and each part the same way, gives the characters. -/
inductive Reads : List Part → List Char → Prop where
  | nil : Reads [] []
  | token {rest : List Part} {read : List Char} (chars : List Char) (behind : Reads rest read) :
      Reads (.token chars :: rest) (chars ++ read)
  | commas {rest : List Part} {read : List Char} {least count : Nat} (enough : least ≤ count)
      (behind : Reads rest read) : Reads (.commas least :: rest) (List.replicate count ',' ++ read)
  | child {rest : List Part} {expr : Expr} {inner read : List Char} (first : Reads expr.parts inner)
      (behind : Reads rest read) : Reads (.child expr :: rest) (inner ++ read)

section

variable {text : List Char} {start middle stop : Nat} {front back : List Part} {expr : Expr}

/-! ## Laying parts side by side -/

theorem Laid.le (laid : Laid text start stop front) : start ≤ stop := by
  induction front generalizing start with
  | nil => exact laid.1
  | cons part rest induction =>
      cases part with
      | token chars =>
          obtain ⟨middle, low, -, later⟩ := laid
          exact Nat.le_trans low (induction later)
      | commas least =>
          obtain ⟨middle, count, low, -, -, later⟩ := laid
          exact Nat.le_trans low (induction later)
      | child expr =>
          rw [Laid] at laid
          split at laid
          · exact induction laid
          · have later := induction laid.2.2.2
            have low := laid.1
            have inner := laid.2.2.1
            omega

/-- Blanks in front do not matter. -/
theorem Laid.behind (low : start ≤ middle) (blank : between text start middle = [])
    (laid : Laid text middle stop front) : Laid text start stop front := by
  have joins {later : Nat} (order : middle ≤ later) :
      between text start later = between text middle later := by
    rw [← between_append text low order, blank, List.nil_append]
  induction front with
  | nil => exact ⟨Nat.le_trans low laid.1, by rw [joins laid.1]; exact laid.2⟩
  | cons part rest induction =>
      cases part with
      | token chars =>
          obtain ⟨later, order, read, behind⟩ := laid
          exact ⟨later, Nat.le_trans low order, by rw [joins order]; exact read, behind⟩
      | commas least =>
          obtain ⟨later, count, order, enough, read, behind⟩ := laid
          exact ⟨later, count, Nat.le_trans low order, enough,
            by rw [joins order]; exact read, behind⟩
      | child expr =>
          rw [Laid] at laid ⊢
          split at laid
          · exact induction laid
          · exact ⟨Nat.le_trans low laid.1, by rw [joins laid.1]; exact laid.2.1, laid.2.2⟩

theorem laid_append :
    Laid text start stop (front ++ back) ↔
      ∃ middle, Laid text start middle front ∧ Laid text middle stop back := by
  induction front generalizing start with
  | nil =>
      constructor
      · intro laid
        exact ⟨start, ⟨Nat.le_refl _, between_self ..⟩, laid⟩
      · rintro ⟨middle, blank, laid⟩
        exact laid.behind blank.1 blank.2
  | cons part rest induction =>
      cases part with
      | token chars =>
          constructor
          · rintro ⟨first, low, read, laid⟩
            obtain ⟨middle, left, right⟩ := induction.1 laid
            exact ⟨middle, ⟨first, low, read, left⟩, right⟩
          · rintro ⟨middle, ⟨first, low, read, left⟩, right⟩
            exact ⟨first, low, read, induction.2 ⟨middle, left, right⟩⟩
      | commas least =>
          constructor
          · rintro ⟨first, count, low, enough, read, laid⟩
            obtain ⟨middle, left, right⟩ := induction.1 laid
            exact ⟨middle, ⟨first, count, low, enough, read, left⟩, right⟩
          · rintro ⟨middle, ⟨first, count, low, enough, read, left⟩, right⟩
            exact ⟨first, count, low, enough, read, induction.2 ⟨middle, left, right⟩⟩
      | child expr =>
          rw [List.cons_append, Laid]
          simp only [Laid]
          cases expr.node? with
          | none => exact induction
          | some node =>
              constructor
              · rintro ⟨low, blank, nonempty, laid⟩
                obtain ⟨middle, left, right⟩ := induction.1 laid
                exact ⟨middle, ⟨low, blank, nonempty, left⟩, right⟩
              · rintro ⟨middle, ⟨low, blank, nonempty, left⟩, right⟩
                exact ⟨low, blank, nonempty, induction.2 ⟨middle, left, right⟩⟩

theorem Laid.append (left : Laid text start middle front) (right : Laid text middle stop back) :
    Laid text start stop (front ++ back) :=
  laid_append.2 ⟨middle, left, right⟩

theorem Laid.token {chars : List Char} (low : start ≤ middle)
    (read : between text start middle = chars) : Laid text start middle [.token chars] :=
  ⟨middle, low, read, Nat.le_refl _, between_self ..⟩

theorem Laid.read_token {chars : List Char} (laid : Laid text start stop [.token chars]) :
    between text start stop = chars := by
  obtain ⟨middle, low, read, blank⟩ := laid
  rw [← between_append text low blank.1, read, blank.2, List.append_nil]

theorem Laid.child {node : Node} (known : expr.node? = some node)
    (nonempty : node.span.start < node.span.stop) :
    Laid text node.span.start node.span.stop [.child expr] := by
  rw [Laid, known]
  exact ⟨Nat.le_refl _, between_self .., nonempty, Nat.le_refl _, between_self ..⟩

/-! ## Lists with commas -/

/-- A comma joins two lists behind an item. -/
theorem laid_furtherParts_append {left right : List Expr} {comma : Nat}
    (first : Laid text start middle (furtherParts left)) (low : middle ≤ comma)
    (read : between text middle comma = [',']) (second : Laid text comma stop (listParts right)) :
    Laid text start stop (furtherParts (left ++ right)) := by
  induction left generalizing start with
  | nil =>
      obtain ⟨last, count, order, -, commas, blank⟩ := first
      have joined : between text start comma = List.replicate (count + 1) ',' := by
        rw [← between_append text (Nat.le_trans order blank.1) low,
          ← between_append text order blank.1, commas, blank.2, read, List.append_nil,
          ← List.replicate_succ']
      cases right with
      | nil =>
          obtain ⟨next, count', order', -, commas', behind⟩ := second
          refine ⟨next, count + 1 + count', ?_, Nat.zero_le _, ?_, behind⟩
          · have := blank.1
            omega
          · have := blank.1
            rw [← between_append text (show start ≤ comma by omega) order', joined, commas',
              List.replicate_append_replicate]
      | cons item rest =>
          obtain ⟨next, count', order', -, commas', behind⟩ := second
          refine ⟨next, count + 1 + count', ?_, by omega, ?_, behind⟩
          · have := blank.1
            omega
          · have := blank.1
            rw [← between_append text (show start ≤ comma by omega) order', joined, commas',
              List.replicate_append_replicate]
  | cons item rest induction =>
      obtain ⟨next, count, order, enough, commas, behind⟩ := first
      refine ⟨next, count, order, enough, commas, ?_⟩
      rw [← List.singleton_append (l := furtherParts rest), laid_append] at behind
      obtain ⟨later, one, others⟩ := behind
      exact one.append (induction others)

/-- A comma joins two lists. -/
theorem laid_listParts_append {left right : List Expr} {comma : Nat}
    (first : Laid text start middle (listParts left)) (low : middle ≤ comma)
    (read : between text middle comma = [',']) (second : Laid text comma stop (listParts right)) :
    Laid text start stop (listParts (left ++ right)) := by
  cases left with
  | nil =>
      have behindNone : Laid text start middle (furtherParts []) := first
      have joined := laid_furtherParts_append behindNone low read second
      rw [List.nil_append] at joined
      cases right with
      | nil => exact joined
      | cons item rest =>
          obtain ⟨next, count, order, -, commas, behind⟩ := joined
          exact ⟨next, count, order, Nat.zero_le _, commas, behind⟩
  | cons item rest =>
      obtain ⟨next, count, order, enough, commas, behind⟩ := first
      refine ⟨next, count, order, enough, commas, ?_⟩
      rw [← List.singleton_append (l := furtherParts rest), laid_append] at behind
      obtain ⟨later, one, others⟩ := behind
      exact one.append (laid_furtherParts_append others low read second)

/-! ## Trees -/

theorem faithful_iff (present : expr.isPresent = true) :
    expr.Faithful text ↔
      (∃ node, expr.IsExact text node) ∧ ∀ child ∈ expr.children, child.Faithful text :=
  everywhere_iff present

theorem faithful_absent : absent.Faithful text := everywhere_absent

theorem faithful_of_mem {items : List Expr}
    (written : ∀ child ∈ items.filter isPresent, child.Faithful text) (member : expr ∈ items) :
    expr.Faithful text :=
  everywhere_of_mem written member

/-- The items of a comma list are faithful where the list is. -/
theorem Faithful.commaItems (faithful : expr.Faithful text) :
    ∀ item ∈ expr.commaItems, item.Faithful text :=
  Everywhere.commaItems faithful

/-- A comma list is laid as its items are. -/
theorem Laid.commaItems (faithful : expr.Faithful text)
    (laid : Laid text start stop [.child expr]) :
    Laid text start stop (listParts expr.commaItems) := by
  induction expr using commaItems.induct generalizing start stop with
  | case1 => exact ⟨start, 0, Nat.le_refl _, Nat.le_refl _, between_self .., laid⟩
  | case2 node left right leftInduction rightInduction =>
      obtain ⟨⟨_, exact_⟩, -⟩ := (faithful_iff rfl).1 faithful
      obtain rfl := Option.some.inj exact_.node?
      obtain ⟨low, blank, -, high⟩ := laid
      have inner := (exact_.laid.behind low blank).append high
      rw [List.append_nil] at inner
      obtain ⟨middle, first, comma, order, read, second⟩ :=
        (@laid_append text start stop [.child left] [.token Op.comma.spelling, .child right]).1
          inner
      have children := ((faithful_iff rfl).1 faithful).2
      exact laid_listParts_append
        (leftInduction (faithful_of_mem children (by simp)) first) order read
        (rightInduction (faithful_of_mem children (by simp)) second)
  | case3 other notAbsent notComma =>
      obtain ⟨node, known⟩ : ∃ node, other.node? = some node :=
        Option.ne_none_iff_exists'.1 fun gone => notAbsent (node?_eq_none.1 gone)
      rw [Expr.commaItems]
      · rw [Laid, known] at laid
        refine ⟨start, 0, Nat.le_refl _, Nat.le_refl _, between_self .., ?_⟩
        rw [Laid, known]
        exact ⟨laid.1, laid.2.1, laid.2.2.1, node.span.stop, 0, Nat.le_refl _, Nat.le_refl _,
          between_self .., laid.2.2.2⟩
      · exact notAbsent
      · exact notComma

/-! ## Spans of the parts -/

/-- The written expressions among parts. -/
def writtenIn : List Part → List Expr
  | [] => []
  | .child expr :: rest => [expr].filter isPresent ++ writtenIn rest
  | .token _ :: rest | .commas _ :: rest => writtenIn rest

theorem writtenIn_append (front back : List Part) :
    writtenIn (front ++ back) = writtenIn front ++ writtenIn back := by
  induction front with
  | nil => rfl
  | cons part rest induction =>
      cases part with
      | token chars => exact induction
      | commas least => exact induction
      | child expr => rw [List.cons_append, writtenIn, writtenIn, induction, List.append_assoc]

theorem writtenIn_furtherParts (items : List Expr) :
    writtenIn (furtherParts items) = items.filter isPresent := by
  induction items with
  | nil => rfl
  | cons item rest induction =>
      rw [furtherParts, writtenIn, writtenIn, induction, ← List.filter_append,
        List.singleton_append]

theorem writtenIn_listParts (items : List Expr) :
    writtenIn (listParts items) = items.filter isPresent := by
  cases items with
  | nil => rfl
  | cons item rest =>
      rw [listParts, writtenIn, writtenIn, writtenIn_furtherParts, ← List.filter_append,
        List.singleton_append]

theorem writtenIn_indexParts (items : List Expr) :
    writtenIn (indexParts items) = items.filter isPresent := by
  induction items with
  | nil => rfl
  | cons item rest induction =>
      rw [indexParts, writtenIn, writtenIn, writtenIn, induction, ← List.filter_append,
        List.singleton_append]

/-- The written parts are the children, in their order. -/
theorem writtenIn_parts (expr : Expr) : writtenIn expr.parts = expr.children := by
  cases expr with
  | group node brace items =>
      cases brace <;>
        simp [parts, writtenIn, writtenIn_append, writtenIn_listParts, children]
  | _ =>
      simp only [parts, writtenIn, writtenIn_append, writtenIn_listParts, writtenIn_indexParts,
        children, ← List.filter_append, List.append_nil, List.nil_append, List.cons_append]

/-- The spans of expressions. -/
def spansOf (exprs : List Expr) : List Span := exprs.filterMap fun expr => expr.node?.map (·.span)

/-- Laid parts lie inside the range, one behind the other. -/
theorem Laid.spans (laid : Laid text start stop front) :
    (∀ span ∈ spansOf (writtenIn front),
        start ≤ span.start ∧ span.start < span.stop ∧ span.stop ≤ stop) ∧
      (spansOf (writtenIn front)).Pairwise fun left right => left.stop ≤ right.start := by
  induction front generalizing start with
  | nil => exact ⟨nofun, .nil⟩
  | cons part rest induction =>
      cases part with
      | token chars =>
          obtain ⟨middle, low, -, later⟩ := laid
          obtain ⟨inside, ordered⟩ := induction later
          refine ⟨fun span member => ?_, ordered⟩
          have bounds := inside span member
          omega
      | commas least =>
          obtain ⟨middle, count, low, -, -, later⟩ := laid
          obtain ⟨inside, ordered⟩ := induction later
          refine ⟨fun span member => ?_, ordered⟩
          have bounds := inside span member
          omega
      | child expr =>
          rw [Laid] at laid
          rw [writtenIn]
          cases known : expr.node? with
          | none =>
              rw [known] at laid
              rw [node?_eq_none.1 known]
              exact induction laid
          | some node =>
              rw [known] at laid
              obtain ⟨low, -, nonempty, later⟩ := laid
              obtain ⟨inside, ordered⟩ := induction later
              have high := later.le
              have listed : spansOf ([expr].filter isPresent ++ writtenIn rest) =
                  node.span :: spansOf (writtenIn rest) := by
                simp [spansOf, isPresent_iff.2 ⟨node, known⟩, known]
              rw [listed]
              constructor
              · intro span member
                rcases List.mem_cons.1 member with rfl | behind
                · omega
                · have bounds := inside span behind
                  omega
              · exact List.pairwise_cons.2 ⟨fun span member => (inside span member).1, ordered⟩

/-! ## Reading a tree -/

theorem Laid.reads (laid : Laid text start stop front)
    (inner : ∀ child ∈ writtenIn front, ∀ node, child.node? = some node →
      Reads child.parts (between text node.span.start node.span.stop)) :
    Reads front (between text start stop) := by
  induction front generalizing start with
  | nil =>
      rw [laid.2]
      exact .nil
  | cons part rest induction =>
      cases part with
      | token chars =>
          obtain ⟨middle, low, read, later⟩ := laid
          rw [← between_append text low later.le, read]
          exact .token chars (induction later inner)
      | commas least =>
          obtain ⟨middle, count, low, enough, read, later⟩ := laid
          rw [← between_append text low later.le, read]
          exact .commas enough (induction later inner)
      | child expr =>
          have later : ∀ child ∈ writtenIn rest, ∀ node, child.node? = some node →
              Reads child.parts (between text node.span.start node.span.stop) :=
            fun child member => inner child (List.mem_append_right _ member)
          rw [Laid] at laid
          cases known : expr.node? with
          | none =>
              rw [known] at laid
              rw [node?_eq_none.1 known]
              exact .child (show Reads absent.parts [] from .nil) (induction laid later)
          | some node =>
              rw [known] at laid
              obtain ⟨low, blank, nonempty, behind⟩ := laid
              have written : expr ∈ writtenIn (.child expr :: rest) := by
                simp [writtenIn, isPresent_iff.2 ⟨node, known⟩]
              have high := behind.le
              rw [← between_append text low (show node.span.start ≤ stop by omega), blank,
                List.nil_append, ← between_append text (Nat.le_of_lt nonempty) high]
              exact .child (inner expr written node known) (induction behind later)

/-- Reading a faithful tree gives the text at its span, blanks aside. -/
theorem Faithful.reads (expr : Expr) (faithful : expr.Faithful text) (node : Node)
    (known : expr.node? = some node) :
    Reads expr.parts (between text node.span.start node.span.stop) := by
  obtain ⟨⟨_, exact_⟩, children⟩ := (faithful_iff (isPresent_iff.2 ⟨node, known⟩)).1 faithful
  obtain rfl := Option.some.inj (known.symm.trans exact_.node?)
  refine exact_.laid.reads fun child member inner knownInner => ?_
  rw [writtenIn_parts] at member
  have smaller := sizeOf_lt_of_mem_children member
  exact Faithful.reads child (children child member) inner knownInner
termination_by sizeOf expr

end

end Expr
end MethodLowering
