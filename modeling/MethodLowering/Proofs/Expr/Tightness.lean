import MethodLowering.Proofs.Brackets.Spacing

/-!
# Trees of shut texts

A tree is tight where its leaves are shut texts and its operators are no brackets.  The text of
every expression of a tight tree is shut then, and where it has no semicolon outside brackets,
neither have the parts that stand in it without brackets around.
-/

namespace MethodLowering

open Text

namespace Expr

/-- Wherever the text is shut, so is the name. -/
def Shelters (text name : List Char) : Prop :=
  ∀ bare, Lenient bare → Shut bare text → Shut bare name

/-- What the expression is spelled by beside its parts opens no bracket or literal that it does not
close. -/
def IsTight : Expr → Prop
  | leaf node form =>
      Shut anyChar node.text.toList ∧
        ∀ typeName, form = .construction typeName → Shelters node.text.toList typeName.toList
  | declaration node _ _ => Shut anyChar node.text.toList
  | operation _ op _ _ | assignment _ op _ _ => op.isBracket = false
  | typeTest node _ typeName =>
      Shut anyChar node.text.toList ∧ Shelters node.text.toList typeName.toList
  | cast _ typeName _ =>
      Shut noSemicolon typeName.toList ∧ ∀ c ∈ typeName.toList, isQuoteMark c = false
  | _ => True

/-- The tree is tight everywhere. -/
def Tight (expr : Expr) : Prop := expr.Everywhere IsTight

/-- Shut characters without quotation marks. -/
structure Framed (chars : List Char) : Prop where
  shut : Shut anyChar chars
  unquoted : ∀ c ∈ chars, isQuoteMark c = false

/-- The tokens of parts, without the children between them. -/
def skeleton : List Part → List Char
  | [] => []
  | .token chars :: rest => chars ++ skeleton rest
  | .commas _ :: rest | .child _ :: rest => skeleton rest

section

variable {text : List Char} {start stop : Nat} {front back parts : List Part} {expr part : Expr}
  {node partNode : Node} {bare : Char → Bool}

@[simp]
theorem skeleton_append (front back : List Part) :
    skeleton (front ++ back) = skeleton front ++ skeleton back := by
  induction front with
  | nil => rfl
  | cons part rest induction =>
      cases part with
      | token chars => rw [List.cons_append, skeleton, skeleton, induction, List.append_assoc]
      | commas least => exact induction
      | child expr => exact induction

@[simp]
theorem skeleton_listParts (items : List Expr) : skeleton (listParts items) = [] := by
  have further (items : List Expr) : skeleton (furtherParts items) = [] := by
    induction items with
    | nil => rfl
    | cons item rest induction => exact induction
  cases items with
  | nil => rfl
  | cons item rest => exact further rest

theorem framed_nil : Framed [] := ⟨shut_nil, List.forall_mem_nil _⟩

theorem Framed.append {left right : List Char} (first : Framed left) (second : Framed right) :
    Framed (left ++ right) :=
  ⟨first.shut.append second.shut,
    fun c among => (List.mem_append.1 among).elim (first.unquoted c) (second.unquoted c)⟩

theorem framed_spelling {op : Op} (plain : op.isBracket = false) : Framed op.spelling :=
  ⟨shut_plain fun _ among => ⟨(isPlain_of_mem_spelling plain among).1, rfl⟩,
    fun _ among => Op.isQuoteMark_of_mem among⟩

theorem framed_indexParts (indices : List Expr) : Framed (skeleton (indexParts indices)) := by
  induction indices with
  | nil => exact ⟨shut_nil, List.forall_mem_nil _⟩
  | cons entry rest induction =>
      exact (show Framed ['[', ']'] from ⟨rfl, by decide⟩).append induction

/-! ## Reading a text along its parts -/

/-- Blanks do not matter to what is read. -/
theorem after?_between (unquoted : ∀ c ∈ between text start stop, isQuoteMark c = false)
    (depth : Nat) : Place.after? anyChar { depth } (Span.slice ⟨start, stop⟩ text) =
      Place.after? anyChar { depth } (between text start stop) :=
  (Place.after?_squeeze (fun _ _ => rfl) rfl
    (forall_of_squeeze (fun _ => isQuoteMark_of_isBlank) unquoted)).symm

/-- Where the children are shut, reading a text is reading its tokens. -/
theorem Laid.after? (laid : Laid text start stop parts)
    (children : ∀ child ∈ writtenIn parts, ∀ node, child.node? = some node →
      Shut anyChar (node.span.slice text))
    (unquoted : ∀ c ∈ skeleton parts, isQuoteMark c = false) (depth : Nat) :
    Place.after? anyChar { depth } (Span.slice ⟨start, stop⟩ text) =
      Place.after? anyChar { depth } (skeleton parts) := by
  induction parts generalizing start depth with
  | nil =>
      rw [after?_between (by rw [laid.2]; exact List.forall_mem_nil _), laid.2]
      rfl
  | cons part rest induction =>
      cases part with
      | token chars =>
          obtain ⟨middle, low, read, later⟩ := laid
          have own : ∀ c ∈ chars, isQuoteMark c = false :=
            fun c among => unquoted c (List.mem_append_left _ among)
          rw [← slice_append text low later.le, Place.after?_append, skeleton, Place.after?_append,
            after?_between (read.symm ▸ own), read]
          cases reads : Place.after? anyChar { depth } chars with
          | none => rfl
          | some place =>
              obtain ⟨quote, depth⟩ := place
              obtain rfl : quote = .outside :=
                (Place.quote_after? reads).trans (Quote.after_of_plain own)
              exact induction later children
                (fun c among => unquoted c (List.mem_append_right _ among)) depth
      | commas least =>
          obtain ⟨middle, count, low, -, read, later⟩ := laid
          have own : ∀ c ∈ List.replicate count ',', isPlain c = true ∧ anyChar c = true := by
            intro c among
            rw [List.eq_of_mem_replicate among]
            exact ⟨rfl, rfl⟩
          rw [← slice_append text low later.le, Place.after?_append,
            after?_between (fun c among => (isPlain_eq (own c (read ▸ among)).1).1), read,
            Place.after?_plain rfl own]
          exact induction later children unquoted depth
      | child expr =>
          have others : ∀ child ∈ writtenIn rest, ∀ node, child.node? = some node →
              Shut anyChar (node.span.slice text) :=
            fun child member => children child (List.mem_append_right _ member)
          rw [Laid] at laid
          cases known : expr.node? with
          | none =>
              rw [known] at laid
              exact induction laid others unquoted depth
          | some node =>
              rw [known] at laid
              obtain ⟨low, blank, nonempty, later⟩ := laid
              have high := later.le
              have written : expr ∈ writtenIn (.child expr :: rest) := by
                simp [writtenIn, isPresent_iff.2 ⟨node, known⟩]
              rw [← slice_append text low (show node.span.start ≤ stop by omega),
                ← slice_append text (Nat.le_of_lt nonempty) high, Place.after?_append,
                after?_between (by rw [blank]; exact List.forall_mem_nil _), blank]
              change Place.after? anyChar { depth } (node.span.slice text ++ _) = _
              rw [Place.after?_append, (children expr written node known).after?]
              exact induction later others unquoted depth

/-! ## Tight trees -/

theorem IsTight.framed {typeName : String} {operand : Expr}
    (tight : (cast node typeName operand).IsTight) :
    Framed (skeleton (cast node typeName operand).parts) := by
  have squeezed : Framed (squeeze typeName.toList) :=
    ⟨(shut_squeeze (fun _ _ => rfl) tight.2).2 tight.1.loose,
      fun c among => tight.2 c (List.mem_filter.1 among).1⟩
  refine ⟨squeezed.shut.enclosed rfl rfl, fun c among => ?_⟩
  change c ∈ '(' :: (squeeze typeName.toList ++ [')']) at among
  rcases List.mem_cons.1 among with rfl | inside
  · rfl
  · rcases List.mem_append.1 inside with inType | inLast
    · exact squeezed.unquoted c inType
    · rw [List.mem_singleton.1 inLast]
      rfl

/-- The text of every expression of a tight tree is shut. -/
theorem Tight.shut (expr : Expr) (tight : expr.Tight) (faithful : expr.Faithful text) (node : Node)
    (known : expr.node? = some node) : Shut anyChar node.text.toList := by
  have present := isPresent_iff.2 ⟨node, known⟩
  obtain ⟨⟨_, isExact⟩, faithfulParts⟩ := (faithful_iff present).1 faithful
  obtain rfl := Option.some.inj (known.symm.trans isExact.node?)
  obtain ⟨own, tightParts⟩ := (everywhere_iff present).1 tight
  have inner : ∀ child ∈ writtenIn expr.parts, ∀ node, child.node? = some node →
      Shut anyChar (node.span.slice text) := by
    intro child member childNode knownChild
    rw [writtenIn_parts] at member
    have smaller := sizeOf_lt_of_mem_children member
    have shut :=
      Tight.shut child (tightParts child member) (faithfulParts child member) childNode knownChild
    obtain ⟨⟨_, exactChild⟩, -⟩ :=
      (faithful_iff (isPresent_iff.2 ⟨_, knownChild⟩)).1 (faithfulParts child member)
    obtain rfl := Option.some.inj (knownChild.symm.trans exactChild.node?)
    rwa [exactChild.text_eq, String.toList_ofList] at shut
  have made (tokens : Framed (skeleton expr.parts)) : Shut anyChar node.text.toList := by
    rw [isExact.text_eq, String.toList_ofList]
    exact (isExact.laid.after? inner tokens.unquoted 0).trans tokens.shut
  have brackets : Framed (Op.openParen.spelling ++ Op.closeParen.spelling) ∧
      Framed (Op.openBrace.spelling ++ Op.closeBrace.spelling) :=
    ⟨⟨rfl, by decide⟩, ⟨rfl, by decide⟩⟩
  cases expr with
  | absent => contradiction
  | leaf other form =>
      obtain rfl := Option.some.inj known
      exact own.1
  | declaration other declared continued =>
      obtain rfl := Option.some.inj known
      exact own
  | typeTest other operand typeName =>
      obtain rfl := Option.some.inj known
      exact own.1
  | operation other op left right =>
      exact made (by simpa [parts, skeleton] using framed_spelling own)
  | assignment other op target value =>
      exact made (by simpa [parts, skeleton] using framed_spelling own)
  | access other subject member =>
      exact made (framed_spelling (show Op.dot.isBracket = false from rfl))
  | group other brace items =>
      cases brace with
      | false => exact made (by simpa [parts, skeleton] using brackets.1)
      | true => exact made (by simpa [parts, skeleton] using brackets.2)
  | call other callee arguments => exact made (by simpa [parts, skeleton] using brackets.1)
  | cast other typeName operand => exact made own.framed
  | index other target indices initializer =>
      exact made (by simpa [parts, skeleton] using framed_indexParts indices)
termination_by sizeOf expr

/-- What stands in a shut text behind shut tokens and parts is shut. -/
theorem Tight.exposed (tight : expr.Tight) (faithful : expr.Faithful text)
    (known : expr.node? = some node) (split : expr.parts = front ++ .child part :: back)
    (tokens : Framed (skeleton front)) (shut : Shut bare node.text.toList)
    (knownPart : part.node? = some partNode) : Shut bare partNode.text.toList := by
  have present := isPresent_iff.2 ⟨node, known⟩
  obtain ⟨⟨_, isExact⟩, faithfulParts⟩ := (faithful_iff present).1 faithful
  obtain rfl := Option.some.inj (known.symm.trans isExact.node?)
  obtain ⟨-, tightParts⟩ := (everywhere_iff present).1 tight
  have read {child : Expr} {childNode : Node} (member : child ∈ writtenIn expr.parts)
      (knownChild : child.node? = some childNode) :
      childNode.text = String.ofList (childNode.span.slice text) ∧
        Shut anyChar (childNode.span.slice text) := by
    rw [writtenIn_parts] at member
    have closed := Tight.shut child (tightParts child member) (faithfulParts child member) childNode
      knownChild
    obtain ⟨⟨_, exactChild⟩, -⟩ :=
      (faithful_iff (isPresent_iff.2 ⟨_, knownChild⟩)).1 (faithfulParts child member)
    obtain rfl := Option.some.inj (knownChild.symm.trans exactChild.node?)
    rw [exactChild.text_eq, String.toList_ofList] at closed
    exact ⟨exactChild.text_eq, closed⟩
  have laid := isExact.laid
  rw [split, laid_append] at laid
  obtain ⟨middle, laidFront, laidBack⟩ := laid
  rw [Laid, knownPart] at laidBack
  obtain ⟨low, blank, nonempty, later⟩ := laidBack
  have high := later.le
  have start := laidFront.le
  have isPart : part ∈ writtenIn expr.parts := by
    rw [split, writtenIn_append]
    exact List.mem_append_right _ (by simp [writtenIn, isPresent_iff.2 ⟨_, knownPart⟩])
  obtain ⟨partText, partShut⟩ := read isPart knownPart
  have before : Shut anyChar (Span.slice ⟨node.span.start, middle⟩ text) := by
    refine (laidFront.after? (fun child member childNode knownChild => ?_) tokens.unquoted 0).trans
      tokens.shut
    refine (read ?_ knownChild).2
    rw [split, writtenIn_append]
    exact List.mem_append_left _ member
  have gap : Shut anyChar (Span.slice ⟨middle, partNode.span.start⟩ text) := by
    refine (after?_between ?_ 0).trans ?_
    · rw [blank]
      exact List.forall_mem_nil _
    · rw [blank]
      rfl
  rw [isExact.text_eq, String.toList_ofList, show node.span.slice text =
      Span.slice ⟨node.span.start, node.span.stop⟩ text from rfl,
    ← slice_append text start (show middle ≤ node.span.stop by omega),
    ← slice_append text low (show partNode.span.start ≤ node.span.stop by omega),
    ← slice_append text (Nat.le_of_lt nonempty) high] at shut
  rw [partText, String.toList_ofList]
  exact ((shut.behind before).2.behind gap).2.behind partShut |>.1

end

/-! ## Shut texts of tight trees -/

/-- The tree reads the text and is tight. -/
structure Formed (text : List Char) (expr : Expr) : Prop where
  tight : expr.Tight
  faithful : expr.Faithful text

section

variable {text : List Char} {expr inner : Expr} {front back : List Part} {bare : Char → Bool}

theorem Formed.part (items : List Expr) (formed : expr.Formed text)
    (present : expr.isPresent = true)
    (parts : expr.children = items.filter isPresent) (member : inner ∈ items) : inner.Formed text :=
  ⟨Everywhere.part items formed.tight present parts member,
    Everywhere.part items formed.faithful present parts member⟩

theorem Formed.shut (formed : expr.Formed text) : Shut anyChar expr.text.toList := by
  rw [Expr.text]
  split
  · exact Tight.shut expr formed.tight formed.faithful _ ‹_›
  · exact shut_nil

/-- Where the text of an expression is shut, so is that of a part with shut tokens in front of
it. -/
theorem Formed.exposed (formed : expr.Formed text)
    (split : expr.parts = front ++ .child inner :: back)
    (tokens : Framed (skeleton front)) : Shelters expr.text.toList inner.text.toList := by
  intro bare _ shut
  rw [Expr.text] at shut ⊢
  split
  · rename_i innerNode knownInner
    split at shut
    · rename_i node known
      exact formed.tight.exposed formed.faithful known split tokens shut knownInner
    · rename_i missing
      cases expr with
      | absent => simp [parts] at split
      | _ => contradiction
  · exact shut_nil

end
end Expr
end MethodLowering
