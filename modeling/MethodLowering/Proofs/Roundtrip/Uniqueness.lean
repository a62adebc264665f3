import MethodLowering.Proofs.Roundtrip.Statement

/-!
# A body stands for one program

No two well-formed programs are drawn by the same body: keywords, parts and bodies of a construct
say which statement it is, and its expressions and paragraphs say the rest.
-/

namespace MethodLowering

open Body

/-! ## Parts of a body -/

section

variable {body : Body} {scope : ParagraphId} {id : Nat}

theorem Body.HasParagraph.inj {kind kind' : ParagraphKind} {parent parent' : ParagraphId}
    {label label' : Option (List Char)} {braced braced' : Bool} {items items' : List Item}
    (first : body.HasParagraph id kind parent label braced items)
    (second : body.HasParagraph id kind' parent' label' braced' items') :
    label = label' ∧ braced = braced' ∧ items = items' := by
  obtain ⟨vars, known⟩ := first
  obtain ⟨vars', known'⟩ := second
  rw [known] at known'
  simp only [Option.some.injEq, Paragraph.mk.injEq] at known'
  obtain ⟨-, -, same, -, labels, brackets⟩ := known'
  exact ⟨Option.map_injective (fun _ _ => String.ofList_injective) labels, brackets,
    by simpa using same⟩

theorem Body.HasConstruct.inj {keyword keyword' : Keyword} {parent parent' : ParagraphId}
    {label label' : Option (List Char)} {detail detail' : Detail}
    (first : body.HasConstruct id keyword parent label detail)
    (second : body.HasConstruct id keyword' parent' label' detail') :
    keyword = keyword' ∧ label = label' ∧ detail = detail' := by
  rw [HasConstruct] at first second
  rw [first] at second
  simp only [Option.some.injEq, Construct.mk.injEq] at second
  obtain ⟨same, labels, -, details⟩ := second
  exact ⟨same, Option.map_injective (fun _ _ => String.ofList_injective) labels, details⟩

theorem Body.HasVariable.inj {type type' name name' : List Char} {expr : Expr}
    (first : body.HasVariable scope type name expr)
    (second : body.HasVariable scope type' name' expr) :
    type = type' ∧ name = name' := by
  obtain ⟨node, declared, rfl, known⟩ := first
  obtain ⟨_, _, same, known'⟩ := second
  obtain ⟨-, rfl, -⟩ := Expr.declaration.inj same
  rw [known] at known'
  simp only [written, Variable.ofType, Option.some.injEq, Variable.mk.injEq] at known'
  exact ⟨String.ofList_injective known'.2.1, String.ofList_injective known'.1⟩

end

theorem Tree.picturesAt_inj {clause other : Option Tree} {placed : Placed}
    (well : clause.all isWellFormed = true) (fine : other.all isWellFormed = true)
    (first : PicturesAt clause placed) (second : PicturesAt other placed) : clause = other := by
  cases clause with
  | none =>
      cases other with
      | none => rfl
      | some tree =>
          have absent : placed.expr = .absent := first
          have pictures : tree.Pictures placed.expr := second
          exact absurd (absent ▸ pictures) not_pictures_absent
  | some tree =>
      cases other with
      | none =>
          have absent : placed.expr = .absent := second
          have pictures : tree.Pictures placed.expr := first
          exact absurd (absent ▸ pictures) not_pictures_absent
      | some tree' => rw [pictures_inj well fine first second]

/-! ## Kinds of statements -/

/-- What an item is.  Jumps and loops over a collection are told apart from other constructs. -/
inductive Item.Kind where
  | empty
  | expression
  | block
  | construct (keyword : Keyword)
  | iterator
  | jump (keyword : Keyword)

/-- The kind of item that stands for the statement. -/
def Statement.kind : Statement → Item.Kind
  | .empty => .empty
  | .expression _ => .expression
  | .block .. => .block
  | .conditional .. => .construct .ifThen
  | .counted .. => .construct .forLoop
  | .iterator .. => .iterator
  | .whileLoop .. => .construct .whileLoop
  | .doLoop .. => .construct .doLoop
  | .switch .. => .construct .switch
  | .caseLabel _ => .construct .caseLabel
  | .defaultLabel => .construct .defaultLabel
  | .tryBlock .. => .construct .tryBlock
  | .synchronized .. => .construct .synchronized
  | .exit keyword _ | .jump keyword _ => .jump keyword

/-- The kind of an item of a body. -/
def Body.kindOf (body : Body) : Item → Item.Kind
  | .empty => .empty
  | .expression _ => .expression
  | .block _ => .block
  | .construct id =>
      match body.constructs[id]? with
      | some { detail := .iterator .., .. } => .iterator
      | some { detail := .jump .., keyword, .. } => .jump keyword
      | some construct => .construct construct.keyword
      | none => .empty

theorem Statement.kind_eq {body : Body} {scope : ParagraphId} {statement : Statement} {item : Item}
    (stands : statement.StandsAt body scope item) : statement.kind = body.kindOf item := by
  cases statement with
  | empty =>
      rw [StandsAt] at stands
      rw [stands]
      rfl
  | expression root =>
      obtain ⟨placed, rfl, -⟩ := stands
      rfl
  | block label inner =>
      obtain ⟨id, items, rfl, -⟩ := stands
      rfl
  | conditional condition first rest =>
      obtain ⟨id, placed, slot, others, rfl, has, -⟩ := stands
      rw [kindOf, has]
      rfl
  | counted label init condition update inner =>
      obtain ⟨id, first, second, third, slot, rfl, has, -⟩ := stands
      rw [kindOf, has]
      rfl
  | iterator label type name source inner =>
      obtain ⟨id, placed, byElement, slot, rfl, has, -⟩ := stands
      rw [kindOf, has]
      rfl
  | whileLoop label condition inner | doLoop label inner condition | synchronized condition inner =>
      obtain ⟨id, placed, slot, rfl, has, -⟩ := stands
      rw [kindOf, has]
      rfl
  | switch subject inner =>
      obtain ⟨id, placed, slot, items, rfl, has, -⟩ := stands
      rw [kindOf, has]
      rfl
  | caseLabel value | exit keyword value | jump keyword label =>
      obtain ⟨id, placed, rfl, has, -⟩ := stands
      rw [kindOf, has]
      rfl
  | defaultLabel =>
      obtain ⟨id, rfl, has⟩ := stands
      rw [kindOf, has]
      rfl
  | tryBlock guarded clauses =>
      obtain ⟨id, slot, items, handlers, cleanup, rfl, has, -⟩ := stands
      rw [kindOf, has]
      rfl

theorem Statement.kind_unique {body : Body} {scope : ParagraphId} {statement other : Statement}
    {item : Item} (first : statement.StandsAt body scope item)
    (second : other.StandsAt body scope item) :
    statement.kind = other.kind :=
  (kind_eq first).trans (kind_eq second).symm

/-! ## Statements, bodies and clauses -/

section

variable {body : Body}

mutual

/-- An item stands for at most one well-formed statement. -/
theorem Statement.standsAt_inj :
    ∀ {statement other : Statement} {scope : ParagraphId} {item : Item},
    statement.kind = other.kind → statement.isWellFormed = true → other.isWellFormed = true →
      statement.StandsAt body scope item → other.StandsAt body scope item → statement = other
  | .empty, other, _, _, kinds, _, _, stands, stands' => by
      cases other with
      | empty => rfl
      | _ => simp [Statement.kind] at kinds
  | .expression root, other, _, _, kinds, well, fine, stands, stands' => by
      cases other with
      | expression root' =>
          obtain ⟨placed, rfl, pictures⟩ := stands
          obtain ⟨_, same, pictures'⟩ := stands'
          obtain rfl := Item.expression.inj same
          rw [Tree.pictures_inj well fine pictures pictures']
      | _ => simp [Statement.kind] at kinds
  | .block label inner, other, _, _, kinds, well, fine, stands, stands' => by
      cases other with
      | block label' inner' =>
          rw [Statement.isWellFormed, Bool.and_eq_true] at well fine
          obtain ⟨id, items, rfl, has, stand⟩ := stands
          obtain ⟨_, _, same, has', stand'⟩ := stands'
          obtain rfl := Item.block.inj same
          obtain ⟨rfl, -, rfl⟩ := has.inj has'
          rw [Statement.standAt_inj well.2 fine.2 stand stand']
      | _ => simp [Statement.kind] at kinds
  | .conditional condition first rest, other, _, _, kinds, well, fine, stands, stands' => by
      cases other with
      | conditional condition' first' rest' =>
          simp only [Statement.isWellFormed, Bool.and_eq_true] at well fine
          obtain ⟨id, placed, slot, others, rfl, has, pictures, suite, further⟩ := stands
          obtain ⟨_, _, _, _, same, has', pictures', suite', further'⟩ := stands'
          obtain rfl := Item.construct.inj same
          obtain ⟨-, -, details⟩ := has.inj has'
          simp only [Detail.conditional.injEq, List.cons.injEq, Branch.mk.injEq] at details
          obtain ⟨⟨rfl, rfl⟩, rfl⟩ := details
          rw [Tree.pictures_inj well.1.1.1 fine.1.1.1 pictures pictures',
            Suite.standsAt_inj well.1.1.2 fine.1.1.2 suite suite',
            Alternative.standsAt_inj well.2 fine.2 further further']
      | _ => simp [Statement.kind] at kinds
  | .counted label init condition update inner, other, _, _, kinds, well, fine, stands,
    stands' => by
      cases other with
      | counted label' init' condition' update' inner' =>
          simp only [Statement.isWellFormed, Bool.and_eq_true] at well fine
          obtain ⟨id, first, second, third, slot, rfl, has, one, two, three, suite⟩ := stands
          obtain ⟨_, _, _, _, _, same, has', one', two', three', suite'⟩ := stands'
          obtain rfl := Item.construct.inj same
          obtain ⟨-, rfl, details⟩ := has.inj has'
          obtain ⟨rfl, rfl, rfl, rfl⟩ := Detail.counted.inj details
          rw [Tree.picturesAt_inj well.1.1.1.2 fine.1.1.1.2 one one',
            Tree.picturesAt_inj well.1.1.2 fine.1.1.2 two two',
            Tree.picturesAt_inj well.1.2 fine.1.2 three three',
            Suite.standsAt_inj well.2 fine.2 suite suite']
      | _ => simp [Statement.kind] at kinds
  | .iterator label type name source inner, other, _, _, kinds, well, fine, stands, stands' => by
      cases other with
      | iterator label' type' name' source' inner' =>
          simp only [Statement.isWellFormed, Bool.and_eq_true] at well fine
          obtain ⟨id, placed, byElement, slot, rfl, has,
            ⟨node, declared, collection, header, declares,
            pictures⟩, suite⟩ := stands
          obtain ⟨_, _, _, _, same, has', ⟨_, _, _, header', declares', pictures'⟩, suite'⟩ :=
            stands'
          obtain rfl := Item.construct.inj same
          obtain ⟨-, rfl, details⟩ := has.inj has'
          obtain ⟨rfl, -, rfl⟩ := Detail.iterator.inj details
          obtain ⟨-, -, rfl, rfl⟩ := Expr.operation.inj (header.symm.trans header')
          obtain ⟨rfl, rfl⟩ := declares.inj declares'
          rw [Tree.pictures_inj well.1.1.2 fine.1.1.2 pictures pictures',
            Suite.standsAt_inj well.2 fine.2 suite suite']
      | _ => simp [Statement.kind] at kinds
  | .whileLoop label condition inner, other, _, _, kinds, well, fine, stands, stands' => by
      cases other with
      | whileLoop label' condition' inner' =>
          simp only [Statement.isWellFormed, Bool.and_eq_true] at well fine
          obtain ⟨id, placed, slot, rfl, has, pictures, suite⟩ := stands
          obtain ⟨_, _, _, same, has', pictures', suite'⟩ := stands'
          obtain rfl := Item.construct.inj same
          obtain ⟨-, rfl, details⟩ := has.inj has'
          obtain ⟨rfl, rfl⟩ := Detail.whileLoop.inj details
          rw [Tree.pictures_inj well.1.2 fine.1.2 pictures pictures',
            Suite.standsAt_inj well.2 fine.2 suite suite']
      | _ => simp [Statement.kind] at kinds
  | .doLoop label inner condition, other, _, _, kinds, well, fine, stands, stands' => by
      cases other with
      | doLoop label' inner' condition' =>
          simp only [Statement.isWellFormed, Bool.and_eq_true] at well fine
          obtain ⟨id, placed, slot, rfl, has, pictures, suite⟩ := stands
          obtain ⟨_, _, _, same, has', pictures', suite'⟩ := stands'
          obtain rfl := Item.construct.inj same
          obtain ⟨-, rfl, details⟩ := has.inj has'
          obtain ⟨rfl, rfl⟩ := Detail.doLoop.inj details
          rw [Tree.pictures_inj well.2 fine.2 pictures pictures',
            Suite.standsAt_inj well.1.2 fine.1.2 suite suite']
      | _ => simp [Statement.kind] at kinds
  | .switch subject inner, other, _, _, kinds, well, fine, stands, stands' => by
      cases other with
      | switch subject' inner' =>
          simp only [Statement.isWellFormed, Bool.and_eq_true] at well fine
          obtain ⟨id, placed, slot, items, rfl, has, pictures, filled, stand⟩ := stands
          obtain ⟨_, _, _, _, same, has', pictures', filled', stand'⟩ := stands'
          obtain rfl := Item.construct.inj same
          obtain ⟨-, -, details⟩ := has.inj has'
          obtain ⟨rfl, rfl⟩ := Detail.switch.inj details
          obtain ⟨-, -, rfl⟩ := filled.inj filled'
          rw [Tree.pictures_inj well.1 fine.1 pictures pictures',
            Statement.standAt_inj well.2 fine.2 stand stand']
      | _ => simp [Statement.kind] at kinds
  | .caseLabel value, other, _, _, kinds, well, fine, stands, stands' => by
      cases other with
      | caseLabel value' =>
          simp only [Statement.isWellFormed, Bool.and_eq_true] at well fine
          obtain ⟨id, placed, rfl, has, pictures⟩ := stands
          obtain ⟨_, _, same, has', pictures'⟩ := stands'
          obtain rfl := Item.construct.inj same
          obtain ⟨-, -, details⟩ := has.inj has'
          obtain rfl := Detail.caseLabel.inj details
          rw [Tree.pictures_inj well.1 fine.1 pictures pictures']
      | _ => simp [Statement.kind] at kinds
  | .defaultLabel, other, _, _, kinds, _, _, stands, stands' => by
      cases other with
      | defaultLabel => rfl
      | _ => simp [Statement.kind] at kinds
  | .tryBlock guarded clauses, other, _, _, kinds, well, fine, stands, stands' => by
      cases other with
      | tryBlock guarded' clauses' =>
          simp only [Statement.isWellFormed, Bool.and_eq_true] at well fine
          obtain ⟨id, slot, items, handlers, cleanup, rfl, has, filled, stand, further⟩ := stands
          obtain ⟨_, _, _, _, _, same, has', filled', stand', further'⟩ := stands'
          obtain rfl := Item.construct.inj same
          obtain ⟨-, -, details⟩ := has.inj has'
          obtain ⟨rfl, rfl, rfl⟩ := Detail.tryBlock.inj details
          obtain ⟨-, -, rfl⟩ := filled.inj filled'
          rw [Statement.standAt_inj well.1.1 fine.1.1 stand stand',
            Clauses.standsAt_inj well.2 fine.2 further further']
      | _ => simp [Statement.kind] at kinds
  | .synchronized lock inner, other, _, _, kinds, well, fine, stands, stands' => by
      cases other with
      | synchronized lock' inner' =>
          simp only [Statement.isWellFormed, Bool.and_eq_true] at well fine
          obtain ⟨id, placed, slot, rfl, has, pictures, suite⟩ := stands
          obtain ⟨_, _, _, same, has', pictures', suite'⟩ := stands'
          obtain rfl := Item.construct.inj same
          obtain ⟨-, -, details⟩ := has.inj has'
          obtain ⟨rfl, rfl⟩ := Detail.synchronized.inj details
          rw [Tree.pictures_inj well.1 fine.1 pictures pictures',
            Suite.standsAt_inj well.2 fine.2 suite suite']
      | _ => simp [Statement.kind] at kinds
  | .exit keyword value, other, _, _, kinds, well, fine, stands, stands' => by
      cases other with
      | exit keyword' value' =>
          simp only [Statement.isWellFormed, Bool.and_eq_true] at well fine
          obtain ⟨id, placed, rfl, has, pictures⟩ := stands
          obtain ⟨_, _, same, has', pictures'⟩ := stands'
          obtain rfl := Item.construct.inj same
          obtain ⟨rfl, -, details⟩ := has.inj has'
          obtain ⟨rfl, -⟩ := Detail.jump.inj details
          rw [Tree.picturesAt_inj well.2 fine.2 pictures pictures']
      | jump keyword' label =>
          obtain rfl := Item.Kind.jump.inj kinds
          simp only [Statement.isWellFormed, Bool.and_eq_true] at well fine
          cases keyword <;> simp at well fine
      | _ => simp [Statement.kind] at kinds
  | .jump keyword label, other, _, _, kinds, well, fine, stands, stands' => by
      cases other with
      | jump keyword' label' =>
          obtain ⟨id, placed, rfl, has, -⟩ := stands
          obtain ⟨_, _, same, has', -⟩ := stands'
          obtain rfl := Item.construct.inj same
          obtain ⟨rfl, -, details⟩ := has.inj has'
          rw [Option.map_injective (fun _ _ => String.ofList_injective) (Detail.jump.inj details).2]
      | exit keyword' value =>
          obtain rfl := Item.Kind.jump.inj kinds
          simp only [Statement.isWellFormed, Bool.and_eq_true] at well fine
          cases keyword <;> simp at well fine
      | _ => simp [Statement.kind] at kinds
termination_by structural statement => statement

/-- Items stand for at most one list of well-formed statements. -/
theorem Statement.standAt_inj : ∀ {statements others : List Statement} {scope : ParagraphId}
    {items : List Item}, Statement.areWellFormed statements = true →
    Statement.areWellFormed others = true → Statement.StandAt body scope statements items →
    Statement.StandAt body scope others items → statements = others
  | [], others, _, _, _, _, stand, stand' => by
      cases others with
      | nil => rfl
      | cons statement rest =>
          obtain rfl : _ = [] := stand
          obtain ⟨item, further, same, -⟩ := stand'
          contradiction
  | statement :: rest, others, _, _, well, fine, stand, stand' => by
      obtain ⟨item, further, rfl, stands, later⟩ := stand
      cases others with
      | nil =>
          have same : item :: further = [] := stand'
          contradiction
      | cons statement' rest' =>
          obtain ⟨_, _, same, stands', later'⟩ := stand'
          obtain ⟨rfl, rfl⟩ := List.cons.inj same
          rw [Statement.areWellFormed, Bool.and_eq_true] at well fine
          have kinds := Statement.kind_unique stands stands'
          rw [Statement.standsAt_inj kinds well.1 fine.1 stands stands',
            Statement.standAt_inj well.2 fine.2 later later']
termination_by structural statements => statements

/-- A paragraph is at most one well-formed body. -/
theorem Suite.standsAt_inj : ∀ {suite other : Suite} {scope slot : ParagraphId},
    suite.isWellFormed = true → other.isWellFormed = true → suite.StandsAt body scope slot →
    other.StandsAt body scope slot → suite = other
  | .braced inner, other, _, _, well, fine, stands, stands' => by
      obtain ⟨items, filled, stand⟩ := stands
      cases other with
      | braced inner' =>
          obtain ⟨_, filled', stand'⟩ := stands'
          obtain ⟨-, -, rfl⟩ := filled.inj filled'
          rw [Statement.standAt_inj well fine stand stand']
      | single statement =>
          obtain ⟨_, filled', -⟩ := stands'
          exact absurd (filled.inj filled').2.1 (by decide)
  | .single statement, other, _, _, well, fine, stands, stands' => by
      obtain ⟨item, filled, stands⟩ := stands
      cases other with
      | braced inner =>
          obtain ⟨_, filled', -⟩ := stands'
          exact absurd (filled.inj filled').2.1 (by decide)
      | single statement' =>
          obtain ⟨_, filled', stands'⟩ := stands'
          obtain ⟨-, -, same⟩ := filled.inj filled'
          obtain rfl := List.singleton_inj.1 same
          rw [Suite.isWellFormed, Bool.and_eq_true] at well fine
          have kinds := Statement.kind_unique stands stands'
          rw [Statement.standsAt_inj kinds well.2 fine.2 stands stands']
termination_by structural suite => suite

/-- The branches behind the first are written in at most one way.  An `else` has no condition, so it
is no `else if`. -/
theorem Alternative.standsAt_inj : ∀ {rest other : Alternative} {scope : ParagraphId}
    {branches : List Branch}, rest.isWellFormed = true → other.isWellFormed = true →
    rest.StandsAt body scope branches → other.StandsAt body scope branches → rest = other
  | .done, other, _, _, _, _, stands, stands' => by
      obtain rfl : _ = [] := stands
      cases other with
      | done => rfl
      | otherwise suite =>
          obtain ⟨_, _, same, -⟩ := stands'
          contradiction
      | elseIf condition suite further =>
          obtain ⟨_, _, _, same, -⟩ := stands'
          contradiction
  | .otherwise suite, other, _, _, well, fine, stands, stands' => by
      obtain ⟨placed, slot, rfl, absent, suite⟩ := stands
      cases other with
      | done =>
          have same : [(⟨placed, slot⟩ : Branch)] = [] := stands'
          contradiction
      | otherwise suite' =>
          obtain ⟨_, _, same, -, suite'⟩ := stands'
          simp only [List.cons.injEq, Branch.mk.injEq, and_true] at same
          obtain ⟨rfl, rfl⟩ := same
          rw [Alternative.isWellFormed, Bool.and_eq_true] at well fine
          rw [Suite.standsAt_inj well.2 fine.2 suite suite']
      | elseIf condition suite' further =>
          obtain ⟨_, _, _, same, pictures, -⟩ := stands'
          simp only [List.cons.injEq, Branch.mk.injEq] at same
          obtain ⟨⟨rfl, -⟩, -⟩ := same
          exact absurd (absent ▸ pictures) Tree.not_pictures_absent
  | .elseIf condition suite further, other, _, _, well, fine, stands, stands' => by
      obtain ⟨placed, slot, others, rfl, pictures, suite, later⟩ := stands
      cases other with
      | done =>
          have same : (⟨placed, slot⟩ : Branch) :: others = [] := stands'
          contradiction
      | otherwise suite' =>
          obtain ⟨_, _, same, absent, -⟩ := stands'
          simp only [List.cons.injEq, Branch.mk.injEq] at same
          obtain ⟨⟨rfl, -⟩, -⟩ := same
          exact absurd (absent ▸ pictures) Tree.not_pictures_absent
      | elseIf condition' suite' further' =>
          obtain ⟨_, _, _, same, pictures', suite', later'⟩ := stands'
          simp only [List.cons.injEq, Branch.mk.injEq] at same
          obtain ⟨⟨rfl, rfl⟩, rfl⟩ := same
          simp only [Alternative.isWellFormed, Bool.and_eq_true] at well fine
          rw [Tree.pictures_inj well.1.1.1 fine.1.1.1 pictures pictures',
            Suite.standsAt_inj well.1.1.2 fine.1.1.2 suite suite',
            Alternative.standsAt_inj well.2 fine.2 later later']
termination_by structural rest => rest

/-- Handlers and cleanup are written in at most one way. -/
theorem Clauses.standsAt_inj : ∀ {clauses other : Clauses} {scope : ParagraphId}
    {handlers : List Handler} {cleanup : Option ParagraphId}, clauses.isWellFormed = true →
    other.isWellFormed = true → clauses.StandsAt body scope handlers cleanup →
    other.StandsAt body scope handlers cleanup → clauses = other
  | .done, other, _, _, _, _, _, stands, stands' => by
      obtain ⟨rfl, rfl⟩ : _ = [] ∧ _ = none := stands
      cases other with
      | done => rfl
      | cleanup inner =>
          obtain ⟨_, _, -, same, -⟩ := stands'
          contradiction
      | handler type name inner rest =>
          obtain ⟨_, _, _, _, same, -⟩ := stands'
          contradiction
  | .cleanup inner, other, _, _, _, well, fine, stands, stands' => by
      obtain ⟨slot, items, rfl, rfl, filled, stand⟩ := stands
      cases other with
      | done =>
          have same : _ ∧ some slot = none := stands'
          exact absurd same.2 nofun
      | cleanup inner' =>
          obtain ⟨_, _, -, same, filled', stand'⟩ := stands'
          obtain rfl := Option.some.inj same
          obtain ⟨-, -, rfl⟩ := filled.inj filled'
          rw [Statement.standAt_inj well fine stand stand']
      | handler type name inner rest =>
          obtain ⟨_, _, _, _, same, -⟩ := stands'
          contradiction
  | .handler type name inner rest, other, _, _, _, well, fine, stands, stands' => by
      obtain ⟨placed, slot, items, others, rfl, declares, filled, stand, later⟩ := stands
      cases other with
      | done =>
          have same : (⟨placed, slot⟩ : Handler) :: others = [] ∧ _ := stands'
          exact absurd same.1 nofun
      | cleanup inner' =>
          obtain ⟨_, _, same, -⟩ := stands'
          contradiction
      | handler type' name' inner' rest' =>
          obtain ⟨_, _, _, _, same, declares', filled', stand', later'⟩ := stands'
          simp only [List.cons.injEq, Handler.mk.injEq] at same
          obtain ⟨⟨rfl, rfl⟩, rfl⟩ := same
          obtain ⟨rfl, rfl⟩ := declares.inj declares'
          obtain ⟨-, -, rfl⟩ := filled.inj filled'
          simp only [Clauses.isWellFormed, Bool.and_eq_true] at well fine
          rw [Statement.standAt_inj well.1.2 fine.1.2 stand stand',
            Clauses.standsAt_inj well.2 fine.2 later later']
termination_by structural clauses => clauses

end

end

end MethodLowering
