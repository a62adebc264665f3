import MethodLowering.Proofs.Roundtrip.Header

/-!
# Written statements

Control flow as somebody writes it: statements, blocks, conditionals, loops, switches, guarded
blocks and jumps over written expressions.  A statement has no numbers; it says how it is written,
and which paragraphs and constructs of a body stand for it.
-/

namespace MethodLowering

/-- A word that may stand as a label: word characters, the first no digit, and no reserved word. -/
def isLabel (word : List Char) : Bool :=
  !word.isEmpty && !word.head?.any Text.isDigit && word.all Text.isWordChar &&
    !reservedWords.contains (String.ofList word)

mutual

/-- A statement, or a label of a switch. -/
inductive Statement where
  | empty
  | expression (root : Tree)
  | block (label : Option (List Char)) (inner : List Statement)
  | conditional (condition : Tree) (first : Suite) (rest : Alternative)
  | counted (label : Option (List Char)) (init condition update : Option Tree) (body : Suite)
  | iterator (label : Option (List Char)) (type name : List Char) (source : Tree) (body : Suite)
  | whileLoop (label : Option (List Char)) (condition : Tree) (body : Suite)
  | doLoop (label : Option (List Char)) (body : Suite) (condition : Tree)
  | switch (subject : Tree) (inner : List Statement)
  | caseLabel (value : Tree)
  | defaultLabel
  | tryBlock (guarded : List Statement) (clauses : Clauses)
  | synchronized (lock : Tree) (body : Suite)
  /-- `return` or `throw`. -/
  | exit (keyword : Keyword) (value : Option Tree)
  /-- `break` or `continue`. -/
  | jump (keyword : Keyword) (label : Option (List Char))

/-- The body of a construct. -/
inductive Suite where
  | braced (inner : List Statement)
  | single (statement : Statement)

/-- What follows a branch of a conditional. -/
inductive Alternative where
  | done
  | otherwise (body : Suite)
  | elseIf (condition : Tree) (body : Suite) (rest : Alternative)

/-- What follows a guarded block. -/
inductive Clauses where
  | done
  | cleanup (inner : List Statement)
  | handler (type name : List Char) (inner : List Statement) (rest : Clauses)

end

/-! ## Which statements are written -/

/-- A statement without a label that is no block: what a body without brackets may consist of. -/
def Statement.isPlain : Statement → Bool
  | .block .. | .caseLabel _ | .defaultLabel => false
  | .counted label .. | .iterator label .. | .whileLoop label .. | .doLoop label .. => label.isNone
  | _ => true

/-- A conditional without brackets around it. -/
def Suite.isConditional : Suite → Bool
  | .single (.conditional ..) => true
  | _ => false

/-- Nothing follows. -/
def Alternative.isDone : Alternative → Bool
  | .done => true
  | _ => false

/-- Nothing follows. -/
def Clauses.isDone : Clauses → Bool
  | .done => true
  | _ => false

mutual

/-- The statement ends in a conditional without `else`. -/
def Statement.endsOpen : Statement → Bool
  | .conditional _ _ rest => rest.endsOpen
  | .counted _ _ _ _ body | .iterator _ _ _ _ body | .whileLoop _ _ body | .synchronized _ body =>
      body.endsOpen
  | _ => false

/-- The body ends in a conditional without `else`. -/
def Suite.endsOpen : Suite → Bool
  | .braced _ => false
  | .single statement => statement.endsOpen

/-- The conditional itself has no `else`, or ends in one without. -/
def Alternative.endsOpen : Alternative → Bool
  | .done => true
  | .otherwise body => body.endsOpen
  | .elseIf _ _ rest => rest.endsOpen

end

mutual

/-- Expressions are well formed and words are what they stand for; a body without brackets is plain,
its `else` is its own, and a guarded block has a handler or a cleanup. -/
def Statement.isWellFormed : Statement → Bool
  | .empty | .defaultLabel => true
  | .expression root => root.isWellFormed
  | .block label inner => label.all isLabel && Statement.areWellFormed inner
  | .conditional condition first rest =>
      condition.isWellFormed && first.isWellFormed && (rest.isDone || !first.endsOpen) &&
        rest.isWellFormed
  | .counted label init condition update body =>
      label.all isLabel && init.all Tree.isWellFormed && condition.all Tree.isWellFormed &&
        update.all Tree.isWellFormed && body.isWellFormed
  | .iterator label type name source body =>
      label.all isLabel && isTypeWord type && isName name && source.isWellFormed &&
        22 ≤ source.rank && body.isWellFormed
  | .whileLoop label condition body =>
      label.all isLabel && condition.isWellFormed && body.isWellFormed
  | .doLoop label body condition =>
      label.all isLabel && body.isWellFormed && condition.isWellFormed
  | .switch subject inner => subject.isWellFormed && Statement.areWellFormed inner
  | .caseLabel value => value.isWellFormed && value.hidesColon
  | .tryBlock guarded clauses =>
      Statement.areWellFormed guarded && !clauses.isDone && clauses.isWellFormed
  | .synchronized lock body => lock.isWellFormed && body.isWellFormed
  | .exit keyword value =>
      (keyword == .returns || keyword == .throws) && value.all Tree.isWellFormed
  | .jump keyword label => (keyword == .breaks || keyword == .continues) && label.all isLabel

/-- All statements of a list are well formed. -/
def Statement.areWellFormed : List Statement → Bool
  | [] => true
  | statement :: rest => statement.isWellFormed && Statement.areWellFormed rest

/-- The body is well formed; without brackets, it is a plain statement. -/
def Suite.isWellFormed : Suite → Bool
  | .braced inner => Statement.areWellFormed inner
  | .single statement => statement.isPlain && statement.isWellFormed

/-- The branches are well formed; an `else` takes no conditional without brackets. -/
def Alternative.isWellFormed : Alternative → Bool
  | .done => true
  | .otherwise body => !body.isConditional && body.isWellFormed
  | .elseIf condition body rest =>
      condition.isWellFormed && body.isWellFormed && (rest.isDone || !body.endsOpen) &&
        rest.isWellFormed

/-- The handlers and the cleanup are well formed. -/
def Clauses.isWellFormed : Clauses → Bool
  | .done => true
  | .cleanup inner => Statement.areWellFormed inner
  | .handler type name inner rest =>
      isTypeWord type && isName name && Statement.areWellFormed inner && rest.isWellFormed

end

/-! ## How statements are written -/

namespace Statement

/-- A label, where there is one, in front of a text. -/
def labelled (label : Option (List Char)) (text : List Char) : List Char :=
  match label with
  | some word => word ++ ':' :: ' ' :: text
  | none => text

/-- A clause that may be left out. -/
def clause : Option Tree → List Char
  | some tree => tree.print
  | none => []

/-- A clause that may be left out, with a blank in front of it. -/
def furtherClause : Option Tree → List Char
  | some tree => ' ' :: tree.print
  | none => []

/-- A word in front of other text. -/
def worded (word : String) (rest : List Char) : List Char := word.toList ++ rest

/-- A word with a header in round brackets behind it. -/
def headed (word : String) (header rest : List Char) : List Char :=
  worded word (' ' :: '(' :: (header ++ ')' :: ' ' :: rest))

end Statement

open Statement

mutual

/-- The text of a statement, in front of other text. -/
def Statement.printOn : Statement → List Char → List Char
  | .empty, more => ';' :: more
  | .expression root, more => root.print ++ ';' :: more
  | .block label inner, more => labelled label (Statement.printBraced inner more)
  | .conditional condition first rest, more =>
      headed "if" condition.print (first.printOn (rest.printOn more))
  | .counted label init condition update body, more =>
      labelled label (headed "for"
        (clause init ++ ';' :: (furtherClause condition ++ ';' :: furtherClause update))
        (body.printOn more))
  | .iterator label type name source body, more =>
      labelled label (headed "for" (type ++ ' ' :: (name ++ ' ' :: ':' :: ' ' :: source.print))
        (body.printOn more))
  | .whileLoop label condition body, more =>
      labelled label (headed "while" condition.print (body.printOn more))
  | .doLoop label body condition, more =>
      labelled label (worded "do" (' ' :: body.printOn
        (' ' :: worded "while" (' ' :: '(' :: (condition.print ++ ')' :: ';' :: more)))))
  | .switch subject inner, more =>
      headed "switch" subject.print (Statement.printBraced inner more)
  | .caseLabel value, more => worded "case" (' ' :: (value.print ++ ':' :: more))
  | .defaultLabel, more => worded "default" (':' :: more)
  | .tryBlock guarded clauses, more =>
      worded "try" (' ' :: Statement.printBraced guarded (clauses.printOn more))
  | .synchronized lock body, more => headed "synchronized" lock.print (body.printOn more)
  | .exit keyword value, more => worded keyword.text (furtherClause value ++ ';' :: more)
  | .jump keyword label, more =>
      worded keyword.text ((label.elim [] fun word => ' ' :: word) ++ ';' :: more)

/-- The texts of statements, a blank behind each, in front of other text. -/
def Statement.printAll : List Statement → List Char → List Char
  | [], more => more
  | statement :: rest, more => statement.printOn (' ' :: Statement.printAll rest more)

/-- Statements in curly brackets, in front of other text. -/
def Statement.printBraced : List Statement → List Char → List Char
  | [], more => '{' :: ' ' :: '}' :: more
  | statement :: rest, more =>
      '{' :: ' ' :: statement.printOn (' ' :: Statement.printAll rest ('}' :: more))

/-- The text of a body, in front of other text. -/
def Suite.printOn : Suite → List Char → List Char
  | .braced inner, more => Statement.printBraced inner more
  | .single statement, more => statement.printOn more

/-- The text of the branches behind the first, in front of other text. -/
def Alternative.printOn : Alternative → List Char → List Char
  | .done, more => more
  | .otherwise body, more => ' ' :: worded "else" (' ' :: body.printOn more)
  | .elseIf condition body rest, more =>
      ' ' :: worded "else" (' ' :: headed "if" condition.print (body.printOn (rest.printOn more)))

/-- The text of handlers and cleanup, in front of other text. -/
def Clauses.printOn : Clauses → List Char → List Char
  | .done, more => more
  | .cleanup inner, more => ' ' :: worded "finally" (' ' :: Statement.printBraced inner more)
  | .handler type name inner rest, more =>
      ' ' :: headed "catch" (type ++ ' ' :: name) (Statement.printBraced inner (rest.printOn more))

end

theorem Statement.printBraced_eq (inner : List Statement) (more : List Char) :
    Statement.printBraced inner more = '{' :: ' ' :: Statement.printAll inner ('}' :: more) := by
  cases inner <;> rfl

mutual

/-- Number of steps in which the statement is read. -/
def Statement.steps : Statement → Nat
  | .empty | .expression _ => 1
  | .block label inner => (if label.isSome then 1 else 0) + (Statement.allSteps inner + 2)
  | .conditional _ first rest => first.steps + rest.steps + 2
  | .counted label _ _ _ body | .iterator label _ _ _ body | .whileLoop label _ body =>
      (if label.isSome then 1 else 0) + (body.steps + 3)
  | .doLoop label body _ => (if label.isSome then 1 else 0) + (body.steps + 4)
  | .switch _ inner => Statement.allSteps inner + 5
  | .caseLabel _ | .defaultLabel | .exit .. | .jump .. => 2
  | .tryBlock guarded clauses => Statement.allSteps guarded + clauses.steps + 4
  | .synchronized _ body => body.steps + 3

/-- Number of steps in which statements are read. -/
def Statement.allSteps : List Statement → Nat
  | [] => 0
  | statement :: rest => statement.steps + Statement.allSteps rest

/-- Number of steps in which a body is read. -/
def Suite.steps : Suite → Nat
  | .braced inner => Statement.allSteps inner + 2
  | .single statement => statement.steps + 2

/-- Number of steps in which the branches behind the first are read. -/
def Alternative.steps : Alternative → Nat
  | .done => 1
  | .otherwise body => body.steps + 2
  | .elseIf _ body rest => body.steps + rest.steps + 2

/-- Number of steps in which handlers and cleanup are read. -/
def Clauses.steps : Clauses → Nat
  | .done => 1
  | .cleanup inner => Statement.allSteps inner + 4
  | .handler _ _ inner rest => Statement.allSteps inner + rest.steps + 3

end

mutual

/-- The expressions of a statement. -/
def Statement.trees : Statement → List Tree
  | .empty | .defaultLabel | .jump .. => []
  | .expression root => [root]
  | .block _ inner => Statement.allTrees inner
  | .conditional condition first rest => condition :: (first.trees ++ rest.trees)
  | .counted _ init condition update body =>
      init.toList ++ condition.toList ++ update.toList ++ body.trees
  | .iterator _ _ _ source body => source :: body.trees
  | .whileLoop _ condition body | .doLoop _ body condition => condition :: body.trees
  | .switch subject inner => subject :: Statement.allTrees inner
  | .caseLabel value => [value]
  | .tryBlock guarded clauses => Statement.allTrees guarded ++ clauses.trees
  | .synchronized lock body => lock :: body.trees
  | .exit _ value => value.toList

/-- The expressions of statements. -/
def Statement.allTrees : List Statement → List Tree
  | [] => []
  | statement :: rest => statement.trees ++ Statement.allTrees rest

/-- The expressions of a body. -/
def Suite.trees : Suite → List Tree
  | .braced inner => Statement.allTrees inner
  | .single statement => statement.trees

/-- The expressions of the branches behind the first. -/
def Alternative.trees : Alternative → List Tree
  | .done => []
  | .otherwise body => body.trees
  | .elseIf condition body rest => condition :: (body.trees ++ rest.trees)

/-- The expressions of handlers and cleanup. -/
def Clauses.trees : Clauses → List Tree
  | .done => []
  | .cleanup inner => Statement.allTrees inner
  | .handler _ _ inner rest => Statement.allTrees inner ++ rest.trees

end

/-! ## What stands for statements in a body -/

namespace Body

/-- The paragraph with this number has these statements. -/
def HasParagraph (body : Body) (id : ParagraphId) (kind : ParagraphKind) (parent : ParagraphId)
    (label : Option (List Char)) (braced : Bool) (items : List Item) : Prop :=
  ∃ vars, body.paragraphs[id]? = some
    { kind, parent := some parent, items := items.toArray, vars, label := label.map String.ofList,
      braced }

/-- The construct with this number has this keyword and these parts. -/
def HasConstruct (body : Body) (id : ConstructId) (keyword : Keyword) (scope : ParagraphId)
    (label : Option (List Char)) (detail : Detail) : Prop :=
  body.constructs[id]? = some { keyword, label := label.map String.ofList, scope, detail }

/-- The expression declares a variable of this type and name in a paragraph. -/
def HasVariable (body : Body) (scope : ParagraphId) (type name : List Char) (expr : Expr) : Prop :=
  ∃ node id, expr = .declaration node id false ∧
    body.vars[id]? = some (body.written scope type name)

end Body

/-- The clause is the expression that is written, or none is. -/
def Tree.PicturesAt : Option Tree → Placed → Prop
  | some tree, placed => tree.Pictures placed.expr
  | none, placed => placed.expr = .absent

mutual

/-- The item of a paragraph is the statement. -/
def Statement.StandsAt (body : Body) (scope : ParagraphId) : Statement → Item → Prop
  | .empty, item => item = .empty
  | .expression root, item => ∃ placed, item = .expression placed ∧ root.Pictures placed.expr
  | .block label inner, item => ∃ id items, item = .block id ∧
      body.HasParagraph id .block scope label true items ∧ Statement.StandAt body id inner items
  | .conditional condition first rest, item => ∃ id placed slot others, item = .construct id ∧
      body.HasConstruct id .ifThen scope none (.conditional (⟨placed, slot⟩ :: others)) ∧
      condition.Pictures placed.expr ∧ first.StandsAt body scope slot ∧
      rest.StandsAt body scope others
  | .counted label init condition update inner, item => ∃ id first second third slot,
      item = .construct id ∧
      body.HasConstruct id .forLoop scope label (.counted first second third slot) ∧
      Tree.PicturesAt init first ∧ Tree.PicturesAt condition second ∧
      Tree.PicturesAt update third ∧ inner.StandsAt body scope slot
  | .iterator label type name source inner, item => ∃ id placed byElement slot,
      item = .construct id ∧
      body.HasConstruct id .forLoop scope label (.iterator placed byElement slot) ∧
      (∃ node declared collection, placed.expr = .operation node .colon declared collection ∧
        body.HasVariable slot type name declared ∧ source.Pictures collection) ∧
      inner.StandsAt body scope slot
  | .whileLoop label condition inner, item => ∃ id placed slot, item = .construct id ∧
      body.HasConstruct id .whileLoop scope label (.whileLoop placed slot) ∧
      condition.Pictures placed.expr ∧ inner.StandsAt body scope slot
  | .doLoop label inner condition, item => ∃ id placed slot, item = .construct id ∧
      body.HasConstruct id .doLoop scope label (.doLoop slot placed) ∧
      condition.Pictures placed.expr ∧ inner.StandsAt body scope slot
  | .switch subject inner, item => ∃ id placed slot items, item = .construct id ∧
      body.HasConstruct id .switch scope none (.switch placed slot) ∧
      subject.Pictures placed.expr ∧ body.HasParagraph slot .switchBody scope none true items ∧
      Statement.StandAt body slot inner items
  | .caseLabel value, item => ∃ id placed, item = .construct id ∧
      body.HasConstruct id .caseLabel scope none (.caseLabel placed) ∧ value.Pictures placed.expr
  | .defaultLabel, item => ∃ id, item = .construct id ∧
      body.HasConstruct id .defaultLabel scope none .defaultLabel
  | .tryBlock guarded clauses, item => ∃ id slot items handlers cleanup, item = .construct id ∧
      body.HasConstruct id .tryBlock scope none (.tryBlock slot handlers cleanup) ∧
      body.HasParagraph slot .body scope none true items ∧
      Statement.StandAt body slot guarded items ∧ clauses.StandsAt body scope handlers cleanup
  | .synchronized lock inner, item => ∃ id placed slot, item = .construct id ∧
      body.HasConstruct id .synchronized scope none (.synchronized placed slot) ∧
      lock.Pictures placed.expr ∧ inner.StandsAt body scope slot
  | .exit keyword value, item => ∃ id placed, item = .construct id ∧
      body.HasConstruct id keyword scope none (.jump placed none) ∧ Tree.PicturesAt value placed
  | .jump keyword label, item => ∃ id placed, item = .construct id ∧
      body.HasConstruct id keyword scope none (.jump placed (label.map String.ofList)) ∧
      placed.expr = .absent

/-- The items of a paragraph are the statements, in order. -/
def Statement.StandAt (body : Body) (scope : ParagraphId) : List Statement → List Item → Prop
  | [], items => items = []
  | statement :: rest, items => ∃ item others, items = item :: others ∧
      statement.StandsAt body scope item ∧ Statement.StandAt body scope rest others

/-- The paragraph of a construct is the body. -/
def Suite.StandsAt (body : Body) (scope : ParagraphId) : Suite → ParagraphId → Prop
  | .braced inner, slot => ∃ items, body.HasParagraph slot .body scope none true items ∧
      Statement.StandAt body slot inner items
  | .single statement, slot => ∃ item, body.HasParagraph slot .body scope none false [item] ∧
      statement.StandsAt body slot item

/-- The branches of a conditional are these. -/
def Alternative.StandsAt (body : Body) (scope : ParagraphId) : Alternative → List Branch → Prop
  | .done, branches => branches = []
  | .otherwise inner, branches => ∃ placed slot, branches = [⟨placed, slot⟩] ∧
      placed.expr = .absent ∧ inner.StandsAt body scope slot
  | .elseIf condition inner rest, branches => ∃ placed slot others,
      branches = ⟨placed, slot⟩ :: others ∧ condition.Pictures placed.expr ∧
      inner.StandsAt body scope slot ∧ rest.StandsAt body scope others

/-- The handlers and the cleanup of a guarded block are these. -/
def Clauses.StandsAt (body : Body) (scope : ParagraphId) :
    Clauses → List Handler → Option ParagraphId → Prop
  | .done, handlers, last => handlers = [] ∧ last = none
  | .cleanup inner, handlers, last => ∃ slot items, handlers = [] ∧ last = some slot ∧
      body.HasParagraph slot .body scope none true items ∧ Statement.StandAt body slot inner items
  | .handler type name inner rest, handlers, last => ∃ placed slot items others,
      handlers = ⟨placed, slot⟩ :: others ∧ body.HasVariable slot type name placed.expr ∧
      body.HasParagraph slot .body scope none true items ∧
      Statement.StandAt body slot inner items ∧ rest.StandsAt body scope others last

end

end MethodLowering
