import MethodLowering.Body.Construct
import MethodLowering.Context
import MethodLowering.Decimal
import MethodLowering.Fault
import MethodLowering.Options

/-!
# Method bodies

A method body under construction or finished: its paragraphs, constructs and variables, the
anonymous class bodies cut out of it and the types made from them.
-/

namespace MethodLowering

/-- Counters of the work spent on structuring statements. -/
structure Effort where
  /-- Statements and clauses begun. -/
  statements : Nat := 0
  /-- Rounds of operator folding. -/
  rounds : Nat := 0
  /-- Sum of the nesting depths of all finished statements. -/
  totalDepth : Nat := 0
  /-- Largest nesting depth of a finished statement. -/
  maxDepth : Nat := 0
deriving DecidableEq, Repr

namespace Effort

/-- Decimals of a written mean. -/
def meanPlaces : Nat := 6

/-- Mean nesting depth of a statement, as text. -/
def meanDepth (effort : Effort) : String :=
  Decimal.fixedQuotient meanPlaces effort.totalDepth effort.statements

end Effort

/-- An anonymous class body with the construction it followed. -/
structure Site where
  /-- The construction call. -/
  call : Placed
  /-- The constructed type without type arguments. -/
  baseType : String
  /-- Text of the class body, brackets included. -/
  body : String
deriving Repr

/-- A local that a class body reads. -/
structure Capture where
  name : String
  typeName : String
  category : Category
deriving DecidableEq, Repr

/-- A named type made from an anonymous class body. -/
structure Lifted where
  name : String
  baseType : String
  body : String
  captures : List Capture
  /-- The construction call. -/
  call : Placed
deriving Repr

/-- A method body. -/
structure Body where
  context : Context
  options : Options
  /-- Paragraphs by number; the first is the method body itself. -/
  paragraphs : Array Paragraph
  /-- Constructs by number. -/
  constructs : Array Construct := #[]
  /-- Parameters and locals by number. -/
  vars : Array Variable := #[]
  sites : Array Site := #[]
  lifted : Array Lifted := #[]
  /-- Number of the next expression node. -/
  nextNode : Nat := 0
  effort : Effort := {}
  /-- Some `return` hands back an object held by a smart handle. -/
  returnsHandle : Bool := false

namespace Body

/-- Number of the paragraph that is the method body. -/
def root : ParagraphId := 0

/-- Container types besides the built-in ones. -/
def extraContainers (body : Body) : List String := body.options.extraContainerTypes

/-- Add a paragraph; its number is the number of paragraphs before. -/
def addParagraph (body : Body) (paragraph : Paragraph) : Body :=
  { body with paragraphs := body.paragraphs.push paragraph }

/-- Add a construct; its number is the number of constructs before. -/
def addConstruct (body : Body) (construct : Construct) : Body :=
  { body with constructs := body.constructs.push construct }

/-- Change a paragraph. -/
def modifyParagraph (body : Body) (id : ParagraphId) (change : Paragraph → Paragraph) : Body :=
  { body with paragraphs := body.paragraphs.modify id change }

/-- Change the header and bodies of a construct. -/
def modifyDetail (body : Body) (id : ConstructId) (change : Detail → Detail) : Body :=
  { body with
    constructs := body.constructs.modify id fun construct =>
      { construct with detail := change construct.detail } }

/-- Add a statement at the end of a paragraph. -/
def addItem (body : Body) (id : ParagraphId) (item : Item) : Body :=
  body.modifyParagraph id fun paragraph => { paragraph with items := paragraph.items.push item }

/-- Declare a variable in its paragraph; its number is the number of variables before. -/
def declare (body : Body) (entry : Variable) : Body :=
  let id := body.vars.size
  let declared := { body with vars := body.vars.push entry }
  match entry.scope with
  | some scope =>
      declared.modifyParagraph scope fun paragraph =>
        { paragraph with vars := paragraph.vars.push id }
  | none => declared

/-- Give a variable another type. -/
def retype (body : Body) (id : VariableId) (typeName : String) : Body :=
  let extra := body.extraContainers
  { body with vars := body.vars.modify id fun entry => entry.withType extra typeName }

/-- A parameter as a variable of the method body. -/
def parameterVariable (options : Options) (parameter : Parameter) : Variable :=
  Variable.ofType options.extraContainerTypes parameter.name parameter.typeName parameter.isFinal
    false .parameter (some root)

/-- The body before any text is read: one paragraph that holds the parameters. -/
def initial (context : Context) (options : Options) : Body :=
  context.parameters.foldl
    (fun body parameter => body.declare (parameterVariable options parameter))
    { context, options, paragraphs := #[{ kind := .root, parent := none }] }

/-- The locals in order of declaration. -/
def locals (body : Body) : List Variable :=
  body.vars.toList.filter fun entry => !entry.isParameter

/-- What an expression in `scope` sees at this point. -/
def sightFrom (body : Body) (scope : ParagraphId) : Sight := ⟨scope, body.vars.size⟩

/-- Number of the type made from the class body behind a call. -/
def liftedAt? (body : Body) (call : Node) : Option Nat :=
  (List.range body.lifted.size).reverse.find? fun id =>
    (body.lifted[id]?.bind fun lifted => lifted.call.expr.node?).any fun node => node.id == call.id

/-! ## Look-up -/

/-- The paragraph and those around it, innermost first, at most `count` of them. -/
def chainFrom (body : Body) : Nat → Option ParagraphId → List Paragraph
  | 0, _ | _, none => []
  | count + 1, some id =>
      match body.paragraphs[id]? with
      | some paragraph => paragraph :: body.chainFrom count paragraph.parent
      | none => []

/-- The paragraph and those around it, innermost first. -/
def chain (body : Body) (scope : ParagraphId) : List Paragraph :=
  body.chainFrom body.paragraphs.size (some scope)

/-- The variables of a paragraph declared among the first `visible`, the latest first. -/
def visibleVariables (body : Body) (visible : Nat) (paragraph : Paragraph) : List Variable :=
  paragraph.vars.foldl
    (fun entries id =>
      if id < visible then
        match body.vars[id]? with
        | some entry => entry :: entries
        | none => entries
      else entries)
    []

theorem visibleVariables_eq (body : Body) (visible : Nat) (paragraph : Paragraph) :
    body.visibleVariables visible paragraph =
      (paragraph.vars.toList.reverse.filter (· < visible)).filterMap (body.vars[·]?) := by
  rw [visibleVariables, ← Array.foldl_toList, ← List.foldr_reverse]
  induction paragraph.vars.toList.reverse with
  | nil => rfl
  | cons id rest induction =>
      simp only [List.foldr_cons, induction, List.filter_cons]
      by_cases seen : id < visible
      · cases entry : body.vars[id]? <;> simp [seen, entry]
      · simp [seen]

/-- A field of the enclosing classes as a variable. -/
def field? (body : Body) (name : String) : Option Variable :=
  (body.context.field? name).map fun (depth, field) =>
    Variable.ofType body.extraContainers field.name field.typeName field.isFinal field.isStatic
      (.field (depth != 0)) none

/-- The variable a name stands for: the latest visible one of the innermost paragraph that has one,
or else a field. -/
def lookupAt (body : Body) (sight : Sight) (name : String) : Option Variable :=
  ((body.chain sight.scope).findSome? fun paragraph =>
    (body.visibleVariables sight.visible paragraph).find? fun entry => entry.name == name).or
    (body.field? name)

/-- The variable a name stands for in a paragraph of the finished body; without a paragraph, only
fields are looked at. -/
def lookup (body : Body) (scope : Option ParagraphId) (name : String) :
    Except Fault (Option Variable) :=
  match scope with
  | none => .ok (body.field? name)
  | some id =>
      if id < body.paragraphs.size then .ok (body.lookupAt (body.sightFrom id) name)
      else .error (.noParagraph id)

end Body
end MethodLowering
