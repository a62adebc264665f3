import MethodLowering.Rendering.Expression
import MethodLowering.Rendering.Page

/-!
# Rendering statements

Statements, constructs and types become the steps that write their lines; around what stands inside
a construct the level is raised and lowered again.
-/

namespace MethodLowering
namespace Rendering

/-- The opening curly bracket behind a header. -/
def opened (header : String) : Page.Step := .line (header ++ " \x7b")

/-- A closing curly bracket. -/
def closed : Page.Step := .line "\x7d"

/-- A label on a line of its own. -/
def labelLines (label : Option String) : List Page.Step :=
  match label with
  | some label => [.line (label ++ ":")]
  | none => []

/-- The target text of a clause. -/
def clause (rendering : Rendering) (placed : Placed) : String := rendering.expression placed.expr

/-- Declarations that a statement needs in front of it. -/
def preludeLines (rendering : Rendering) (expr : Expr) : List Page.Step :=
  (rendering.directivesOf expr).filterMap fun directive =>
    match directive with
    | .arrayTemporary name arrayType dimensions =>
        some (.line ("/* auto generated */ " ++
          applied (rendering.spellType arrayType ++ " " ++ name)
            (dimensions.map rendering.expression) ++ ";"))
    | _ => none

/-- An expression statement. -/
def expressionLines (rendering : Rendering) (expr : Expr) : List Page.Step :=
  rendering.preludeLines expr ++ [.line (rendering.expression expr ++ ";")]

/-! ## Constructs -/

/-- Header of a branch. -/
def branchHeader (rendering : Rendering) (isFirst : Bool) (condition : Placed) : Page.Step :=
  if isFirst then opened ("if (" ++ rendering.clause condition ++ ")")
  else if condition.isAbsent then opened "\x7d else"
  else opened ("\x7d else if (" ++ rendering.clause condition ++ ")")

/-- The branches of a conditional with nested bodies. -/
def branchLines (rendering : Rendering) (lines : ParagraphId → List Page.Step) :
    Bool → List Branch → List Page.Step
  | _, [] => [closed]
  | isFirst, branch :: rest =>
      rendering.branchHeader isFirst branch.condition :: Page.nested (lines branch.body) ++
        branchLines rendering lines false rest

/-- A clause of a loop header behind its separator. -/
def clauseSuffix (rendering : Rendering) (placed : Placed) : String :=
  if placed.isAbsent then "" else " " ++ rendering.clause placed

/-- Header of a loop over a collection. -/
def iterationHeader (rendering : Rendering) (header : Placed) (byElement : Bool) : String :=
  match header.expr with
  | .operation _ .colon left right =>
      let front :=
        match if byElement then left.declaredVariable? else none with
        | some declared =>
            match rendering.body.vars[declared]? with
            | some entry => "auto& " ++ entry.name
            | none => rendering.expression left
        | none => rendering.expression left
      front ++ " : " ++ rendering.expression right
  | other => rendering.expression other

/-- What a handler catches: by reference where a variable is declared. -/
def handlerHeader (rendering : Rendering) (declaration : Placed) : String :=
  match declaration.expr.declaredVariable?.bind (rendering.body.vars[·]?) with
  | some entry => spellPlain entry.typeName ++ "& " ++ entry.name
  | none => rendering.clause declaration

/-- The handlers of a `try` with nested bodies. -/
def handlerLines (rendering : Rendering) (lines : ParagraphId → List Page.Step) :
    List Handler → List Page.Step
  | [] => [closed]
  | handler :: rest =>
      opened ("\x7d catch (" ++ rendering.handlerHeader handler.declaration ++ ")") ::
        Page.nested (lines handler.body) ++ handlerLines rendering lines rest

/-- A `try` without its cleanup; without handlers only its statements remain. -/
def guardedLines (rendering : Rendering) (lines : ParagraphId → List Page.Step)
    (guarded : ParagraphId) (handlers : List Handler) : List Page.Step :=
  if handlers.isEmpty then lines guarded
  else opened "try" :: Page.nested (lines guarded) ++ rendering.handlerLines lines handlers

/-- A header in front of a nested body. -/
def blockLines (header : String) (inner : List Page.Step) : List Page.Step :=
  opened header :: Page.nested inner ++ [closed]

/-- A cleanup is registered in front of the guarded statements, in a block of its own. -/
def cleanupLines (rendering : Rendering) (cleanup guarded : List Page.Step) : List Page.Step :=
  .line "\x7b" :: Page.nested
      (opened rendering.body.options.deferKeyword :: Page.nested cleanup ++
        .line "\x7d;" :: guarded) ++ [closed]

/-- A jump with its label in a comment or its value. -/
def jumpText (rendering : Rendering) (keyword : Keyword) (value : Placed) (label : Option String) :
    String :=
  match label with
  | some label => keyword.text ++ " /* " ++ label ++ " */;"
  | none =>
      if value.isAbsent then keyword.text ++ ";"
      else keyword.text ++ " " ++ rendering.clause value ++ ";"

/-- A construct without its label; `lines` gives the lines of its bodies. -/
def detailLines (rendering : Rendering) (lines : ParagraphId → List Page.Step)
    (keyword : Keyword) : Detail → List Page.Step
  | .conditional branches => rendering.branchLines lines true branches
  | .counted init condition update body =>
      blockLines
        ("for (" ++ rendering.clause init ++ ";" ++ rendering.clauseSuffix condition ++ ";" ++
          rendering.clauseSuffix update ++ ")") (lines body)
  | .iterator header byElement body =>
      blockLines ("for (" ++ rendering.iterationHeader header byElement ++ ")") (lines body)
  | .whileLoop condition body =>
      blockLines ("while (" ++ rendering.clause condition ++ ")") (lines body)
  | .doLoop body condition =>
      opened "do" :: Page.nested (lines body) ++
        [.line ("\x7d while (" ++ rendering.clause condition ++ ");")]
  | .switch subject body => blockLines ("switch (" ++ rendering.clause subject ++ ")") (lines body)
  | .tryBlock guarded handlers cleanup =>
      match cleanup with
      | some cleanup =>
          rendering.cleanupLines (lines cleanup) (rendering.guardedLines lines guarded handlers)
      | none => rendering.guardedLines lines guarded handlers
  | .synchronized lock body =>
      blockLines ("/* synchronized (" ++ rendering.clause lock ++ ") */") (lines body)
  | .jump value label => [.line (rendering.jumpText keyword value label)]
  | .caseLabel value => [.line ("case " ++ rendering.clause value ++ ":")]
  | .defaultLabel => [.line "default:"]
  | .unread => []

/-- A construct with its label. -/
def constructLines (rendering : Rendering) (lines : ParagraphId → List Page.Step)
    (construct : Construct) : List Page.Step :=
  labelLines construct.label ++ rendering.detailLines lines construct.keyword construct.detail

/-! ## Paragraphs -/

/-- A statement; `lines` gives the lines of paragraphs inside it. -/
def itemLines (rendering : Rendering) (lines : ParagraphId → List Page.Step) :
    Item → List Page.Step
  | .empty => [.line ";"]
  | .expression root => rendering.expressionLines root.expr
  | .block id =>
      labelLines (rendering.body.paragraphs[id]?.bind (·.label)) ++
        .line "\x7b" :: Page.nested (lines id) ++ [closed]
  | .construct id =>
      match rendering.body.constructs[id]? with
      | some construct => rendering.constructLines lines construct
      | none => []

/-- The statement is a label of a switch. -/
def isSwitchLabel (rendering : Rendering) : Item → Bool
  | .construct id =>
      rendering.body.constructs[id]?.any fun construct =>
        construct.keyword == .caseLabel || construct.keyword == .defaultLabel
  | _ => false

/-- The lines of a paragraph without its brackets; at most `nesting` levels of paragraphs are
entered.  In a switch, everything but the labels stands one level further in. -/
def paragraphFrom (rendering : Rendering) : Nat → ParagraphId → List Page.Step
  | 0, _ => []
  | nesting + 1, id =>
      match rendering.body.paragraphs[id]? with
      | none => []
      | some paragraph =>
          paragraph.items.toList.flatMap fun item =>
            let lines := rendering.itemLines (rendering.paragraphFrom nesting) item
            if paragraph.kind == .switchBody && !rendering.isSwitchLabel item then Page.nested lines
            else lines

/-- The lines of a paragraph.  Paragraphs nest at most as deep as there are paragraphs. -/
def paragraphLines (rendering : Rendering) (id : ParagraphId) : List Page.Step :=
  rendering.paragraphFrom rendering.body.paragraphs.size id

/-- The lines of a construct by number. -/
def constructLinesAt (rendering : Rendering) (id : ConstructId) : List Page.Step :=
  rendering.itemLines rendering.paragraphLines (.construct id)

/-! ## Types made from class bodies -/

/-- A capture as a declaration. -/
def captureText (rendering : Rendering) (capture : Capture) : String :=
  rendering.spellType capture.typeName ++ " " ++ capture.name

/-- The constructor of a type made from a class body: it takes the captures and keeps them. -/
def constructorText (rendering : Rendering) (lifted : Lifted) : String :=
  applied lifted.name (lifted.captures.map rendering.captureText) ++
    (let kept := commaSeparated (lifted.captures.map fun capture =>
      applied capture.name [capture.name])
    if kept.isEmpty then "" else " : " ++ kept) ++ " \x7b\x7d"

/-- The class of a type made from a class body; the body itself is kept for review. -/
def liftedLines (rendering : Rendering) (lifted : Lifted) : List Page.Step :=
  opened ("class " ++ lifted.name ++ " : public " ++ spellPlain lifted.baseType) ::
    .line "public:" :: Page.nested
      [.line (rendering.constructorText lifted), .line (marked (Text.trimmed lifted.body))] ++
    (if lifted.captures.isEmpty then []
    else
      .line "private:" :: Page.nested (lifted.captures.map fun capture =>
          .line (rendering.captureText capture ++ ";"))) ++ [.line "\x7d;"]

/-! ## Text -/

/-- Lines as text at an indentation level. -/
def textOf (rendering : Rendering) (level : Nat) (lines : List Page.Step) : Except Fault String :=
  Page.text rendering.body.options.indentUnit level lines

/-- The whole body as text. -/
def bodyText (rendering : Rendering) (level : Nat) : Except Fault String :=
  rendering.textOf level (rendering.paragraphLines Body.root)

end Rendering
end MethodLowering
