import MethodLowering.Reduction.Statement
import MethodLowering.Text.Cut

/-!
# Frames

A body is read by a stack of frames, one for each paragraph and construct that is still open.  The
top frame looks at the text that is left and takes one step.
-/

namespace MethodLowering

/-- How an open paragraph reads its statements. -/
inductive ParagraphMode where
  /-- The method body, which nothing closes. -/
  | root
  /-- The first character decides whether the body has brackets. -/
  | awaitOpen
  /-- Up to the closing bracket. -/
  | braced
  /-- Exactly one statement, already `taken` or not. -/
  | single (taken : Bool)
deriving DecidableEq, Repr

/-- An open paragraph. -/
structure ParagraphFrame where
  id : ParagraphId
  mode : ParagraphMode
  /-- A label that waits for the construct it names. -/
  label : Option String := none
deriving DecidableEq, Repr

/-- Which part of a construct comes next. -/
inductive Stage where
  /-- The header, or the body where there is none. -/
  | header
  /-- An `else` may follow. -/
  | afterBranch
  /-- The `while` of a `do` must follow. -/
  | afterDoBody
  /-- The condition of a `do` must follow. -/
  | doCondition
  /-- Further clauses of a `try` may follow. -/
  | afterTryClause
  /-- Nothing. -/
  | done
deriving DecidableEq, Repr

/-- An open construct. -/
structure ConstructFrame where
  id : ConstructId
  /-- Paragraph the construct stands in. -/
  scope : ParagraphId
  stage : Stage
deriving DecidableEq, Repr

/-- An open paragraph or construct. -/
inductive Frame where
  | paragraph (frame : ParagraphFrame)
  | construct (frame : ConstructFrame)
deriving DecidableEq, Repr

namespace Frame

/-- A new frame for a paragraph. -/
def ofParagraph (id : ParagraphId) (mode : ParagraphMode) : Frame := .paragraph { id, mode }

/-- What the frame waits for, in words. -/
def describe : Frame → String
  | .paragraph frame =>
      match frame.mode with
      | .root => "method body"
      | .awaitOpen => "body"
      | .braced => "\x7b"
      | .single _ => "single statement body"
  | .construct frame =>
      match frame.stage with
      | .header => "keyword header"
      | .afterBranch => "if"
      | .afterDoBody | .doCondition => "do"
      | .afterTryClause => "try"
      | .done => "keyword"

end Frame

/-- Outcome of a step of the top frame; `rest` is the text behind what it took. -/
inductive Step where
  /-- The text does not suffice. -/
  | needMore
  /-- The frame goes on. -/
  | advance (frame : Frame) (rest : List Char)
  /-- The frame waits while `child` is on top. -/
  | enter (frame child : Frame) (rest : List Char)
  /-- The frame is finished. -/
  | leave (rest : List Char)

namespace Reader

/-- Reject the text. -/
def reject {α : Type} (error : SourceError) : ReadM α := throw (.malformed error)

/-- The answer to a question about the body. -/
def ask {α : Type} (question : Body → Except Fault α) : ReadM α := do
  match question (← get) with
  | .ok answer => return answer
  | .error fault => throw (.undefined fault)

/-- Add a paragraph and give its number. -/
def addParagraph (paragraph : Paragraph) : ReadM ParagraphId := do
  let id := (← get).paragraphs.size
  modify fun body => body.addParagraph paragraph
  return id

/-- Add a construct and give its number. -/
def addConstruct (construct : Construct) : ReadM ConstructId := do
  let id := (← get).constructs.size
  modify fun body => body.addConstruct construct
  return id

/-! ## Statements with class bodies -/

/-- The construction call that ends at a position of the statement. -/
def constructionEndingAt? (root : Expr) (position : Nat) : Option Expr :=
  root.preorder.find? fun expr =>
    expr.isConstructorCall && (expr.node?.any fun node => node.span.stop == position)

/-- The type constructed by a call, without type arguments. -/
def constructedBase : Expr → String
  | .call _ callee _ => String.ofList (TypeName.base (callee.constructedType?.getD "").toList)
  | _ => ""

/-- Note each class body at the construction it followed.  `removed` counts the characters of class
bodies taken out so far. -/
def noteSites (head source : List Char) (root : Placed) : Nat → List Span → ReadM Unit
  | _, [] => return ()
  | removed, span :: rest => do
      let stop := (Text.trimEnd (source.take (span.start - removed))).length
      match constructionEndingAt? root.expr stop with
      | none =>
          reject
            (.unexpectedToken "\x7b" "opening a class body that does not follow a construction")
      | some call =>
          let site : Site :=
            { call := ⟨call, root.sight⟩
              baseType := constructedBase call
              body := String.ofList (span.slice head) }
          modify fun body => { body with sites := body.sites.push site }
          noteSites head source root (removed + span.length) rest

/-- Read the statement in front of a cut with `read`, class bodies taken out and noted. -/
def readCut (read : List Char → ReadM Placed) (text : List Char) (cut : Text.Cut) :
    ReadM Placed := do
  let head := text.take cut.stop
  match Text.removeSpans? head cut.classBodies with
  | none => throw (.undefined .badRange)
  | some source =>
      let root ← read source
      if root.isAbsent then return root
      noteSites head source root 0 cut.classBodies
      return root

end Reader
end MethodLowering
