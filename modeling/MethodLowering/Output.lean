import MethodLowering.Json.Printer
import MethodLowering.Lowering.Statement
import MethodLowering.Reader.Basic
import MethodLowering.Rendering.Statement
import MethodLowering.Text.Lines

/-!
# Lowering a method

The whole way from the lines of a method body to its target text, and the documents it is described
by and reported in.

A draft is a finished body on its way to text.  Once it is lowered, its directives stay; a draft
that is not lowered is lowered anew for each text, and the types met are forgotten.
-/

namespace MethodLowering

/-! ## Drafts -/

/-- A finished body, lowered or not. -/
structure Draft where
  body : Body
  directives : Option Directives := none

namespace Draft

/-- The body is lowered. -/
def isLowered (draft : Draft) : Bool := draft.directives.isSome

/-- Lower the body, again if need be, and report the types it mentions. -/
def lower (draft : Draft) (types : TypeReport) : Except Fault (Draft × TypeReport) := do
  let lowering ← draft.body.lower types
  return ({ draft with directives := some lowering.directives }, lowering.types)

/-- The body with its directives, ready to be written. -/
def rendering (draft : Draft) : Except Fault Rendering := do
  if !draft.body.options.isWritable then throw .unwritable
  match draft.directives with
  | some directives => return { body := draft.body, directives }
  | none => return { body := draft.body, directives := (← draft.body.lower {}).directives }

/-- Parameters and locals with their categories, in order of declaration. -/
def categories (draft : Draft) : List (String × Category) :=
  draft.body.vars.toList.map fun entry => (entry.name, entry.category)

end Draft

/-! ## Outputs -/

/-- Everything known about a method once its body is lowered. -/
structure Output where
  /-- Target text of the body. -/
  code : String
  /-- Types that need a declaration, in order of first use. -/
  unseenTypes : List String
  /-- Classes made from anonymous class bodies. -/
  liftedTypes : List String
  /-- Some `return` hands back an object held by a smart handle. -/
  returnsHandle : Bool
  /-- Parameters and locals with their categories. -/
  categories : List (String × Category)
deriving DecidableEq, Repr

/-- Why a method is not lowered. -/
inductive MethodFailure where
  /-- The description of the method is rejected. -/
  | invalidContext
  /-- The options are rejected. -/
  | invalidOptions
  /-- The body of the named method is malformed. -/
  | malformed (method : String) (error : SourceError)
  /-- A question that came up on the way has no answer. -/
  | undefined (fault : Fault)
deriving DecidableEq, Repr

namespace MethodFailure

/-- Wording of a failure; a fault has none. -/
def message : MethodFailure → String
  | invalidContext => "invalid method context"
  | invalidOptions => "invalid translate options"
  | malformed method error => "failed to translate method `" ++ method ++ "`: " ++ error.message
  | undefined _ => ""

end MethodFailure

namespace Output

/-- The output of a finished body. -/
def ofBody (body : Body) : Except Fault Output := do
  let (draft, types) ← Draft.lower { body } {}
  let rendering ← draft.rendering
  let code ← rendering.bodyText 0
  let liftedTypes ←
    body.lifted.toList.mapM fun lifted => rendering.textOf 0 (rendering.liftedLines lifted)
  return {
    code, liftedTypes
    unseenTypes := types.toList
    returnsHandle := body.returnsHandle
    categories := draft.categories }

/-- The output for the lines of a method body. -/
def ofLines (context : Context) (options : Options) (lines : List String) :
    Except MethodFailure Output :=
  match Body.ofLines context options lines with
  | .error (.malformed error) => .error (.malformed context.name error)
  | .error (.undefined fault) => .error (.undefined fault)
  | .ok body =>
      match ofBody body with
      | .ok output => .ok output
      | .error fault => .error (.undefined fault)

/-- The output for a source text, with the method and the options described by JSON texts. -/
def ofDocuments (context source : String) (options : Option String) :
    Except MethodFailure Output :=
  match Context.ofText? context with
  | none => .error .invalidContext
  | some context =>
      match options.elim (some {}) Options.ofText? with
      | none => .error .invalidOptions
      | some options => ofLines context options ((Text.lines source.toList).map String.ofList)

/-- The document of an output. -/
def toJson (output : Output) : Json :=
  .record [
    ("code", .text output.code),
    ("unseenTypes", .array (output.unseenTypes.map .text)),
    ("liftedTypes", .array (output.liftedTypes.map .text)),
    ("returnsSmartHandle", .bool output.returnsHandle),
    ("categories", .array (output.categories.map fun (name, category) =>
      .array [.text name, .text category.name]))]

/-- The output as an indented JSON text. -/
def toText (output : Output) : String := output.toJson.pretty

end Output
end MethodLowering
