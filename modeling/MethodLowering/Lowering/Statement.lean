import MethodLowering.Lowering.Basic

/-!
# Lowering statements and constructs

Assignments that are a whole statement, or an item of one, may change their shape: a container is
cleared, filled or declared empty, and an array is constructed in place of being assigned.
-/

namespace MethodLowering
namespace Lowering

/-- The characters occur somewhere in the text. -/
def occursIn (pattern : List Char) : List Char → Bool
  | [] => pattern.isEmpty
  | c :: rest => pattern.isPrefixOf (c :: rest) || occursIn pattern rest

/-- The type reads as a map. -/
def isMapLike (typeName : String) : Bool :=
  let base := TypeName.base typeName.toList
  occursIn "Map".toList base || occursIn "Table".toList base || occursIn "table".toList base

/-- The method that fills a container from another: maps have their own. -/
def bulkMethod (constructed declared : String) : String :=
  if isMapLike constructed || isMapLike declared then "putAll" else "addAll"

/-- Both expressions are spelled alike, and both or neither is a name. -/
def sameSpelling (left right : Expr) : Bool :=
  left.isIdentifier == right.isIdentifier && left.trimmedText == right.trimmedText

/-- The expression declares a variable. -/
def declares : Expr → Bool
  | .declaration .. => true
  | _ => false

/-- The directive of an assignment that leaves its target empty. -/
def emptied (declare : Bool) (category : Category) : Directive :=
  if declare then .initEmpty else .clearValue (category == .text)

/-- A container or text constructed and assigned.  `sole` when a second statement may be written. -/
def lowerConstructed (body : Body) (sight : Sight) (sole : Bool) (expr target call : Expr)
    (category : Category) (constructed : String) (arguments : List Expr) : LowerM Unit := do
  let declare := declares target
  match arguments, category with
  | [], _ => direct expr (emptied declare category)
  | [source], .container =>
      let sourceCategory ← categoryOf body sight source
      if sourceCategory == .primitive then direct expr (emptied declare category)
      else if !declare && sameSpelling target source then direct expr .unsupported
      else if sole then
        let declared ← (liftM (body.declaredType sight target) : LowerM (Option String))
        direct expr (.bulkCopy source (bulkMethod constructed (declared.getD "")) declare
          (sourceCategory == .container))
  | _, .text => direct expr (.constructFrom call declare)
  | _, _ => return ()

/-- A fresh array assigned.  `sole` when a second statement may be written. -/
def lowerFreshArray (body : Body) (sight : Sight) (sole : Bool) (expr target array : Expr)
    (indices : List Expr) (initializer : Expr) : LowerM Unit := do
  let dimensions := indices.filter Expr.isPresent
  if declares target then direct expr (.arrayConstructor dimensions initializer)
  else if sole && initializer.isAbsent then
    let arrayType ← (liftM (body.declaredType sight array) : LowerM (Option String))
    modify fun state => { state with temporaries := state.temporaries + 1 }
    let name := "tempArray" ++ toString (← get).temporaries
    direct expr (.arrayTemporary name (arrayType.getD "") dimensions)

/-- A plain assignment to a container, an array or text. -/
def lowerAssignment (body : Body) (sight : Sight) (sole : Bool) (expr target value : Expr) :
    LowerM Unit := do
  let category ← categoryOf body sight target
  if category.isValueCollection then
    match value with
    | .leaf _ .null => direct expr (emptied (declares target) category)
    | .call node callee arguments =>
        match callee.constructedType?, body.liftedAt? node with
        | some constructed, none =>
            lowerConstructed body sight sole expr target value category constructed arguments
        | _, _ => return ()
    | .index _ array indices initializer =>
        if array.isConstruction then
          lowerFreshArray body sight sole expr target value indices initializer
    | _ => return ()

/-- The assignments of a statement or of the first clause of a loop, comma lists included.  `sole`
when a second statement may be written. -/
def lowerRoot (body : Body) (sight : Sight) : Bool → Expr → LowerM Unit
  | _, .operation _ .comma left right => do
      lowerRoot body sight false left
      lowerRoot body sight false right
  | sole, .assignment node .assign target value =>
      lowerAssignment body sight sole (.assignment node .assign target value) target value
  | _, _ => return ()

/-- A thrown construction is thrown as a value. -/
def lowerThrow (body : Body) (value : Expr) : LowerM Unit :=
  match value with
  | .call node callee _ =>
      if callee.isConstruction && (body.liftedAt? node).isNone then direct value .throwByValue
      else return ()
  | _ => return ()

/-! ## Constructs and paragraphs -/

/-- The handlers of a `try`; handlers that share a body enter it once. -/
def visitHandlers (body : Body) (paragraph : ParagraphId → LowerM Unit) :
    Option ParagraphId → List Handler → LowerM Unit
  | _, [] => return ()
  | last, handler :: rest => do
      visitPlaced body handler.declaration
      if last != some handler.body then paragraph handler.body
      visitHandlers body paragraph (some handler.body) rest

/-- The branches of a conditional. -/
def visitBranches (body : Body) (paragraph : ParagraphId → LowerM Unit) :
    List Branch → LowerM Unit
  | [] => return ()
  | branch :: rest => do
      visitPlaced body branch.condition
      paragraph branch.body
      visitBranches body paragraph rest

/-- A construct; its bodies are lowered by `paragraph`. -/
def visitConstruct (body : Body) (paragraph : ParagraphId → LowerM Unit) (construct : Construct) :
    LowerM Unit := do
  match construct.detail with
  | .conditional branches => visitBranches body paragraph branches
  | .counted init condition update loopBody =>
      lowerRoot body init.sight false init.expr
      visitPlaced body init
      visitPlaced body condition
      visitPlaced body update
      paragraph loopBody
  | .iterator header _ loopBody | .whileLoop header loopBody | .switch header loopBody
  | .synchronized header loopBody =>
      visitPlaced body header
      paragraph loopBody
  | .doLoop loopBody condition =>
      paragraph loopBody
      visitPlaced body condition
  | .tryBlock guarded handlers cleanup =>
      paragraph guarded
      visitHandlers body paragraph none handlers
      match cleanup with
      | some cleanup => paragraph cleanup
      | none => return ()
  | .jump value _ =>
      if construct.keyword == .throws then lowerThrow body value.expr
      visitPlaced body value
  | .caseLabel value => visitPlaced body value
  | .defaultLabel | .unread => return ()

/-- A statement; paragraphs inside it are lowered by `paragraph`. -/
def visitItem (body : Body) (paragraph : ParagraphId → LowerM Unit) : Item → LowerM Unit
  | .empty => return ()
  | .expression root => do
      lowerRoot body root.sight true root.expr
      visitPlaced body root
  | .block id => paragraph id
  | .construct id =>
      match body.constructs[id]? with
      | some construct => visitConstruct body paragraph construct
      | none => return ()

/-- A paragraph; at most `nesting` levels of paragraphs are entered. -/
def visitParagraph (body : Body) : Nat → ParagraphId → LowerM Unit
  | 0, _ => return ()
  | nesting + 1, id =>
      match body.paragraphs[id]? with
      | some paragraph =>
          paragraph.items.toList.forM (visitItem body (visitParagraph body nesting))
      | none => return ()

end Lowering

/-- Lower a whole body, adding to the types already reported.  Paragraphs nest at most as deep as
there are paragraphs. -/
def Body.lower (body : Body) (types : TypeReport) : Except Fault Lowering :=
  (Lowering.visitParagraph body body.paragraphs.size Body.root { types }).map (·.2)

end MethodLowering
