import MethodLowering.Reader.Frame

/-!
# Reading constructs

Steps of an open construct: headers, bodies and trailing clauses.
-/

namespace MethodLowering
namespace Reader

/-- Set header and bodies of the construct of a frame. -/
def setDetail (frame : ConstructFrame) (detail : Detail) : ReadM Unit :=
  modify fun body => body.modifyDetail frame.id fun _ => detail

/-- Open a body of the construct of a frame. -/
def openBody (frame : ConstructFrame) (kind : ParagraphKind) : ReadM ParagraphId :=
  addParagraph { kind, parent := some frame.scope }

/-- Wait at `stage` while a body is read. -/
def enterBody (frame : ConstructFrame) (stage : Stage) (body : ParagraphId) (rest : List Char) :
    Step :=
  .enter (.construct { frame with stage }) (.ofParagraph body .awaitOpen) rest

/-- An absent clause. -/
def noClause (frame : ConstructFrame) : Placed := ⟨.absent, ⟨frame.scope, 0⟩⟩

/-- The text in round brackets at the start and the text behind them; `none` while the closing
bracket is missing. -/
def parenthesized (keyword : Keyword) (text : List Char) :
    ReadM (Option (List Char × List Char)) :=
  match text with
  | [] => return none
  | c :: rest =>
      if c == '(' then
        return (Text.matchingClose? text).map fun close =>
          (rest.take (close - 1), text.drop (close + 1))
      else reject (.missingClause keyword.text "parenthesized header")

/-- Read a header in round brackets, if it is complete, and go on with it. -/
def withHeader (keyword : Keyword) (text : List Char)
    (go : List Char → List Char → ReadM Step) : ReadM Step := do
  match ← parenthesized keyword text with
  | some (inner, rest) => go inner rest
  | none => return .needMore

/-! ## Conditionals -/

/-- Add a branch to a conditional. -/
def addBranch (frame : ConstructFrame) (branch : Branch) : ReadM Unit :=
  modify fun body => body.modifyDetail frame.id fun detail =>
    match detail with
    | .conditional branches => .conditional (branches ++ [branch])
    | _ => .conditional [branch]

/-- The condition of an `if` or `else if`. -/
def stepCondition (frame : ConstructFrame) (text : List Char) : ReadM Step :=
  withHeader .ifThen text fun inner rest => do
    let condition ← Body.readExpression frame.scope inner
    let body ← openBody frame .body
    addBranch frame ⟨condition, body⟩
    return enterBody frame .afterBranch body rest

/-- Behind a branch: `else if`, `else`, or the end of the conditional. -/
def stepAfterBranch (finishing : Bool) (frame : ConstructFrame) (text : List Char) :
    ReadM Step := do
  if text.isEmpty then return if finishing then .leave text else .needMore
  else if Text.startsWithWord "else".toList text then
    let rest := text.drop 4
    let after := Text.trimStart rest
    if after.isEmpty && !finishing then return .needMore
    else if Text.startsWithWord "if".toList after then
      return .advance (.construct { frame with stage := .header }) (after.drop 2)
    else
      let body ← openBody frame .body
      addBranch frame ⟨noClause frame, body⟩
      return enterBody frame .done body rest
  else return .leave text

/-! ## Loops -/

/-- The header of a loop over a collection; gives whether it goes over the elements of a container
with a declared variable. -/
def iteratesElements (header : Placed) : ReadM Bool :=
  match header.expr with
  | .absent => reject (.missingClause "for" "loop header")
  | .operation _ .colon left right => do
      let category ← ask fun body =>
        match left with
        | .declaration .. => body.category header.sight right
        | _ => .ok .none
      return category == .container
  | other => reject (.unexpectedToken other.trimmedText "as a for-each header")

/-- The header of a `for`.  Its clauses belong to the scope of the loop body. -/
def stepFor (frame : ConstructFrame) (text : List Char) : ReadM Step :=
  withHeader .forLoop text fun inner rest => do
    let body ← openBody frame .body
    match Text.splitTop ';' inner with
    | [init, condition, update] =>
        let init ← Body.readStatement body init
        let condition ← Body.readExpression body condition
        let update ← Body.readExpression body update
        setDetail frame (.counted init condition update body)
        return enterBody frame .done body rest
    | [header] =>
        let header ← Body.readExpression body header
        let byElement ← iteratesElements header
        setDetail frame (.iterator header byElement body)
        return enterBody frame .done body rest
    | _ =>
        reject (.unexpectedToken (String.ofList (Text.trim inner)) "as a for-loop header")

/-- A header of one clause in front of a single body. -/
def stepHeader (keyword : Keyword) (kind : ParagraphKind) (detail : Placed → ParagraphId → Detail)
    (frame : ConstructFrame) (text : List Char) : ReadM Step :=
  withHeader keyword text fun inner rest => do
    let clause ← Body.readExpression frame.scope inner
    let body ← openBody frame kind
    setDetail frame (detail clause body)
    return enterBody frame .done body rest

/-- The body of a `do`. -/
def stepDo (frame : ConstructFrame) (text : List Char) : ReadM Step := do
  let body ← openBody frame .body
  setDetail frame (.doLoop body (noClause frame))
  return enterBody frame .afterDoBody body text

/-- The `while` behind the body of a `do`. -/
def stepAfterDo (finishing : Bool) (frame : ConstructFrame) (text : List Char) : ReadM Step :=
  if text.isEmpty && !finishing then return .needMore
  else if Text.startsWithWord "while".toList text then
    return .advance (.construct { frame with stage := .doCondition }) (text.drop 5)
  else reject (.missingClause "do" "`while` condition")

/-- The condition of a `do` and an optional terminator. -/
def stepDoCondition (finishing : Bool) (frame : ConstructFrame) (text : List Char) :
    ReadM Step := do
  match ← parenthesized .doLoop text with
  | none =>
      if finishing then reject (.missingClause "do" "`while` condition") else return .needMore
  | some (inner, rest) =>
      let after := Text.trimStart rest
      if after.isEmpty && !finishing then return .needMore
      else
        let condition ← Body.readExpression frame.scope inner
        modify fun body => body.modifyDetail frame.id fun detail =>
          match detail with
          | .doLoop loopBody _ => .doLoop loopBody condition
          | other => other
        return .leave (if after.head? == some ';' then after.drop 1 else rest)

/-! ## Exceptions -/

/-- The body of a `try`. -/
def stepTry (frame : ConstructFrame) (text : List Char) : ReadM Step := do
  let body ← openBody frame .body
  setDetail frame (.tryBlock body [] none)
  return enterBody frame .afterTryClause body text

/-- The declarations of a handler: `A | B e` stands for `A e` and `B e`. -/
def alternatives (inner : List Char) : List (List Char) :=
  let inner := Text.trim inner
  match (Text.splitTop '|' inner).reverse with
  | last :: type :: types =>
      let last := Text.trim last
      if last.any Text.isBlank then
        let name := (last.reverse.takeWhile fun c => !Text.isBlank c).reverse
        let lastType := Text.trim (last.reverse.dropWhile fun c => !Text.isBlank c).reverse
        ((type :: types).reverse.map Text.trim ++ [lastType]).map fun type => type ++ ' ' :: name
      else [inner]
  | _ => [inner]

/-- Read the declarations of a handler and add them to the construct. -/
def addHandlers (frame : ConstructFrame) (body : ParagraphId) : List (List Char) → ReadM Unit
  | [] => return ()
  | text :: rest => do
      let declaration ← Body.readExpression body text
      modify fun whole => whole.modifyDetail frame.id fun detail =>
        match detail with
        | .tryBlock guarded handlers cleanup =>
            .tryBlock guarded (handlers ++ [⟨declaration, body⟩]) cleanup
        | other => other
      addHandlers frame body rest

/-- The construct is a `try` with a handler or a cleanup. -/
def hasClause (body : Body) (id : ConstructId) : Bool :=
  match body.constructs[id]? with
  | some { detail := .tryBlock _ handlers cleanup, .. } => !handlers.isEmpty || cleanup.isSome
  | _ => false

/-- Behind a body of a `try`: a handler, the cleanup, or the end. -/
def stepAfterTry (finishing : Bool) (frame : ConstructFrame) (text : List Char) : ReadM Step := do
  if text.isEmpty && !finishing then return .needMore
  else if Text.startsWithWord "catch".toList text then
    withHeader .tryBlock (Text.trimStart (text.drop 5)) fun inner rest => do
      let body ← openBody frame .body
      addHandlers frame body (alternatives inner)
      return enterBody frame frame.stage body rest
  else if Text.startsWithWord "finally".toList text then
    let body ← openBody frame .body
    modify fun whole => whole.modifyDetail frame.id fun detail =>
      match detail with
      | .tryBlock guarded handlers _ => .tryBlock guarded handlers (some body)
      | other => other
    return enterBody frame .done body (text.drop 7)
  else if hasClause (← get) frame.id then return .leave text
  else reject (.missingClause "try" "`catch` or `finally` clause")

/-! ## Jumps and labels of a switch -/

/-- A `return` or `throw` with an optional value. -/
def stepValue (frame : ConstructFrame) (keyword : Keyword) (text : List Char) : ReadM Step := do
  match Text.findCut ';' text with
  | .incomplete => return .needMore
  | .strayClose _ => reject (.missingClause keyword.text "terminating `;`")
  | .found cut =>
      let value ← readCut (Body.readExpression frame.scope) text cut
      if keyword == .returns && value.expr.isIdentifier then
        let category ← ask fun body => body.category value.sight value.expr
        if category == .ownedValue then modify fun body => { body with returnsHandle := true }
      setDetail frame (.jump value none)
      return .leave (text.drop (cut.stop + 1))

/-- A `break` or `continue` with an optional label. -/
def stepJump (frame : ConstructFrame) (text : List Char) : ReadM Step := do
  let front := text.takeWhile (· != ';')
  if front.length == text.length then return .needMore
  else
    let label := Text.trim front
    setDetail frame
      (.jump (noClause frame) (if label.isEmpty then none else some (String.ofList label)))
    return .leave (text.drop (front.length + 1))

/-- A `case` with its value. -/
def stepCase (frame : ConstructFrame) (text : List Char) : ReadM Step := do
  match Text.findCut ':' text with
  | .incomplete => return .needMore
  | .strayClose _ => reject (.missingClause "case" "`:`")
  | .found cut =>
      let value ← Body.readExpression frame.scope (text.take cut.stop)
      setDetail frame (.caseLabel value)
      return .leave (text.drop (cut.stop + 1))

/-- A `default`. -/
def stepDefault (frame : ConstructFrame) (text : List Char) : ReadM Step :=
  match text with
  | [] => return .needMore
  | c :: rest =>
      if c == ':' then do
        setDetail frame .defaultLabel
        return .leave rest
      else reject (.missingClause "default" "`:`")

/-! ## All constructs -/

/-- The first step of a construct. -/
def stepKeyword (frame : ConstructFrame) (text : List Char) : Keyword → ReadM Step
  | .ifThen => stepCondition frame text
  | .forLoop => stepFor frame text
  | .whileLoop => stepHeader .whileLoop .body .whileLoop frame text
  | .doLoop => stepDo frame text
  | .switch => stepHeader .switch .switchBody .switch frame text
  | .tryBlock => stepTry frame text
  | .synchronized => stepHeader .synchronized .body .synchronized frame text
  | .returns => stepValue frame .returns text
  | .throws => stepValue frame .throws text
  | .breaks | .continues => stepJump frame text
  | .caseLabel => stepCase frame text
  | .defaultLabel => stepDefault frame text

/-- A step of an open construct. -/
def stepConstruct (finishing : Bool) (frame : ConstructFrame) (text : List Char) : ReadM Step := do
  match frame.stage with
  | .done => return .leave text
  | .afterBranch => stepAfterBranch finishing frame text
  | .afterDoBody => stepAfterDo finishing frame text
  | .doCondition => stepDoCondition finishing frame text
  | .afterTryClause => stepAfterTry finishing frame text
  | .header =>
      match (← get).constructs[frame.id]? with
      | some construct => stepKeyword frame text construct.keyword
      | none => return .needMore

end Reader
end MethodLowering
