import MethodLowering.Reader.Frame

/-!
# Reading paragraphs

Steps of an open paragraph: statements, blocks, labels, and the constructs that keywords open.
-/

namespace MethodLowering
namespace Reader

/-- Words that only continue a construct. -/
def continuationWords : List String := ["else", "catch", "finally"]

/-- Add a statement to the paragraph of a frame; a single-statement body is then complete. -/
def addItem (frame : ParagraphFrame) (item : Item) : ReadM ParagraphFrame := do
  modify fun body => body.addItem frame.id item
  return match frame.mode with
    | .single _ => { frame with mode := .single true }
    | _ => frame

/-- Open a block; it takes a waiting label. -/
def openBlock (frame : ParagraphFrame) (rest : List Char) : ReadM Step := do
  let block ← addParagraph
    { kind := .block, parent := some frame.id, label := frame.label, braced := true }
  let frame ← addItem { frame with label := none } (.block block)
  return .enter (.paragraph frame) (.ofParagraph block .braced) rest

/-- Open a construct; it takes a waiting label. -/
def openConstruct (frame : ParagraphFrame) (keyword : Keyword) (rest : List Char) : ReadM Step := do
  let id ← addConstruct { keyword, label := frame.label, scope := frame.id }
  let frame ← addItem { frame with label := none } (.construct id)
  return .enter (.paragraph frame) (.construct { id, scope := frame.id, stage := .header }) rest

/-- Read an expression statement. -/
def stepStatement (frame : ParagraphFrame) (text : List Char) : ReadM Step := do
  match Text.findCut ';' text with
  | .incomplete => return .needMore
  | .strayClose position =>
      let token := String.ofList (text[position]?.toList)
      reject (.unexpectedToken token "closing a bracket that was never opened")
  | .found cut =>
      let root ← readCut (Body.readStatement frame.id) text cut
      let frame ← addItem frame (if root.isAbsent then .empty else .expression root)
      return .advance (.paragraph frame) (text.drop (cut.stop + 1))

/-- What a label in front of `rest` names: a block or a loop. -/
def acceptsLabel (rest : List Char) : Bool :=
  rest.head? == some '{' || (Keyword.leading? rest).any Keyword.acceptsLabel

/-- Read a label where one stands, and a statement otherwise. -/
def stepLabel (finishing : Bool) (frame : ParagraphFrame) (text : List Char) : ReadM Step :=
  match leadingLabel? text with
  | none => stepStatement frame text
  | some (label, taken) =>
      let rest := Text.trimStart (text.drop taken)
      if rest.isEmpty && !finishing then return .needMore
      else if acceptsLabel rest then
        return .advance (.paragraph { frame with label := some (String.ofList label) })
          (text.drop taken)
      else stepStatement frame text

/-- Read a construct, a label or a statement. -/
def stepWord (finishing : Bool) (frame : ParagraphFrame) (text : List Char) : ReadM Step :=
  match continuationWords.find? fun word => Text.startsWithWord word.toList text with
  | some word => reject (.unexpectedToken word "without a matching construct")
  | none =>
      match Keyword.leading? text with
      | some keyword => openConstruct frame keyword (text.drop keyword.text.length)
      | none =>
          match frame.mode with
          | .single _ => stepStatement frame text
          | _ => stepLabel finishing frame text

/-- A step inside a paragraph whose brackets are decided. -/
def stepItem (finishing : Bool) (frame : ParagraphFrame) (text : List Char) : ReadM Step :=
  match text with
  | [] => return .needMore
  | c :: rest =>
      if c == '}' then
        if frame.mode == .braced then return .leave rest
        else reject (.unexpectedToken "\x7d" "outside of any block")
      else if c == '{' then openBlock frame rest
      else if c == ';' then do
        let frame ← addItem frame .empty
        return .advance (.paragraph frame) rest
      else stepWord finishing frame text

/-- Decide whether a body has brackets. -/
def stepOpening (frame : ParagraphFrame) (text : List Char) : ReadM Step :=
  match text with
  | [] => return .needMore
  | c :: rest =>
      if c == '{' then do
        modify fun body => body.modifyParagraph frame.id fun paragraph =>
          { paragraph with braced := true }
        return .advance (.paragraph { frame with mode := .braced }) rest
      else return .advance (.paragraph { frame with mode := .single false }) text

/-- A step of an open paragraph. -/
def stepParagraph (finishing : Bool) (frame : ParagraphFrame) (text : List Char) : ReadM Step :=
  match frame.mode with
  | .awaitOpen => stepOpening frame text
  | .single true => return .leave text
  | _ => stepItem finishing frame text

end Reader
end MethodLowering
