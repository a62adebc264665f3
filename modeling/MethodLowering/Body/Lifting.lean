import MethodLowering.Body.Basic
import MethodLowering.Limits
import MethodLowering.Text.Quote

/-!
# Types made from anonymous class bodies

Each class body cut out of a construction becomes a named type.  The final locals and parameters it
reads become captures, those of the outermost scope first.
-/

namespace MethodLowering
namespace Body

/-! ## Names in a class body -/

/-- State of collecting the names of a text. -/
structure NameScan where
  quote : Text.Quote := .outside
  /-- The word being read, reversed. -/
  word : List Char := []
  /-- The last solid character in front of the word was a dot. -/
  afterDot : Bool := false
  /-- Names found so far, the latest first. -/
  names : List String := []

namespace NameScan

/-- End the word being read; a word behind a dot names a member and does not count. -/
def endWord (scan : NameScan) : NameScan :=
  if scan.word.isEmpty then scan
  else
    { scan with
      word := []
      names :=
        if scan.afterDot then scan.names else String.ofList scan.word.reverse :: scan.names }

/-- Read one character. -/
def read (scan : NameScan) (c : Char) : NameScan :=
  let quoted := scan.quote.covers c
  let next := { scan with quote := scan.quote.next c }
  if !quoted && Text.isWordChar c then { next with word := c :: next.word }
  else
    let ended := next.endWord
    if !quoted && !Text.isBlank c then { ended with afterDot := c == '.' } else ended

end NameScan

/-- The identifiers of a text outside literals, member names excepted. -/
def referencedNames (text : List Char) : List String :=
  (text.foldl NameScan.read {}).endWord.names

/-! ## Captures -/

/-- Walk through variables from the innermost one outwards; a name already seen is hidden.  Gives
the captures, the outermost first, and the names seen. -/
def captureFrom (referenced : List String) :
    List String → List Variable → List Capture × List String
  | seen, [] => ([], seen)
  | seen, entry :: rest =>
      if seen.contains entry.name then captureFrom referenced seen rest
      else
        let (outer, all) := captureFrom referenced (entry.name :: seen) rest
        if entry.isFinal && referenced.contains entry.name then
          (outer ++
            [{ name := entry.name, typeName := entry.typeName, category := entry.category }], all)
        else (outer, all)

/-- The final variables in sight that a text refers to, outermost scope first and in order of
declaration within a scope. -/
def captures (body : Body) (sight : Sight) (text : List Char) : List Capture :=
  (captureFrom (referencedNames text) []
    ((body.chain sight.scope).flatMap (body.visibleVariables sight.visible))).1

/-! ## Names of types -/

/-- The stem of a type's name: dots of the base type become underscores. -/
def liftedStem (baseType : String) : String :=
  Limits.liftedStem ++ String.ofList (baseType.toList.map fun c => if c == '.' then '_' else c)

/-- The name of the type made from the `count`-th class body with a stem. -/
def liftedName (stem : String) (count : Nat) : String :=
  if count ≤ 1 then stem else stem ++ "_" ++ toString count

/-- Make types from the remaining sites; `stems` are those used so far. -/
def liftFrom (body : Body) (stems : List String) : List Site → List Lifted
  | [] => []
  | site :: rest =>
      let stem := liftedStem site.baseType
      let lifted : Lifted :=
        { name := liftedName stem (stems.count stem + 1)
          baseType := site.baseType
          body := site.body
          captures := body.captures site.call.sight site.body.toList
          call := site.call }
      lifted :: liftFrom body (stem :: stems) rest

/-- The body with a type made from each anonymous class body. -/
def lift (body : Body) : Body :=
  { body with lifted := (liftFrom body [] body.sites.toList).toArray }

end Body
end MethodLowering
