import MethodLowering.Body.Basic
import MethodLowering.Limits

/-!
# Reported types

The user types a body mentions, each once, in the order in which they are met.  Type arguments are
reported in front of the type they belong to.
-/

namespace MethodLowering

/-- Names without repetition, in the order in which they came. -/
structure TypeReport where
  names : Array String := #[]
deriving DecidableEq, Repr

namespace TypeReport

/-- The name is reported. -/
def contains (report : TypeReport) (name : String) : Bool := report.names.contains name

/-- Report a name; a second time changes nothing. -/
def add (report : TypeReport) (name : String) : TypeReport :=
  if report.contains name then report else ⟨report.names.push name⟩

/-- Number of names. -/
def size (report : TypeReport) : Nat := report.names.size

/-- Nothing is reported. -/
def isEmpty (report : TypeReport) : Bool := report.names.isEmpty

/-- The names in order. -/
def toList (report : TypeReport) : List String := report.names.toList

end TypeReport

namespace Body

/-- A type without its dimensions and without the wildcard mark and bound in front of it. -/
def bareType (name : List Char) : List Char :=
  let element := Text.trimStart ((TypeName.element name).dropWhile (· == '?'))
  if "extends ".toList.isPrefixOf element then Text.trim (element.drop 8)
  else if "super ".toList.isPrefixOf element then Text.trim (element.drop 6)
  else Text.trim element

/-- The name needs a declaration of its own: it is a user type, no container, not made from a class
body, and no enclosing class. -/
def isUnseen (body : Body) (base : List Char) : Bool :=
  TypeName.isReportable base && !Limits.liftedStem.toList.isPrefixOf base &&
    !TypeName.isContainer body.extraContainers base &&
    (body.context.classDepth? (String.ofList base)).isNone

/-- The names a type mentions that need a declaration, arguments first; at most `nesting` levels of
type arguments are entered. -/
def mentionedFrom (body : Body) : Nat → List Char → List String
  | 0, _ => []
  | nesting + 1, name =>
      let bare := bareType name
      let base := TypeName.base bare
      (TypeName.arguments bare).flatMap (body.mentionedFrom nesting) ++
        if body.isUnseen base then [String.ofList base] else []

/-- The names a type mentions that need a declaration, arguments first.  Arguments are shorter than
the type, so its length bounds their nesting. -/
def mentionedTypes (body : Body) (name : List Char) : List String :=
  body.mentionedFrom (name.length + 1) name

end Body
end MethodLowering
