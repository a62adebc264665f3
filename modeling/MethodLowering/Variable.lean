import MethodLowering.TypeName

/-!
# Variables

Parameters, locals and fields as look-ups find them.
-/

namespace MethodLowering

/-- Number of a paragraph, in order of creation; zero is the method body. -/
abbrev ParagraphId := Nat

/-- Number of a construct, in order of creation. -/
abbrev ConstructId := Nat

/-- Number of a variable, in order of declaration. -/
abbrev VariableId := Nat

/-- Where a variable comes from. -/
inductive VariableOrigin where
  /-- Declared in the body. -/
  | body
  /-- Parameter of the method. -/
  | parameter
  /-- Field of the innermost class, or of one around it when `outer`. -/
  | field (outer : Bool)
deriving DecidableEq, Repr

/-- A named value. -/
structure Variable where
  name : String
  /-- Declared type, as written. -/
  typeName : String
  /-- Category of the declared type. -/
  category : Category
  isFinal : Bool
  isStatic : Bool
  origin : VariableOrigin
  /-- Paragraph that declares it; fields have none. -/
  scope : Option ParagraphId
deriving DecidableEq, Repr

namespace Variable

/-- The variable with its category taken from its type. -/
def ofType (extra : List String) (name typeName : String) (isFinal isStatic : Bool)
    (origin : VariableOrigin) (scope : Option ParagraphId) : Variable :=
  { name, typeName, isFinal, isStatic, origin, scope
    category := TypeName.classify extra typeName.toList }

/-- The same variable with another type. -/
def withType (entry : Variable) (extra : List String) (typeName : String) : Variable :=
  ofType extra entry.name typeName entry.isFinal entry.isStatic entry.origin
    entry.scope

/-- The type has array dimensions. -/
def isArray (entry : Variable) : Bool :=
  TypeName.dimensions entry.typeName.toList != 0

/-- Parameters and fields are not declared in the block that uses them. -/
def isOutsideBlock (entry : Variable) : Bool :=
  match entry.origin with
  | .body => false
  | .parameter | .field _ => true

/-- A parameter of the method. -/
def isParameter (entry : Variable) : Bool := entry.origin == .parameter

/-- A field of some enclosing class. -/
def isField (entry : Variable) : Bool :=
  match entry.origin with
  | .field _ => true
  | .body | .parameter => false

/-- A field of a class around the innermost one. -/
def isOuterField (entry : Variable) : Bool := entry.origin == .field true

end Variable
end MethodLowering
