/-!
# Value categories

What kind of value an expression yields.  The category decides the target form of an access, a
comparison or an assignment.
-/

namespace MethodLowering

/-- Kind of value an expression yields. -/
inductive Category where
  /-- The receiver: `this` or `super`. -/
  | thisReference
  /-- A freshly constructed object. -/
  | rawPointer
  /-- A variable or field that holds an object through a smart handle. -/
  | ownedValue
  /-- Nothing narrower is known. -/
  | commonExpression
  | array
  | primitive
  | container
  | text
  /-- A name that stands for no value: a type or a static scope. -/
  | none
deriving DecidableEq, Repr

namespace Category

/-- Name of the category in results. -/
def name : Category → String
  | thisReference => "ThisReference"
  | rawPointer => "RawPointer"
  | ownedValue => "OwnedValue"
  | commonExpression => "CommonExpression"
  | array => "Array"
  | primitive => "Primitive"
  | container => "Container"
  | text => "Text"
  | none => "None"

/-- Members are reached through a pointer. -/
def isPointerLike : Category → Bool
  | thisReference | rawPointer | ownedValue => true
  | _ => false

/-- The receiver and fresh objects are plain pointers. -/
def isRawPointer : Category → Bool
  | thisReference | rawPointer => true
  | _ => false

/-- Values that own their storage and can be emptied. -/
def isValueCollection : Category → Bool
  | container | array | text => true
  | _ => false

end Category
end MethodLowering
