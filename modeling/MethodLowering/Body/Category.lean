import MethodLowering.Body.Basic

/-!
# Categories of expressions

The category of the value an expression yields, and its declared type where one is known.  Both
follow the tree; names are looked up with the sight of the statement.  No answer is kept: what is
read later does not change it.
-/

namespace MethodLowering

/-- How the member of an access is used, with the place of its name. -/
inductive Member where
  | field (node : Node)
  | call (node : Node) (arguments : Nat)
  | indexed (node : Node)
deriving DecidableEq, Repr

namespace Member

/-- The place of the name and the use of a member, where the expression is one. -/
def ofExpr? : Expr → Option Member
  | .leaf node .identifier => some (.field node)
  | .call _ (.leaf node .identifier) arguments => some (.call node arguments.length)
  | .index _ (.leaf node .identifier) _ _ => some (.indexed node)
  | _ => none

/-- The name of a member. -/
def name : Member → String
  | field node | call node _ | indexed node => Text.trimmed node.text

end Member

namespace Body

/-! ## Tables -/

/-- Methods of text that give text. -/
def textMethods : List String :=
  ["substring", "trim", "toLowerCase", "toUpperCase", "replace", "replaceAll", "concat", "valueOf",
    "format", "intern", "toString"]

/-- Methods of text that give a primitive. -/
def textPrimitiveMethods : List String :=
  ["length", "indexOf", "lastIndexOf", "charAt", "equals", "equalsIgnoreCase", "compareTo",
    "isEmpty", "startsWith", "endsWith", "contains", "hashCode", "matches"]

/-- Methods of containers that give a primitive. -/
def containerPrimitiveMethods : List String :=
  ["size", "isEmpty", "contains", "containsKey", "containsValue", "indexOf", "length"]

/-! ## Steps -/

/-- The category of a result of a type. -/
def classify (body : Body) (typeName : String) : Category :=
  TypeName.classifyResult body.extraContainers typeName.toList

/-- The type with `count` dimensions fewer, down to none. -/
def indexedType (typeName : String) (count : Nat) : String :=
  let (element, dimensions) := TypeName.strip typeName.toList
  TypeName.addDimensions (String.ofList element) (dimensions - count)

/-- The category of an element after `count` indices. -/
def elementCategory (body : Body) (typeName : String) (count : Nat) : Category :=
  if TypeName.dimensions typeName.toList == 0 then .commonExpression
  else body.classify (indexedType typeName count)

/-- The enclosing class whose members a subject has, by depth. -/
def classScope? (body : Body) (sight : Sight) : Expr → Option Nat
  | .leaf node .receiver => some (if Text.trimmed node.text == "super" then 1 else 0)
  | .leaf node .identifier =>
      let name := Text.trimmed node.text
      match body.lookupAt sight name with
      | some entry => body.context.classDepth? entry.typeName
      | none => body.context.classDepth? name
  | .access _ subject member =>
      if member.isReceiver then body.context.classDepth? subject.trimmedText else none
  | _ => none

/-- The class at a depth. -/
def classAt (body : Body) (depth : Nat) : Except Fault Class :=
  match body.context.classes[depth]? with
  | some type => .ok type
  | none => .error (.noClass depth)

/-- The category of a member of an enclosing class, where the class declares it. -/
def classMemberCategory? (body : Body) (depth : Nat) (member : Member) :
    Except Fault (Option Category) := do
  let type ← body.classAt depth
  return match member with
    | .field _ => (type.field? member.name).map fun field => body.classify field.typeName
    | .indexed _ =>
        (type.field? member.name).map fun field => body.elementCategory field.typeName 1
    | .call _ arguments =>
        (body.context.method? depth member.name arguments).map fun method =>
          body.classify method.returnType

/-- The category of a member by its subject and the category of that. -/
def memberCategory (subject : Expr) (category : Category) (member : Member) : Category :=
  match member with
  | .field _ =>
      if category == .array && member.name == "length" then .primitive else .commonExpression
  | .call _ _ =>
      let name := member.name
      if name == "toString" then .text
      else if category == .text || subject.isSpelled TypeName.textType then
        if textMethods.contains name then .text
        else if textPrimitiveMethods.contains name then .primitive
        else .commonExpression
      else if category == .container && containerPrimitiveMethods.contains name then .primitive
      else .commonExpression
  | .indexed _ => .commonExpression

/-- The category of a call that is no member of anything. -/
def callCategory (body : Body) (callee : Expr) (arguments : Nat) : Category :=
  if callee.isConstruction then .rawPointer
  else if callee.isIdentifier then
    match body.context.method? 0 callee.trimmedText arguments with
    | some method => body.classify method.returnType
    | none => .commonExpression
  else .commonExpression

/-! ## Declared types -/

/-- The declared type of the value an expression names, where one is known. -/
def declaredType (body : Body) (sight : Sight) : Expr → Except Fault (Option String)
  | .declaration _ declared _ => .ok (body.vars[declared]?.map (·.typeName))
  | .leaf node .identifier =>
      .ok ((body.lookupAt sight (Text.trimmed node.text)).map (·.typeName))
  | .leaf _ (.construction typeName) => .ok (some typeName)
  | .cast _ typeName _ => .ok (some typeName)
  | .assignment _ _ target _ => body.declaredType sight target
  | .group _ false [inner] => body.declaredType sight inner
  | .access _ subject member =>
      match body.classScope? sight subject, Member.ofExpr? member with
      | some depth, some (.field node) => do
          let type ← body.classAt depth
          return (type.field? (Member.field node).name).map (·.typeName)
      | _, _ => .ok none
  | .index _ target indices _ => do
      match ← body.declaredType sight target with
      | none => return none
      | some typeName =>
          if target.isConstruction then
            let (element, dimensions) := TypeName.strip typeName.toList
            return some
              (TypeName.addDimensions (String.ofList element) (dimensions + indices.length))
          else return some (indexedType typeName indices.length)
  | _ => .ok none

/-! ## Categories -/

/-- The category of an indexed expression. -/
def indexCategory (body : Body) (sight : Sight) (target : Expr) (count : Nat) :
    Except Fault Category :=
  if target.isAbsent || target.isConstruction then .ok .array
  else do
    match ← body.declaredType sight target with
    | some typeName => return body.elementCategory typeName count
    | none => return .commonExpression

/-- The category of the value an expression yields. -/
def category (body : Body) (sight : Sight) : Expr → Except Fault Category
  | .absent => .ok .none
  | .leaf node form =>
      .ok <| match form with
        | .literal => (TypeName.literalCategory? node.text.toList).getD .commonExpression
        | .null | .verbatim => .commonExpression
        | .receiver => .thisReference
        | .construction _ => .rawPointer
        | .identifier =>
            match body.lookupAt sight (Text.trimmed node.text) with
            | some entry => entry.category
            | none => .none
  | .declaration _ declared _ =>
      .ok <| match body.vars[declared]? with
        | some entry => entry.category
        | none => .none
  | .operation _ op left right =>
      if op.isPredicate then .ok .primitive
      else
        match op, right with
        | .plus, right => do
            if (← body.category sight left) == .text then return .text
            if (← body.category sight right) == .text then return .text
            return .primitive
        | .question, .operation _ .colon first _ => body.category sight first
        | .question, _ => .ok .commonExpression
        | .colon, _ => body.category sight left
        | .comma, right => body.category sight right
        | _, _ => .ok .primitive
  | .assignment _ _ target _ => body.category sight target
  | .typeTest .. => .ok .primitive
  | .access _ subject member =>
      match Member.ofExpr? member with
      | none => body.category sight member
      | some named => do
          let declared ←
            match body.classScope? sight subject with
            | some depth => body.classMemberCategory? depth named
            | none => .ok none
          match declared with
          | some category => return category
          | none => return memberCategory subject (← body.category sight subject) named
  | .group _ false [inner] => body.category sight inner
  | .group .. => .ok .commonExpression
  | .cast _ typeName _ => .ok (body.classify typeName)
  | .call _ callee arguments => .ok (body.callCategory callee arguments.length)
  | .index _ target indices _ => body.indexCategory sight target indices.length

end Body
end MethodLowering
