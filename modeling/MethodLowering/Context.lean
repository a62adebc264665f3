import MethodLowering.Json.Reader

/-!
# Method contexts

What is known about a method before its body is read: its parameters, and the fields and methods of
the classes around it, the innermost class first.
-/

namespace MethodLowering

/-- A parameter of the method. -/
structure Parameter where
  name : String
  typeName : String
  isFinal : Bool := false
deriving DecidableEq, Repr

/-- A field of an enclosing class. -/
structure Field where
  name : String
  typeName : String
  isStatic : Bool := false
  isFinal : Bool := false
deriving DecidableEq, Repr

/-- A method of an enclosing class. -/
structure Method where
  name : String
  returnType : String
  parameterCount : Nat := 0
  isStatic : Bool := false
deriving DecidableEq, Repr

/-- An enclosing class. -/
structure Class where
  name : String
  fields : List Field := []
  methods : List Method := []
deriving DecidableEq, Repr

/-- Everything known about a method besides its body. -/
structure Context where
  /-- Name of the method. -/
  name : String := ""
  parameters : List Parameter := []
  /-- Enclosing classes, innermost first. -/
  classes : List Class := []
  isStatic : Bool := false
deriving DecidableEq, Repr

namespace Class

/-- The class with one more field, neither static nor final. -/
def withField (type : Class) (name typeName : String) : Class :=
  { type with fields := type.fields ++ [{ name, typeName }] }

/-- The class with one more method, not static. -/
def withMethod (type : Class) (name returnType : String) (parameterCount : Nat) : Class :=
  { type with methods := type.methods ++ [{ name, returnType, parameterCount }] }

/-- The first field of that name. -/
def field? (type : Class) (name : String) : Option Field :=
  type.fields.find? fun field => field.name == name

/-- The first method of that name and number of parameters, or else the first of that name. -/
def method? (type : Class) (name : String) (arguments : Nat) : Option Method :=
  (type.methods.find? fun method => method.name == name && method.parameterCount == arguments).or
    (type.methods.find? fun method => method.name == name)

end Class

namespace Context

/-- The context with one more parameter. -/
def withParameter (context : Context) (name typeName : String) : Context :=
  { context with parameters := context.parameters ++ [{ name, typeName }] }

/-- The context with one more class around the others. -/
def withClass (context : Context) (type : Class) : Context :=
  { context with classes := context.classes ++ [type] }

/-- Depth of the enclosing class of that name; zero is the innermost. -/
def classDepth? (context : Context) (name : String) : Option Nat :=
  context.classes.findIdx? fun type => type.name == name

/-- The innermost field of that name in the given classes, with the depth of its class. -/
def fieldFrom? (name : String) : Nat → List Class → Option (Nat × Field)
  | _, [] => none
  | depth, type :: rest =>
      match type.field? name with
      | some field => some (depth, field)
      | none => fieldFrom? name (depth + 1) rest

/-- The innermost field of that name, with the depth of its class. -/
def field? (context : Context) (name : String) : Option (Nat × Field) :=
  fieldFrom? name 0 context.classes

/-- The innermost method of that name from class `depth` outwards. -/
def method? (context : Context) (depth : Nat) (name : String) (arguments : Nat) : Option Method :=
  (context.classes.drop depth).findSome? fun type => type.method? name arguments

/-! ## Documents -/

/-- A parameter in a document. -/
def parameterOfJson? (document : Json) : Option Parameter := do
  match ← document.fields? ["name", "typeName", "isFinal"] with
  | [name, typeName, isFinal] =>
      return {
        name := ← Json.required Json.asText? name
        typeName := ← Json.required Json.asText? typeName
        isFinal := ← Json.optional Json.asBool? false isFinal }
  | _ => none

/-- A field in a document. -/
def fieldOfJson? (document : Json) : Option Field := do
  match ← document.fields? ["name", "typeName", "isStatic", "isFinal"] with
  | [name, typeName, isStatic, isFinal] =>
      return {
        name := ← Json.required Json.asText? name
        typeName := ← Json.required Json.asText? typeName
        isStatic := ← Json.optional Json.asBool? false isStatic
        isFinal := ← Json.optional Json.asBool? false isFinal }
  | _ => none

/-- A method in a document. -/
def methodOfJson? (document : Json) : Option Method := do
  match ← document.fields? ["name", "returnType", "parameterCount", "isStatic"] with
  | [name, returnType, parameterCount, isStatic] =>
      return {
        name := ← Json.required Json.asText? name
        returnType := ← Json.required Json.asText? returnType
        parameterCount := ← Json.optional Json.asCount? 0 parameterCount
        isStatic := ← Json.optional Json.asBool? false isStatic }
  | _ => none

/-- A class in a document. -/
def classOfJson? (document : Json) : Option Class := do
  match ← document.fields? ["name", "fields", "methods"] with
  | [name, fields, methods] =>
      return {
        name := ← Json.required Json.asText? name
        fields := ← Json.optional (Json.list? fieldOfJson?) [] fields
        methods := ← Json.optional (Json.list? methodOfJson?) [] methods }
  | _ => none

/-- The context a document describes. -/
def ofJson? (document : Json) : Option Context := do
  match ← document.fields? ["name", "parameters", "classes", "isStatic"] with
  | [name, parameters, classes, isStatic] =>
      return {
        name := ← Json.optional Json.asText? "" name
        parameters := ← Json.optional (Json.list? parameterOfJson?) [] parameters
        classes := ← Json.optional (Json.list? classOfJson?) [] classes
        isStatic := ← Json.optional Json.asBool? false isStatic }
  | _ => none

/-- The context a JSON text describes. -/
def ofText? (text : String) : Option Context := (Json.ofText? text).bind ofJson?

/-- The document of a parameter. -/
def parameterToJson (parameter : Parameter) : Json :=
  .record [("name", .text parameter.name), ("typeName", .text parameter.typeName),
    ("isFinal", .bool parameter.isFinal)]

/-- The document of a field. -/
def fieldToJson (field : Field) : Json :=
  .record [("name", .text field.name), ("typeName", .text field.typeName),
    ("isStatic", .bool field.isStatic), ("isFinal", .bool field.isFinal)]

/-- The document of a method. -/
def methodToJson (method : Method) : Json :=
  .record [("name", .text method.name), ("returnType", .text method.returnType),
    ("parameterCount", .nat method.parameterCount), ("isStatic", .bool method.isStatic)]

/-- The document of a class. -/
def classToJson (type : Class) : Json :=
  .record [("name", .text type.name), ("fields", .array (type.fields.map fieldToJson)),
    ("methods", .array (type.methods.map methodToJson))]

/-- The document of a context, with every field written. -/
def toJson (context : Context) : Json :=
  .record [("name", .text context.name),
    ("parameters", .array (context.parameters.map parameterToJson)),
    ("classes", .array (context.classes.map classToJson)), ("isStatic", .bool context.isStatic)]

end Context
end MethodLowering
