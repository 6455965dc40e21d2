import SilFront.Token.Basic

/-!
# Types

Variables, arguments and package fields have a scalar type or are records of a package. A function
returns a scalar or nothing.
-/

namespace SilFront

/-- The scalar types. -/
inductive ScalarType where
  | byte
  | int
  | float
deriving DecidableEq, Repr

namespace ScalarType

/-- The spelling of a scalar type. -/
def text : ScalarType → String
  | .byte => "byte"
  | .int => "int"
  | .float => "float"

/-- The scalar type that a token names. -/
def ofToken? : Token → Option ScalarType
  | .keyword .byte => some .byte
  | .keyword .int => some .int
  | .keyword .float => some .float
  | _ => none

end ScalarType

/-- The types of variables, arguments and package fields. -/
inductive DataType where
  | scalar (type : ScalarType)
  | record (package : String)
deriving DecidableEq, Repr

/-- The spelling of a type. -/
def DataType.text : DataType → String
  | .scalar type => type.text
  | .record package => package

/-- The types of function results. -/
inductive ReturnType where
  | scalar (type : ScalarType)
  | void
deriving DecidableEq, Repr

namespace ReturnType

/-- The spelling of a return type. -/
def text : ReturnType → String
  | .scalar type => type.text
  | .void => "void"

/-- The return type that a token names. -/
def ofToken? : Token → Option ReturnType
  | .keyword .void => some .void
  | token => (ScalarType.ofToken? token).map .scalar

end ReturnType

end SilFront
