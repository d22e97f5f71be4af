import FuzzFrontend.Scalar
import FuzzFrontend.Text.Quoted
import FuzzFrontend.Text.Decimal

/-!
Types shared by both languages. A named type is either defined, with all its members, or a forward
placeholder of which only the name is known; the two are different types even when the defined one
is empty.
-/
namespace FuzzFrontend

/-- A named constant of an enumeration. -/
structure EnumValue where
  name : String
  value : Int
  deriving DecidableEq

mutual

inductive Ty
  | scalar (kind : Scalar)
  | pointer (target : Ty)
  | struct (name : String) (members : List Member) (forward : Bool)
  | enum (name : String) (values : List EnumValue) (forward : Bool)

/-- A named member of a struct type. -/
inductive Member
  | mk (name : String) (ty : Ty)

end

namespace Ty

/-- The name of the type, with a star for each pointer. -/
def name : Ty → String
  | scalar kind => kind.spelling
  | pointer target => target.name ++ "*"
  | struct name _ _ => "struct " ++ name
  | enum name _ _ => "enum " ++ name

/-- What a chain of pointers ends in. -/
def pointee : Ty → Ty
  | pointer target => target.pointee
  | ty => ty

/-- How many pointers are followed to get there. -/
def indirections : Ty → Nat
  | pointer target => target.indirections + 1
  | _ => 0

/-- Items in round brackets. A single item is followed by a comma. -/
def bracketed : List String → String
  | [] => "()"
  | [item] => "(" ++ item ++ ",)"
  | items => "(" ++ ", ".intercalate items ++ ")"

/-- A truth value with a capital. -/
def truth (b : Bool) : String :=
  if b then "True" else "False"

end Ty

def EnumValue.describe (v : EnumValue) : String :=
  "EnumValue(name=" ++ Text.quoted v.name ++ ", value=" ++ Text.integer v.value ++ ")"

mutual

/-- A type with all its parts, for messages about types that cannot be written. -/
def Ty.describe : Ty → String
  | .scalar kind =>
    "Builtin(native=<Native." ++ kind.label ++ ": " ++ Text.quoted kind.spelling ++ ">)"
  | .pointer target => "Pointer(target=" ++ target.describe ++ ")"
  | .struct name members forward =>
    "Struct(name=" ++ Text.quoted name ++ ", fields=" ++
      Ty.bracketed (Member.describeAll members) ++ ", forward=" ++ Ty.truth forward ++ ")"
  | .enum name values forward =>
    "Enum(name=" ++ Text.quoted name ++ ", values=" ++
      Ty.bracketed (values.map EnumValue.describe) ++ ", forward=" ++ Ty.truth forward ++ ")"

def Member.describeAll : List Member → List String
  | [] => []
  | .mk name ty :: rest =>
    ("StructField(name=" ++ Text.quoted name ++ ", ty=" ++ ty.describe ++ ")") ::
      Member.describeAll rest

end

end FuzzFrontend
