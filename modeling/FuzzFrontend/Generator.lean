import FuzzFrontend.Operator
import FuzzFrontend.Ty
import FuzzFrontend.Word

/-!
Generators: named producers of typed values. A generator has at least one state, and a state is
arithmetic over constants, the bounds of a type, and random values between bounds.
-/
namespace FuzzFrontend

/-- Constants of 64 bits, and text. -/
inductive Constant
  | signed (value : Int) (inRange : Word.IsSigned value)
  | unsigned (value : Nat) (inRange : Word.IsUnsigned value)
  | text (content : String)

/-- Why a generator or a part of it cannot be built. -/
inductive BuildFault
  | signedRange (value : Int)
  | unsignedRange (value : Int)
  | notArithmetic (op : BinaryOp)
  | noStates (name : String)
  deriving DecidableEq

def BuildFault.message : BuildFault → String
  | .signedRange value => "Signed constant " ++ Text.integer value ++ " is outside the i64 range"
  | .unsignedRange value =>
    "Unsigned constant " ++ Text.integer value ++ " is outside the u64 range"
  | .notArithmetic op =>
    "Operator '" ++ op.symbol ++ "' is not a generator arithmetic operator"
  | .noStates name => "Generator '" ++ name ++ "' must have at least one state"

namespace Constant

def ofSigned (value : Int) : Except BuildFault Constant :=
  if h : Word.IsSigned value then .ok (.signed value h) else .error (.signedRange value)

def ofUnsigned (value : Int) : Except BuildFault Constant :=
  if h : Word.IsUnsigned value then .ok (.unsigned value.toNat (by omega))
  else .error (.unsignedRange value)

/-- The last 64 bits of an integer in two's complement, as an unsigned constant. -/
def wrap (value : Int) : Constant :=
  .unsigned (value % 0x10000000000000000).toNat (by omega)

/-- Why a type has no constant of a given value. -/
inductive Fault
  | unsupported (typeName : String)
  | build (fault : BuildFault)
  deriving DecidableEq

/-- The constant of a type that an integer stands for: itself in a signed type, its last 64 bits in
an unsigned one. -/
def forType (ty : Ty) (value : Int) : Except Fault Constant :=
  match ty with
  | .scalar kind =>
    if kind.isSigned then (ofSigned value).mapError .build
    else if kind.isUnsigned then .ok (wrap value)
    else .error (.unsupported ty.name)
  | _ => .error (.unsupported ty.name)

end Constant

abbrev ArithmeticOp : Type :=
  { op : BinaryOp // op.isArithmetic = true }

/-- Values that a state draws. -/
inductive GenExpr
  | constant (value : Constant)
  | least (ty : Ty)
  | greatest (ty : Ty)
  | random (ty : Ty) (low high : GenExpr)
  | compound (left : GenExpr) (op : ArithmeticOp) (right : GenExpr)

def GenExpr.rootOp? : GenExpr → Option BinaryOp
  | .compound _ op _ => some op.val
  | _ => none

/-- A compound, if its operator is arithmetic. -/
def GenExpr.ofOperands (left : GenExpr) (op : BinaryOp) (right : GenExpr) :
    Except BuildFault GenExpr :=
  if h : op.isArithmetic = true then .ok (.compound left ⟨op, h⟩ right)
  else .error (.notArithmetic op)

/-- A generator. Its name keeps its `std:`, so that it is the name that programs use. -/
structure Generator where
  resultType : Ty
  name : String
  states : List GenExpr
  states_ne_nil : states ≠ []

def Generator.ofStates (resultType : Ty) (name : String) (states : List GenExpr) :
    Except BuildFault Generator :=
  if h : states = [] then .error (.noStates name) else .ok ⟨resultType, name, states, h⟩

end FuzzFrontend
