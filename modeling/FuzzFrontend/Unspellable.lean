import FuzzFrontend.Depth
import FuzzFrontend.Program
import FuzzFrontend.Tree

/-!
What has no spelling. Neither language has brackets for grouping and both name types only by
reference, so some trees built by hand cannot be written; the reason is told by its cause.
-/
namespace FuzzFrontend

/-- Why a program or a generator has no spelling. -/
inductive Unspellable
  | badName (name place : String)
  | headerSpansLines (path : String)
  | headerDelimiter (path : String) (style : HeaderStyle)
  | integerLiteral (text : String)
  | decimalLiteral (text : String)
  | latePhase (kind : Kind)
  | fieldForm (field struct : String)
  | inlineDefinition (name : String)
  | typeReference (ty : Ty)
  | leftOperand (inner outer : BinaryOp)
  | rightOperand (inner outer : BinaryOp)
  | badGeneratorName (name : String)
  | typeToken (ty : Ty)
  | textConstant (content token : String)
  | leftState (inner outer : BinaryOp) (precedence : Precedence)
  | rightState (inner outer : BinaryOp) (precedence : Precedence)

namespace Unspellable

/-- An operand that would need brackets. -/
def operand (side : String) (inner outer : BinaryOp) : String :=
  side ++ " operand '" ++ inner.symbol ++ "' of '" ++ outer.symbol ++ "' needs parentheses"

def message : Unspellable → String
  | badName name place => "Invalid identifier " ++ Text.quoted name ++ " in " ++ place
  | headerSpansLines path => "Include path " ++ Text.quoted path ++ " spans lines"
  | headerDelimiter path .quoted => "Local include path " ++ Text.quoted path ++ " contains '\"'"
  | headerDelimiter path .angled => "System include path " ++ Text.quoted path ++ " contains '>'"
  | integerLiteral text => "Invalid integer literal " ++ Text.quoted text
  | decimalLiteral text => "Invalid float literal " ++ Text.quoted text
  | latePhase kind =>
    kind.name ++ " declaration after a later phase; " ++
      "order must be includes, types, variables, functions"
  | fieldForm field struct =>
    "Field '" ++ field ++ "' of struct '" ++ struct ++ "' has no field spelling"
  | inlineDefinition name =>
    "Inline definition of '" ++ name ++ "' is not allowed in a type reference"
  | typeReference ty => "Type " ++ ty.describe ++ " has no type-reference spelling"
  | leftOperand inner outer => operand "Left" inner outer ++ ", which the program language lacks"
  | rightOperand inner outer => operand "Right" inner outer ++ ", which the program language lacks"
  | badGeneratorName name => "Invalid generator name " ++ Text.quoted name
  | typeToken ty => "Type " ++ ty.describe ++ " has no generator type token"
  | textConstant content token =>
    "String constant " ++ Text.quoted content ++ " has no spelling; only " ++ Text.quoted token
  | leftState inner outer precedence =>
    operand "Left" inner outer ++ " under " ++ precedence.name ++ " precedence"
  | rightState inner outer precedence =>
    operand "Right" inner outer ++ " under " ++ precedence.name ++ " precedence"

end Unspellable

/-- Why writing stops. -/
inductive WriteError
  | unspellable (reason : Unspellable)
  | tooDeep (error : DepthExceeded)

/-- One level deeper while writing. -/
def DepthGuard.enterToWrite (g : DepthGuard) : Except WriteError DepthGuard :=
  g.enter.mapError .tooDeep

end FuzzFrontend
