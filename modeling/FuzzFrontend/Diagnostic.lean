import FuzzFrontend.Source.Span

/-!
Diagnostics: a coded message with the place it is about, what was found there, what would have been
accepted, and a hint.
-/
namespace FuzzFrontend

namespace Diagnostic

/-- The kinds of problem, each with a number. The thousands tell the stage: three for grammar, four
for types and constants, five for resolution, six for limits. -/
inductive Code
  | unexpectedEnd
  | unexpectedToken
  | reservedWord
  | emptyGenerator
  | nestingTooDeep
  | outOfOrder
  | unknownType
  | constantOutOfRange
  | constantMalformed
  | unsupportedConstantType
  | unresolvedStruct
  | unresolvedEnum
  | duplicateType
  | traversalTooDeep
  deriving DecidableEq

namespace Code

def name : Code → String
  | unexpectedEnd => "UNEXPECTED_EOF"
  | unexpectedToken => "UNEXPECTED_TOKEN"
  | reservedWord => "RESERVED_WORD"
  | emptyGenerator => "EMPTY_GENERATOR"
  | nestingTooDeep => "PARSE_NESTING_DEPTH_EXCEEDED"
  | outOfOrder => "DECLARATION_OUT_OF_ORDER"
  | unknownType => "UNKNOWN_TYPE"
  | constantOutOfRange => "CONSTANT_OUT_OF_RANGE"
  | constantMalformed => "CONSTANT_MALFORMED"
  | unsupportedConstantType => "UNSUPPORTED_CONSTANT_TYPE"
  | unresolvedStruct => "UNRESOLVED_STRUCT"
  | unresolvedEnum => "UNRESOLVED_ENUM"
  | duplicateType => "DUPLICATE_TYPE"
  | traversalTooDeep => "MAX_DEPTH_EXCEEDED"

def number : Code → Nat
  | unexpectedEnd => 3001
  | unexpectedToken => 3002
  | reservedWord => 3003
  | emptyGenerator => 3004
  | nestingTooDeep => 3005
  | outOfOrder => 3006
  | unknownType => 4001
  | constantOutOfRange => 4002
  | constantMalformed => 4003
  | unsupportedConstantType => 4004
  | unresolvedStruct => 5001
  | unresolvedEnum => 5002
  | duplicateType => 5003
  | traversalTooDeep => 6001

def all : List Code :=
  [unexpectedEnd, unexpectedToken, reservedWord, emptyGenerator, nestingTooDeep, outOfOrder,
    unknownType, constantOutOfRange, constantMalformed, unsupportedConstantType, unresolvedStruct,
    unresolvedEnum, duplicateType, traversalTooDeep]

def ofName? (name : String) : Option Code :=
  all.find? (·.name == name)

end Code

/-- How bad a problem is, in a word. Any word may be given; two have a meaning. -/
structure Severity where
  name : String
  deriving DecidableEq

/-- The severity of a problem that stops the work. -/
def Severity.error : Severity :=
  ⟨"error"⟩

/-- The severity of a problem that does not. -/
def Severity.warning : Severity :=
  ⟨"warning"⟩

end Diagnostic

/-- A coded message about a problem. -/
structure Diagnostic where
  code : Diagnostic.Code
  message : String
  span : Option Span := none
  hint : Option String := none
  found : Option String := none
  expected : List String := []
  severity : Diagnostic.Severity := .error
  deriving DecidableEq

end FuzzFrontend
