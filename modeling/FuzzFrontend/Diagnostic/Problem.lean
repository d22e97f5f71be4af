import FuzzFrontend.Diagnostic
import FuzzFrontend.Text.Quoted

/-!
The catalogue of problems. A problem is told by its cause; the words, the code, the hint and what
else a diagnostic shows are all read off the cause here.
-/
namespace FuzzFrontend

/-- What can be wrong with a text, a type or a tree. -/
inductive Problem
  /-- The text ended while something was still open. -/
  | unexpectedEnd (expected : List String)
  /-- A lexeme that cannot stand where it stands. -/
  | unexpectedToken (found : String) (expected : List String) (hint : Option String)
  /-- A reserved word in the place of a name. -/
  | reservedWord (word : String)
  /-- A generator without states. -/
  | emptyGenerator (name : String)
  /-- Blocks, calls or bounds nested beyond the limit. -/
  | nestingTooDeep (limit : Int)
  /-- A declaration after a later phase has begun. -/
  | outOfOrder (keyword phase reached : String)
  /-- A type name that is none. -/
  | unknownType (name : String)
  /-- An integer literal beyond 64 bits. -/
  | constantOutOfRange (text : String)
  /-- An integer literal that runs into other characters. -/
  | constantMalformed (text : String)
  /-- A constant of a type that has none. -/
  | unsupportedConstantType (typeName : String)
  /-- A struct name without a definition. -/
  | unresolvedStruct (name : String)
  /-- An enum name without a definition. -/
  | unresolvedEnum (name : String)
  /-- A type name that is defined already. -/
  | duplicateType (name : String)
  /-- A tree deeper than the traversal limit. -/
  | traversalTooDeep (limit : Int)
  deriving DecidableEq

namespace Problem

/-- The families of problems that a caller tells apart. -/
inductive Category
  | grammar
  | unknownType
  | constantValue
  | unsupportedConstant
  | unresolvedType
  | duplicateType
  | tooDeep
  deriving DecidableEq

/-- The family of each cause, when a reader or a traversal comes upon it. -/
def category : Problem → Category
  | unexpectedEnd _ => .grammar
  | unexpectedToken _ _ _ => .grammar
  | reservedWord _ => .grammar
  | emptyGenerator _ => .grammar
  | nestingTooDeep _ => .grammar
  | outOfOrder _ _ _ => .grammar
  | unknownType _ => .unknownType
  | constantOutOfRange _ => .constantValue
  | constantMalformed _ => .constantValue
  | unsupportedConstantType _ => .unsupportedConstant
  | unresolvedStruct _ => .unresolvedType
  | unresolvedEnum _ => .unresolvedType
  | duplicateType _ => .duplicateType
  | traversalTooDeep _ => .tooDeep

def code : Problem → Diagnostic.Code
  | unexpectedEnd _ => .unexpectedEnd
  | unexpectedToken _ _ _ => .unexpectedToken
  | reservedWord _ => .reservedWord
  | emptyGenerator _ => .emptyGenerator
  | nestingTooDeep _ => .nestingTooDeep
  | outOfOrder _ _ _ => .outOfOrder
  | unknownType _ => .unknownType
  | constantOutOfRange _ => .constantOutOfRange
  | constantMalformed _ => .constantMalformed
  | unsupportedConstantType _ => .unsupportedConstantType
  | unresolvedStruct _ => .unresolvedStruct
  | unresolvedEnum _ => .unresolvedEnum
  | duplicateType _ => .duplicateType
  | traversalTooDeep _ => .traversalTooDeep

/-- What was expected, as a choice, or the given words when nothing was named. -/
def choice (expected : List String) (otherwise : String) : String :=
  if expected.isEmpty then otherwise else " or ".intercalate expected

/-- Found text as a message shows it. -/
def shown (found : String) : String :=
  if found.isEmpty then "nothing" else Text.quoted found

def message : Problem → String
  | unexpectedEnd expected =>
    "Unexpected end of input, expected " ++ choice expected "more input"
  | unexpectedToken found expected _ =>
    "Expected " ++ choice expected "a different token" ++ ", found " ++ shown found
  | reservedWord word => "'" ++ word ++ "' is a reserved word and cannot be used as an identifier"
  | emptyGenerator name => "Generator '" ++ name ++ "' must declare at least one state"
  | nestingTooDeep limit => "Maximum nesting depth (" ++ Text.integer limit ++ ") exceeded"
  | outOfOrder keyword phase reached =>
    "'" ++ keyword ++ "' starts a " ++ phase ++ " but " ++ reached ++ " have already begun"
  | unknownType name => "Unknown type '" ++ name ++ "'"
  | constantOutOfRange text => "Integer literal '" ++ text ++ "' does not fit in 64 bits"
  | constantMalformed text => "Malformed integer literal '" ++ text ++ "'"
  | unsupportedConstantType typeName =>
    "Cannot build an integer constant of type '" ++ typeName ++ "'"
  | unresolvedStruct name => "Struct '" ++ name ++ "' is referenced but never defined"
  | unresolvedEnum name => "Enum '" ++ name ++ "' is referenced but never defined"
  | duplicateType name => "Type '" ++ name ++ "' is declared more than once"
  | traversalTooDeep limit => "Maximum traversal depth (" ++ Text.integer limit ++ ") exceeded"

def hint : Problem → Option String
  | unexpectedEnd _ => some "Check for unclosed braces or incomplete declarations"
  | unexpectedToken _ _ hint => hint
  | reservedWord _ => some "Rename the variable, field or function"
  | emptyGenerator _ => some "Add one or more 'state <expression>' lines"
  | nestingTooDeep _ => some "Flatten nested blocks or raise max_nesting_depth"
  | outOfOrder _ _ _ =>
    some "Order declarations as includes, types, variables, functions, then statements"
  | unknownType _ => some "Valid generator types are I8, I16, I32, I64, U8, U16, U32, U64"
  | constantOutOfRange _ =>
    some "Literals must lie in [-9223372036854775808, 9223372036854775807]"
  | constantMalformed _ => none
  | unsupportedConstantType _ => some "Constants need a signed or unsigned integer type"
  | unresolvedStruct name => some ("Declare 'struct " ++ name ++ " \x7b ... \x7d' before use")
  | unresolvedEnum name => some ("Declare 'enum " ++ name ++ " \x7b ... \x7d' before use")
  | duplicateType _ => none
  | traversalTooDeep _ =>
    some "The AST is nested too deeply; check for programmatic construction errors"

/-- The text that each cause is about, if it is about text. -/
def found : Problem → Option String
  | unexpectedEnd _ => none
  | unexpectedToken found _ _ => some found
  | reservedWord word => some word
  | emptyGenerator _ => none
  | nestingTooDeep _ => none
  | outOfOrder keyword _ _ => some keyword
  | unknownType name => some name
  | constantOutOfRange text => some text
  | constantMalformed text => some text
  | unsupportedConstantType typeName => some typeName
  | unresolvedStruct name => some name
  | unresolvedEnum name => some name
  | duplicateType name => some name
  | traversalTooDeep _ => none

def expected : Problem → List String
  | unexpectedEnd expected => expected
  | unexpectedToken _ expected _ => expected
  | reservedWord _ => ["identifier"]
  | emptyGenerator _ => ["state"]
  | constantMalformed _ => ["digits"]
  | _ => []

/-- The diagnostic of a problem at a place, or at none. -/
def diagnostic (p : Problem) (span : Option Span) : Diagnostic :=
  { code := p.code
    message := p.message
    span := span
    hint := p.hint
    found := p.found
    expected := p.expected }

end Problem

end FuzzFrontend
