import FuzzFrontend.Diagnostic.Problem
import FuzzFrontend.Generator
import FuzzFrontend.Source.Excerpt

/-!
Why reading stops. While a text is read a fault holds what was left to read; afterwards it is
located in the whole source, by the length of what was left.
-/
namespace FuzzFrontend.Scan

/-- Why a rule did not go on. -/
inductive Fault
  /-- A problem at the head of `rest`. The rule would have gone on with one of `wanted`. -/
  | problem (rest : Input) (what : Problem) (wanted : List String)
  /-- A numeral that stands for no number. -/
  | numeral (fault : Text.NumeralFault)
  /-- A constant that its type does not have. -/
  | constant (fault : Constant.Fault)
  deriving DecidableEq

namespace Fault

/-- The input has an unwanted lexeme at its head, or none. -/
def unexpected (rest : Input) (wanted : List String) (hint : Option String := none) : Fault :=
  match rest.chars with
  | [] => .problem rest (.unexpectedEnd wanted) wanted
  | _ :: _ =>
    .problem rest (.unexpectedToken (String.ofList rest.offending) wanted hint) wanted

end Fault

/-- A problem with its place in the source. -/
structure Located where
  what : Problem
  span : Span
  cursor : Cursor
  wanted : List String

namespace Located

/-- The coded message. -/
def diagnostic (l : Located) : Diagnostic :=
  l.what.diagnostic (some l.span)

/-- The message with the source around its place. -/
def sourceError (l : Located) : SourceError :=
  { message := l.what.message, cursor := l.cursor, expected := l.wanted }

end Located

/-- Said of a source that is larger than its reader allows. -/
structure SizeExceeded where
  reader : String
  size : Nat
  limit : Int
  deriving DecidableEq

/-- The wording, with both sizes in groups of three digits. -/
def SizeExceeded.message (e : SizeExceeded) : String :=
  "Source size (" ++ Text.groupedInteger e.size ++ " characters) exceeds maximum (" ++
    Text.groupedInteger e.limit ++ "). Configure max_source_size in " ++ e.reader ++
    " constructor to increase limit."

/-- Why a source could not be read. -/
inductive ReadError
  | tooLarge (error : SizeExceeded)
  | located (error : Located)
  | badSpan (fault : Span.Fault)
  | numeral (fault : Text.NumeralFault)
  | constant (fault : Constant.Fault)

/-- The family of the problem that stopped the reading, if it was a coded one. -/
def ReadError.category : ReadError → Option Problem.Category
  | .located error => some error.what.category
  | .constant (.unsupported _) => some .unsupportedConstant
  | _ => none

/-- The fault of a rule that was run at a cursor, located in the source. The span of a problem
covers the text that the problem is about, if it is about text. -/
def Fault.locate (c : Cursor) : Fault → ReadError
  | .problem rest what wanted =>
    let place := c.reaching rest
    let width := (what.found.getD "").length
    match place.spanTo (place.pos + width) with
    | .ok span => .located { what := what, span := span, cursor := place, wanted := wanted }
    | .error fault => .badSpan fault
  | .numeral fault => .numeral fault
  | .constant fault => .constant fault

end FuzzFrontend.Scan
