import FuzzFrontend.Depth
import FuzzFrontend.Scan.Fault

/-!
Limits on what a reader accepts.
-/
namespace FuzzFrontend.Scan

/-- The limits of a reader. -/
structure Limits where
  /-- The greatest number of characters in a source; any number if it is not positive. -/
  sourceSize : Int := 10 * 1024 * 1024
  /-- The greatest nesting. -/
  nesting : Int := defaultDepth

/-- The fault of a source that is too large, if it is. -/
def Limits.sizeError? (l : Limits) (reader : String) (source : String) : Option ReadError :=
  if 0 < l.sourceSize ∧ l.sourceSize < source.length then
    some (.tooLarge ⟨reader, source.length, l.sourceSize⟩)
  else none

end FuzzFrontend.Scan
