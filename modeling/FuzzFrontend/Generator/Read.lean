import FuzzFrontend.Generator.Grammar
import FuzzFrontend.Scan.Limits

/-!
Reading generators from sources, under limits on the size of the source and on its nesting.
-/
namespace FuzzFrontend.Generator

open Scan

/-- The generators that a source spells. -/
def read (source : String) (precedence : Precedence := .flat) (limits : Limits := {}) :
    Except ReadError (List Generator) :=
  match limits.sizeError? "GeneratorParser" source with
  | some e => .error e
  | none =>
    (Grammar.generators precedence { limit := limits.nesting } [] (.ofList source.toList)).mapError
      (Fault.locate (Cursor.ofString source))

end FuzzFrontend.Generator
