import FuzzFrontend.Program.Grammar.Phases
import FuzzFrontend.Scan.Limits

/-!
Reading programs from sources, under limits on the size of the source and on its nesting.
-/
namespace FuzzFrontend.Program

open Scan

/-- Call stack frames that one level of a program takes. -/
def framesPerLevel : Int := 4

/-- Limits with the nesting cut to what the call stack holds. -/
def clamped (l : Limits) : Limits :=
  { l with nesting := clampDepth l.nesting 50 framesPerLevel }

/-- The program that a source spells. -/
def read (source : String) (limits : Limits := {}) : Except ReadError Program :=
  match limits.sizeError? "ProgramParser" source with
  | some e => .error e
  | none =>
    (Grammar.program { limit := (clamped limits).nesting } (.ofList source.toList)).mapError
      (Fault.locate (Cursor.ofString source))

end FuzzFrontend.Program
