import FuzzFrontend.Program
import FuzzFrontend.Scan.Rule

/-!
Names in programs: words that are not reserved.
-/
namespace FuzzFrontend.Program.Grammar

open Scan

/-- The words that no variable, field, type or function may have as its name. -/
def reservedWords : List String :=
  ["struct", "enum", "pointer", "typedef", "if", "while"] ++ Scalar.spellings

/-- The whole text can be a name. -/
def isName (text : String) : Bool :=
  isWord text.toList && !reservedWords.contains text

/-- A word that is not reserved, after blanks. -/
def name : Rule String := fun s =>
  match identifier s with
  | .error e => .error e
  | .ok p =>
    if p.value ∈ reservedWords then
      .error (.problem s.skipBlanks (.reservedWord p.value) ["identifier"])
    else .ok p

end FuzzFrontend.Program.Grammar
