import FuzzFrontend.Scan.Lexeme

/-!
Names of generators. A standard generator has `std:` before its own name; programs and generator
files both keep it as part of the name.
-/
namespace FuzzFrontend.GeneratorName

/-- What marks a standard generator. -/
def standard : List Char :=
  ['s', 't', 'd', ':']

/-- The name of the standard generator with the given own name. -/
def ofOwn (own : String) : String :=
  String.ofList standard ++ own

/-- The own name of a standard generator. -/
def ofStandard? (name : String) : Option String :=
  (Scan.after? standard name.toList).map String.ofList

theorem ofStandard?_ofOwn (own : String) : ofStandard? (ofOwn own) = some own := by
  have h : Scan.after? standard (ofOwn own).toList = some own.toList := by
    simp [Scan.after?_eq_some_iff, ofOwn]
  simp [ofStandard?, h]

/-- The name without its mark. -/
def plain (name : String) : String :=
  (ofStandard? name).getD name

end FuzzFrontend.GeneratorName
