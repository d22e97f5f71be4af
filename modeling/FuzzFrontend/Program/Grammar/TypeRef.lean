import FuzzFrontend.Program.Grammar.Name

/-!
Reading type references. A pointer to a named type sees only the name, so its target is a forward
placeholder.
-/
namespace FuzzFrontend.Program.Grammar

open Scan

/-- What a type reference may start with. -/
def typeExprStarts : List String :=
  ["builtin type", "'struct'", "'enum'", "'pointer'"]

/-- The scalar type at the head of the input, if there is one. -/
def scalar? (s : Input) : Option (Parsed Scalar s.length) :=
  match identifier s with
  | .error _ => none
  | .ok p => (Scalar.ofSpelling? p.value).map fun kind => p.map fun _ => kind

def scalar : Rule Scalar := fun s =>
  match scalar? s with
  | some p => .ok p
  | none => .error (.unexpected s.skipBlanks ["builtin type"])

/-- A type reference: a scalar type, a named struct or enum, or a pointer to one of these. -/
def typeExpr (s : Input) : Except Fault (Parsed TypeExpr s.length) :=
  match keyword? "struct" s with
  | some k => (name k.rest).map fun p => (p.map .structNamed).relax k.rest_le
  | none =>
    match keyword? "enum" s with
    | some k => (name k.rest).map fun p => (p.map .enumNamed).relax k.rest_le
    | none =>
      match keyword? "pointer" s with
      | some k =>
        match typeExpr k.rest with
        | .error e => .error e
        | .ok p =>
          .ok ((p.map fun ty => .known (.pointer ty.target)).relax k.rest_le)
      | none =>
        match scalar? s with
        | some p => .ok (p.map fun kind => .known (.scalar kind))
        | none => .error (.unexpected s.skipBlanks typeExprStarts)
termination_by s.length
decreasing_by exact k.shorter

def typeRef : Rule TypeExpr :=
  typeExpr

end FuzzFrontend.Program.Grammar
