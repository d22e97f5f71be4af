import FuzzFrontend.Program.Grammar.Declaration
import FuzzFrontend.Program.Grammar.Statement

/-!
Whole programs. Declarations are read phase by phase; after them every item is a statement, and a
declaration that comes late is refused.
-/
namespace FuzzFrontend.Program.Grammar

open Scan

/-- The words that start declarations, each with the phase of the declaration. -/
def declarationKeywords : List (String × Phase) :=
  [("#include", .headers), ("struct", .types), ("enum", .types), ("typedef", .types),
    ("var:free", .vars), ("var:constrained", .vars), ("function:decl", .functions)]

/-- The fault of a declaration of an earlier phase than the one reached, if the text starts one. -/
def lateDeclaration? (reached : Phase) (s : Input) : Option Fault :=
  let late : String × Phase → Bool := fun (text, phase) =>
    (keyword? text s).isSome && phase.rank < reached.rank
  (declarationKeywords.find? late).map fun (text, phase) =>
    .problem s.skipBlanks (.outOfOrder text phase.singular reached.plural) []

/-- A header, declined when none starts here. -/
def header? : OptionalRule Declaration := fun s =>
  if (keyword? "#include" s).isSome then some (header s) else none

/-- Statements up to the end of the text. Those read so far are given last first. -/
def stmts (nesting : Nesting) (reached : Phase) (found : List Stmt) (s : Input) :
    Except Fault (List Stmt) :=
  if s.skipBlanks.chars.isEmpty then .ok found.reverse
  else
    match lateDeclaration? reached s with
    | some e => .error e
    | none =>
      match stmt nesting s with
      | .error e => .error e
      | .ok p => stmts nesting .statements (p.value :: found) p.rest
termination_by s.length
decreasing_by exact p.shorter

/-- The phase that a declaration block leads to: its own, if there is anything in it. -/
def reachedBy (found : List Declaration) (phase otherwise : Phase) : Phase :=
  if found.isEmpty then otherwise else phase

/-- All of a text as a program. -/
def program (nesting : Nesting) (s : Input) : Except Fault Program := do
  let headers ← many header? [] s (Nat.lt_succ_self _)
  let types ← many typeDeclaration? [] headers.rest (Nat.lt_succ_self _)
  let vars ← many variableDeclaration? [] types.rest (Nat.lt_succ_self _)
  let functions ← many functionDeclaration? [] vars.rest (Nat.lt_succ_self _)
  let reached := reachedBy functions.value .functions
    (reachedBy vars.value .vars (reachedBy types.value .types .headers))
  let statements ← stmts nesting reached [] functions.rest
  return ⟨headers.value ++ types.value ++ vars.value ++ functions.value, statements⟩

end FuzzFrontend.Program.Grammar
