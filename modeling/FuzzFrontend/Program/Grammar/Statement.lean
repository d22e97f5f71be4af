import FuzzFrontend.Program.Grammar.Expression

/-!
Reading statements. A statement ends where its last expression ends; nothing separates it from the
next one. Blocks hold statements, so the rules take the rule for these as an argument, on texts
shorter than the statement they stand in.
-/
namespace FuzzFrontend.Program.Grammar

open Scan

/-- Statements in braces. The depth is checked first. -/
def block {n : Nat} (stmt : Inner Stmt n) (nesting : Nesting) (s : Input) (h : s.length ≤ n) :
    Except Fault (Parsed (List Stmt) s.length) :=
  match nesting.enter s with
  | .error e => .error e
  | .ok nested =>
    match (symbol '{') s with
    | .error e => .error e
    | .ok p =>
      let item := fun t (ht : t.length < s.length) => stmt nested t (Nat.lt_of_lt_of_le ht h)
      itemsUntilBrace item [] p.rest p.rest_lt

def condition (nesting : Nesting) : Rule Expr :=
  (symbol '(').andThen fun _ => Rule.followedBy (expr nesting) (symbol ')')

/-- What follows `if` or `while`: a condition and a block. -/
def conditional {n : Nat} (form : Expr → List Stmt → Stmt) (stmt : Inner Stmt n)
    (nesting : Nesting) (s : Input) (h : s.length ≤ n) :
    Except Fault (Parsed Stmt s.length) :=
  match condition nesting s with
  | .error e => .error e
  | .ok p =>
    (block stmt nesting p.rest (Nat.le_trans p.rest_le h)).map fun q =>
      (q.map (form p.value)).relax p.rest_le

/-- An expression, or an assignment if a single equals sign follows it. -/
def simple (nesting : Nesting) : Rule Stmt := fun s =>
  match expr nesting s with
  | .error e => .error e
  | .ok p =>
    if ['=', '='].isPrefixOf p.rest.skipBlanks.ahead then .ok (p.map .bare)
    else
      match symbol? '=' p.rest with
      | none => .ok (p.map .bare)
      | some eq =>
        (expr nesting eq.rest).map fun q =>
          (q.map (.assign p.value)).relax (Nat.le_of_lt (Nat.lt_trans eq.shorter p.shorter))

/-- One statement of the kind that its first word tells. -/
def stmtWith (s : Input) (stmt : Inner Stmt s.length) (nesting : Nesting) :
    Except Fault (Parsed Stmt s.length) :=
  match keyword? "verify:new" s with
  | some k =>
    (expr nesting k.rest).map fun p => (p.map .verify).relax k.rest_le
  | none =>
    match keyword? "constraint:new" s with
    | some k =>
      (expr nesting k.rest).map fun p => (p.map .constrain).relax k.rest_le
    | none =>
      match keyword? "if" s with
      | some k =>
        (conditional .branch stmt nesting k.rest k.rest_le).map (·.relax k.rest_le)
      | none =>
        match keyword? "while" s with
        | some k =>
          (conditional .loop stmt nesting k.rest k.rest_le).map (·.relax k.rest_le)
        | none => simple nesting s

def stmt (nesting : Nesting) (s : Input) : Except Fault (Parsed Stmt s.length) :=
  stmtWith s (fun nested t _ => stmt nested t) nesting
termination_by s.length

def singleBlock (nesting : Nesting) : Rule (List Stmt) := fun s =>
  block (fun nested t _ => stmt nested t) nesting s s.length_le_self

end FuzzFrontend.Program.Grammar
