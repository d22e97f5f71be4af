import FuzzFrontend.Program.Grammar.Name
import FuzzFrontend.Program.Write

/-!
Lexical checks before a program is written: every name is a word that is not reserved, every literal
is a number, and no header path spans lines. The last statement is checked first, and in each
statement the last part.
-/
namespace FuzzFrontend

namespace Unspellable

/-- A name must be one that the grammar reads. -/
def checkName (name place : String) : Except Unspellable Unit :=
  if Program.Grammar.isName name then .ok () else .error (.badName name place)

/-- What a declaration with a name is called in messages about its parts. -/
def place (word name : String) : String :=
  word ++ " '" ++ name ++ "'"

end Unspellable

open Unspellable (checkName place)

/-- The names in a type reference. -/
def TypeExpr.check (place : String) : TypeExpr → Except Unspellable Unit
  | .structNamed name => checkName name place
  | .enumNamed name => checkName name place
  | .known ty =>
    match ty.pointee with
    | .struct name _ _ => checkName name place
    | .enum name _ _ => checkName name place
    | _ => .ok ()
  | .inline _ => .ok ()

/-- The names in a declaration. -/
def Declaration.check : Declaration → Except Unspellable Unit
  | header path _ =>
    if '\n' ∈ path.toList then .error (.headerSpansLines path) else .ok ()
  | typedef source name => do
    checkName name "typedef"
    source.check (place "typedef" name)
  | define (.struct name fields) => do
    checkName name "struct declaration"
    fields.forM fun
      | .mk field ty => do
        checkName field (place "struct" name)
        ty.check (place "struct" name)
  | define (.enum name values) => do
    checkName name "enum declaration"
    values.forM fun v => checkName v.name (place "enum" name)
  | free decl => do
    checkName decl.name "var:free"
    checkName (GeneratorName.plain decl.generator) (place "var:free" decl.name)
    decl.ty.check (place "var:free" decl.name)
  | constrained name ty => do
    checkName name "var:constrained"
    ty.check (place "var:constrained" name)
  | function signature => do
    checkName signature.name "function:decl"
    signature.result.check (place "function" signature.name)
    signature.parameters.forM (TypeExpr.check (place "function" signature.name))

namespace Expr

mutual

/-- The names and literals in an expression, last part first. -/
def check : Expr → Except Unspellable Unit
  | integer text => if Scan.isInteger text.toList then .ok () else .error (.integerLiteral text)
  | decimal text => if Scan.isDecimal text.toList then .ok () else .error (.decimalLiteral text)
  | var _ name => checkName name "variable reference"
  | field object member => do
    checkName object "field access"
    checkName member "field access"
  | call name arguments => do
    checkName name "function:call"
    checkAll arguments
  | compound left _ right => do
    right.check
    left.check

def checkAll : List Expr → Except Unspellable Unit
  | [] => .ok ()
  | e :: rest => do
    checkAll rest
    e.check

end

end Expr

namespace Stmt

mutual

/-- The names and literals in a statement, last part first. -/
def check : Stmt → Except Unspellable Unit
  | bare expr => expr.check
  | assign target value => do
    value.check
    target.check
  | verify expr => expr.check
  | constrain expr => expr.check
  | branch condition body => do
    checkAll body
    condition.check
  | loop condition body => do
    checkAll body
    condition.check

def checkAll : List Stmt → Except Unspellable Unit
  | [] => .ok ()
  | s :: rest => do
    checkAll rest
    s.check

end

end Stmt

namespace Program

/-- Every lexical check of a program: the declarations in order, then the statements. -/
def check (p : Program) : Except Unspellable Unit := do
  p.declarations.forM Declaration.check
  Stmt.checkAll p.statements

/-- The spelling of a program, with or without the lexical checks. -/
def write (p : Program) (validate : Bool := false) (maxDepth : Option Int := none) :
    Except WriteError String := do
  if validate then p.check.mapError .unspellable
  let declarations ← Declaration.writeAll .headers p.declarations
  let statements ← Stmt.writeAll (.ofRequest maxDepth) "" p.statements
  return declarations ++ statements

end Program

end FuzzFrontend
