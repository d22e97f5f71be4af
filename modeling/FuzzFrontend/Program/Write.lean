import FuzzFrontend.GeneratorName
import FuzzFrontend.Program.Outline
import FuzzFrontend.Unspellable

/-!
Writing programs, without a look at their names and literals. Unary operators are written as
keywords, so that none is taken for a binary one.
-/
namespace FuzzFrontend

/-- The spelling of a unary operator before its variable. -/
def UnaryOp.spelling : UnaryOp → String
  | .plain => ""
  | op => op.keyword ++ " "

/-- The spelling of a type known in full. A named type is spelled only behind a pointer, and only
as a placeholder. -/
def Ty.write (ty : Ty) : Except WriteError String :=
  let pointers := String.join (List.replicate ty.indirections "pointer ")
  let refused := Except.error (WriteError.unspellable (.typeReference ty.pointee))
  match ty.pointee with
  | .scalar kind => .ok (pointers ++ kind.spelling)
  | .struct name _ true =>
    if ty.indirections = 0 then refused else .ok (pointers ++ "struct " ++ name)
  | .enum name _ true =>
    if ty.indirections = 0 then refused else .ok (pointers ++ "enum " ++ name)
  | _ => refused

def TypeExpr.write : TypeExpr → Except WriteError String
  | .structNamed name => .ok ("struct " ++ name)
  | .enumNamed name => .ok ("enum " ++ name)
  | .known ty => ty.write
  | .inline definition => .error (.unspellable (.inlineDefinition definition.name))

/-- The spelling of a field of the given struct, without its semicolon. -/
def Field.write (struct : String) : Field → Except WriteError String
  | .mk name (.known (.scalar kind)) => .ok (kind.spelling ++ " " ++ name)
  | .mk name (.known (.pointer (.scalar kind))) =>
    .ok ("pointer " ++ kind.spelling ++ " " ++ name)
  | .mk name (.structNamed reference) => .ok ("struct " ++ name ++ " " ++ reference)
  | .mk name (.enumNamed reference) => .ok ("enum " ++ name ++ " " ++ reference)
  | .mk name _ => .error (.unspellable (.fieldForm name struct))

/-- The spelling of an entry of an enum. The value is always written. -/
def EnumValue.write (v : EnumValue) : String :=
  v.name ++ " = " ++ Text.integer v.value ++ ","

/-- The spelling of a definition. The fields of a struct stand on lines of their own. -/
def Definition.write : Definition → Except WriteError String
  | .struct name [] => .ok ("struct " ++ name ++ " \x7b \x7d")
  | .struct name fields => do
    let lines ← fields.mapM (Field.write name)
    let body := lines.map fun line => "    " ++ line ++ ";\n"
    return "struct " ++ name ++ " \x7b\n" ++ String.join body ++ "\x7d"
  | .enum name values =>
    let entries := values.map fun v => " " ++ v.write
    .ok ("enum " ++ name ++ " \x7b" ++ String.join entries ++ " \x7d")

/-- The spelling of the name of a generator, with the mark of a standard one as a keyword. -/
def GeneratorName.write (name : String) : String :=
  match ofStandard? name with
  | some own => "gen:std: " ++ own
  | none => "gen: " ++ name

namespace Declaration

def write : Declaration → Except WriteError String
  | header path style =>
    if style.closing ∈ path.toList then .error (.unspellable (.headerDelimiter path style))
    else
      .ok ("#include " ++ String.singleton style.opening ++ path ++ String.singleton style.closing)
  | typedef source name => do
    return "typedef " ++ (← source.write) ++ " " ++ name ++ ";"
  | define definition => definition.write
  | free decl => do
    let ty ← decl.ty.write
    return "var:free " ++ decl.name ++ " " ++ GeneratorName.write decl.generator ++ " " ++ ty
  | constrained name ty => do
    return "var:constrained " ++ name ++ " " ++ (← ty.write)
  | function signature => do
    let result ← signature.result.write
    let parameters ← signature.parameters.mapM TypeExpr.write
    let entries := parameters.map fun ty => " " ++ ty ++ ","
    return "function:decl " ++ signature.name ++ " " ++ result ++ " \x7b" ++
      String.join entries ++ " \x7d"

/-- Declarations, each ending its line, none of a phase before the one reached. -/
def writeAll (reached : Phase) : List Declaration → Except WriteError String
  | [] => .ok ""
  | d :: rest => do
    if d.phase.rank < reached.rank then throw (.unspellable (.latePhase d.kind))
    let text ← d.write
    return text ++ "\n" ++ (← writeAll d.phase rest)

end Declaration

namespace Expr

/-- A left operand may not bind looser than its operator. -/
def leftFault? (op : BinaryOp) (left : Expr) : Option Unspellable :=
  match left.rootOp? with
  | some inner => if inner.level < op.level then some (.leftOperand inner op) else none
  | none => none

/-- A right operand must bind tighter than its operator. -/
def rightFault? (op : BinaryOp) (right : Expr) : Option Unspellable :=
  match right.rootOp? with
  | some inner => if inner.level ≤ op.level then some (.rightOperand inner op) else none
  | none => none

/-- The first operand of a chain, from its root down, that would need brackets. -/
def bracketFault? : Expr → Option Unspellable
  | compound left op right =>
    ((leftFault? op left).or (rightFault? op right)).or left.bracketFault?
  | _ => none

mutual

/-- An expression. A chain enters the guard once, at its root; `inChain` says that the expression is
the left operand of one. -/
def write (g : DepthGuard) (inChain : Bool) : Expr → Except WriteError String
  | integer text => .ok text
  | decimal text => .ok text
  | var op name => .ok (op.spelling ++ name)
  | field object member => .ok (object ++ "." ++ member)
  | call name arguments => do
    let inner ← g.enterToWrite
    return "function:call " ++ name ++ " \x7b" ++ (← writeAll inner arguments) ++ " \x7d"
  | compound left op right => do
    let inner ←
      if inChain then pure g
      else
        match bracketFault? (compound left op right) with
        | some reason => throw (.unspellable reason)
        | none => g.enterToWrite
    let leftText ← left.write inner true
    let rightText ← right.write inner false
    return leftText ++ " " ++ op.symbol ++ " " ++ rightText

/-- Arguments, with a space before each. -/
def writeAll (g : DepthGuard) : List Expr → Except WriteError String
  | [] => .ok ""
  | e :: rest => do
    let text ← e.write g false
    return " " ++ text ++ (← writeAll g rest)

end

end Expr

namespace Stmt

mutual

/-- A statement on lines of its own, each after the given indent. -/
def write (g : DepthGuard) (indent : String) : Stmt → Except WriteError String
  | bare expr => do
    return indent ++ (← expr.write g false) ++ "\n"
  | assign target value => do
    let left ← target.write g false
    let right ← value.write g false
    return indent ++ left ++ " = " ++ right ++ "\n"
  | verify expr => do
    return indent ++ "verify:new " ++ (← expr.write g false) ++ "\n"
  | constrain expr => do
    return indent ++ "constraint:new " ++ (← expr.write g false) ++ "\n"
  | branch condition body => do
    let test ← condition.write g false
    return indent ++ "if ( " ++ test ++ " )" ++ (← writeBody g indent body) ++ "\n"
  | loop condition body => do
    let test ← condition.write g false
    return indent ++ "while ( " ++ test ++ " )" ++ (← writeBody g indent body) ++ "\n"

/-- A body in braces. Only a body with statements enters the guard. -/
def writeBody (g : DepthGuard) (indent : String) : List Stmt → Except WriteError String
  | [] => .ok " \x7b \x7d"
  | s :: rest => do
    let inner ← g.enterToWrite
    let first ← s.write inner (indent ++ "    ")
    let others ← writeAll inner (indent ++ "    ") rest
    return " \x7b\n" ++ first ++ others ++ indent ++ "\x7d"

def writeAll (g : DepthGuard) (indent : String) : List Stmt → Except WriteError String
  | [] => .ok ""
  | s :: rest => do
    let text ← s.write g indent
    return text ++ (← writeAll g indent rest)

end

end Stmt

end FuzzFrontend
