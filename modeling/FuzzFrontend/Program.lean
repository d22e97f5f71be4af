import FuzzFrontend.Operator
import FuzzFrontend.Ty

/-!
Fuzz programs: declarations of headers, types, variables and functions, and the statements that
exercise them.
-/
namespace FuzzFrontend

mutual

/-- What a declaration writes for a type. -/
inductive TypeExpr
  /-- A type known in full, or a pointer to one known by name. -/
  | known (ty : Ty)
  /-- A definition in the place of a reference. -/
  | inline (definition : Definition)
  | structNamed (name : String)
  | enumNamed (name : String)

/-- A struct or enum with its parts. -/
inductive Definition
  | struct (name : String) (fields : List Field)
  | enum (name : String) (values : List EnumValue)

/-- A field of a struct definition. A field of a named struct or enum type has the name of that type
as its own name, and its type reference holds the name of the field. -/
inductive Field
  | mk (name : String) (ty : TypeExpr)

end

namespace Definition

def name : Definition → String
  | struct name _ => name
  | enum name _ => name

end Definition

/-- What a pointer to the type points to. Of a named type only the name is known then. -/
def TypeExpr.target : TypeExpr → Ty
  | .known ty => ty
  | .structNamed name => .struct name [] true
  | .enumNamed name => .enum name [] true
  | .inline (.struct name _) => .struct name [] true
  | .inline (.enum name _) => .enum name [] true

/-- How the path of a header is delimited. -/
inductive HeaderStyle
  | quoted
  | angled
  deriving DecidableEq

namespace HeaderStyle

def all : List HeaderStyle :=
  [quoted, angled]

def name : HeaderStyle → String
  | quoted => "local"
  | angled => "system"

def ofName (text : String) : Except UnknownName HeaderStyle :=
  choose "IncludeKind" all name text

def opening : HeaderStyle → Char
  | quoted => '"'
  | angled => '<'

def closing : HeaderStyle → Char
  | quoted => '"'
  | angled => '>'

end HeaderStyle

/-- A variable whose values a generator draws. The generator's name keeps its `std:`. -/
structure FreeVariable where
  name : String
  generator : String
  ty : TypeExpr

structure Signature where
  name : String
  result : TypeExpr
  parameters : List TypeExpr

inductive Declaration
  | header (path : String) (style : HeaderStyle)
  | typedef (source : TypeExpr) (name : String)
  | define (definition : Definition)
  | free (decl : FreeVariable)
  | constrained (name : String) (ty : TypeExpr)
  | function (signature : Signature)

/-- Expressions. Literals keep their text. -/
inductive Expr
  | integer (text : String)
  | decimal (text : String)
  | var (op : UnaryOp) (name : String)
  | call (name : String) (arguments : List Expr)
  | compound (left : Expr) (op : BinaryOp) (right : Expr)
  | field (object member : String)

def Expr.rootOp? : Expr → Option BinaryOp
  | .compound _ op _ => some op
  | _ => none

inductive Stmt
  | bare (expr : Expr)
  | assign (target value : Expr)
  | verify (expr : Expr)
  | constrain (expr : Expr)
  | branch (condition : Expr) (body : List Stmt)
  | loop (condition : Expr) (body : List Stmt)

/-- A program: its declarations, then its statements. -/
structure Program where
  declarations : List Declaration
  statements : List Stmt

/-- The five parts of a program, in their order. -/
inductive Phase
  | headers
  | types
  | vars
  | functions
  | statements
  deriving DecidableEq

namespace Phase

/-- The place of a phase in the order. -/
def rank : Phase → Nat
  | headers => 0
  | types => 1
  | vars => 2
  | functions => 3
  | statements => 4

def singular : Phase → String
  | headers => "include"
  | types => "type declaration"
  | vars => "variable declaration"
  | functions => "function declaration"
  | statements => "statement"

def plural : Phase → String
  | headers => "includes"
  | types => "type declarations"
  | vars => "variable declarations"
  | functions => "function declarations"
  | statements => "statements"

end Phase

def Declaration.phase : Declaration → Phase
  | .header _ _ => .headers
  | .define _ => .types
  | .typedef _ _ => .types
  | .free _ => .vars
  | .constrained _ _ => .vars
  | .function _ => .functions

end FuzzFrontend
