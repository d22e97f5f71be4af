import FuzzFrontend.Program
import FuzzFrontend.Tree

/-!
Programs and types as labelled trees. The slots of a node come in the order in which its parts are
declared, and nothing of a program is left out.
-/
namespace FuzzFrontend

namespace EnumValue

def toTree (v : EnumValue) : Tree :=
  .node .enumValue [("name", .text v.name), ("value", .text (Text.integer v.value))] []

end EnumValue

mutual

def Ty.toTree : Ty → Tree
  | .scalar kind => .node .scalar [("native", .text kind.spelling)] []
  | .pointer target => .node .pointer [] [.one "target" target.toTree]
  | .struct name members forward =>
    .node .struct [("name", .text name), ("forward", .flag forward)]
      [.many "fields" (Member.toTrees members)]
  | .enum name values forward =>
    .node .enum [("name", .text name), ("forward", .flag forward)]
      [.many "values" (values.map EnumValue.toTree)]

def Member.toTrees : List Member → List Tree
  | [] => []
  | .mk name ty :: rest =>
    .node .member [("name", .text name)] [.one "ty" ty.toTree] :: Member.toTrees rest

end

def Member.toTree : Member → Tree
  | .mk name ty => .node .member [("name", .text name)] [.one "ty" ty.toTree]

mutual

def TypeExpr.toTree : TypeExpr → Tree
  | .known ty => .node .known [] [.one "ty" ty.toTree]
  | .inline definition => definition.toTree
  | .structNamed name => .node .structNamed [("name", .text name)] []
  | .enumNamed name => .node .enumNamed [("name", .text name)] []

def Definition.toTree : Definition → Tree
  | .struct name fields =>
    .node .structDefinition [("name", .text name)] [.many "fields" (Field.toTrees fields)]
  | .enum name values =>
    .node .enumDefinition [("name", .text name)] [.many "values" (values.map EnumValue.toTree)]

def Field.toTrees : List Field → List Tree
  | [] => []
  | .mk name ty :: rest =>
    .node .field [("name", .text name)] [.one "ty" ty.toTree] :: Field.toTrees rest

end

def Field.toTree : Field → Tree
  | .mk name ty => .node .field [("name", .text name)] [.one "ty" ty.toTree]

def FreeVariable.toTree (v : FreeVariable) : Tree :=
  .node .freeVariable [("name", .text v.name), ("genname", .text v.generator)]
    [.one "ty" v.ty.toTree]

def Signature.toTree (s : Signature) : Tree :=
  .node .signature [("name", .text s.name)]
    [.one "retval" s.result.toTree, .many "parameters" (s.parameters.map TypeExpr.toTree)]

/-- The kind of node that a declaration is. -/
def Declaration.kind : Declaration → Kind
  | .header _ _ => .header
  | .typedef _ _ => .typedef
  | .define _ => .definition
  | .free _ => .free
  | .constrained _ _ => .constrained
  | .function _ => .function

def Declaration.toTree : Declaration → Tree
  | .header path style => .node .header [("path", .text path), ("kind", .text style.name)] []
  | .typedef source name => .node .typedef [("name", .text name)] [.one "source" source.toTree]
  | .define definition => .node .definition [] [.one "ty" definition.toTree]
  | .free decl => .node .free [] [.one "var" decl.toTree]
  | .constrained name ty => .node .constrained [("name", .text name)] [.one "ty" ty.toTree]
  | .function signature => .node .function [] [.one "func" signature.toTree]

theorem Declaration.kind_toTree (d : Declaration) : d.toTree.kind = d.kind := by
  cases d <;> rfl

mutual

def Expr.toTree : Expr → Tree
  | .integer text => .node .integer [("text", .text text)] []
  | .decimal text => .node .decimal [("text", .text text)] []
  | .var op name => .node .var [("op", .text op.keyword), ("name", .text name)] []
  | .call name arguments =>
    .node .call [("name", .text name)] [.many "arguments" (Expr.toTrees arguments)]
  | .compound left op right =>
    .node .compound [("op", .text op.symbol)]
      [.one "left" left.toTree, .one "right" right.toTree]
  | .field object member =>
    .node .access [("object_name", .text object), ("field_name", .text member)] []

def Expr.toTrees : List Expr → List Tree
  | [] => []
  | e :: rest => e.toTree :: Expr.toTrees rest

end

mutual

def Stmt.toTree : Stmt → Tree
  | .bare expr => .node .bare [] [.one "expr" expr.toTree]
  | .assign target value =>
    .node .assign [] [.one "lhs" target.toTree, .one "rhs" value.toTree]
  | .verify expr => .node .verify [] [.one "expr" expr.toTree]
  | .constrain expr => .node .constrain [] [.one "expr" expr.toTree]
  | .branch condition body =>
    .node .branch [] [.one "condition" condition.toTree, .many "body" (Stmt.toTrees body)]
  | .loop condition body =>
    .node .loop [] [.one "condition" condition.toTree, .many "body" (Stmt.toTrees body)]

def Stmt.toTrees : List Stmt → List Tree
  | [] => []
  | s :: rest => s.toTree :: Stmt.toTrees rest

end

def Program.toTree (p : Program) : Tree :=
  .node .program []
    [.many "declarations" (p.declarations.map Declaration.toTree),
      .many "statements" (Stmt.toTrees p.statements)]

end FuzzFrontend
