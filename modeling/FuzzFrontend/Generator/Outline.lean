import FuzzFrontend.Generator
import FuzzFrontend.Program.Outline

/-!
Generators as labelled trees.
-/
namespace FuzzFrontend

def Constant.toTree : Constant → Tree
  | .signed value _ => .node .signed [("value", .text (Text.integer value))] []
  | .unsigned value _ => .node .unsigned [("value", .text (Text.natural value))] []
  | .text content => .node .text [("text", .text content)] []

def GenExpr.toTree : GenExpr → Tree
  | .constant value => .node .constant [] [.one "value" value.toTree]
  | .least ty => .node .least [] [.one "ty" ty.toTree]
  | .greatest ty => .node .greatest [] [.one "ty" ty.toTree]
  | .random ty low high =>
    .node .random [] [.one "ty" ty.toTree, .one "low" low.toTree, .one "high" high.toTree]
  | .compound left op right =>
    .node .arithmetic [("op", .text op.val.symbol)]
      [.one "left" left.toTree, .one "right" right.toTree]

def Generator.toTree (g : Generator) : Tree :=
  .node .generator [("name", .text g.name)]
    [.one "result_type" g.resultType.toTree, .many "states" (g.states.map GenExpr.toTree)]

end FuzzFrontend
