import FuzzFrontend.Tree.Walk

/-!
Visitors look at a tree without changing it, in the order of its parts, a node before its children.
A visitor may look at one tree after another; its guard and the methods it has looked up go along.
-/
namespace FuzzFrontend

/-- Which kinds of node are noted, which are not gone into, and how a noted node is shown. -/
structure Visitor where
  notes : Kind → Bool
  stops : Kind → Bool
  label : Tree → String

namespace Visitor

/-- What a visitor does at the nodes of one kind. -/
structure Method where
  notes : Bool
  stops : Bool

def method (v : Visitor) (kind : Kind) : Method where
  notes := v.notes kind
  stops := v.stops kind

/-- Notes every node. -/
def trace : Visitor where
  notes _ := true
  stops _ := false
  label t := t.kind.name

/-- Notes calls, by the name of the function. -/
def calls : Visitor where
  notes kind := kind == .call
  stops _ := false
  label t := (t.text? "name").getD ""

/-- Notes variables, fields and branches, and goes into none of them. -/
def vars : Visitor where
  notes kind := kind == .var || kind == .access || kind == .branch
  stops kind := kind == .var || kind == .access || kind == .branch
  label t :=
    match t.kind with
    | .branch => "if"
    | .access =>
      (t.text? "object_name").getD "" ++ "." ++ (t.text? "field_name").getD ""
    | _ => (t.text? "name").getD ""

mutual

/-- Looks at a tree and gives it back. -/
def visit (v : Visitor) : Tree → Walk v.method DepthExceeded Tree
  | .node kind attributes slots => do
    let method ← Walk.method kind
    if method.notes then Walk.note (.node kind attributes slots)
    unless method.stops do Walk.within id (visitSlots v slots)
    return .node kind attributes slots

def visitSlots (v : Visitor) : List Slot → Walk v.method DepthExceeded Unit
  | [] => pure ()
  | .one _ child :: rest => do
    discard (visit v child)
    visitSlots v rest
  | .many _ children :: rest => do
    visitAll v children
    visitSlots v rest

def visitAll (v : Visitor) : List Tree → Walk v.method DepthExceeded Unit
  | [] => pure ()
  | t :: rest => do
    discard (visit v t)
    visitAll v rest

end

/-- What came of one visit. -/
structure Visit where
  noted : List Tree
  result : Except DepthExceeded Tree

/-- Visits to trees in turn. What was noted before a visit is forgotten. -/
def sessionFrom (v : Visitor) (before : Trail v.method) : List Tree → List Visit
  | [] => []
  | t :: rest =>
    let (result, after) := (v.visit t).run { before with noted := [] }
    { noted := after.noted.reverse, result := result } :: sessionFrom v after rest

/-- The visits of a visitor with the given guard that has looked at nothing yet. -/
def session (v : Visitor) (guard : DepthGuard) (trees : List Tree) : List Visit :=
  v.sessionFrom { guard := guard } trees

end Visitor

end FuzzFrontend
