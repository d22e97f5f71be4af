import FuzzFrontend.Tree.Walk

/-!
Editing trees. An edit for a kind of node says what takes the place of each node of that kind; all
other nodes are rebuilt from their edited children. In a sequence a node may be dropped or replaced
by several nodes.
-/
namespace FuzzFrontend

/-- What takes the place of a node. -/
inductive Edit
  /-- Nothing. -/
  | remove
  /-- The node as it is. -/
  | keep
  /-- The node as it is, twice. -/
  | duplicate
  /-- The node with a new name if it has the old one, and edited inside. -/
  | rename (old new : String)
  /-- The node with a new generator if it has the old one. -/
  | renameGenerator (old new : String)
  /-- The node edited inside, twice. -/
  | duplicateInside
  /-- The edited body of the node. -/
  | unwrap
  /-- The edited left operand of a sum with zero; any other node edited inside. -/
  | dropZero
  /-- The node edited inside, after it was noted. -/
  | note

/-- What an edited node became. -/
inductive Replacement
  | single (t : Tree)
  | nothing
  | several (ts : List Tree)

/-- The trees that take the place of a node in a sequence. -/
def Replacement.toList : Replacement → List Tree
  | single t => [t]
  | nothing => []
  | several ts => ts

/-- Why editing stops. -/
inductive EditFault
  | tooDeep (error : DepthExceeded)
  /-- A node outside a sequence was not replaced by exactly one node. Nothing, or a sequence, would
  stand where one node belongs; such an ill-typed outcome is no tree and is cut off here. -/
  | misplaced
  deriving DecidableEq

/-- The edits for kinds of node that have one. -/
abbrev Edits : Type :=
  Kind → Option Edit

/-- Kinds of node whose parts are never edited. -/
def Kind.isLeaf : Kind → Bool
  | program | definition | structDefinition | field | constrained | freeVariable | typedef | free
  | function | signature | bare | verify | constrain | assign | branch | loop | call
  | compound => false
  | _ => true

namespace Edit

/-- Attributes with one text replaced by another under the given label. -/
def replaceText (label old new : String) (attributes : List (String × Attribute)) :
    List (String × Attribute) :=
  attributes.map fun (key, value) =>
    if key = label ∧ value = .text old then (key, .text new) else (key, value)

/-- The children in the slot with the given label. -/
def childrenAt (label : String) : List Slot → List Tree
  | [] => []
  | .one key child :: rest => if key = label then [child] else childrenAt label rest
  | .many key children :: rest => if key = label then children else childrenAt label rest

/-- The left operand of a sum whose right operand is the literal zero; else the tree itself. -/
def withoutZero (t : Tree) : Tree :=
  let isZero : Tree → Bool := fun r => r.kind == .integer && r.text? "text" == some "0"
  match t.text? "op", childrenAt "left" t.slots, childrenAt "right" t.slots with
  | some "+", [left], [right] => if isZero right then left else t
  | _, _, _ => t

end Edit

mutual

/-- The replacement for a tree. It is a tree again or trees in a sequence: an edit whose outcome
would be ill-typed stops with `EditFault.misplaced`. -/
def Tree.edit (edits : Edits) : Tree → Walk edits EditFault Replacement
  | .node kind attributes slots =>
    let inside (attributes : List (String × Attribute)) : Walk edits EditFault Tree :=
      Walk.within .tooDeep do
        if kind.isLeaf then return .node kind attributes slots
        return .node kind attributes (← Slot.editAll edits slots)
    do match ← Walk.method kind with
    | none => .single <$> inside attributes
    | some .remove => pure .nothing
    | some .keep => pure (.single (.node kind attributes slots))
    | some .duplicate =>
      pure (.several [.node kind attributes slots, .node kind attributes slots])
    | some (.rename old new) => .single <$> inside (Edit.replaceText "name" old new attributes)
    | some (.renameGenerator old new) =>
      pure (.single (.node kind (Edit.replaceText "genname" old new attributes) slots))
    | some .duplicateInside => do
      let t ← inside attributes
      return .several [t, t]
    | some .unwrap => do
      let t ← inside attributes
      return .several (Edit.childrenAt "body" t.slots)
    | some .dropZero => do
      let t ← inside attributes
      return .single (Edit.withoutZero t)
    | some .note => do
      Walk.note (.node kind attributes slots)
      .single <$> inside attributes

def Slot.editAll (edits : Edits) : List Slot → Walk edits EditFault (List Slot)
  | [] => pure []
  | .one label child :: rest => do
    match ← Tree.edit edits child with
    | .single t => return .one label t :: (← Slot.editAll edits rest)
    | _ => throw .misplaced
  | .many label children :: rest => do
    let ts ← Tree.editAll edits children
    return .many label ts :: (← Slot.editAll edits rest)

def Tree.editAll (edits : Edits) : List Tree → Walk edits EditFault (List Tree)
  | [] => pure []
  | t :: rest => do
    let r ← Tree.edit edits t
    return r.toList ++ (← Tree.editAll edits rest)

end

/-- The replacement for a tree under a depth limit, and the nodes that were noted. -/
def Tree.transform (t : Tree) (edits : Edits) (maxDepth : Option Int := none) :
    Except EditFault Replacement × List Tree :=
  let (result, after) := (t.edit edits).run { guard := .ofRequest maxDepth }
  (result, after.noted.reverse)

end FuzzFrontend
