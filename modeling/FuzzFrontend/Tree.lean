/-!
Labelled trees: one shape for every node of both languages. A node has a kind, attributes that are
plain data, and slots that hold its children, either exactly one or a sequence. Whatever walks over
programs without caring which node is which walks over these.
-/
namespace FuzzFrontend

/-- The kinds of node. -/
inductive Kind
  | program
  | header
  | typedef
  | definition
  | free
  | freeVariable
  | constrained
  | function
  | signature
  | known
  | structDefinition
  | enumDefinition
  | structNamed
  | enumNamed
  | field
  | enumValue
  | scalar
  | pointer
  | struct
  | enum
  | member
  | integer
  | decimal
  | var
  | call
  | compound
  | access
  | bare
  | assign
  | verify
  | constrain
  | branch
  | loop
  | signed
  | unsigned
  | text
  | constant
  | least
  | greatest
  | random
  | arithmetic
  | generator
  deriving DecidableEq

namespace Kind

def name : Kind → String
  | program => "Program"
  | header => "Include"
  | typedef => "Typedef"
  | definition => "UDT"
  | free => "Free"
  | freeVariable => "FreeVarDecl"
  | constrained => "Constrained"
  | function => "Function"
  | signature => "FuncDecl"
  | known => "BasicType"
  | structDefinition => "StructDecl"
  | enumDefinition => "EnumDecl"
  | structNamed => "StructRef"
  | enumNamed => "EnumRef"
  | field => "UDTDecl"
  | enumValue => "EnumValue"
  | scalar => "Builtin"
  | pointer => "Pointer"
  | struct => "Struct"
  | enum => "Enum"
  | member => "StructField"
  | integer => "IConst"
  | decimal => "FConst"
  | var => "VarRef"
  | call => "Call"
  | compound => "Compound"
  | access => "Field"
  | bare => "Basic"
  | assign => "Assignment"
  | verify => "Verify"
  | constrain => "Constraint"
  | branch => "If"
  | loop => "While"
  | signed => "Signed"
  | unsigned => "Unsigned"
  | text => "StringConstant"
  | constant => "ConstExpr"
  | least => "MinExpr"
  | greatest => "MaxExpr"
  | random => "RandomExpr"
  | arithmetic => "GenCompound"
  | generator => "UserGen"

def all : List Kind :=
  [program, header, typedef, definition, free, freeVariable, constrained, function, signature,
    known, structDefinition, enumDefinition, structNamed, enumNamed, field, enumValue, scalar,
    pointer, struct, enum, member, integer, decimal, var, call, compound, access, bare, assign,
    verify, constrain, branch, loop, signed, unsigned, text, constant, least, greatest, random,
    arithmetic, generator]

def ofName? (name : String) : Option Kind :=
  all.find? (·.name == name)

end Kind

/-- Plain data at a node. -/
inductive Attribute
  | text (value : String)
  | flag (value : Bool)
  deriving DecidableEq

mutual

/-- Labelled trees. -/
inductive Tree
  | node (kind : Kind) (attributes : List (String × Attribute)) (slots : List Slot)

/-- A place for children, with a label. -/
inductive Slot
  | one (label : String) (child : Tree)
  | many (label : String) (children : List Tree)

end

namespace Tree

def kind : Tree → Kind
  | node kind _ _ => kind

def attributes : Tree → List (String × Attribute)
  | node _ attributes _ => attributes

def slots : Tree → List Slot
  | node _ _ slots => slots

def text? (t : Tree) (label : String) : Option String :=
  match t.attributes.lookup label with
  | some (.text value) => some value
  | _ => none

end Tree

def Slot.children : Slot → List Tree
  | .one _ child => [child]
  | .many _ children => children

def Tree.children (t : Tree) : List Tree :=
  t.slots.flatMap Slot.children

mutual

def Tree.decEq : (a b : Tree) → Decidable (a = b)
  | .node k₁ a₁ s₁, .node k₂ a₂ s₂ =>
    if hk : k₁ = k₂ then
      if ha : a₁ = a₂ then
        match Slot.decEqList s₁ s₂ with
        | isTrue hs => isTrue (by rw [hk, ha, hs])
        | isFalse hs => isFalse fun h => hs (by injection h)
      else isFalse fun h => ha (by injection h)
    else isFalse fun h => hk (by injection h)

def Slot.decEq : (a b : Slot) → Decidable (a = b)
  | .one l₁ c₁, .one l₂ c₂ =>
    if hl : l₁ = l₂ then
      match Tree.decEq c₁ c₂ with
      | isTrue hc => isTrue (by rw [hl, hc])
      | isFalse hc => isFalse fun h => hc (by injection h)
    else isFalse fun h => hl (by injection h)
  | .many l₁ c₁, .many l₂ c₂ =>
    if hl : l₁ = l₂ then
      match Tree.decEqList c₁ c₂ with
      | isTrue hc => isTrue (by rw [hl, hc])
      | isFalse hc => isFalse fun h => hc (by injection h)
    else isFalse fun h => hl (by injection h)
  | .one _ _, .many _ _ => isFalse nofun
  | .many _ _, .one _ _ => isFalse nofun

def Slot.decEqList : (a b : List Slot) → Decidable (a = b)
  | [], [] => isTrue rfl
  | [], _ :: _ => isFalse nofun
  | _ :: _, [] => isFalse nofun
  | x :: xs, y :: ys =>
    match Slot.decEq x y with
    | isTrue hx =>
      match Slot.decEqList xs ys with
      | isTrue hxs => isTrue (by rw [hx, hxs])
      | isFalse hxs => isFalse fun h => hxs (by injection h)
    | isFalse hx => isFalse fun h => hx (by injection h)

def Tree.decEqList : (a b : List Tree) → Decidable (a = b)
  | [], [] => isTrue rfl
  | [], _ :: _ => isFalse nofun
  | _ :: _, [] => isFalse nofun
  | x :: xs, y :: ys =>
    match Tree.decEq x y with
    | isTrue hx =>
      match Tree.decEqList xs ys with
      | isTrue hxs => isTrue (by rw [hx, hxs])
      | isFalse hxs => isFalse fun h => hxs (by injection h)
    | isFalse hx => isFalse fun h => hx (by injection h)

end

instance : DecidableEq Tree :=
  Tree.decEq

end FuzzFrontend
