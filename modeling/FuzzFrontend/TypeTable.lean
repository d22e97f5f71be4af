import FuzzFrontend.Diagnostic.Problem
import FuzzFrontend.Program

/-!
Tables of user-defined types. Structs, enums and typedefs have a namespace each, and a name is
defined once. A reference is resolved by unfolding definitions; a struct inside itself is left as a
forward placeholder, so that unfolding ends.
-/
namespace FuzzFrontend

/-- Definitions by name, in the order in which they were made. -/
structure TypeTable where
  structs : List (String × List Field) := []
  enums : List (String × List EnumValue) := []
  typedefs : List (String × TypeExpr) := []

namespace TypeTable

/-- Why a definition or a reference is refused. -/
inductive Fault
  | duplicate (name : String)
  | noStruct (name : String)
  | noEnum (name : String)
  | noTypedef (name : String)
  deriving DecidableEq

def Fault.problem : Fault → Problem
  | .duplicate name => .duplicateType name
  | .noStruct name => .unresolvedStruct name
  | .noEnum name => .unresolvedEnum name
  | .noTypedef name => .unknownType name

/-- The family of each fault. In a table an unknown name is an unresolved one. -/
def Fault.category : Fault → Problem.Category
  | .duplicate _ => .duplicateType
  | .noStruct _ => .unresolvedType
  | .noEnum _ => .unresolvedType
  | .noTypedef _ => .unresolvedType

/-- The names of the structs, in order of definition. -/
def structNames (t : TypeTable) : List String :=
  t.structs.map (·.1)

def enumNames (t : TypeTable) : List String :=
  t.enums.map (·.1)

def typedefNames (t : TypeTable) : List String :=
  t.typedefs.map (·.1)

/-- The table with a struct or enum added, if its name is free in its namespace. -/
def define (t : TypeTable) : Definition → Except Fault TypeTable
  | .struct name fields =>
    if name ∈ t.structNames then .error (.duplicate name)
    else .ok { t with structs := t.structs ++ [(name, fields)] }
  | .enum name values =>
    if name ∈ t.enumNames then .error (.duplicate name)
    else .ok { t with enums := t.enums ++ [(name, values)] }

/-- The table with a typedef added, if its name is free. -/
def defineTypedef (t : TypeTable) (name : String) (source : TypeExpr) : Except Fault TypeTable :=
  if name ∈ t.typedefNames then .error (.duplicate name)
  else .ok { t with typedefs := t.typedefs ++ [(name, source)] }

/-- The table with the type that a declaration defines, if it defines one. -/
def declare (t : TypeTable) : Declaration → Except Fault TypeTable
  | .define definition => t.define definition
  | .typedef source name => t.defineTypedef name source
  | _ => .ok t

/-- The table of all types that a program defines. -/
def ofProgram (p : Program) : Except Fault TypeTable :=
  p.declarations.foldlM declare {}

/-- How many defined structs are not being unfolded. -/
def unopened (t : TypeTable) (opened : List String) : Nat :=
  t.structs.countP fun entry => !opened.contains entry.1

theorem unopened_cons_le (t : TypeTable) (name : String) (opened : List String) :
    t.unopened (name :: opened) ≤ t.unopened opened := by
  unfold unopened
  apply List.countP_mono_left
  intro entry _ h
  simp_all

theorem unopened_cons_lt (t : TypeTable) {name : String} {fields : List Field}
    {opened : List String} (found : t.structs.lookup name = some fields) (h : name ∉ opened) :
    t.unopened (name :: opened) < t.unopened opened := by
  unfold unopened
  generalize t.structs = structs at found
  induction structs with
  | nil => simp at found
  | cons entry rest ih =>
    have mono : rest.countP (fun e => !(name :: opened).contains e.1) ≤
        rest.countP fun e => !opened.contains e.1 := by
      apply List.countP_mono_left
      intro e _ he
      simp_all
    by_cases hname : entry.1 = name
    · have : rest.countP (fun e => !(name :: opened).contains e.1) <
          rest.countP (fun e => !opened.contains e.1) + 1 := by omega
      simpa [List.countP_cons, hname, h] using this
    · have found' : rest.lookup name = some fields := by
        obtain ⟨key, value⟩ := entry
        have hne : (name == key) = false := by simpa using fun h => hname h.symm
        simpa [List.lookup_cons, hne] using found
      have := ih found'
      simp only [List.countP_cons]
      have same : (!(name :: opened).contains entry.1) = !opened.contains entry.1 := by
        simp [hname]
      rw [same]
      omega

def resolveEnum (t : TypeTable) (name : String) : Except Fault Ty :=
  match t.enums.lookup name with
  | some values => .ok (.enum name values false)
  | none => .error (.noEnum name)

mutual

/-- The struct of the given name, or a placeholder if it is being unfolded already. -/
def resolveStruct (t : TypeTable) (opened : List String) (name : String) : Except Fault Ty :=
  if h : name ∈ opened then .ok (.struct name [] true)
  else
    match found : t.structs.lookup name with
    | none => .error (.noStruct name)
    | some fields => do
      have := unopened_cons_lt t found h
      let members ← resolveFields t (name :: opened) fields
      return .struct name members false
termination_by (t.unopened opened, 0)

/-- The type that a reference stands for, while some structs are being unfolded. -/
def resolveIn (t : TypeTable) (opened : List String) : TypeExpr → Except Fault Ty
  | .known ty => .ok ty
  | .inline (.struct name fields) => do
    let members ← resolveFields t (name :: opened) fields
    return .struct name members false
  | .inline (.enum name values) => .ok (.enum name values false)
  | .structNamed name => resolveStruct t opened name
  | .enumNamed name => resolveEnum t name
termination_by e => (t.unopened opened, sizeOf e)
decreasing_by
  · exact Prod.Lex.right' _ (unopened_cons_le t name opened) (by decreasing_tactic)
  · decreasing_tactic

/-- The member that a field stands for. The two names of a field of named type change places. -/
def resolveMember (t : TypeTable) (opened : List String) : Field → Except Fault Member
  | .mk name (.structNamed own) => do
    return .mk own (← resolveStruct t opened name)
  | .mk name (.enumNamed own) => do
    return .mk own (← resolveEnum t name)
  | .mk name ty => do
    return .mk name (← resolveIn t opened ty)
termination_by field => (t.unopened opened, sizeOf field)

def resolveFields (t : TypeTable) (opened : List String) : List Field → Except Fault (List Member)
  | [] => .ok []
  | field :: rest => do
    let member ← resolveMember t opened field
    return member :: (← resolveFields t opened rest)
termination_by fields => (t.unopened opened, sizeOf fields)

end

/-- The type that a reference stands for. -/
def resolve (t : TypeTable) (e : TypeExpr) : Except Fault Ty :=
  t.resolveIn [] e

def resolveTypedef (t : TypeTable) (name : String) : Except Fault Ty :=
  match t.typedefs.lookup name with
  | some source => t.resolve source
  | none => .error (.noTypedef name)

def resolveField (t : TypeTable) (field : Field) : Except Fault Member :=
  t.resolveMember [] field

end TypeTable

end FuzzFrontend
