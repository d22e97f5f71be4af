import FuzzFrontend.Depth
import FuzzFrontend.Tree

/-!
Walks over trees. A walk carries a depth guard, the nodes it has noted and the methods it has looked
up. Every node that it goes into takes one level of the guard, and the level is given back however
the walk comes out.
-/
namespace FuzzFrontend

/-- The methods that were looked up so far, by kind of node. Each is the one that its kind has. -/
structure Dispatch {μ : Type} (methods : Kind → μ) where
  found : List (Kind × μ)
  sound : ∀ entry ∈ found, entry.2 = methods entry.1

/-- No method was looked up. -/
def Dispatch.empty {μ : Type} {methods : Kind → μ} : Dispatch methods :=
  { found := [], sound := fun _ h => absurd h List.not_mem_nil }

/-- The method for a kind, which is remembered once it has been looked up. -/
def Dispatch.find {μ : Type} {methods : Kind → μ} (dispatch : Dispatch methods) (kind : Kind) :
    μ × Dispatch methods :=
  match dispatch.found.lookup kind with
  | some method => (method, dispatch)
  | none =>
    (methods kind,
      { found := (kind, methods kind) :: dispatch.found
        sound := List.forall_mem_cons.2 ⟨rfl, dispatch.sound⟩ })

/-- Where a walk stands: its guard, the nodes noted so far, the latest first, and what it knows of
the methods for kinds of node. -/
structure Trail {μ : Type} (methods : Kind → μ) where
  guard : DepthGuard
  noted : List Tree := []
  dispatch : Dispatch methods := .empty

/-- A step of a walk. What was noted before a failure is kept. -/
abbrev Walk {μ : Type} (methods : Kind → μ) (ε α : Type) : Type :=
  ExceptT ε (StateM (Trail methods)) α

namespace Walk

variable {μ : Type} {methods : Kind → μ} {ε α : Type}

def note (t : Tree) : Walk methods ε Unit :=
  modify fun trail => { trail with noted := t :: trail.noted }

/-- The method for a kind of node. -/
def method (kind : Kind) : Walk methods ε μ :=
  modifyGet fun trail =>
    let (method, dispatch) := trail.dispatch.find kind
    (method, { trail with dispatch := dispatch })

/-- A step one level deeper. -/
def within (tooDeep : DepthExceeded → ε) (step : Walk methods ε α) : Walk methods ε α :=
  ExceptT.mk fun trail =>
    match trail.guard.enter with
    | .error e => (.error (tooDeep e), trail)
    | .ok inner =>
      let (result, after) := step.run { trail with guard := inner }
      (result, { after with guard := after.guard.exit })

end Walk

end FuzzFrontend
