/-!
Chains of operands and operators without brackets, and how they group. Operators bind by level, and
those of one level group to the left: of the loosest operators the last one is the root.
-/
namespace FuzzFrontend.Chain

variable {α ω : Type}

/-- Left operands that wait for their right one, innermost first, each with its operator. -/
abbrev Pending (α ω : Type) : Type :=
  List (α × ω)

/-- Closes the pending operands whose operator binds at least as tightly as `bound`. -/
def close (level : ω → Nat) (combine : α → ω → α → α) (bound : Nat) :
    Pending α ω → α → Pending α ω × α
  | [], operand => ([], operand)
  | (left, op) :: pending, operand =>
    if bound ≤ level op then close level combine bound pending (combine left op operand)
    else ((left, op) :: pending, operand)

/-- Reads on in a chain, with some operands pending and one just read. -/
def run (level : ω → Nat) (combine : α → ω → α → α) :
    Pending α ω → α → List (ω × α) → α
  | pending, operand, [] => (close level combine 0 pending operand).2
  | pending, operand, (op, next) :: chain =>
    let (open', left) := close level combine (level op) pending operand
    run level combine ((left, op) :: open') next chain

def group (level : ω → Nat) (combine : α → ω → α → α) (first : α) (chain : List (ω × α)) : α :=
  run level combine [] first chain

end FuzzFrontend.Chain
