import FuzzFrontend.Proofs.Grouping

/-!
Grouping with two stacks, one of operands and one of operators. An operator that is popped wants two
operands, and on stacks of any heights they may be missing. On the stacks that come of a chain they
never are: each operator has its left operand right below the operand on top of it.
-/
namespace FuzzFrontend.Chain

variable {α ω : Type}

/-- Pops the operators that bind at least as tightly as `bound`, each with its two operands, and
pushes what these make. Both stacks are given from the top. -/
def reduce? (level : ω → Nat) (combine : α → ω → α → α) (bound : Nat) :
    List α → List ω → Option (List α × List ω)
  | operands, [] => some (operands, [])
  | right :: left :: operands, op :: operators =>
    if bound ≤ level op then
      reduce? level combine bound (combine left op right :: operands) operators
    else some (right :: left :: operands, op :: operators)
  | operands, op :: operators =>
    if bound ≤ level op then none else some (operands, op :: operators)

/-- Pushes the operators and operands of a chain, and pops what binds at least as tightly before
each operator. In the end all is popped, and the operand at the bottom is the value. -/
def runStacks? (level : ω → Nat) (combine : α → ω → α → α) :
    List α → List ω → List (ω × α) → Option α
  | operands, operators, [] =>
    (reduce? level combine 0 operands operators).bind fun kept => kept.1.getLast?
  | operands, operators, (op, next) :: chain =>
    (reduce? level combine (level op) operands operators).bind fun kept =>
      runStacks? level combine (next :: kept.1) (op :: kept.2) chain

/-- What is on the two stacks when a chain has been gone through and all operators are popped. -/
def finalStacks? (level : ω → Nat) (combine : α → ω → α → α) :
    List α → List ω → List (ω × α) → Option (List α × List ω)
  | operands, operators, [] => reduce? level combine 0 operands operators
  | operands, operators, (op, next) :: chain =>
    (reduce? level combine (level op) operands operators).bind fun kept =>
      finalStacks? level combine (next :: kept.1) (op :: kept.2) chain

variable {level : ω → Nat} {combine : α → ω → α → α}

/-- Popping finds its operands, and does to the stacks what closing does to the pending operands. -/
theorem reduce?_eq_close (bound : Nat) (pending : Pending α ω) (operand : α) :
    reduce? level combine bound (operand :: pending.map Prod.fst) (pending.map Prod.snd) =
      some ((close level combine bound pending operand).2 ::
          (close level combine bound pending operand).1.map Prod.fst,
        (close level combine bound pending operand).1.map Prod.snd) := by
  induction pending generalizing operand with
  | nil => rfl
  | cons p pending ih =>
      obtain ⟨left, op⟩ := p
      by_cases h : bound ≤ level op
      · simpa only [List.map_cons, reduce?, close, if_pos h] using ih (combine left op operand)
      · simp only [List.map_cons, reduce?, close, if_neg h]

theorem finalStacks?_eq_run (pending : Pending α ω) (operand : α) (chain : List (ω × α)) :
    finalStacks? level combine (operand :: pending.map Prod.fst) (pending.map Prod.snd) chain =
      some ([run level combine pending operand chain], []) := by
  induction chain generalizing pending operand with
  | nil =>
      have hall : ∀ p ∈ pending, 0 ≤ level p.2 := fun p _ => Nat.zero_le _
      rw [finalStacks?, reduce?_eq_close, run, close_all hall]
      rfl
  | cons p chain ih =>
      obtain ⟨op, next⟩ := p
      simp only [finalStacks?, reduce?_eq_close, Option.bind_some, run]
      exact ih (((close level combine (level op) pending operand).2, op) ::
        (close level combine (level op) pending operand).1) next

theorem runStacks?_eq_bind (operands : List α) (operators : List ω) (chain : List (ω × α)) :
    runStacks? level combine operands operators chain =
      (finalStacks? level combine operands operators chain).bind fun kept => kept.1.getLast? := by
  induction chain generalizing operands operators with
  | nil => rfl
  | cons p chain ih =>
      obtain ⟨op, next⟩ := p
      simp only [runStacks?, finalStacks?, Option.bind_assoc, ih]

/-- No operand is missing while a chain is grouped with stacks, and the value is that of its
grouping. -/
theorem runStacks?_eq_group (first : α) (chain : List (ω × α)) :
    runStacks? level combine [first] [] chain = some (group level combine first chain) := by
  have hfinal : finalStacks? level combine [first] [] chain =
      some ([run level combine [] first chain], []) := finalStacks?_eq_run [] first chain
  rw [runStacks?_eq_bind, hfinal]
  rfl

end FuzzFrontend.Chain
