import FuzzFrontend.Proofs.Fitting
import FuzzFrontend.Proofs.Generator.Spelling
import FuzzFrontend.Proofs.Program.TreeDepth

namespace FuzzFrontend

namespace GenExpr

/-- The levels that writing an expression takes: one for a random value and one for a chain. The
left operand of a chain goes on with it and takes no level of its own. -/
def costIn (inChain : Bool) : GenExpr → Nat
  | constant _ => 0
  | least _ => 0
  | greatest _ => 0
  | random _ low high => max (low.costIn false) (high.costIn false) + 1
  | compound left _ right =>
      max (left.costIn true) (right.costIn false) + if inChain then 0 else 1

/-- The levels that writing an expression takes. -/
def cost (e : GenExpr) : Nat :=
  e.costIn false

/-- The operands of a chain: the leftmost one, and the right ones from there to the root. -/
def operands : GenExpr → List GenExpr
  | compound left _ right => left.operands ++ [right]
  | e => [e]

theorem costIn_true_le_iff {e : GenExpr} {n : Nat} :
    e.costIn true ≤ n ↔ ∀ a ∈ e.operands, a.cost ≤ n := by
  induction e with
  | compound left op right ihl _ =>
      simp [costIn, operands, or_imp, forall_and, ihl, cost]
  | _ => simp [costIn, operands, cost]

theorem cost_compound (left right : GenExpr) (op : ArithmeticOp) :
    (compound left op right).cost = deepest cost (compound left op right).operands + 1 := by
  have hoperands : max (left.costIn true) (right.costIn false) =
      deepest cost (compound left op right).operands := by
    refine eq_of_forall_ge_iff fun n => ?_
    rw [deepest_le_iff, ← costIn_true_le_iff, costIn, if_pos rfl, Nat.add_zero]
  simp [cost, costIn, ← hoperands]

end GenExpr

section Writing

variable {precedence : Precedence}

theorem Ty.exists_writeToken {ty : Ty} (h : ty.IsSized) : ∃ token, ty.writeToken = .ok token := by
  cases ty with
  | scalar kind => exact ⟨kind.label, if_pos h⟩
  | _ => exact absurd h id

theorem Constant.exists_write {c : Constant} (h : c.Spellable) : ∃ t, c.write = .ok t := by
  cases c with
  | signed value _ => exact ⟨_, rfl⟩
  | unsigned value _ => exact ⟨_, rfl⟩
  | text content => exact ⟨_, if_pos h⟩

theorem GenExpr.write_fits {e : GenExpr} (h : e.Spellable precedence) (g : DepthGuard)
    (inChain : Bool) : Fits g (e.costIn inChain ≤ g.room) (e.write precedence g inChain) := by
  induction e generalizing g inChain with
  | constant value =>
      cases h with
      | constant h =>
          obtain ⟨t, ht⟩ := Constant.exists_write h
          rw [write, ht]
          exact (Fits.ok t).congr (by simp [costIn])
  | least ty =>
      cases h with
      | least h =>
          obtain ⟨token, htoken⟩ := Ty.exists_writeToken h
          rw [write, htoken]
          exact (Fits.ok _).congr (by simp [costIn])
  | greatest ty =>
      cases h with
      | greatest h =>
          obtain ⟨token, htoken⟩ := Ty.exists_writeToken h
          rw [write, htoken]
          exact (Fits.ok _).congr (by simp [costIn])
  | random ty low high ihl ihh =>
      cases h with
      | random h hl hh =>
          obtain ⟨token, htoken⟩ := Ty.exists_writeToken h
          rw [write, htoken]
          refine Fits.enter fun inner => ?_
          exact (ihl hl inner false).both (ihh hh inner false) fun lowText highText =>
            token ++ ":random(" ++ lowText ++ ", " ++ highText ++ ")"
  | compound left op right ihl ihr =>
      rw [write_compound, bracketFault?_of_spellable h]
      cases h with
      | compound hl hr _ _ =>
          -- The left operand goes on in the chain whose root has entered the guard; the right one
          -- starts anew.
          exact Fits.chain (fun inner => ihl hl inner true) (fun inner => ihr hr inner false)
            (fun tl tr => tl ++ " " ++ op.val.symbol ++ " " ++ tr) inChain

theorem Generator.write_fits {generator : Generator} (h : generator.Spellable precedence)
    (g : DepthGuard) :
    Fits g (∀ e ∈ generator.states, e.cost ≤ g.room) (generator.write precedence g) := by
  have hstates := Fits.mapM fun e he =>
    (GenExpr.write_fits (h.states e he) g false).map fun t => "    state " ++ t ++ "\n"
  obtain ⟨token, htoken⟩ := Ty.exists_writeToken h.resultType
  rw [write, htoken]
  simp only [h.name, Bool.not_true, Bool.false_eq_true, if_false]
  exact hstates.map _

theorem Generator.writeAll_fits {gs : List Generator} (h : ∀ g ∈ gs, g.Spellable precedence)
    (maxDepth : Option Int) :
    Fits (.ofRequest maxDepth)
      (∀ g ∈ gs, ∀ e ∈ g.states, e.cost ≤ (DepthGuard.ofRequest maxDepth).room)
      (writeAll gs precedence maxDepth) :=
  (Fits.mapM fun g hg => Generator.write_fits (h g hg) (.ofRequest maxDepth)).map _

end Writing

end FuzzFrontend
