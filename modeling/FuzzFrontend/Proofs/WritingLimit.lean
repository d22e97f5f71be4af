import FuzzFrontend.Proofs.Generator.Cost
import FuzzFrontend.Proofs.Program.Cost
import FuzzFrontend.Proofs.Tree.Tracing

namespace FuzzFrontend

theorem DepthGuard.room_ofRequest_natCast (maxDepth : Nat) :
    (ofRequest (some maxDepth)).room = min maxDepth 950 := by
  rw [Visitor.ofRequest_natCast, room, Int.sub_zero, Int.toNat_natCast]

theorem Program.write_stops_iff {p : Program} (hp : p.WellFormed) {validate : Bool}
    (hcheck : validate = true → p.check = .ok ()) (maxDepth : Nat) :
    (p.write validate (some maxDepth) = .error (.tooDeep ⟨(min maxDepth 950 : Nat)⟩) ↔
        ∃ s ∈ p.statements, min maxDepth 950 < s.cost) ∧
      ((∃ t, p.write validate (some maxDepth) = .ok t) ↔
        ∀ s ∈ p.statements, s.cost ≤ min maxDepth 950) := by
  have hfits := Program.write_fits hp hcheck (some maxDepth)
  rw [DepthGuard.room_ofRequest_natCast] at hfits
  have hstops := hfits.error_iff
  rw [Visitor.ofRequest_natCast] at hstops
  refine ⟨hstops.trans ?_, hfits.ok_iff⟩
  simp only [not_forall, exists_prop, Nat.not_le]

theorem Generator.writeAll_stops_iff {gs : List Generator} {precedence : Precedence}
    (h : ∀ g ∈ gs, g.Spellable precedence) (maxDepth : Nat) :
    (writeAll gs precedence (some maxDepth) = .error (.tooDeep ⟨(min maxDepth 950 : Nat)⟩) ↔
        ∃ g ∈ gs, ∃ e ∈ g.states, min maxDepth 950 < e.cost) ∧
      ((∃ t, writeAll gs precedence (some maxDepth) = .ok t) ↔
        ∀ g ∈ gs, ∀ e ∈ g.states, e.cost ≤ min maxDepth 950) := by
  have hfits := Generator.writeAll_fits h (some maxDepth)
  rw [DepthGuard.room_ofRequest_natCast] at hfits
  have hstops := hfits.error_iff
  rw [Visitor.ofRequest_natCast] at hstops
  refine ⟨hstops.trans ?_, hfits.ok_iff⟩
  simp only [not_forall, exists_prop, Nat.not_le]

/-- Writers stop at their limit exactly for a statement or a state that takes more levels than it,
and write a text for everything else that is well formed. A chain takes one level more than its most
demanding operand, and so just one if its operands take none. -/
theorem write_cost_exact {maxDepth limit : Nat} (hlimit : limit = min maxDepth 950) :
    (∀ (p : Program) (validate : Bool), p.WellFormed → (validate = true → p.check = .ok ()) →
      let written := p.write validate (some maxDepth)
      (written = .error (.tooDeep ⟨limit⟩) ↔ ∃ s ∈ p.statements, limit < s.cost) ∧
        ((∃ t, written = .ok t) ↔ ∀ s ∈ p.statements, s.cost ≤ limit)) ∧
    (∀ (gs : List Generator) (precedence : Precedence), (∀ g ∈ gs, g.Spellable precedence) →
      let written := Generator.writeAll gs precedence (some maxDepth)
      (written = .error (.tooDeep ⟨limit⟩) ↔ ∃ g ∈ gs, ∃ e ∈ g.states, limit < e.cost) ∧
        ((∃ t, written = .ok t) ↔ ∀ g ∈ gs, ∀ e ∈ g.states, e.cost ≤ limit)) ∧
    (∀ left op right, let chain := Expr.compound left op right
      chain.cost = deepest Expr.cost chain.operands + 1 ∧
        ((∀ a ∈ chain.operands, a.cost = 0) → chain.cost = 1)) ∧
    ∀ left op right, let chain := GenExpr.compound left op right
      chain.cost = deepest GenExpr.cost chain.operands + 1 ∧
        ((∀ a ∈ chain.operands, a.cost = 0) → chain.cost = 1) := by
  subst hlimit
  refine ⟨fun p validate hp hcheck => Program.write_stops_iff hp hcheck maxDepth,
    fun gs precedence h => Generator.writeAll_stops_iff h maxDepth,
    fun left op right => ⟨Expr.cost_compound left right op, fun hleaves => ?_⟩,
    fun left op right => ⟨GenExpr.cost_compound left right op, fun hleaves => ?_⟩⟩
  · have hnone := deepest_le_iff.mpr fun a ha => Nat.le_of_eq (hleaves a ha)
    rw [Expr.cost_compound, Nat.le_zero.mp hnone]
  · have hnone := deepest_le_iff.mpr fun a ha => Nat.le_of_eq (hleaves a ha)
    rw [GenExpr.cost_compound, Nat.le_zero.mp hnone]

/-- At a limit of one there is room for a chain, but not for a call or a random value in it. -/
theorem write_cost_exact_one :
    let v := Expr.var .plain
    let chain := Expr.compound (.compound (v "a") .add (v "b")) .sub (v "c")
    let nested := Expr.compound (v "a") .add (.call "f" [])
    let u8 : Ty := .scalar .u8
    let random := GenExpr.compound (.least u8) ⟨.add, rfl⟩ (.random u8 (.least u8) (.greatest u8))
    let generator : Generator := ⟨u8, "g", [random], List.cons_ne_nil _ _⟩
    (∃ t, Program.write ⟨[], [.verify chain, .branch chain []]⟩ true (some 1) = .ok t) ∧
      Program.write ⟨[], [.verify chain, .verify nested]⟩ true (some 1) =
        .error (.tooDeep ⟨1⟩) ∧
      Generator.writeAll [generator] .flat (some 1) = .error (.tooDeep ⟨1⟩) := by
  intro v chain nested u8 random generator
  have hlimit : 1 = min 1 950 := rfl
  have hchain : (Stmt.verify chain).Unbracketed ∧ (Stmt.branch chain []).Unbracketed := by
    have hexpr : chain.Unbracketed := by
      refine .compound (.compound (.var _ _) (.var _ _) ?_ ?_) (.var _ _) ?_ ?_
      all_goals simp [v, Expr.rootOp?, BinaryOp.level]
    exact ⟨.verify hexpr, .branch hexpr (List.forall_mem_nil _)⟩
  have hnested : (Stmt.verify nested).Unbracketed := by
    refine .verify (.compound (.var _ _) (.call (List.forall_mem_nil _)) ?_ ?_)
    all_goals simp [v, Expr.rootOp?]
  have hu8 : u8.IsSized := (by decide : Scalar.u8 ∈ Scalar.sized)
  have hrandom : random.Spellable .flat := by
    refine .compound (.least hu8) (.random hu8 (.least hu8) (.greatest hu8)) ?_ ?_
    all_goals simp [GenExpr.rootOp?]
  refine ⟨?_, ?_, ?_⟩
  · refine (((write_cost_exact hlimit).1 _ true ⟨.nil, List.forall_mem_nil _, ?_⟩
      fun _ => rfl).2).mpr ?_
    · simpa using hchain
    · simp [chain, v, Stmt.cost, Stmt.costBelow, Expr.cost, Expr.costIn]
  · refine (((write_cost_exact hlimit).1 _ true ⟨.nil, List.forall_mem_nil _, ?_⟩
      fun _ => rfl).1).mpr ?_
    · simpa using ⟨hchain.1, hnested⟩
    · exact ⟨.verify nested, by simp, by decide⟩
  · refine (((write_cost_exact hlimit).2.1 [generator] .flat ?_).1).mpr ?_
    · exact List.forall_mem_singleton.mpr ⟨by decide, hu8, List.forall_mem_singleton.mpr hrandom⟩
    · exact ⟨generator, List.mem_cons_self, random, List.mem_cons_self, by decide⟩

end FuzzFrontend
