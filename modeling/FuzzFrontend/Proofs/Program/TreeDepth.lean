import FuzzFrontend.Proofs.Program.Limited
import FuzzFrontend.Proofs.Program.RoundTrip

/-!
How deep the trees of programs are. Levels are counted where the reader calls itself: for arguments
of calls, statements in bodies, right operands and targets of pointers. A left operand is no level,
since chains are read by a loop.

The limit on nesting bounds the depth of statements. Calls and bodies are counted against it, and
between two of them only right operands lie, each of which binds tighter than the one around it.
Pointers are not counted against the limit, and nothing else bounds how many of them are read.
-/
namespace FuzzFrontend

open Program.Grammar (isName)

section Depth

/-- The depth of the deepest of some parts. -/
def deepest {α : Type} (depth : α → Nat) : List α → Nat
  | [] => 0
  | x :: rest => max (depth x) (deepest depth rest)

theorem deepest_le_iff {α : Type} {depth : α → Nat} {xs : List α} {n : Nat} :
    deepest depth xs ≤ n ↔ ∀ x ∈ xs, depth x ≤ n := by
  induction xs with
  | nil => simp [deepest]
  | cons x xs ih => simp only [deepest, Nat.max_le, ih, List.forall_mem_cons]

mutual

/-- How many levels of targets of pointers there are. -/
def Ty.depth : Ty → Nat
  | .scalar _ => 0
  | .pointer target => target.depth + 1
  | .struct _ members _ => Member.depthAll members
  | .enum _ _ _ => 0

def Member.depthAll : List Member → Nat
  | [] => 0
  | .mk _ ty :: rest => max ty.depth (Member.depthAll rest)

end

mutual

def TypeExpr.depth : TypeExpr → Nat
  | .known ty => ty.depth
  | .inline definition => definition.depth
  | .structNamed _ => 0
  | .enumNamed _ => 0

def Definition.depth : Definition → Nat
  | .struct _ fields => Field.depthAll fields
  | .enum _ _ => 0

def Field.depthAll : List Field → Nat
  | [] => 0
  | .mk _ ty :: rest => max ty.depth (Field.depthAll rest)

end

def Declaration.depth : Declaration → Nat
  | .header _ _ => 0
  | .typedef source _ => source.depth
  | .define definition => definition.depth
  | .free decl => decl.ty.depth
  | .constrained _ ty => ty.depth
  | .function signature => max signature.result.depth (deepest TypeExpr.depth signature.parameters)

mutual

/-- How many levels of arguments and right operands there are. -/
def Expr.depth : Expr → Nat
  | .integer _ => 0
  | .decimal _ => 0
  | .var _ _ => 0
  | .call _ arguments => Expr.depthBelow arguments
  | .compound left _ right => max left.depth (right.depth + 1)
  | .field _ _ => 0

/-- The levels from a call on, none if it has no arguments. -/
def Expr.depthBelow : List Expr → Nat
  | [] => 0
  | e :: rest => max (e.depth + 1) (Expr.depthBelow rest)

end

mutual

/-- How many levels of statements, arguments and right operands there are. -/
def Stmt.depth : Stmt → Nat
  | .bare expr => expr.depth
  | .assign target value => max target.depth value.depth
  | .verify expr => expr.depth
  | .constrain expr => expr.depth
  | .branch condition body => max condition.depth (Stmt.depthBelow body)
  | .loop condition body => max condition.depth (Stmt.depthBelow body)

/-- The levels from a body on, none if it is empty. -/
def Stmt.depthBelow : List Stmt → Nat
  | [] => 0
  | s :: rest => max (s.depth + 1) (Stmt.depthBelow rest)

end

def Program.depth (p : Program) : Nat :=
  max (deepest Declaration.depth p.declarations) (deepest Stmt.depth p.statements)

theorem Expr.depthBelow_le_iff {es : List Expr} {n : Nat} :
    Expr.depthBelow es ≤ n ↔ ∀ e ∈ es, e.depth + 1 ≤ n := by
  induction es with
  | nil => simp [Expr.depthBelow]
  | cons e es ih => simp only [Expr.depthBelow, Nat.max_le, ih, List.forall_mem_cons]

theorem Stmt.depthBelow_le_iff {body : List Stmt} {n : Nat} :
    Stmt.depthBelow body ≤ n ↔ ∀ s ∈ body, s.depth + 1 ≤ n := by
  induction body with
  | nil => simp [Stmt.depthBelow]
  | cons s body ih => simp only [Stmt.depthBelow, Nat.max_le, ih, List.forall_mem_cons]

theorem Field.depthAll_le_iff {fields : List Field} {n : Nat} :
    Field.depthAll fields ≤ n ↔ ∀ f ∈ fields, ∀ name ty, f = .mk name ty → ty.depth ≤ n := by
  induction fields with
  | nil => simp [Field.depthAll]
  | cons f fields ih =>
      obtain ⟨name, ty⟩ := f
      simp [Field.depthAll, ih]

theorem Program.depth_le_iff {p : Program} {n : Nat} :
    p.depth ≤ n ↔ (∀ d ∈ p.declarations, d.depth ≤ n) ∧ ∀ s ∈ p.statements, s.depth ≤ n := by
  rw [Program.depth, Nat.max_le, deepest_le_iff, deepest_le_iff]

end Depth

section Statements

theorem BinaryOp.level_bounds (op : BinaryOp) : 1 ≤ op.level ∧ op.level ≤ 4 := by
  cases op <;> decide

/-- The tighter the operator at the root binds, the fewer right operands lie before a call. -/
theorem Expr.depth_le_of_root {e : Expr} (h : e.Spellable) {bound : Nat} (hbound : bound ≤ 5)
    (hroot : ∀ op ∈ e.rootOp?, bound ≤ op.level) :
    e.depth ≤ 5 * e.nesting + (5 - bound) := by
  induction h generalizing bound with
  | integer _ => exact Nat.zero_le _
  | decimal _ => exact Nat.zero_le _
  | var _ => exact Nat.zero_le _
  | field _ _ => exact Nat.zero_le _
  | @call name arguments _ _ ih =>
      have hargument : ∀ a ∈ arguments, a.depth + 1 ≤ 5 * (Expr.nestingAll arguments + 1) := by
        intro a ha
        have hdepth := ih a ha (by omega) fun op _ => op.level_bounds.1
        have hnesting := Expr.nestingAll_le_iff.mp (Nat.le_refl _) a ha
        omega
      have hcall := Expr.depthBelow_le_iff.mpr hargument
      simp only [Expr.depth, Expr.nesting]
      omega
  | @compound left right op _ _ hleft hright ihl ihr =>
      have hop : bound ≤ op.level := hroot op rfl
      have hlevel := op.level_bounds.2
      have hl := ihl (by omega) hleft
      have hr := ihr (by omega) hright
      simp only [Expr.depth, Expr.nesting]
      omega

/-- One level for a call and one for each of the four levels of operators. -/
theorem Expr.depth_le {e : Expr} (h : e.Spellable) : e.depth ≤ 5 * e.nesting + 4 :=
  Expr.depth_le_of_root h (by omega) fun op _ => op.level_bounds.1

theorem Stmt.depth_le {s : Stmt} (h : s.Spellable) : s.depth ≤ 5 * s.nesting + 4 := by
  have hconditional : ∀ {condition : Expr} {body : List Stmt}, condition.Spellable →
      (∀ s ∈ body, s.depth ≤ 5 * s.nesting + 4) →
        max condition.depth (Stmt.depthBelow body) ≤
          5 * max condition.nesting (Stmt.nestingAll body + 1) + 4 := by
    intro condition body hc hbody
    have hcondition := Expr.depth_le hc
    have hbelow : Stmt.depthBelow body ≤ 5 * (Stmt.nestingAll body + 1) := by
      refine Stmt.depthBelow_le_iff.mpr fun s hs => ?_
      have hdepth := hbody s hs
      have hnesting := Stmt.nestingAll_le_iff.mp (Nat.le_refl _) s hs
      omega
    omega
  induction h with
  | bare h => exact Expr.depth_le h
  | assign ht hv =>
      have htarget := Expr.depth_le ht
      have hvalue := Expr.depth_le hv
      simp only [Stmt.depth, Stmt.nesting]
      omega
  | verify h => exact Expr.depth_le h
  | constrain h => exact Expr.depth_le h
  | branch hc _ ih => exact hconditional hc ih
  | loop hc _ ih => exact hconditional hc ih

end Statements

section Declarations

/-- The types that a declaration refers to. -/
def Declaration.references : Declaration → List TypeExpr
  | .header _ _ => []
  | .typedef source _ => [source]
  | .define _ => []
  | .free decl => [decl.ty]
  | .constrained _ ty => [ty]
  | .function signature => signature.result :: signature.parameters

theorem Ty.depth_of_isTarget {ty : Ty} (h : ty.IsTarget) : ty.depth = ty.indirections := by
  match ty, h with
  | .scalar _, _ => rfl
  | .pointer target, h => exact congrArg (· + 1) (Ty.depth_of_isTarget h)
  | .struct _ _ _, ⟨_, rfl, rfl⟩ => rfl
  | .enum _ _ _, _ => rfl

theorem TypeExpr.depth_of_spellable {ty : TypeExpr} (h : ty.Spellable) :
    ty.depth = ty.target.indirections := by
  match ty, h with
  | .known (.scalar _), _ => rfl
  | .known (.pointer target), h => exact congrArg (· + 1) (Ty.depth_of_isTarget h)
  | .structNamed _, _ => rfl
  | .enumNamed _, _ => rfl

theorem Definition.depth_le {d : Definition} (h : d.Spellable) : d.depth ≤ 1 := by
  cases d with
  | enum name values => exact Nat.zero_le _
  | struct name fields =>
      refine Field.depthAll_le_iff.mpr fun f hf name ty hty => ?_
      subst hty
      match ty, h.2 _ hf with
      | .known (.scalar _), _ => exact Nat.zero_le _
      | .known (.pointer (.scalar _)), _ => exact Nat.le_refl _
      | .structNamed _, _ => exact Nat.zero_le _
      | .enumNamed _, _ => exact Nat.zero_le _

theorem Declaration.depth_le_iff {d : Declaration} (h : d.Spellable) {n : Nat} (hn : 1 ≤ n) :
    d.depth ≤ n ↔ ∀ ty ∈ d.references, ty.target.indirections ≤ n := by
  cases d with
  | header path style => simp [Declaration.depth, Declaration.references]
  | typedef source name =>
      simp [Declaration.depth, Declaration.references, TypeExpr.depth_of_spellable h.1]
  | define definition =>
      have hdepth := Nat.le_trans (Definition.depth_le h) hn
      simpa [Declaration.depth, Declaration.references] using hdepth
  | free decl =>
      simp [Declaration.depth, Declaration.references, TypeExpr.depth_of_spellable h.2.2]
  | constrained name ty =>
      simp [Declaration.depth, Declaration.references, TypeExpr.depth_of_spellable h.2]
  | function signature =>
      have hparameters : (∀ ty ∈ signature.parameters, ty.depth ≤ n) ↔
          ∀ ty ∈ signature.parameters, ty.target.indirections ≤ n := by
        refine forall₂_congr fun ty hty => ?_
        rw [TypeExpr.depth_of_spellable (h.2.2 ty hty)]
      rw [Declaration.depth, Nat.max_le, deepest_le_iff, TypeExpr.depth_of_spellable h.2.1,
        hparameters, Declaration.references, List.forall_mem_cons]

end Declarations

namespace Program

open Scan

/-- The limit bounds the depth of the statements. What is read under it is bounded as soon as the
chains of pointers in type references are, and not before. -/
theorem read_depth_le_iff {source : String} {limits : Limits} {p : Program}
    (h : read source limits = .ok p) :
    (∀ s ∈ p.statements, s.depth ≤ 5 * (min limits.nesting 237).toNat + 4) ∧
      ∀ bound, 5 * (min limits.nesting 237).toNat + 4 ≤ bound →
        (p.depth ≤ bound ↔
          ∀ d ∈ p.declarations, ∀ ty ∈ d.references, ty.target.indirections ≤ bound) := by
  obtain ⟨hp, hnesting⟩ := Grammar.spellable_of_program rfl (program_of_read h)
  rw [room_of_limit, clamped_nesting] at hnesting
  have hstatements : ∀ s ∈ p.statements, s.depth ≤ 5 * (min limits.nesting 237).toNat + 4 := by
    intro s hs
    have hdepth := Stmt.depth_le (hp.statements s hs)
    have hlimit := Stmt.nestingAll_le_iff.mp hnesting s hs
    omega
  refine ⟨hstatements, fun bound hbound => ?_⟩
  have hdeclarations : (∀ d ∈ p.declarations, d.depth ≤ bound) ↔
      ∀ d ∈ p.declarations, ∀ ty ∈ d.references, ty.target.indirections ≤ bound := by
    refine forall₂_congr fun d hd => ?_
    exact Declaration.depth_le_iff (hp.declarations d hd) (by omega)
  rw [depth_le_iff, hdeclarations]
  exact and_iff_left fun s hs => Nat.le_trans (hstatements s hs) hbound

/-- At the bound: four pointers under a limit of zero, and one operator of each level. -/
theorem read_depth_le_four :
    let ty : Ty := .pointer (.pointer (.pointer (.pointer (.scalar .i32))))
    let v := Expr.var .plain
    let e := Expr.compound (v "a") .and (.compound (v "b") .equal (.compound (v "c") .add
      (.compound (v "d") .mul (v "e"))))
    let p : Program := ⟨[.typedef (.known ty) "t"], [.verify e]⟩
    let source := "typedef pointer pointer pointer pointer i32 t;\n" ++
      "verify:new a && b == c + d * e\n"
    read source { sourceSize := 0, nesting := 0 } = .ok p ∧ e.depth = 4 ∧ p.depth ≤ 4 := by
  intro ty v e p source
  have hv : ∀ name, isName name = true → (v name).Spellable := fun name h => .var h
  have he : e.Spellable := by
    refine .compound (hv _ (by decide)) (.compound (hv _ (by decide)) (.compound (hv _ (by decide))
      (.compound (hv _ (by decide)) (hv _ (by decide)) ?_ ?_) ?_ ?_) ?_ ?_) ?_ ?_
    all_goals simp [v, Expr.rootOp?, BinaryOp.level]
  have hp : p.Spellable := by
    refine ⟨List.pairwise_singleton _ _, fun d hd => ?_, fun s hs => ?_⟩
    · obtain rfl := List.mem_singleton.mp hd
      exact ⟨trivial, by decide⟩
    · obtain rfl := List.mem_singleton.mp hs
      exact .verify he
  have hwrite : p.write true none = .ok source := rfl
  have hread : read source { sourceSize := 0, nesting := 0 } = .ok p := by
    rw [read_eq_ok_iff rfl]
    exact (program_of_write hp hwrite _).mpr (by decide)
  refine ⟨hread, rfl, ((read_depth_le_iff hread).2 4 (by decide)).mpr fun d hd ty hty => ?_⟩
  obtain rfl := List.mem_singleton.mp hd
  obtain rfl := List.mem_singleton.mp hty
  exact Nat.le_refl _

section Pointers

/-- A chain of pointers. -/
def pointers : Nat → Ty
  | 0 => .scalar .i32
  | n + 1 => .pointer (pointers n)

theorem isTarget_pointers (n : Nat) : (pointers n).IsTarget := by
  induction n with
  | zero => trivial
  | succ n ih => exact ih

theorem depth_pointers (n : Nat) : (pointers n).depth = n := by
  induction n with
  | zero => rfl
  | succ n ih => exact congrArg (· + 1) ih

theorem pointee_pointers (n : Nat) : (pointers n).pointee = .scalar .i32 := by
  induction n with
  | zero => rfl
  | succ n ih => exact ih

theorem exists_read_pointers (n : Nat) (limit : Int) :
    ∃ source, read source { sourceSize := 0, nesting := limit } =
      .ok ⟨[.typedef (.known (pointers n)) "t"], []⟩ := by
  have htype : (TypeExpr.known (pointers n)).Spellable := by
    cases n with
    | zero => trivial
    | succ n => exact isTarget_pointers n
  have hp : Spellable ⟨[.typedef (.known (pointers n)) "t"], []⟩ := by
    refine ⟨List.pairwise_singleton _ _, fun d hd => ?_, List.forall_mem_nil _⟩
    obtain rfl := List.mem_singleton.mp hd
    exact ⟨htype, by decide⟩
  obtain ⟨t, ht⟩ : ∃ t, (TypeExpr.known (pointers n)).write = .ok t := by
    simp [TypeExpr.write, Ty.write, pointee_pointers]
  obtain ⟨text, hspelled⟩ : ∃ text, Spelled ⟨[.typedef (.known (pointers n)) "t"], []⟩ text :=
    ⟨_, _, [], .cons blank_nil (Declaration.Spelled.typedef ht) gap_newline (.nil blank_nil),
      .nil blank_nil, rfl⟩
  refine ⟨String.ofList text, ?_⟩
  rw [read_eq_ok_iff (sizeError?_eq_none (Int.le_refl 0) _ _), String.toList_ofList]
  exact Grammar.program_of_spelled hp (Nat.zero_le _) hspelled

/-- No bound on the depth of programs follows from the limit on nesting. -/
theorem depth_unbounded :
    ¬ ∃ bound : Int → Nat, ∀ (limits : Limits) (source : String) (p : Program),
      read source limits = .ok p → p.depth ≤ bound limits.nesting := by
  rintro ⟨bound, hbound⟩
  obtain ⟨source, hread⟩ := exists_read_pointers (bound 0 + 1) 0
  have hdepth := (depth_le_iff.mp (hbound _ source _ hread)).1 _ List.mem_cons_self
  rw [Declaration.depth, TypeExpr.depth, depth_pointers] at hdepth
  exact absurd hdepth (Nat.not_succ_le_self _)

end Pointers

end Program

end FuzzFrontend
