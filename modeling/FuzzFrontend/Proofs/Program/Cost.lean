import FuzzFrontend.Proofs.Fitting
import FuzzFrontend.Proofs.Program.Checked
import FuzzFrontend.Proofs.Program.TreeDepth

namespace FuzzFrontend

section Forms

/-- What pointers in a reference end in: a scalar, or the placeholder of a named type. -/
def Ty.EndsInReference : Ty → Prop
  | .scalar _ => True
  | .pointer target => target.EndsInReference
  | .struct _ _ forward => forward = true
  | .enum _ _ forward => forward = true

/-- The forms of type references, whatever the names in them are. -/
def TypeExpr.HasForm : TypeExpr → Prop
  | .known (.scalar _) => True
  | .known (.pointer target) => target.EndsInReference
  | .structNamed _ => True
  | .enumNamed _ => True
  | _ => False

/-- The four forms of fields. -/
def Field.HasForm : Field → Prop
  | .mk _ (.known (.scalar _)) => True
  | .mk _ (.known (.pointer (.scalar _))) => True
  | .mk _ (.structNamed _) => True
  | .mk _ (.enumNamed _) => True
  | _ => False

/-- The types and fields of a declaration have one of their forms, and the path of a header does
not close itself. -/
def Declaration.HasForm : Declaration → Prop
  | .header path style => style.closing ∉ path.toList
  | .typedef source _ => source.HasForm
  | .define (.struct _ fields) => ∀ f ∈ fields, f.HasForm
  | .define (.enum _ _) => True
  | .free decl => decl.ty.HasForm
  | .constrained _ ty => ty.HasForm
  | .function signature => signature.result.HasForm ∧ ∀ ty ∈ signature.parameters, ty.HasForm

/-- No operand needs brackets: on the left none binds looser than its operator, and on the right
all bind tighter. -/
inductive Expr.Unbracketed : Expr → Prop
  | integer (text : String) : Unbracketed (.integer text)
  | decimal (text : String) : Unbracketed (.decimal text)
  | var (op : UnaryOp) (name : String) : Unbracketed (.var op name)
  | call {name : String} {arguments : List Expr} (h : ∀ a ∈ arguments, Unbracketed a) :
      Unbracketed (.call name arguments)
  | compound {left right : Expr} {op : BinaryOp} (hl : Unbracketed left) (hr : Unbracketed right)
      (hleft : ∀ inner ∈ left.rootOp?, op.level ≤ inner.level)
      (hright : ∀ inner ∈ right.rootOp?, op.level < inner.level) :
      Unbracketed (.compound left op right)
  | field (object member : String) : Unbracketed (.field object member)

inductive Stmt.Unbracketed : Stmt → Prop
  | bare {expr : Expr} (h : expr.Unbracketed) : Unbracketed (.bare expr)
  | assign {target value : Expr} (ht : target.Unbracketed) (hv : value.Unbracketed) :
      Unbracketed (.assign target value)
  | verify {expr : Expr} (h : expr.Unbracketed) : Unbracketed (.verify expr)
  | constrain {expr : Expr} (h : expr.Unbracketed) : Unbracketed (.constrain expr)
  | branch {condition : Expr} {body : List Stmt} (hc : condition.Unbracketed)
      (hbody : ∀ s ∈ body, Unbracketed s) : Unbracketed (.branch condition body)
  | loop {condition : Expr} {body : List Stmt} (hc : condition.Unbracketed)
      (hbody : ∀ s ∈ body, Unbracketed s) : Unbracketed (.loop condition body)

/-- Nothing in the structure of a program keeps it from being written: no declaration stands before
one of an earlier phase, each has its form, and no operand needs brackets. Names and literals may be
any texts. -/
structure Program.WellFormed (p : Program) : Prop where
  ordered : p.declarations.Pairwise fun d d' => d.phase.rank ≤ d'.phase.rank
  declarations : ∀ d ∈ p.declarations, d.HasForm
  statements : ∀ s ∈ p.statements, s.Unbracketed

theorem Ty.endsInReference_iff : ∀ {target : Ty},
    target.EndsInReference ↔ ∃ t, (Ty.pointer target).write = .ok t
  | .scalar _ => by simp [EndsInReference, Ty.write, pointee]
  | .pointer target => by
      have htarget := @Ty.endsInReference_iff target
      simp only [EndsInReference, htarget, Ty.write, pointee, indirections]
      cases target.pointee with
      | scalar kind => simp
      | pointer inner => simp
      | struct name members forward => cases forward <;> simp
      | enum name values forward => cases forward <;> simp
  | .struct _ _ forward => by
      cases forward <;> simp [EndsInReference, Ty.write, pointee, indirections]
  | .enum _ _ forward => by
      cases forward <;> simp [EndsInReference, Ty.write, pointee, indirections]

theorem TypeExpr.hasForm_iff {ty : TypeExpr} : ty.HasForm ↔ ∃ t, ty.write = .ok t := by
  match ty with
  | .known (.scalar _) => simp [HasForm, TypeExpr.write, Ty.write, Ty.pointee]
  | .known (.pointer _) => exact Ty.endsInReference_iff
  | .known (.struct _ _ forward) =>
      cases forward <;> simp [HasForm, TypeExpr.write, Ty.write, Ty.pointee, Ty.indirections]
  | .known (.enum _ _ forward) =>
      cases forward <;> simp [HasForm, TypeExpr.write, Ty.write, Ty.pointee, Ty.indirections]
  | .inline _ => simp [HasForm, TypeExpr.write]
  | .structNamed _ => simp [HasForm, TypeExpr.write]
  | .enumNamed _ => simp [HasForm, TypeExpr.write]

theorem Field.hasForm_iff {f : Field} {struct : String} :
    f.HasForm ↔ ∃ line, f.write struct = .ok line := by
  match f with
  | .mk _ (.known (.scalar _)) => simp [HasForm, Field.write]
  | .mk _ (.known (.pointer (.scalar _))) => simp [HasForm, Field.write]
  | .mk _ (.known (.pointer (.pointer _))) => simp [HasForm, Field.write]
  | .mk _ (.known (.pointer (.struct _ _ _))) => simp [HasForm, Field.write]
  | .mk _ (.known (.pointer (.enum _ _ _))) => simp [HasForm, Field.write]
  | .mk _ (.known (.struct _ _ _)) => simp [HasForm, Field.write]
  | .mk _ (.known (.enum _ _ _)) => simp [HasForm, Field.write]
  | .mk _ (.inline _) => simp [HasForm, Field.write]
  | .mk _ (.structNamed _) => simp [HasForm, Field.write]
  | .mk _ (.enumNamed _) => simp [HasForm, Field.write]

theorem Declaration.hasForm_iff {d : Declaration} : d.HasForm ↔ ∃ t, d.write = .ok t := by
  cases d with
  | header path style =>
      simp only [HasForm, Declaration.write]
      split <;> simp_all
  | typedef source name =>
      rw [HasForm, TypeExpr.hasForm_iff]
      exact (exists_bind_eq_ok fun _ => ⟨_, rfl⟩).symm
  | define definition =>
      cases definition with
      | struct name fields =>
          rw [HasForm, Declaration.write, Definition.write_struct]
          exact forall₂_congr fun f _ => Field.hasForm_iff
      | enum name values => simp [HasForm, Declaration.write, Definition.write]
  | free decl =>
      rw [HasForm, TypeExpr.hasForm_iff]
      exact (exists_bind_eq_ok fun _ => ⟨_, rfl⟩).symm
  | constrained name ty =>
      rw [HasForm, TypeExpr.hasForm_iff]
      exact (exists_bind_eq_ok fun _ => ⟨_, rfl⟩).symm
  | function signature =>
      rw [write_function, HasForm, TypeExpr.hasForm_iff]
      exact and_congr_right fun _ => forall₂_congr fun ty _ => TypeExpr.hasForm_iff

theorem Expr.bracketFault?_of_unbracketed {e : Expr} (h : e.Unbracketed) :
    e.bracketFault? = none := by
  induction h with
  | compound _ _ hleft hright ihl _ => exact bracketFault?_compound.mpr ⟨hleft, hright, ihl⟩
  | _ => rfl

theorem Expr.unbracketed_of_spellable {e : Expr} (h : e.Spellable) : e.Unbracketed := by
  induction h with
  | integer _ => exact .integer _
  | decimal _ => exact .decimal _
  | var _ => exact .var _ _
  | call _ _ ih => exact .call ih
  | compound _ _ hleft hright ihl ihr => exact .compound ihl ihr hleft hright
  | field _ _ => exact .field _ _

theorem Stmt.unbracketed_of_spellable {s : Stmt} (h : s.Spellable) : s.Unbracketed := by
  induction h with
  | bare h => exact .bare (Expr.unbracketed_of_spellable h)
  | assign ht hv =>
      exact .assign (Expr.unbracketed_of_spellable ht) (Expr.unbracketed_of_spellable hv)
  | verify h => exact .verify (Expr.unbracketed_of_spellable h)
  | constrain h => exact .constrain (Expr.unbracketed_of_spellable h)
  | branch hc _ ih => exact .branch (Expr.unbracketed_of_spellable hc) ih
  | loop hc _ ih => exact .loop (Expr.unbracketed_of_spellable hc) ih

theorem Program.wellFormed_of_spellable {p : Program} (h : p.Spellable) : p.WellFormed where
  ordered := h.ordered
  declarations d hd := Declaration.hasForm_iff.mpr
    (Declaration.spellable_iff.mp (h.declarations d hd)).2.1
  statements s hs := Stmt.unbracketed_of_spellable (h.statements s hs)

end Forms

section Cost

mutual

/-- The levels that writing an expression takes: one for a call and one for a chain. The left
operand of a chain goes on with it and takes no level of its own. -/
def Expr.costIn (inChain : Bool) : Expr → Nat
  | .integer _ => 0
  | .decimal _ => 0
  | .var _ _ => 0
  | .call _ arguments => Expr.costAll arguments + 1
  | .compound left _ right =>
      max (left.costIn true) (right.costIn false) + if inChain then 0 else 1
  | .field _ _ => 0

def Expr.costAll : List Expr → Nat
  | [] => 0
  | e :: rest => max (e.costIn false) (Expr.costAll rest)

end

/-- The levels that writing an expression takes. -/
def Expr.cost (e : Expr) : Nat :=
  e.costIn false

/-- The operands of a chain: the leftmost one, and the right ones from there to the root. -/
def Expr.operands : Expr → List Expr
  | .compound left _ right => left.operands ++ [right]
  | e => [e]

mutual

/-- The levels that writing a statement takes. An empty body takes none. -/
def Stmt.cost : Stmt → Nat
  | .bare expr => expr.cost
  | .assign target value => max target.cost value.cost
  | .verify expr => expr.cost
  | .constrain expr => expr.cost
  | .branch condition body => max condition.cost (Stmt.costBelow body)
  | .loop condition body => max condition.cost (Stmt.costBelow body)

/-- The levels from a body on, none if it is empty. -/
def Stmt.costBelow : List Stmt → Nat
  | [] => 0
  | s :: rest => max (s.cost + 1) (Stmt.costBelow rest)

end

theorem Expr.costAll_le_iff {es : List Expr} {n : Nat} :
    Expr.costAll es ≤ n ↔ ∀ e ∈ es, e.cost ≤ n := by
  induction es with
  | nil => simp [Expr.costAll]
  | cons e es ih => simp only [Expr.costAll, Nat.max_le, ih, List.forall_mem_cons, Expr.cost]

theorem Stmt.costBelow_le_iff {body : List Stmt} {n : Nat} :
    Stmt.costBelow body ≤ n ↔ ∀ s ∈ body, s.cost + 1 ≤ n := by
  induction body with
  | nil => simp [Stmt.costBelow]
  | cons s body ih => simp only [Stmt.costBelow, Nat.max_le, ih, List.forall_mem_cons]

theorem Stmt.costBelow_cons (s : Stmt) (body : List Stmt) :
    Stmt.costBelow (s :: body) = deepest Stmt.cost (s :: body) + 1 := by
  refine eq_of_forall_ge_iff fun n => ?_
  cases n with
  | zero => simp [Stmt.costBelow]
  | succ n => simp only [Nat.succ_le_succ_iff, deepest_le_iff, costBelow_le_iff]

theorem Expr.costIn_true_le_iff {e : Expr} {n : Nat} :
    e.costIn true ≤ n ↔ ∀ a ∈ e.operands, a.cost ≤ n := by
  induction e with
  | compound left op right ihl _ =>
      simp [Expr.costIn, Expr.operands, or_imp, forall_and, ihl, Expr.cost]
  | _ => simp [Expr.costIn, Expr.operands, Expr.cost]

theorem Expr.cost_compound (left right : Expr) (op : BinaryOp) :
    (Expr.compound left op right).cost =
      deepest Expr.cost (Expr.compound left op right).operands + 1 := by
  have hoperands : max (left.costIn true) (right.costIn false) =
      deepest Expr.cost (Expr.compound left op right).operands := by
    refine eq_of_forall_ge_iff fun n => ?_
    rw [deepest_le_iff, ← costIn_true_le_iff, Expr.costIn, if_pos rfl, Nat.add_zero]
  simp [Expr.cost, Expr.costIn, ← hoperands]

end Cost

section Writing

theorem Expr.writeAll_fits {g : DepthGuard} {es : List Expr}
    (h : ∀ e ∈ es, Fits g (e.cost ≤ g.room) (e.write g false)) :
    Fits g (Expr.costAll es ≤ g.room) (Expr.writeAll g es) := by
  induction es with
  | nil => exact (Fits.ok "").congr (by simp [Expr.costAll])
  | cons e es ih =>
      have hrest := ih fun a ha => h a (List.mem_cons_of_mem _ ha)
      exact (h e List.mem_cons_self).both hrest fun text others => " " ++ text ++ others

theorem Expr.write_fits {e : Expr} (h : e.Unbracketed) (g : DepthGuard) (inChain : Bool) :
    Fits g (e.costIn inChain ≤ g.room) (e.write g inChain) := by
  induction e generalizing g inChain with
  | integer text => exact (Fits.ok text).congr (by simp [Expr.costIn])
  | decimal text => exact (Fits.ok text).congr (by simp [Expr.costIn])
  | var op name => exact (Fits.ok _).congr (by simp [Expr.costIn])
  | field object member => exact (Fits.ok _).congr (by simp [Expr.costIn])
  | call name arguments ih =>
      cases h with
      | call harguments =>
          refine Fits.enter fun inner => ?_
          have hall := writeAll_fits fun a ha => ih a ha (harguments a ha) inner false
          exact hall.map _
  | compound left op right ihl ihr =>
      rw [write_compound, bracketFault?_of_unbracketed h]
      cases h with
      | compound hl hr _ _ =>
          -- The left operand goes on in the chain whose root has entered the guard; the right one
          -- starts anew.
          exact Fits.chain (fun inner => ihl hl inner true) (fun inner => ihr hr inner false)
            (fun tl tr => tl ++ " " ++ op.symbol ++ " " ++ tr) inChain

theorem Stmt.writeAll_fits {g : DepthGuard} {indent : String} {body : List Stmt}
    (h : ∀ s ∈ body, Fits g (s.cost ≤ g.room) (s.write g indent)) :
    Fits g (∀ s ∈ body, s.cost ≤ g.room) (Stmt.writeAll g indent body) := by
  induction body with
  | nil => exact (Fits.ok "").congr (by simp)
  | cons s body ih =>
      have hrest := ih fun a ha => h a (List.mem_cons_of_mem _ ha)
      have hall := (h s List.mem_cons_self).bind fun text => hrest.map fun others => text ++ others
      refine hall.congr ?_
      rw [List.forall_mem_cons]

theorem Stmt.writeBody_fits {g : DepthGuard} {indent : String} {body : List Stmt}
    (h : ∀ s ∈ body, ∀ g indent, Fits g (s.cost ≤ g.room) (s.write g indent)) :
    Fits g (Stmt.costBelow body ≤ g.room) (Stmt.writeBody g indent body) := by
  cases body with
  | nil => exact (Fits.ok _).congr (by simp [Stmt.costBelow])
  | cons s body =>
      have hinside : ∀ inner : DepthGuard,
          Fits inner (deepest Stmt.cost (s :: body) ≤ inner.room) (do
            let first ← s.write inner (indent ++ "    ")
            let others ← Stmt.writeAll inner (indent ++ "    ") body
            return " \x7b\n" ++ first ++ others ++ indent ++ "\x7d") := by
        intro inner
        have hrest := writeAll_fits fun a ha =>
          h a (List.mem_cons_of_mem _ ha) inner (indent ++ "    ")
        have hall := (h s List.mem_cons_self inner (indent ++ "    ")).bind fun first =>
          hrest.map fun others => " \x7b\n" ++ first ++ others ++ indent ++ "\x7d"
        refine hall.congr ?_
        rw [deepest_le_iff, List.forall_mem_cons]
      rw [costBelow_cons]
      exact Fits.enter hinside

theorem Stmt.conditional_fits {g : DepthGuard} {indent : String} {condition : Expr}
    {body : List Stmt} (hc : condition.Unbracketed)
    (hbody : ∀ s ∈ body, ∀ g indent, Fits g (s.cost ≤ g.room) (s.write g indent))
    (line : String → String → String) :
    Fits g (max condition.cost (Stmt.costBelow body) ≤ g.room) (do
      let test ← condition.write g false
      let text ← Stmt.writeBody g indent body
      return line test text) :=
  (Expr.write_fits hc g false).both (writeBody_fits hbody) line

theorem Stmt.write_fits {s : Stmt} (h : s.Unbracketed) (g : DepthGuard) (indent : String) :
    Fits g (s.cost ≤ g.room) (s.write g indent) := by
  induction s generalizing g indent with
  | bare expr =>
      cases h with
      | bare h => exact (Expr.write_fits h g false).map _
  | assign target value =>
      cases h with
      | assign ht hv =>
          exact (Expr.write_fits ht g false).both (Expr.write_fits hv g false) fun left right =>
            indent ++ left ++ " = " ++ right ++ "\n"
  | verify expr =>
      cases h with
      | verify h => exact (Expr.write_fits h g false).map _
  | constrain expr =>
      cases h with
      | constrain h => exact (Expr.write_fits h g false).map _
  | branch condition body ih =>
      cases h with
      | branch hc hbody =>
          exact conditional_fits hc (fun s hs => ih s hs (hbody s hs)) fun test text =>
            indent ++ "if ( " ++ test ++ " )" ++ text ++ "\n"
  | loop condition body ih =>
      cases h with
      | loop hc hbody =>
          exact conditional_fits hc (fun s hs => ih s hs (hbody s hs)) fun test text =>
            indent ++ "while ( " ++ test ++ " )" ++ text ++ "\n"

/-- A well-formed program whose lexical checks pass, if they are made, is written if there is room
for each of its statements, and is stopped if not. -/
theorem Program.write_fits {p : Program} (hp : p.WellFormed) {validate : Bool}
    (hcheck : validate = true → p.check = .ok ()) (maxDepth : Option Int) :
    Fits (.ofRequest maxDepth)
      (∀ s ∈ p.statements, s.cost ≤ (DepthGuard.ofRequest maxDepth).room)
      (p.write validate maxDepth) := by
  obtain ⟨ds, hds⟩ : ∃ ds, Declaration.writeAll .headers p.declarations = .ok ds :=
    Declaration.writeAll_iff.mpr ⟨fun d hd => Declaration.hasForm_iff.mp (hp.declarations d hd),
      fun _ _ => Nat.zero_le _, hp.ordered⟩
  rw [write_of_check hcheck, hds]
  exact (Stmt.writeAll_fits fun s hs => Stmt.write_fits (hp.statements s hs) _ "").map _

end Writing

end FuzzFrontend
