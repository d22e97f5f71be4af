import FuzzFrontend.Program.Grammar.Name
import FuzzFrontend.GeneratorName
import FuzzFrontend.Word

namespace FuzzFrontend

open Program.Grammar (isName)

/-- Expressions are gone through part by part. -/
@[induction_eliminator]
theorem Expr.induct {P : Expr → Prop}
    (integer : ∀ text, P (.integer text)) (decimal : ∀ text, P (.decimal text))
    (var : ∀ op name, P (.var op name))
    (call : ∀ name arguments, (∀ a ∈ arguments, P a) → P (.call name arguments))
    (compound : ∀ left op right, P left → P right → P (.compound left op right))
    (field : ∀ object member, P (.field object member)) (e : Expr) : P e :=
  @Expr.rec P (fun es => ∀ a ∈ es, P a) integer decimal var call compound field
    (fun _ ha => absurd ha List.not_mem_nil)
    (fun _ _ he hes a ha => (List.mem_cons.mp ha).elim (fun h => h ▸ he) (hes a)) e

@[induction_eliminator]
theorem Stmt.induct {P : Stmt → Prop}
    (bare : ∀ expr, P (.bare expr)) (assign : ∀ target value, P (.assign target value))
    (verify : ∀ expr, P (.verify expr)) (constrain : ∀ expr, P (.constrain expr))
    (branch : ∀ condition body, (∀ s ∈ body, P s) → P (.branch condition body))
    (loop : ∀ condition body, (∀ s ∈ body, P s) → P (.loop condition body)) (s : Stmt) : P s :=
  @Stmt.rec P (fun body => ∀ s ∈ body, P s) bare assign verify constrain branch loop
    (fun _ hs => absurd hs List.not_mem_nil)
    (fun _ _ hs hbody t ht => (List.mem_cons.mp ht).elim (fun h => h ▸ hs) (hbody t)) s

section Nesting

mutual

/-- How deep calls stand in calls. -/
def Expr.nesting : Expr → Nat
  | .integer _ => 0
  | .decimal _ => 0
  | .var _ _ => 0
  | .call _ arguments => Expr.nestingAll arguments + 1
  | .compound left _ right => max left.nesting right.nesting
  | .field _ _ => 0

def Expr.nestingAll : List Expr → Nat
  | [] => 0
  | e :: rest => max e.nesting (Expr.nestingAll rest)

end

mutual

/-- How deep calls stand in calls and bodies in bodies. -/
def Stmt.nesting : Stmt → Nat
  | .bare expr => expr.nesting
  | .assign target value => max target.nesting value.nesting
  | .verify expr => expr.nesting
  | .constrain expr => expr.nesting
  | .branch condition body => max condition.nesting (Stmt.nestingAll body + 1)
  | .loop condition body => max condition.nesting (Stmt.nestingAll body + 1)

def Stmt.nestingAll : List Stmt → Nat
  | [] => 0
  | s :: rest => max s.nesting (Stmt.nestingAll rest)

end

def Program.nesting (p : Program) : Nat :=
  Stmt.nestingAll p.statements

theorem Expr.nestingAll_le_iff {es : List Expr} {n : Nat} :
    Expr.nestingAll es ≤ n ↔ ∀ e ∈ es, e.nesting ≤ n := by
  induction es with
  | nil => simp [Expr.nestingAll]
  | cons e es ih => simp only [Expr.nestingAll, Nat.max_le, ih, List.forall_mem_cons]

theorem Stmt.nestingAll_le_iff {body : List Stmt} {n : Nat} :
    Stmt.nestingAll body ≤ n ↔ ∀ s ∈ body, s.nesting ≤ n := by
  induction body with
  | nil => simp [Stmt.nestingAll]
  | cons s body ih => simp only [Stmt.nestingAll, Nat.max_le, ih, List.forall_mem_cons]

end Nesting

/-- What a pointer may point to: a scalar, another pointer, or the placeholder of a named type, of
which nothing but the name is known. -/
def Ty.IsTarget : Ty → Prop
  | .scalar _ => True
  | .pointer target => target.IsTarget
  | .struct name members forward => isName name = true ∧ members = [] ∧ forward = true
  | .enum name values forward => isName name = true ∧ values = [] ∧ forward = true

/-- A reference names a type, or is a scalar, or a pointer. -/
def TypeExpr.Spellable : TypeExpr → Prop
  | .known (.scalar _) => True
  | .known (.pointer target) => target.IsTarget
  | .structNamed name => isName name = true
  | .enumNamed name => isName name = true
  | _ => False

/-- A field has one of the four forms. -/
def Field.Spellable : Field → Prop
  | .mk name (.known (.scalar _)) => isName name = true
  | .mk name (.known (.pointer (.scalar _))) => isName name = true
  | .mk name (.structNamed reference) => isName name = true ∧ isName reference = true
  | .mk name (.enumNamed reference) => isName name = true ∧ isName reference = true
  | _ => False

/-- An entry of an enum has a name, and a value that a signed word holds. -/
def EnumValue.Spellable (v : EnumValue) : Prop :=
  isName v.name = true ∧ Word.IsSigned v.value

def Definition.Spellable : Definition → Prop
  | .struct name fields => isName name = true ∧ ∀ f ∈ fields, f.Spellable
  | .enum name values => isName name = true ∧ ∀ v ∈ values, v.Spellable

/-- A generator is named by a name, or by the mark of a standard one and a name. -/
def GeneratorName.Spellable (generator : String) : Prop :=
  isName generator = true ∨ ∃ own, isName own = true ∧ generator = ofOwn own

def Declaration.Spellable : Declaration → Prop
  | .header path style => '\n' ∉ path.toList ∧ style.closing ∉ path.toList
  | .typedef source name => source.Spellable ∧ isName name = true
  | .define definition => definition.Spellable
  | .free decl =>
      isName decl.name = true ∧ GeneratorName.Spellable decl.generator ∧ decl.ty.Spellable
  | .constrained name ty => isName name = true ∧ ty.Spellable
  | .function signature =>
      isName signature.name = true ∧ signature.result.Spellable ∧
        ∀ ty ∈ signature.parameters, ty.Spellable

/-- Names are names, literals are literals, and no operand needs brackets: on the left none binds
looser than its operator, and on the right all bind tighter. -/
inductive Expr.Spellable : Expr → Prop
  | integer {text : String} (h : Scan.isInteger text.toList = true) : Spellable (.integer text)
  | decimal {text : String} (h : Scan.isDecimal text.toList = true) : Spellable (.decimal text)
  | var {op : UnaryOp} {name : String} (h : isName name = true) : Spellable (.var op name)
  | call {name : String} {arguments : List Expr} (hname : isName name = true)
      (harguments : ∀ a ∈ arguments, Spellable a) : Spellable (.call name arguments)
  | compound {left right : Expr} {op : BinaryOp} (hl : Spellable left) (hr : Spellable right)
      (hleft : ∀ inner ∈ left.rootOp?, op.level ≤ inner.level)
      (hright : ∀ inner ∈ right.rootOp?, op.level < inner.level) :
      Spellable (.compound left op right)
  | field {object member : String} (hobject : isName object = true)
      (hmember : isName member = true) : Spellable (.field object member)

inductive Stmt.Spellable : Stmt → Prop
  | bare {expr : Expr} (h : expr.Spellable) : Spellable (.bare expr)
  | assign {target value : Expr} (ht : target.Spellable) (hv : value.Spellable) :
      Spellable (.assign target value)
  | verify {expr : Expr} (h : expr.Spellable) : Spellable (.verify expr)
  | constrain {expr : Expr} (h : expr.Spellable) : Spellable (.constrain expr)
  | branch {condition : Expr} {body : List Stmt} (hc : condition.Spellable)
      (hbody : ∀ s ∈ body, Spellable s) : Spellable (.branch condition body)
  | loop {condition : Expr} {body : List Stmt} (hc : condition.Spellable)
      (hbody : ∀ s ∈ body, Spellable s) : Spellable (.loop condition body)

/-- No declaration stands before one of an earlier phase, and every part has a spelling. -/
structure Program.Spellable (p : Program) : Prop where
  ordered : p.declarations.Pairwise fun d d' => d.phase.rank ≤ d'.phase.rank
  declarations : ∀ d ∈ p.declarations, d.Spellable
  statements : ∀ s ∈ p.statements, s.Spellable

end FuzzFrontend
