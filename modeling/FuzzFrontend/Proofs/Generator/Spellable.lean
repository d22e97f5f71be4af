import FuzzFrontend.Generator.Grammar

namespace FuzzFrontend

/-- A generator has a word for the type. -/
def Ty.IsSized : Ty → Prop
  | .scalar kind => kind ∈ Scalar.sized
  | _ => False

/-- Of all texts only the token of the type is a constant. -/
def Constant.Spellable : Constant → Prop
  | .text content => content = Generator.Grammar.textToken
  | _ => True

namespace GenExpr

/-- The operator at the root, as one of generators. -/
def root? : GenExpr → Option ArithmeticOp
  | compound _ op _ => some op
  | _ => none

theorem rootOp?_eq_map (e : GenExpr) : e.rootOp? = e.root?.map Subtype.val := by
  cases e <;> rfl

theorem forall_rootOp?_iff {e : GenExpr} {P : BinaryOp → Prop} :
    (∀ inner ∈ e.rootOp?, P inner) ↔ ∀ inner ∈ e.root?, P inner.val := by
  rw [rootOp?_eq_map]
  cases e.root? <;> simp

/-- How deep random values stand in the bounds of random values. -/
def nesting : GenExpr → Nat
  | constant _ => 0
  | least _ => 0
  | greatest _ => 0
  | random _ low high => max low.nesting high.nesting + 1
  | compound left _ right => max left.nesting right.nesting

/-- Types have words, and under the precedence no operand needs brackets: on the left none binds
looser than its operator, and on the right all bind tighter. -/
inductive Spellable (precedence : Precedence) : GenExpr → Prop
  | constant {value : Constant} (h : value.Spellable) : Spellable precedence (constant value)
  | least {ty : Ty} (h : ty.IsSized) : Spellable precedence (least ty)
  | greatest {ty : Ty} (h : ty.IsSized) : Spellable precedence (greatest ty)
  | random {ty : Ty} {low high : GenExpr} (h : ty.IsSized) (hl : Spellable precedence low)
      (hh : Spellable precedence high) : Spellable precedence (random ty low high)
  | compound {left right : GenExpr} {op : ArithmeticOp} (hl : Spellable precedence left)
      (hr : Spellable precedence right)
      (hleft : ∀ inner ∈ left.rootOp?, precedence.level op.val ≤ precedence.level inner)
      (hright : ∀ inner ∈ right.rootOp?, precedence.level op.val < precedence.level inner) :
      Spellable precedence (compound left op right)

end GenExpr

namespace Generator

/-- The name is one, the type has a word, and every state has a spelling. -/
structure Spellable (precedence : Precedence) (g : Generator) : Prop where
  name : Grammar.isName g.name = true
  resultType : g.resultType.IsSized
  states : ∀ e ∈ g.states, e.Spellable precedence

/-- No state nests deeper than the given depth. -/
def Within (depth : Nat) (g : Generator) : Prop :=
  ∀ e ∈ g.states, e.nesting ≤ depth

theorem Within.mono {m n : Nat} {g : Generator} (h : g.Within m) (hmn : m ≤ n) : g.Within n :=
  fun e he => Nat.le_trans (h e he) hmn

end Generator

end FuzzFrontend
