import FuzzFrontend.Generator.Grammar
import FuzzFrontend.Unspellable

/-!
Writing generators. A constant does not remember the type it was written with, so it is written with
the widest type of its family. Arithmetic is written for the precedence under which it will be read.
-/
namespace FuzzFrontend

def Ty.writeToken (ty : Ty) : Except WriteError String :=
  match ty with
  | .scalar kind =>
    if kind ∈ Scalar.sized then .ok kind.label else .error (.unspellable (.typeToken ty))
  | _ => .error (.unspellable (.typeToken ty))

/-- A constant. An unsigned one that a signed literal cannot hold is written as the negative literal
that stands for it. -/
def Constant.write : Constant → Except WriteError String
  | .signed value _ => .ok ("I64:constant(" ++ Text.integer value ++ ")")
  | .unsigned value _ =>
    let literal : Int :=
      if value < 0x8000000000000000 then value else value - 0x10000000000000000
    .ok ("U64:constant(" ++ Text.integer literal ++ ")")
  | .text content =>
    if content = Generator.Grammar.textToken then
      .ok (Generator.Grammar.textToken ++ ":constant(0)")
    else .error (.unspellable (.textConstant content Generator.Grammar.textToken))

namespace GenExpr

/-- The first operand of a chain, from its root down, that would need brackets. A left operand may
not bind looser than its operator and a right one must bind tighter. -/
def bracketFault? (precedence : Precedence) : GenExpr → Option Unspellable
  | compound left op right =>
    let leftFault := left.rootOp?.filter fun inner =>
      precedence.level inner < precedence.level op.val
    let rightFault := right.rootOp?.filter fun inner =>
      precedence.level inner ≤ precedence.level op.val
    ((leftFault.map fun inner => .leftState inner op.val precedence).or
      (rightFault.map fun inner => .rightState inner op.val precedence)).or
        (left.bracketFault? precedence)
  | _ => none

/-- The expression of a state. A chain enters the guard once, at its root; `inChain` says that the
expression is the left operand of one. -/
def write (precedence : Precedence) (g : DepthGuard) (inChain : Bool) :
    GenExpr → Except WriteError String
  | constant value => value.write
  | least ty => do
    return (← ty.writeToken) ++ ":min()"
  | greatest ty => do
    return (← ty.writeToken) ++ ":max()"
  | random ty low high => do
    let token ← ty.writeToken
    let inner ← g.enterToWrite
    let lowText ← low.write precedence inner false
    let highText ← high.write precedence inner false
    return token ++ ":random(" ++ lowText ++ ", " ++ highText ++ ")"
  | compound left op right => do
    let inner ←
      if inChain then pure g
      else
        match bracketFault? precedence (compound left op right) with
        | some reason => throw (.unspellable reason)
        | none => g.enterToWrite
    let leftText ← left.write precedence inner true
    let rightText ← right.write precedence inner false
    return leftText ++ " " ++ op.val.symbol ++ " " ++ rightText

end GenExpr

namespace Generator

def writeState (precedence : Precedence) (g : DepthGuard) (state : GenExpr) :
    Except WriteError String := do
  return "    state " ++ (← state.write precedence g false) ++ "\n"

/-- A generator: a line with its name and type, and a line for each state. -/
def write (precedence : Precedence) (g : DepthGuard) (generator : Generator) :
    Except WriteError String := do
  if !Grammar.isName generator.name then throw (.unspellable (.badGeneratorName generator.name))
  let token ← generator.resultType.writeToken
  let states ← generator.states.mapM (writeState precedence g)
  return "generator " ++ generator.name ++ " " ++ token ++ "\n" ++ String.join states

/-- The spelling of generators, one after another. -/
def writeAll (generators : List Generator) (precedence : Precedence := .flat)
    (maxDepth : Option Int := none) : Except WriteError String := do
  let texts ← generators.mapM (write precedence (.ofRequest maxDepth))
  return String.join texts

end Generator

end FuzzFrontend
