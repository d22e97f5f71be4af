import FuzzFrontend.Chain
import FuzzFrontend.Program.Grammar.Name
import FuzzFrontend.Scan.Nesting

/-!
Reading expressions. An expression is a chain of operands and operators, which `Chain.group` turns
into a tree. Only the arguments of a call hold expressions of their own; the rules for operands take
the rule for these as an argument, on texts shorter than the expression they stand in.
-/
namespace FuzzFrontend.Program.Grammar

open Scan

/-- What an operand may start with. -/
def operandStarts : List String :=
  ["identifier", "number", "'function:call'", "'*'", "'&'"]

/-- The binary operators in the order in which they are looked for. -/
def searchedOperators : List BinaryOp :=
  [.and, .or, .equal, .notEqual, .greater, .less, .add, .sub, .mul, .div, .mod]

/-- The binary operator after blanks, if there is one. A minus sign directly before a digit belongs
to a number. -/
def binaryOp? (s : Input) : Option (Parsed BinaryOp s.length) :=
  let found := searchedOperators.findSome? fun op =>
    (literal? op.symbol.toList op.symbol_ne_empty s).map fun p => p.map fun _ => op
  found.filter fun p => !(p.value == .sub && startsNumber s.skipBlanks.chars)

/-- The keywords for unary operators in the order in which they are looked for. -/
def unaryKeywords : List (String × UnaryOp) :=
  [("op:deref", .deref), ("op:addressof", .addressOf), ("op:null", .plain), ("op:*", .deref),
    ("op:&", .addressOf)]

/-- The unary operator after blanks, if there is one: a keyword, a star, or a single ampersand. -/
def unaryOp? (s : Input) : Option (Parsed UnaryOp s.length) :=
  let byKeyword := unaryKeywords.findSome? fun (text, op) =>
    (keyword? text s).map fun k => k.map fun _ => op
  match byKeyword with
  | some p => some p
  | none =>
    match symbol? '*' s with
    | some p => some (p.map fun _ => .deref)
    | none =>
      if ['&', '&'].isPrefixOf s.skipBlanks.ahead then none
      else (symbol? '&' s).map fun p => p.map fun _ => .addressOf

/-- A number as an expression. -/
def literal : Rule Expr :=
  numeral.map fun text => if '.' ∈ text.toList then .decimal text else .integer text

/-- A name, or two names with a point between them. -/
def nameOrField : Rule Expr := fun s =>
  match name s with
  | .error e => .error e
  | .ok p =>
    match symbol? '.' p.rest with
    | none => .ok (p.map fun name => .var .plain name)
    | some dot =>
      (name dot.rest).map fun q =>
        (q.map fun member => .field p.value member).relax
          (Nat.le_of_lt (Nat.lt_trans dot.shorter p.shorter))

/-- A rule for the expressions inside an expression of length `n`. -/
abbrev Inner (α : Type) (n : Nat) : Type :=
  Nesting → (s : Input) → s.length < n → Except Fault (Parsed α s.length)

/-- What follows `function:call`: a name and arguments in braces. The depth is checked first. -/
def callRest {n : Nat} (expr : Inner Expr n) (nesting : Nesting) (s : Input)
    (h : s.length < n) : Except Fault (Parsed Expr s.length) :=
  match nesting.enter s with
  | .error e => .error e
  | .ok nested =>
    match name.followedBy (symbol '{') s with
    | .error e => .error e
    | .ok p =>
      let item := fun t (ht : t.length < s.length) => expr nested t (Nat.lt_trans ht h)
      (itemsUntilBrace item [] p.rest p.rest_lt).map fun q => q.map (.call p.value)

/-- An operand: a literal, a call, a variable with or without a unary operator, or a field. -/
def operand {n : Nat} (expr : Inner Expr n) (nesting : Nesting) (s : Input)
    (h : s.length ≤ n) : Except Fault (Parsed Expr s.length) :=
  if startsNumber s.skipBlanks.chars then literal s
  else
    match keyword? "function:call" s with
    | some k =>
      (callRest expr nesting k.rest (k.rest_lt_of_le h)).map (·.relax k.rest_le)
    | none =>
      match unaryOp? s with
      | some u =>
        (name u.rest).map fun p => (p.map (.var u.value)).relax u.rest_le
      | none =>
        if s.skipBlanks.word.isEmpty then .error (.unexpected s.skipBlanks operandStarts)
        else nameOrField s

/-- The operators and operands that follow an operand. Those read so far are given last first. -/
def operands {n : Nat} (expr : Inner Expr n) (nesting : Nesting)
    (found : List (BinaryOp × Expr)) (s : Input) (h : s.length < n) :
    Except Fault (Parsed (List (BinaryOp × Expr)) n) :=
  match binaryOp? s with
  | none => .ok ⟨found.reverse, s, h⟩
  | some op =>
    match operand expr nesting op.rest (Nat.le_of_lt (Nat.lt_trans op.shorter h)) with
    | .error e => .error e
    | .ok p =>
      operands expr nesting ((op.value, p.value) :: found) p.rest
        (Nat.lt_trans p.shorter (Nat.lt_trans op.shorter h))
termination_by s.length
decreasing_by exact Nat.lt_trans p.shorter op.shorter

/-- An operand and the operators and operands that follow it. -/
def chain (s : Input) (expr : Inner Expr s.length) (nesting : Nesting) :
    Except Fault (Parsed (Expr × List (BinaryOp × Expr)) s.length) :=
  match operand expr nesting s s.length_le_self with
  | .error e => .error e
  | .ok first =>
    (operands expr nesting [] first.rest first.rest_lt).map fun rest =>
      rest.map fun links => (first.value, links)

def grouped (chain : Expr × List (BinaryOp × Expr)) : Expr :=
  Chain.group BinaryOp.level .compound chain.1 chain.2

def expr (nesting : Nesting) (s : Input) : Except Fault (Parsed Expr s.length) :=
  (chain s (fun nested t _ => expr nested t) nesting).map fun p => p.map grouped
termination_by s.length

/-- A single operand, declined when it is a call and it is not known how deep it stands. -/
def singleOperand (nesting : Option Nesting) : OptionalRule Expr := fun s =>
  if nesting.isNone ∧ (keyword? "function:call" s).isSome then none
  else some (operand (fun nested t _ => expr nested t) (nesting.getD {}) s (Nat.le_refl _))

end FuzzFrontend.Program.Grammar
