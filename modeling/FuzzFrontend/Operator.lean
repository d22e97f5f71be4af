import FuzzFrontend.Choice

/-!
Operators of the two languages and the two ways of grouping generator arithmetic.
-/
namespace FuzzFrontend

/-- Binary operators. -/
inductive BinaryOp
  | add
  | sub
  | mul
  | div
  | mod
  | and
  | or
  | greater
  | less
  | equal
  | notEqual
  deriving DecidableEq

namespace BinaryOp

def all : List BinaryOp :=
  [add, sub, mul, div, mod, and, or, greater, less, equal, notEqual]

def symbol : BinaryOp → String
  | add => "+"
  | sub => "-"
  | mul => "*"
  | div => "/"
  | mod => "%"
  | and => "&&"
  | or => "||"
  | greater => ">"
  | less => "<"
  | equal => "=="
  | notEqual => "!="

theorem symbol_ne_empty (op : BinaryOp) : op.symbol.toList ≠ [] := by
  cases op <;> decide

def label : BinaryOp → String
  | add => "ADD"
  | sub => "SUB"
  | mul => "MUL"
  | div => "DIV"
  | mod => "MOD"
  | and => "LAND"
  | or => "LOR"
  | greater => "GREATER"
  | less => "LESS"
  | equal => "EQUAL"
  | notEqual => "NOT_EQUAL"

/-- How tightly the operator binds in programs: logical, relational, additive, multiplicative. -/
def level : BinaryOp → Nat
  | and | or => 1
  | greater | less | equal | notEqual => 2
  | add | sub => 3
  | mul | div | mod => 4

/-- The operators that generators have too. -/
def isArithmetic (op : BinaryOp) : Bool :=
  3 ≤ op.level

def ofSymbol (text : String) : Except UnknownName BinaryOp :=
  choose "BinOp" all symbol text

end BinaryOp

/-- What may be done to a variable where it is used. -/
inductive UnaryOp
  | plain
  | deref
  | addressOf
  deriving DecidableEq

namespace UnaryOp

def all : List UnaryOp :=
  [plain, deref, addressOf]

def keyword : UnaryOp → String
  | plain => "op:null"
  | deref => "op:deref"
  | addressOf => "op:addressof"

def ofKeyword (text : String) : Except UnknownName UnaryOp :=
  choose "UOp" all keyword text

end UnaryOp

/-- How generator arithmetic is grouped. -/
inductive Precedence
  /-- All five operators bind alike. -/
  | flat
  /-- Products bind tighter than sums. -/
  | conventional
  deriving DecidableEq

namespace Precedence

def all : List Precedence :=
  [flat, conventional]

def name : Precedence → String
  | flat => "flat"
  | conventional => "conventional"

def ofName (text : String) : Except UnknownName Precedence :=
  choose "ArithmeticPrecedence" all name text

/-- How tightly an operator binds. -/
def level : Precedence → BinaryOp → Nat
  | flat, _ => 0
  | conventional, op => op.level

end Precedence

end FuzzFrontend
