import FuzzFrontend.Text.Decimal

/-!
Spans of source text. Offsets count characters from zero and end before `stop`; lines and columns
count from one.
-/
namespace FuzzFrontend

/-- A stretch of source text with the line and column of its start. -/
structure Span where
  start : Nat
  stop : Nat
  line : Nat
  column : Nat
  start_le_stop : start ≤ stop
  line_pos : 1 ≤ line
  column_pos : 1 ≤ column
  deriving DecidableEq

namespace Span

/-- Why four numbers are no span. -/
inductive Fault
  | negativeStart (start : Int)
  | stopBeforeStart (start stop : Int)
  | lineBelowOne (line : Int)
  | columnBelowOne (column : Int)
  deriving DecidableEq

def Fault.message : Fault → String
  | .negativeStart start => "SourceSpan.start must be >= 0, got " ++ Text.integer start
  | .stopBeforeStart start stop =>
    "SourceSpan.end (" ++ Text.integer stop ++ ") must be >= start (" ++ Text.integer start ++ ")"
  | .lineBelowOne line => "SourceSpan.line must be >= 1 (1-indexed), got " ++ Text.integer line
  | .columnBelowOne column =>
    "SourceSpan.column must be >= 1 (1-indexed), got " ++ Text.integer column

/-- The span with the given numbers, or the first thing wrong with them. -/
def ofInts (start stop line column : Int) : Except Fault Span :=
  if h₁ : start < 0 then .error (.negativeStart start)
  else if h₂ : stop < start then .error (.stopBeforeStart start stop)
  else if h₃ : line < 1 then .error (.lineBelowOne line)
  else if h₄ : column < 1 then .error (.columnBelowOne column)
  else .ok
    { start := start.toNat
      stop := stop.toNat
      line := line.toNat
      column := column.toNat
      start_le_stop := by omega
      line_pos := by omega
      column_pos := by omega }

end Span

end FuzzFrontend
