import FuzzFrontend.Scan.Input
import FuzzFrontend.Source.Span

/-!
Cursors into a source text. A cursor may stand anywhere, also outside the text. Indices below zero
count from the end, as they do in slices, so there is something to read before the start too, unless
the cursor stands further from it than the text is long.
-/
namespace FuzzFrontend

/-- A place in a source text. -/
structure Cursor where
  source : List Char
  pos : Int
  deriving DecidableEq

namespace Cursor

def ofString (text : String) : Cursor :=
  ⟨text.toList, 0⟩

def isAtEnd (c : Cursor) : Bool :=
  c.source.length ≤ c.pos

/-- Why a cursor has no character to give. -/
inductive Fault
  /-- The cursor stands at the end of the text or after it. -/
  | pastEnd (pos : Int)
  /-- The index does not reach back to the first character. -/
  | outOfRange
  deriving DecidableEq

def Fault.message : Fault → String
  | .pastEnd pos => "Unexpected EOF at position " ++ Text.integer pos
  | .outOfRange => "string index out of range"

/-- The character at an offset from the cursor, unless that is past the end. -/
def peek (c : Cursor) (offset : Int) : Except Fault (Option Char) :=
  if c.source.length ≤ c.pos + offset then .ok none
  else
    match Text.element? c.source (c.pos + offset) with
    | some char => .ok (some char)
    | none => .error .outOfRange

def current (c : Cursor) : Except Fault Char :=
  match c.peek 0 with
  | .ok (some char) => .ok char
  | .ok none => .error (.pastEnd c.pos)
  | .error fault => .error fault

/-- The cursor moved by a count, but not past the end. -/
def advance (c : Cursor) (count : Int) : Cursor :=
  { c with pos := min (c.pos + count) c.source.length }

/-- The text from the cursor to an absolute offset. -/
def sliceTo (c : Cursor) (stop : Int) : List Char :=
  Text.slice c.source c.pos stop

/-- The next characters, as many as are asked for and there. -/
def sliceAhead (c : Cursor) (count : Int) : List Char :=
  Text.slice c.source c.pos (c.pos + count)

def rest (c : Cursor) : List Char :=
  c.source.drop (Text.boundIndex c.source.length c.pos)

/-- The text at the cursor starts with a literal. Past the end not even the empty one is found. -/
def startsWith (c : Cursor) (literal : List Char) : Bool :=
  c.pos ≤ c.source.length && literal.isPrefixOf c.rest

/-- What is read at the cursor. -/
def input (c : Cursor) : Except Fault Scan.Input :=
  if 0 ≤ c.pos then .ok (.ofList (c.source.drop c.pos.toNat))
  else if c.pos + c.source.length < 0 then .error .outOfRange
  else .ok { chars := c.rest ++ c.source, seamAt := some c.source.length }

/-- The cursor where only the given part is left of what is read at `c`. -/
def reaching (c : Cursor) (left : Scan.Input) : Cursor :=
  { c with pos := max c.pos c.source.length - left.length }

/-- The cursor after the blanks that it stands on. -/
def skipBlanks (c : Cursor) : Except Fault Cursor :=
  c.input.map fun s => c.reaching s.skipBlanks

/-- The cursor after the given text, if that is the one character on which it stands. -/
def expect (c : Cursor) (text : List Char) : Except Fault (Option Cursor) :=
  (c.peek 0).map fun found =>
    (found.filter fun char => text == [char]).map fun _ => c.advance 1

def before (c : Cursor) : List Char :=
  Text.slice c.source 0 c.pos

/-- One more than the line breaks before the cursor. -/
def line (c : Cursor) : Nat :=
  c.before.count '\n' + 1

/-- One more than the distance from the start of the line. -/
def column (c : Cursor) : Int :=
  let onLine := c.before.reverse.takeWhile (· != '\n')
  c.pos - c.before.length + onLine.length + 1

/-- The span from the cursor to an absolute offset, empty when the offset lies before it. -/
def spanTo (c : Cursor) (stop : Int) : Except Span.Fault Span :=
  Span.ofInts c.pos (max stop c.pos) c.line c.column

end Cursor

end FuzzFrontend
