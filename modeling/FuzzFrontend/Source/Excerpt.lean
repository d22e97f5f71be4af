import FuzzFrontend.Source.Cursor

/-!
Error messages with the lines of source around the place they are about. The line of the place is
followed by a line with a caret under the character.
-/
namespace FuzzFrontend

/-- An error message about a place in a source text. -/
structure SourceError where
  message : String
  cursor : Cursor
  expected : List String

namespace SourceError

/-- The text between line breaks, so one line more than there are breaks. -/
def lines (text : List Char) : List (List Char) :=
  text.foldr
    (fun c found =>
      if c = '\n' then [] :: found
      else match found with
        | [] => [[c]]
        | line :: later => (c :: line) :: later)
    [[]]

/-- Line, column and message, then what would have been accepted. -/
def headline (e : SourceError) : String :=
  let place := Text.natural e.cursor.line ++ ":" ++ Text.integer e.cursor.column
  let wanted :=
    if e.expected.isEmpty then "" else " (expected: " ++ ", ".intercalate e.expected ++ ")"
  place ++ ": " ++ e.message ++ wanted

/-- A line number right-aligned in four places or more. -/
def lineLabel (n : Nat) : List Char :=
  let digits := Text.decimalDigits n
  List.replicate (4 - digits.length) ' ' ++ digits

/-- The rows of one line: the line itself and, if the error is on it, the caret. -/
def rows (e : SourceError) (n : Nat) (line : List Char) : List (List Char) :=
  let label := lineLabel n
  let shown := label ++ ' ' :: '|' :: ' ' :: line
  if n = e.cursor.line then
    let margin := List.replicate (label.length + 1) ' '
    let indent := List.replicate (e.cursor.column - 1).toNat ' '
    [shown, margin ++ '|' :: ' ' :: indent ++ ['^']]
  else [shown]

/-- The headline, an empty line, and the lines of source at most `context` away. -/
def excerpt (e : SourceError) (context : Int) : String :=
  let near : List Char × Nat → Bool := fun (_, n) =>
    e.cursor.line - context ≤ n && n ≤ e.cursor.line + context
  let shown := ((lines e.cursor.source).zipIdx 1).filter near
  let body := shown.flatMap fun (line, n) => e.rows n line
  "\n".intercalate (e.headline :: "" :: body.map String.ofList)

end SourceError

end FuzzFrontend
