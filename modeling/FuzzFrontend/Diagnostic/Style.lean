import FuzzFrontend.Choice
import FuzzFrontend.Diagnostic
import FuzzFrontend.Text.JsonString
import FuzzFrontend.Text.Slice

/-!
Written diagnostics, in three styles: a block of lines, a single line, and a JSON record. An empty
hint is never written; an empty found text is.
-/
namespace FuzzFrontend.Diagnostic

/-- The styles of writing. -/
inductive Style
  | block
  | line
  | json
  deriving DecidableEq

namespace Style

def name : Style → String
  | block => "rust"
  | line => "simple"
  | json => "json"

def all : List Style :=
  [block, line, json]

def ofName (text : String) : Except UnknownName Style :=
  choose "OutputFormat" all name text

end Style

/-- How diagnostics are written. With `truncate`, long messages, hints and found texts are cut. -/
structure Writer where
  style : Style := .block
  truncate : Bool := false
  color : Bool := false
  maxLength : Int := 100

namespace Writer

/-- The text itself, or its start and three dots when it is longer than the writer allows. A
negative maximum cuts that many characters from the end. -/
def fit (w : Writer) (text : String) : String :=
  if w.truncate ∧ w.maxLength < text.length then
    String.ofList (Text.slice text.toList 0 w.maxLength) ++ "..."
  else text

/-- The hint to write, which is never empty. -/
def shownHint (d : Diagnostic) : Option String :=
  d.hint.filter (!·.isEmpty)

/-- The severity that a header shows: all but warnings are shown as errors. -/
def shownSeverity (s : Severity) : Severity :=
  if s = .warning then .warning else .error

/-- The severity in a header, in bold red or yellow if colors are on. -/
def severity (w : Writer) (s : Severity) : String :=
  let shown := shownSeverity s
  if w.color then
    let style := if shown = .error then "\x1b[1;31m" else "\x1b[1;33m"
    style ++ shown.name ++ "\x1b[0m"
  else shown.name

/-- A header line, then a line each for the place, what was expected and the hint, if present. -/
def block (w : Writer) (d : Diagnostic) : String :=
  let header := w.severity d.severity ++ "[" ++ d.code.name ++ "]: " ++ w.fit d.message
  let place := d.span.map fun span =>
    "  --> line " ++ Text.natural span.line ++ ", column " ++ Text.natural span.column
  let expected :=
    if d.expected.isEmpty then none else some ("  = expected: " ++ ", ".intercalate d.expected)
  let hint := (shownHint d).map fun hint => "  = help: " ++ w.fit hint
  "\n".intercalate (header :: [place, expected, hint].filterMap id)

/-- Code, message and place on one line. -/
def line (w : Writer) (d : Diagnostic) : String :=
  let text := d.code.name ++ ": " ++ w.fit d.message
  match d.span with
  | none => text
  | some span =>
    text ++ " (line " ++ Text.natural span.line ++ ", column " ++ Text.natural span.column ++ ")"

/-- The members of the JSON record, in order, with their values already written. -/
def jsonMembers (w : Writer) (d : Diagnostic) : List (String × String) :=
  let head :=
    [("code", Text.jsonString d.code.name), ("code_value", Text.natural d.code.number),
      ("message", Text.jsonString (w.fit d.message)), ("severity", Text.jsonString d.severity.name)]
  let place := match d.span with
    | none => []
    | some span =>
      [("line", Text.natural span.line), ("column", Text.natural span.column),
        ("start", Text.natural span.start), ("end", Text.natural span.stop)]
  let found := match d.found with
    | none => []
    | some found => [("found", Text.jsonString (w.fit found))]
  let expected :=
    if d.expected.isEmpty then []
    else [("expected", "[" ++ ", ".intercalate (d.expected.map Text.jsonString) ++ "]")]
  let hint := match shownHint d with
    | none => []
    | some hint => [("hint", Text.jsonString (w.fit hint))]
  head ++ place ++ found ++ expected ++ hint

def json (w : Writer) (d : Diagnostic) : String :=
  let members := (w.jsonMembers d).map fun (key, value) => Text.jsonString key ++ ": " ++ value
  "\x7b" ++ ", ".intercalate members ++ "\x7d"

def write (w : Writer) (d : Diagnostic) : String :=
  match w.style with
  | .block => w.block d
  | .line => w.line d
  | .json => w.json d

/-- Diagnostics with an empty line between them. -/
def writeAll (w : Writer) (ds : List Diagnostic) : String :=
  "\n\n".intercalate (ds.map w.write)

end Writer

/-- The diagnostic as a block of plain lines. -/
def blockText (d : Diagnostic) : String :=
  Writer.write {} d

end FuzzFrontend.Diagnostic
