import FuzzFrontend.Scan.Rule

/-!
Rules run at a cursor. A rule does not know where its input lies; here its value is given with the
cursor after what it read, and its fault is located.
-/
namespace FuzzFrontend.Scan

/-- Why a rule gives nothing at a cursor. -/
inductive RunError
  /-- There is nothing to read at the cursor. -/
  | outside (fault : Cursor.Fault)
  /-- The rule has a fault. -/
  | unread (error : ReadError)

/-- The value of a rule at a cursor, and the cursor after what was read. -/
def runAt {α : Type} {bound : Input → Nat}
    (rule : (s : Input) → Except Fault (Parsed α (bound s))) (c : Cursor) :
    Except RunError (α × Cursor) :=
  match c.input with
  | .error fault => .error (.outside fault)
  | .ok s =>
    match rule s with
    | .error fault => .error (.unread (fault.locate c))
    | .ok p => .ok (p.value, c.reaching p.rest)

/-- The same for a rule that may decline. -/
def runOptionalAt {α : Type} (rule : OptionalRule α) (c : Cursor) :
    Except RunError (Option (α × Cursor)) :=
  match c.input with
  | .error fault => .error (.outside fault)
  | .ok s =>
    match rule s with
    | none => .ok none
    | some (.error fault) => .error (.unread (fault.locate c))
    | some (.ok p) => .ok (some (p.value, c.reaching p.rest))

/-- The cursor after a text that is looked for as a keyword. Whether a keyword may run on depends on
its last character, so it is a fault to find the empty text. -/
def keywordAt? (text : String) (c : Cursor) : Except Cursor.Fault (Option Cursor) :=
  match c.input with
  | .error fault => .error fault
  | .ok s =>
    if text.isEmpty ∧ c.startsWith [] then .error .outOfRange
    else .ok ((keyword? text s).map fun p => c.reaching p.rest)

/-- The cursor after a text that must be there as a keyword. -/
def keywordAt (text : String) (hint : Option String) (c : Cursor) : Except RunError Cursor :=
  match keywordAt? text c with
  | .error fault => .error (.outside fault)
  | .ok _ => (runAt (keyword text hint) c).map (·.2)

end FuzzFrontend.Scan
