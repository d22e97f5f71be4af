import FuzzFrontend.Text.Quoted

/-!
Choosing one of a closed family of values by its name.
-/
namespace FuzzFrontend

/-- A name that no value of the family has. -/
structure UnknownName where
  text : String
  family : String
  deriving DecidableEq

def UnknownName.message (e : UnknownName) : String :=
  Text.quoted e.text ++ " is not a valid " ++ e.family

/-- The value with the given name. -/
def choose {α : Type} (family : String) (values : List α) (name : α → String) (text : String) :
    Except UnknownName α :=
  match values.find? fun value => name value == text with
  | some value => .ok value
  | none => .error ⟨text, family⟩

end FuzzFrontend
