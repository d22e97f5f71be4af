import FuzzFrontend.Scan.Fault

/-!
Values of integer literals. The grammars find the sign and the digits of a literal, each in its own
way; what the literal stands for, and which literals stand for nothing, is the same for both.
-/
namespace FuzzFrontend.Scan

/-- The signed word that a sign and digits stand for. A fault shows the literal as `text`, at the
head of `s`. -/
def signedWord (s : Input) (text : String) (negative : Bool) (digits : List Char) :
    Except Fault Int :=
  match Text.readDigits digits with
  | .error fault => .error (.numeral fault)
  | .ok magnitude =>
    let value : Int := if negative then -magnitude else magnitude
    if Word.IsSigned value then .ok value
    else .error (.problem s (.constantOutOfRange text) [])

end FuzzFrontend.Scan
