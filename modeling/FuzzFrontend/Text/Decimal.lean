/-!
Decimal numerals. Numbers are written without leading zeros; numerals are read whatever zeros they
start with, up to a bound on their length.
-/
namespace FuzzFrontend.Text

/-- The digit of a number below ten. -/
def decimalDigit (n : Nat) : Char :=
  Char.ofNat ('0'.toNat + n)

/-- The decimal digits of a number, most significant first. -/
def decimalDigits (n : Nat) : List Char :=
  if n < 10 then [decimalDigit n] else decimalDigits (n / 10) ++ [decimalDigit (n % 10)]

theorem decimalDigits_ne_nil (n : Nat) : decimalDigits n ≠ [] := by
  rw [decimalDigits]
  split <;> simp

theorem isDigit_decimalDigit {n : Nat} (h : n < 10) : (decimalDigit n).isDigit = true := by
  have : ∀ d < 10, (decimalDigit d).isDigit = true := by decide
  exact this n h

theorem isDigit_of_mem_decimalDigits (n : Nat) :
    ∀ d ∈ decimalDigits n, d.isDigit = true := by
  fun_induction decimalDigits n with
  | case1 n h => simp [isDigit_decimalDigit h]
  | case2 n _ ih =>
    intro d hd
    rcases List.mem_append.1 hd with hd | hd
    · exact ih d hd
    · rw [List.mem_singleton.1 hd]
      exact isDigit_decimalDigit (Nat.mod_lt n (by decide))

def natural (n : Nat) : String :=
  String.ofList (decimalDigits n)

/-- An integer in decimal. It is written whatever the number of its digits: `maxNumeralDigits`
bounds what is read by `readDigits`, and there is no such bound on what is written. -/
def integer : Int → String
  | .ofNat n => natural n
  | .negSucc n => "-" ++ natural (n + 1)

/-- The number that a list of decimal digits spells. -/
def decimalValue (digits : List Char) : Nat :=
  digits.foldl (fun value d => value * 10 + (d.toNat - '0'.toNat)) 0

theorem decimalValue_append_singleton (digits : List Char) (d : Char) :
    decimalValue (digits ++ [d]) = decimalValue digits * 10 + (d.toNat - '0'.toNat) := by
  simp [decimalValue]

theorem toNat_decimalDigit {n : Nat} (h : n < 10) : (decimalDigit n).toNat - '0'.toNat = n := by
  have : ∀ d < 10, (decimalDigit d).toNat - '0'.toNat = d := by decide
  exact this n h

@[simp]
theorem decimalValue_decimalDigits (n : Nat) : decimalValue (decimalDigits n) = n := by
  fun_induction decimalDigits n with
  | case1 n h => simpa [decimalValue] using toNat_decimalDigit h
  | case2 n _ ih =>
    rw [decimalValue_append_singleton, ih, toNat_decimalDigit (Nat.mod_lt n (by decide))]
    omega

/-- Numerals of more digits than this are refused unread. -/
def maxNumeralDigits : Nat := 4300

/-- Why digits stand for no number. -/
inductive NumeralFault
  /-- There are no digits. -/
  | empty
  /-- There are more digits than are read. -/
  | tooLong (digits : Nat)
  deriving DecidableEq

def NumeralFault.message : NumeralFault → String
  | .empty => "invalid literal for int() with base 10: ''"
  | .tooLong digits =>
    "Exceeds the limit (" ++ natural maxNumeralDigits ++
      " digits) for integer string conversion: value has " ++ natural digits ++
      " digits; use sys.set_int_max_str_digits() to increase the limit"

def readDigits (digits : List Char) : Except NumeralFault Nat :=
  if digits.isEmpty then .error .empty
  else if maxNumeralDigits < digits.length then .error (.tooLong digits.length)
  else .ok (decimalValue digits)

/-- A comma before every third digit from the right. -/
def groupThousands (digits : List Char) : List Char :=
  match digits with
  | [] => []
  | d :: rest =>
    if rest.length % 3 = 0 ∧ rest ≠ [] then d :: ',' :: groupThousands rest
    else d :: groupThousands rest

/-- An integer in decimal with commas between groups of three digits. -/
def groupedInteger : Int → String
  | .ofNat n => String.ofList (groupThousands (decimalDigits n))
  | .negSucc n => "-" ++ String.ofList (groupThousands (decimalDigits (n + 1)))

end FuzzFrontend.Text
