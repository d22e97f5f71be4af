/-!
Lexemes of the two languages: what a character can start or continue, and the longest word or number
at the head of a text. Nothing here fails; an absent lexeme is the empty list.
-/
namespace FuzzFrontend.Scan

/-- The four characters that separate lexemes. -/
def isBlank (c : Char) : Bool :=
  c == ' ' || c == '\t' || c == '\n' || c == '\r'

/-- A word starts with an ASCII letter. -/
def isWordStart (c : Char) : Bool :=
  c.isAlpha

/-- A word goes on with ASCII letters, digits and underscores. -/
def isWordChar (c : Char) : Bool :=
  c.isAlphanum || c == '_'

theorem length_dropWhile_lt {p : Char → Bool} {s : List Char} (h : s.takeWhile p ≠ []) :
    (s.dropWhile p).length < s.length := by
  have hs := congrArg List.length (List.takeWhile_append_dropWhile (p := p) (l := s))
  have := List.length_pos_iff.2 h
  rw [List.length_append] at hs
  omega

/-- The longest word at the head of the text, empty when no word starts there. -/
def word : List Char → List Char
  | [] => []
  | c :: rest => if isWordStart c then c :: rest.takeWhile isWordChar else []

theorem word_prefix_self (s : List Char) : word s <+: s := by
  cases s with
  | nil => exact List.prefix_refl []
  | cons c rest =>
    simp only [word]
    split
    · exact List.cons_prefix_cons.2 ⟨rfl, List.takeWhile_prefix isWordChar⟩
    · exact List.nil_prefix

theorem word_cons_of_start {c : Char} (h : isWordStart c = true) (rest : List Char) :
    word (c :: rest) = c :: rest.takeWhile isWordChar := by
  simp [word, h]

def isWord : List Char → Bool
  | [] => false
  | c :: rest => isWordStart c && rest.all isWordChar

/-- A number starts with a digit, or with a minus sign directly before one. -/
def startsNumber : List Char → Bool
  | '-' :: d :: _ => d.isDigit
  | d :: _ => d.isDigit
  | [] => false

/-- The longest unsigned number: digits, then a point and more digits if a digit follows the
point. -/
def unsignedNumber (s : List Char) : List Char :=
  let digits := s.takeWhile Char.isDigit
  match s.dropWhile Char.isDigit with
  | '.' :: d :: rest =>
    if d.isDigit then digits ++ '.' :: (d :: rest).takeWhile Char.isDigit else digits
  | _ => digits

/-- The longest number at the head of a text that starts one. -/
def number : List Char → List Char
  | '-' :: rest => '-' :: unsignedNumber rest
  | s => unsignedNumber s

theorem startsNumber_ne_nil {s : List Char} (h : startsNumber s = true) : s ≠ [] := by
  rintro rfl
  simp [startsNumber] at h

theorem unsignedNumber_ne_nil {d : Char} (h : d.isDigit = true) (rest : List Char) :
    unsignedNumber (d :: rest) ≠ [] := by
  have hd : (d :: rest).takeWhile Char.isDigit = d :: rest.takeWhile Char.isDigit := by simp [h]
  unfold unsignedNumber
  rw [hd]
  dsimp only
  split
  · split <;> simp
  · simp

theorem number_ne_nil {s : List Char} (h : startsNumber s = true) : number s ≠ [] := by
  unfold number
  split
  · simp
  · rename_i hminus
    match s, h, hminus with
    | [], h, _ => simp [startsNumber] at h
    | c :: rest, h, hminus =>
      have hc : c ≠ '-' := fun hc => hminus rest (by rw [hc])
      have hd : c.isDigit = true := by
        simpa [startsNumber, hc] using h
      exact unsignedNumber_ne_nil hd rest

/-- Digits, at least one. -/
def isDigits (s : List Char) : Bool :=
  !s.isEmpty && s.all Char.isDigit

def dropSign : List Char → List Char
  | '-' :: rest => rest
  | s => s

def isInteger (s : List Char) : Bool :=
  isDigits (dropSign s)

/-- The whole text is a literal with a point between digits. -/
def isDecimal (s : List Char) : Bool :=
  match (dropSign s).dropWhile Char.isDigit with
  | '.' :: fraction => isDigits ((dropSign s).takeWhile Char.isDigit) && isDigits fraction
  | _ => false

/-- What follows the given literal text, if the text starts with it. -/
def after? (literal s : List Char) : Option (List Char) :=
  if literal.isPrefixOf s then some (s.drop literal.length) else none

theorem after?_eq_some_iff {literal s rest : List Char} :
    after? literal s = some rest ↔ s = literal ++ rest := by
  unfold after?
  constructor
  · intro h
    split at h
    · rename_i hp
      obtain ⟨t, rfl⟩ := List.isPrefixOf_iff_prefix.1 hp
      simp_all
    · simp at h
  · rintro rfl
    simp

end FuzzFrontend.Scan
