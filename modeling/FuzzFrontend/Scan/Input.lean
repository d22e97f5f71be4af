import FuzzFrontend.Scan.Lexeme
import FuzzFrontend.Text.Slice

/-!
What is left of a text while it is read. Negative indices count from the end, so a reading may begin
before the text: it goes through the last characters first and then through the whole text. Where
the end of the text meets its start there is a seam. Characters are read on across it; a literal is
looked for only up to it, and what is read across it is spelled by the slice between the two ends,
which is empty unless the ends lie in order.

A reading that begins in the text meets no seam. Everything that is left is ahead of it, and what it
reads is spelled as it stands: `ahead_ofList`, `spelled_ofList`, `word_ofList`.
-/
namespace FuzzFrontend.Scan

/-- What is left to read. -/
structure Input where
  /-- The characters, in the order in which they are read. -/
  chars : List Char
  /-- How many characters are left at the seam, for a reading that begins before the text. -/
  seamAt : Option Nat := none
  deriving DecidableEq

namespace Input

/-- A text that is read from its start. -/
def ofList (chars : List Char) : Input :=
  { chars := chars }

@[simp]
theorem chars_ofList (chars : List Char) : (ofList chars).chars = chars :=
  rfl

/-- How many characters are left. -/
def length (s : Input) : Nat :=
  s.chars.length

theorem length_le_self (s : Input) : s.length ≤ s.length :=
  Nat.le_refl _

/-- How many characters are left before the seam, zero if no seam is ahead. -/
def untilSeam (s : Input) : Nat :=
  match s.seamAt with
  | none => 0
  | some left => s.length - left

@[simp]
theorem untilSeam_ofList (chars : List Char) : (ofList chars).untilSeam = 0 :=
  rfl

/-- The characters in which a literal is looked for. -/
def ahead (s : Input) : List Char :=
  if s.untilSeam = 0 then s.chars else s.chars.take s.untilSeam

@[simp]
theorem ahead_ofList (chars : List Char) : (ofList chars).ahead = chars :=
  rfl

/-- Looking ahead finds nothing that is not read later. -/
theorem ahead_prefix_chars (s : Input) : s.ahead <+: s.chars := by
  unfold ahead
  split
  · exact List.prefix_refl _
  · exact List.take_prefix _ _

/-- The spelling of the next `n` characters: the slice of the text from here to there. -/
def spelled (s : Input) (n : Nat) : List Char :=
  if s.untilSeam = 0 then s.chars.take n
  else Text.slice (s.chars.drop s.untilSeam) (-s.untilSeam) (n - s.untilSeam)

@[simp]
theorem spelled_ofList (chars : List Char) (n : Nat) : (ofList chars).spelled n = chars.take n :=
  rfl

theorem spelled_of_chars_eq_nil {s : Input} (h : s.chars = []) (n : Nat) : s.spelled n = [] := by
  simp [spelled, h, Text.slice]

@[simp]
theorem spelled_zero (s : Input) : s.spelled 0 = [] := by
  unfold spelled
  split
  · rfl
  · simp [Text.slice]

/-- What is left after the next `n` characters. -/
def drop (s : Input) (n : Nat) : Input :=
  { s with chars := s.chars.drop n }

@[simp]
theorem drop_ofList (chars : List Char) (n : Nat) : (ofList chars).drop n = ofList (chars.drop n) :=
  rfl

theorem length_drop (s : Input) (n : Nat) : (s.drop n).length = s.length - n :=
  List.length_drop

theorem length_drop_lt (s : Input) (n : Nat) : (s.drop n).length < s.length + 1 := by
  rw [length_drop]
  omega

/-- The spelling of the longest run of characters of a kind. -/
def spelledWhile (s : Input) (p : Char → Bool) : List Char :=
  s.spelled (s.chars.takeWhile p).length

@[simp]
theorem spelledWhile_ofList (chars : List Char) (p : Char → Bool) :
    (ofList chars).spelledWhile p = chars.takeWhile p :=
  (List.prefix_iff_eq_take.1 (List.takeWhile_prefix p)).symm

/-- What is left after the longest run of characters of a kind. -/
def dropWhile (s : Input) (p : Char → Bool) : Input :=
  { s with chars := s.chars.dropWhile p }

@[simp]
theorem dropWhile_ofList (chars : List Char) (p : Char → Bool) :
    (ofList chars).dropWhile p = ofList (chars.dropWhile p) :=
  rfl

theorem length_dropWhile_le (s : Input) (p : Char → Bool) : (s.dropWhile p).length ≤ s.length :=
  (List.dropWhile_suffix p).length_le

theorem length_dropWhile_lt {s : Input} {p : Char → Bool} (h : s.spelledWhile p ≠ []) :
    (s.dropWhile p).length < s.length :=
  Scan.length_dropWhile_lt (mt (fun hs => by simp [spelledWhile, hs]) h)

def skipBlanks (s : Input) : Input :=
  s.dropWhile isBlank

@[simp]
theorem skipBlanks_ofList (chars : List Char) :
    (ofList chars).skipBlanks = ofList (chars.dropWhile isBlank) :=
  rfl

theorem length_skipBlanks_le (s : Input) : s.skipBlanks.length ≤ s.length :=
  s.length_dropWhile_le isBlank

def word (s : Input) : List Char :=
  s.spelled (Scan.word s.chars).length

@[simp]
theorem word_ofList (chars : List Char) : (ofList chars).word = Scan.word chars :=
  (List.prefix_iff_eq_take.1 (word_prefix_self chars)).symm

theorem chars_ne_nil_of_word {s : Input} (h : s.word ≠ []) : s.chars ≠ [] :=
  fun hs => h (spelled_of_chars_eq_nil hs _)

/-- What is left after a literal, if it is ahead. -/
def after? (literal : List Char) (s : Input) : Option Input :=
  if literal.isPrefixOf s.ahead then some (s.drop literal.length) else none

theorem after?_eq_some_iff {literal : List Char} {s rest : Input} :
    s.after? literal = some rest ↔ literal <+: s.ahead ∧ rest = s.drop literal.length := by
  unfold after?
  split
  · rename_i h
    simp [List.isPrefixOf_iff_prefix.1 h, eq_comm]
  · rename_i h
    simp [mt List.isPrefixOf_iff_prefix.2 h]

/-- A literal that is ahead is what is read next. -/
theorem chars_eq_of_after? {literal : List Char} {s rest : Input}
    (h : s.after? literal = some rest) : s.chars = literal ++ rest.chars := by
  obtain ⟨hp, rfl⟩ := after?_eq_some_iff.1 h
  obtain ⟨t, ht⟩ := hp.trans s.ahead_prefix_chars
  simp [drop, ← ht]

/-- Operators of two characters, which messages show whole. -/
def doubleOperators : List (List Char) :=
  [['&', '&'], ['|', '|'], ['=', '='], ['!', '=']]

/-- The lexeme that a message about the head of the input shows: a word, an operator of two
characters, or one character; nothing at the end. -/
def offending (s : Input) : List Char :=
  match s.chars with
  | [] => []
  | c :: _ =>
    match s.word with
    | [] => (doubleOperators.find? (·.isPrefixOf s.ahead)).getD [c]
    | w => w

end Input

end FuzzFrontend.Scan
