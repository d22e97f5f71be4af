import FuzzFrontend.Scan.Fault

/-!
Rules of a grammar. A rule takes what is left to read and gives a value with what is left after it,
or a fault. What is left is always shorter, which is why every repetition of a rule ends.

To ask a cursor for a character at the end of its text is a fault, `Cursor.Fault.pastEnd`. A rule
never does: it looks at what is left by functions on lists, for which the end is the empty list, and
finds there that what it wants is missing, a problem like any other.
-/
namespace FuzzFrontend.Scan

/-- A value that was read, and what is left after it, which is shorter than `bound`. -/
@[ext]
structure Parsed (α : Type) (bound : Nat) where
  value : α
  rest : Input
  shorter : rest.length < bound

namespace Parsed

theorem rest_lt {α : Type} {s : Input} (p : Parsed α s.length) : p.rest.length < s.length :=
  p.shorter

theorem rest_le {α : Type} {s : Input} (p : Parsed α s.length) : p.rest.length ≤ s.length :=
  Nat.le_of_lt p.shorter

theorem rest_lt_of_le {α : Type} {s : Input} {n : Nat} (p : Parsed α s.length)
    (h : s.length ≤ n) : p.rest.length < n :=
  Nat.lt_of_lt_of_le p.shorter h

/-- The same value under a larger bound. -/
def relax {α : Type} {m n : Nat} (p : Parsed α m) (h : m ≤ n) : Parsed α n :=
  { p with shorter := Nat.lt_of_lt_of_le p.shorter h }

def map {α β : Type} {n : Nat} (f : α → β) (p : Parsed α n) : Parsed β n :=
  ⟨f p.value, p.rest, p.shorter⟩

/-- A value that takes the next `n` characters. -/
def taking {α : Type} (value : α) (s : Input) (n : Nat) (hs : s.chars ≠ []) (hn : n ≠ 0) :
    Parsed α s.length :=
  ⟨value, s.drop n, by
    have : 0 < s.length := List.length_pos_iff.2 hs
    rw [Input.length_drop]
    omega⟩

end Parsed

/-- A rule reads a value from the head of an input. -/
def Rule (α : Type) : Type :=
  (s : Input) → Except Fault (Parsed α s.length)

/-- A rule that may decline an input, and then reads nothing. -/
def OptionalRule (α : Type) : Type :=
  (s : Input) → Option (Except Fault (Parsed α s.length))

namespace Rule

/-- One rule after another. -/
def andThen {α β : Type} (p : Rule α) (f : α → Rule β) : Rule β := fun s =>
  match p s with
  | .error e => .error e
  | .ok a =>
    match f a.value a.rest with
    | .error e => .error e
    | .ok b => .ok (b.relax a.rest_le)

def map {α β : Type} (f : α → β) (p : Rule α) : Rule β := fun s =>
  (p s).map (·.map f)

/-- A rule and then another one of which only the end counts. -/
def followedBy {α : Type} (p : Rule α) (q : Rule Unit) : Rule α :=
  p.andThen fun a => q.map fun _ => a

/-- A rule on the input after its blanks. -/
def afterBlanks {α : Type} (p : Rule α) : Rule α := fun s =>
  (p s.skipBlanks).map (·.relax s.length_skipBlanks_le)

/-- A rule with a bound on the input that is not used. -/
def below {α : Type} (p : Rule α) (n : Nat) :
    (s : Input) → s.length < n → Except Fault (Parsed α s.length) :=
  fun s _ => p s

end Rule

theorem length_lt_of_after? {s rest : Input} {taken : List Char}
    (h : s.skipBlanks.after? taken = some rest) (ht : taken ≠ []) : rest.length < s.length := by
  have hs := s.length_skipBlanks_le
  have := List.length_pos_iff.2 ht
  have hc := congrArg List.length (Input.chars_eq_of_after? h)
  rw [List.length_append] at hc
  simp only [Input.length] at hs ⊢
  omega

/-- The literal text after blanks, if it is there. -/
def literal? (text : List Char) (ht : text ≠ []) (s : Input) : Option (Parsed Unit s.length) :=
  match h : s.skipBlanks.after? text with
  | none => none
  | some rest => some ⟨(), rest, length_lt_of_after? h ht⟩

theorem literal?_eq_some_iff {text : List Char} {ht : text ≠ []} {s : Input}
    {p : Parsed Unit s.length} :
    literal? text ht s = some p ↔
      text <+: s.skipBlanks.ahead ∧ p.rest = s.skipBlanks.drop text.length := by
  rw [← Input.after?_eq_some_iff]
  unfold literal?
  split
  · rename_i h
    simp [h]
  · rename_i rest h
    simp [h, Parsed.ext_iff]

def endsInWord (text : List Char) : Bool :=
  text.getLast?.any isWordChar

def runsOnAsWord (s : Input) : Bool :=
  s.chars.head?.any isWordChar

/-- The keyword after blanks, if it is there. A keyword that ends like a word must not run on like
one. The empty text is no keyword. -/
def keyword? (text : String) (s : Input) : Option (Parsed Unit s.length) :=
  if ht : text.toList = [] then none
  else
    (literal? text.toList ht s).filter fun p => !(endsInWord text.toList && runsOnAsWord p.rest)

theorem keyword?_eq_some_iff {text : String} {s : Input} {p : Parsed Unit s.length} :
    keyword? text s = some p ↔
      text.toList ≠ [] ∧ text.toList <+: s.skipBlanks.ahead ∧
        p.rest = s.skipBlanks.drop text.toList.length ∧
        (endsInWord text.toList && runsOnAsWord p.rest) = false := by
  unfold keyword?
  split
  · rename_i ht
    simp [ht]
  · rename_i ht
    rw [Option.filter_eq_some_iff, literal?_eq_some_iff]
    simp only [ne_eq, ht, not_false_eq_true, true_and, Bool.not_eq_true', and_assoc]

/-- The fault of a text that is wanted after blanks and not there. -/
def missing (text : String) (hint : Option String) (s : Input) : Fault :=
  .unexpected s.skipBlanks ["'" ++ text ++ "'"] hint

def keyword (text : String) (hint : Option String := none) : Rule Unit := fun s =>
  match keyword? text s with
  | some p => .ok p
  | none => .error (missing text hint s)

/-- A rule for what follows a keyword, or another rule when the keyword is not there. -/
def Rule.onKeyword {α : Type} (text : String) (p otherwise : Rule α) : Rule α := fun s =>
  match keyword? text s with
  | some k => (p k.rest).map (·.relax k.rest_le)
  | none => otherwise s

/-- A rule for what follows a keyword, declined when the keyword is not there. -/
def Rule.ifKeyword {α : Type} (text : String) (p : Rule α) : OptionalRule α := fun s =>
  (keyword? text s).map fun k => (p k.rest).map (·.relax k.rest_le)

/-- The character after blanks, if it is there. -/
def symbol? (c : Char) : (s : Input) → Option (Parsed Unit s.length) :=
  literal? [c] (by simp)

theorem symbol?_eq_some_iff {c : Char} {s : Input} {p : Parsed Unit s.length} :
    symbol? c s = some p ↔ [c] <+: s.skipBlanks.ahead ∧ p.rest = s.skipBlanks.drop 1 :=
  literal?_eq_some_iff

def symbol (c : Char) (hint : Option String := none) : Rule Unit := fun s =>
  match symbol? c s with
  | some p => .ok p
  | none => .error (missing (String.singleton c) hint s)

/-- The character of which a text consists, which must be there. A text that is not one character
is never there. -/
def character (text : String) (hint : Option String := none) : Rule Unit :=
  match text.toList with
  | [c] => symbol c hint
  | _ => fun s => .error (missing text hint s)

/-- A word of any kind, after blanks. -/
def identifier : Rule String := Rule.afterBlanks fun s =>
  if h : s.word = [] then .error (.unexpected s ["identifier"])
  else
    .ok (Parsed.taking (String.ofList s.word) s s.word.length (Input.chars_ne_nil_of_word h)
      (mt List.length_eq_zero_iff.1 h))

/-- A number after blanks, kept as it is spelled. -/
def numeral : Rule String := Rule.afterBlanks fun s =>
  if h : startsNumber s.chars = true then
    let width := (number s.chars).length
    .ok (Parsed.taking (String.ofList (s.spelled width)) s width (startsNumber_ne_nil h)
      (mt List.length_eq_zero_iff.1 (number_ne_nil h)))
  else .error (.unexpected s ["number"])

/-- Reads items until the closing brace, which is read too. Items must be read from inputs no longer
than `n`; those read so far are given last first. -/
def itemsUntilBrace {α : Type} {n : Nat}
    (item : (s : Input) → s.length < n → Except Fault (Parsed α s.length))
    (found : List α) (s : Input) (h : s.length < n) : Except Fault (Parsed (List α) n) :=
  match symbol? '}' s with
  | some p => .ok ⟨found.reverse, p.rest, Nat.lt_trans p.shorter h⟩
  | none =>
    match item s h with
    | .error e => .error e
    | .ok p => itemsUntilBrace item (p.value :: found) p.rest (Nat.lt_trans p.shorter h)
termination_by s.length
decreasing_by exact p.shorter

def braced {α : Type} (item : Rule α) : Rule (List α) := fun s =>
  match (symbol '{') s with
  | .error e => .error e
  | .ok p => itemsUntilBrace (item.below s.length) [] p.rest p.rest_lt

/-- Reads values for as long as the rule does not decline. Those read so far are given last
first. -/
def many {α : Type} {n : Nat} (item : OptionalRule α) (found : List α) (s : Input)
    (h : s.length < n) : Except Fault (Parsed (List α) n) :=
  match item s with
  | none => .ok ⟨found.reverse, s, h⟩
  | some (.error e) => .error e
  | some (.ok p) => many item (p.value :: found) p.rest (Nat.lt_trans p.shorter h)
termination_by s.length
decreasing_by exact p.shorter

end FuzzFrontend.Scan
