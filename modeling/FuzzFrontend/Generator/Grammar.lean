import FuzzFrontend.Chain
import FuzzFrontend.GeneratorName
import FuzzFrontend.Scan.Integer
import FuzzFrontend.Scan.Nesting

/-!
The grammar of generators. A state is a chain of terms and operators, which is grouped by the
precedence that is asked for; the chain itself is the same under both. Only the bounds of a random
value hold chains of their own.
-/
namespace FuzzFrontend.Generator.Grammar

open Scan

/-- The token in the place of a type that makes a text constant. -/
def textToken : String :=
  "string"

/-- The words that name no generator. -/
def reservedNames : List String :=
  ["generator", "state", "constant", "min", "max", "random", textToken] ++ Scalar.tokens

def isName (name : String) : Bool :=
  match GeneratorName.ofStandard? name with
  | some own => !own.isEmpty && own.toList.all isWordChar
  | none => isWord name.toList && !reservedNames.contains name

def typeToken : Rule Scalar := fun s =>
  match identifier s with
  | .error _ => .error (.unexpected s.skipBlanks ["type"])
  | .ok p =>
    match Scalar.ofToken? p.value with
    | some kind => .ok (p.map fun _ => kind)
    | none => .error (.problem s.skipBlanks (.unknownType p.value) [])

/-- Characters that a digit sequence must not run into. -/
def runsOn (c : Char) : Bool :=
  isWordChar c || c == '.'

/-- The sign of a literal, if it is there, and what is left after it and its blanks. -/
def sign (s : Input) : Bool × Input :=
  if s.chars.head? = some '-' then (true, (s.drop 1).skipBlanks) else (false, s)

theorem length_sign_le (s : Input) : (sign s).2.length ≤ s.length := by
  unfold sign
  split
  · refine Nat.le_trans (Input.length_skipBlanks_le _) ?_
    rw [Input.length_drop]
    exact Nat.sub_le _ _
  · exact Nat.le_refl _

/-- The spelling of an input up to where only `rest` is left. -/
def upTo (s rest : Input) : String :=
  String.ofList (s.spelled (s.length - rest.length))

/-- An integer literal of 64 bits. Blanks may follow the sign. -/
def intLiteral : Rule Int := Rule.afterBlanks fun s =>
  let unsigned := (sign s).2
  let digits := unsigned.spelledWhile Char.isDigit
  let rest := unsigned.dropWhile Char.isDigit
  if h : digits = [] then .error (.unexpected rest ["digits"])
  else if rest.chars.head?.any runsOn then
    .error (.problem s (.constantMalformed (upTo s (rest.dropWhile runsOn))) [])
  else
    (signedWord s (upTo s rest) (sign s).1 digits).map fun value =>
      ⟨value, rest, Nat.lt_of_lt_of_le (Input.length_dropWhile_lt h) (length_sign_le s)⟩

/-- A name without a mark: a word that is not reserved. A word across a seam may be spelled by
nothing, and then nothing is taken. -/
def ownName (s : Input) : Except Fault (Parsed String (s.length + 1)) :=
  if (Scan.word s.chars).isEmpty then .error (.unexpected s ["generator name"])
  else if String.ofList s.word ∈ reservedNames then
    .error (.problem s (.reservedWord (String.ofList s.word)) ["generator name"])
  else .ok ⟨String.ofList s.word, s.drop s.word.length, s.length_drop_lt _⟩

/-- A name with its mark at the head of `s` and word characters, at least one, at that of `rest`. -/
def standardName (s rest : Input) : Except Fault (Parsed String (rest.length + 1)) :=
  let stop := rest.dropWhile isWordChar
  if stop = rest then .error (.unexpected rest ["generator name"])
  else .ok ⟨upTo s stop, stop, Nat.lt_succ_of_le (rest.length_dropWhile_le isWordChar)⟩

/-- The name of a generator: `std:` and any word characters, or a word that is not reserved. -/
def generatorName (s : Input) : Except Fault (Parsed String (s.length + 1)) :=
  match h : s.skipBlanks.after? GeneratorName.standard with
  | some rest =>
    (standardName s.skipBlanks rest).map (·.relax (Nat.succ_le_succ (Nat.le_of_lt
      (length_lt_of_after? h (by decide)))))
  | none => (ownName s.skipBlanks).map (·.relax (Nat.succ_le_succ s.length_skipBlanks_le))

/-- The arithmetic operators in the order in which they are looked for. -/
def arithmetic : List ArithmeticOp :=
  [⟨.add, rfl⟩, ⟨.sub, rfl⟩, ⟨.mul, rfl⟩, ⟨.div, rfl⟩, ⟨.mod, rfl⟩]

/-- The arithmetic operator after blanks, if there is one. -/
def arithmeticOp? (s : Input) : Option (Parsed ArithmeticOp s.length) :=
  arithmetic.findSome? fun op =>
    (literal? op.val.symbol.toList op.val.symbol_ne_empty s).map fun p => p.map fun _ => op

/-- A rule for the states inside a state of length `n`. -/
abbrev Inner (n : Nat) : Type :=
  Nesting → (s : Input) → s.length < n → Except Fault (Parsed GenExpr s.length)

def bracketedLiteral : Rule Int :=
  (symbol '(').andThen fun _ => intLiteral.followedBy (symbol ')')

def emptyBrackets : Rule Unit :=
  (symbol '(').andThen fun _ => symbol ')'

/-- What follows the text token: the keyword for a constant and a literal, which is not kept. -/
def textConstant (start : Input) : Rule GenExpr :=
  let unknown : Rule GenExpr := fun _ => .error (.problem start (.unknownType textToken) [])
  (symbol ':').andThen fun _ =>
    Rule.onKeyword "constant"
      (bracketedLiteral.map fun _ => .constant (.text textToken)) unknown

def typedConstant (kind : Scalar) : Rule GenExpr := fun s =>
  match bracketedLiteral s with
  | .error e => .error e
  | .ok p =>
    match Constant.forType (.scalar kind) p.value with
    | .error e => .error (.constant e)
    | .ok value => .ok (p.map fun _ => .constant value)

/-- A random value between two bounds, after its keyword. The depth is checked first. -/
def randomRest {n : Nat} (state : Inner n) (nesting : Nesting) (kind : Scalar) (s : Input)
    (h : s.length ≤ n) : Except Fault (Parsed GenExpr s.length) :=
  match nesting.enter s with
  | .error e => .error e
  | .ok nested =>
    match (symbol '(') s with
    | .error e => .error e
    | .ok p =>
      match state nested p.rest (p.rest_lt_of_le h) with
      | .error e => .error e
      | .ok low =>
        match (symbol ',') low.rest with
        | .error e => .error e
        | .ok q =>
          have below : q.rest.length < s.length :=
            Nat.lt_trans q.shorter (Nat.lt_trans low.shorter p.shorter)
          match state nested q.rest (Nat.lt_of_lt_of_le below h) with
          | .error e => .error e
          | .ok high =>
            ((symbol ')') high.rest).map fun r =>
              (r.map fun _ => .random (.scalar kind) low.value high.value).relax
                (Nat.le_of_lt (Nat.lt_trans high.shorter below))

/-- What may follow the colon of a term. -/
def termKeywords : List String :=
  ["'constant'", "'min'", "'max'", "'random'"]

/-- What follows the type of a term. -/
def typedTerm {n : Nat} (state : Inner n) (nesting : Nesting) (kind : Scalar) (s : Input)
    (h : s.length ≤ n) : Except Fault (Parsed GenExpr s.length) :=
  match (symbol ':') s with
  | .error e => .error e
  | .ok colon =>
    let read : Except Fault (Parsed GenExpr colon.rest.length) :=
      match keyword? "constant" colon.rest with
      | some k => (typedConstant kind k.rest).map (·.relax k.rest_le)
      | none =>
        match keyword? "min" colon.rest with
        | some k =>
          (emptyBrackets k.rest).map fun p =>
            (p.map fun _ => .least (.scalar kind)).relax k.rest_le
        | none =>
          match keyword? "max" colon.rest with
          | some k =>
            (emptyBrackets k.rest).map fun p =>
              (p.map fun _ => .greatest (.scalar kind)).relax k.rest_le
          | none =>
            match keyword? "random" colon.rest with
            | some k =>
              (randomRest state nesting kind k.rest
                (Nat.le_of_lt (Nat.lt_of_lt_of_le (Nat.lt_trans k.shorter colon.shorter) h))).map
                  (·.relax k.rest_le)
            | none => .error (.unexpected colon.rest.skipBlanks termKeywords)
    read.map (·.relax colon.rest_le)

/-- A term: a text constant, or a type and a constant, a bound or a random value of it. -/
def term {n : Nat} (state : Inner n) (nesting : Nesting) (s : Input) (h : s.length ≤ n) :
    Except Fault (Parsed GenExpr s.length) :=
  match keyword? textToken s with
  | some k => (textConstant s.skipBlanks k.rest).map (·.relax k.rest_le)
  | none =>
    match typeToken s with
    | .error e => .error e
    | .ok p =>
      (typedTerm state nesting p.value p.rest (Nat.le_trans p.rest_le h)).map (·.relax p.rest_le)

/-- The operators and terms that follow a term. Those read so far are given last first. -/
def terms {n : Nat} (state : Inner n) (nesting : Nesting) (found : List (ArithmeticOp × GenExpr))
    (s : Input) (h : s.length < n) :
    Except Fault (Parsed (List (ArithmeticOp × GenExpr)) n) :=
  match arithmeticOp? s with
  | none => .ok ⟨found.reverse, s, h⟩
  | some op =>
    match term state nesting op.rest (Nat.le_of_lt (Nat.lt_trans op.shorter h)) with
    | .error e => .error e
    | .ok p =>
      terms state nesting ((op.value, p.value) :: found) p.rest
        (Nat.lt_trans p.shorter (Nat.lt_trans op.shorter h))
termination_by s.length
decreasing_by exact Nat.lt_trans p.shorter op.shorter

/-- A term and the operators and terms that follow it. -/
def chain (s : Input) (state : Inner s.length) (nesting : Nesting) :
    Except Fault (Parsed (GenExpr × List (ArithmeticOp × GenExpr)) s.length) :=
  match term state nesting s s.length_le_self with
  | .error e => .error e
  | .ok first =>
    (terms state nesting [] first.rest first.rest_lt).map fun rest =>
      rest.map fun links => (first.value, links)

def grouped (precedence : Precedence) (chain : GenExpr × List (ArithmeticOp × GenExpr)) : GenExpr :=
  Chain.group (fun op => precedence.level op.val) .compound chain.1 chain.2

def state (precedence : Precedence) (nesting : Nesting) (s : Input) :
    Except Fault (Parsed GenExpr s.length) :=
  (chain s (fun nested t _ => state precedence nested t) nesting).map fun p =>
    p.map (grouped precedence)
termination_by s.length

def nameAndType : Rule (String × Scalar) := fun s =>
  match generatorName s with
  | .error e => .error e
  | .ok p =>
    (typeToken p.rest).map fun q =>
      (q.map fun kind => (p.value, kind)).relax (Nat.le_of_lt_succ p.shorter)

def heading : Rule (String × Scalar) :=
  (keyword "generator").andThen fun _ => nameAndType

/-- A generator: its name, its type and at least one state. -/
def generator (precedence : Precedence) (nesting : Nesting) : Rule Generator := fun s =>
  match heading s with
  | .error e => .error e
  | .ok p =>
    let item := Rule.ifKeyword "state" (state precedence nesting)
    match many item [] p.rest p.rest_lt with
    | .error e => .error e
    | .ok q =>
      let (name, kind) := p.value
      if h : q.value = [] then
        .error (.problem q.rest.skipBlanks (.emptyGenerator name) ["state"])
      else .ok (q.map fun _ => ⟨.scalar kind, name, q.value, h⟩)

/-- Generators up to the end of the text, at least one. Those read so far are given last first. -/
def generators (precedence : Precedence) (nesting : Nesting) (found : List Generator)
    (s : Input) : Except Fault (List Generator) :=
  match generator precedence nesting s with
  | .error e => .error e
  | .ok p =>
    if p.rest.skipBlanks.chars.isEmpty then .ok (p.value :: found).reverse
    else generators precedence nesting (p.value :: found) p.rest
termination_by s.length
decreasing_by exact p.shorter

end FuzzFrontend.Generator.Grammar
