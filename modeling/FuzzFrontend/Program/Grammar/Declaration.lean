import FuzzFrontend.GeneratorName
import FuzzFrontend.Program.Grammar.TypeRef
import FuzzFrontend.Scan.Integer

/-!
Reading declarations. A word tells which declaration starts, and every declaration but a variable
ends with a delimiter of its own.
-/
namespace FuzzFrontend.Program.Grammar

open Scan

/-- Said of a header path that is not closed on its line. -/
def openPathHint : String :=
  "Include paths must close on the same line"

/-- A header path up to its closing delimiter, on one line. -/
def headerPath (style : HeaderStyle) : Rule Declaration := fun s =>
  let inPath : Char → Bool := fun c => c != style.closing && c != '\n'
  let stop := s.dropWhile inPath
  if h : stop.chars.head? = some style.closing then
    have closed : stop.chars ≠ [] := fun hs => by simp [hs] at h
    let path := String.ofList (s.spelledWhile inPath)
    .ok ((Parsed.taking (.header path style) stop 1 closed Nat.one_ne_zero).relax
      (s.length_dropWhile_le inPath))
  else
    .error (.unexpected stop ["'" ++ String.singleton style.closing ++ "'"] (some openPathHint))

/-- The opening delimiter of a header path, and the path. -/
def delimitedPath : Rule Declaration := fun s =>
  match symbol? HeaderStyle.quoted.opening s with
  | some p => (headerPath .quoted p.rest).map (·.relax p.rest_le)
  | none =>
    match symbol? HeaderStyle.angled.opening s with
    | some p => (headerPath .angled p.rest).map (·.relax p.rest_le)
    | none => .error (.unexpected s.skipBlanks ["'\"'", "'<'"])

def header : Rule Declaration :=
  (keyword "#include").andThen fun _ => delimitedPath

/-- A field with a scalar type or a type made from one, up to the name. -/
def scalarField (form : Scalar → Ty) : Rule Field :=
  scalar.andThen fun kind => name.map fun name => .mk name (.known (form kind))

/-- A field of a named type, up to the name of the field. -/
def namedField (form : String → TypeExpr) : Rule Field :=
  name.andThen fun typeName => name.map fun name => .mk typeName (form name)

/-- A field of a struct up to its semicolon. The four forms are a pointer to a scalar, fields of a
named struct or enum type, and a scalar field. -/
def field : Rule Field :=
  let other : Rule Field := fun s =>
    match scalar? s with
    | some _ => scalarField .scalar s
    | none => .error (.unexpected s.skipBlanks (typeExprStarts ++ ["'\x7d'"]))
  let form :=
    Rule.onKeyword "pointer" (scalarField fun kind => .pointer (.scalar kind))
      (Rule.onKeyword "struct" (namedField .structNamed)
        (Rule.onKeyword "enum" (namedField .enumNamed) other))
  form.followedBy (symbol ';')

def structDefinition : Rule Definition :=
  (keyword "struct").andThen fun _ =>
    name.andThen fun name => (braced field).map (Definition.struct name)

/-- An integer of 64 bits as the value of an enum entry. The sign belongs to the literal. -/
def enumNumber : Rule Int := fun s =>
  match numeral s with
  | .error e => .error e
  | .ok p =>
    let start := s.skipBlanks
    let text := p.value.toList
    if '.' ∈ text then
      .error (.unexpected start ["integer"] (some "Enum values must be integers"))
    else
      (signedWord start p.value (text.head? == some '-') (dropSign text)).map fun value =>
        p.map fun _ => value

/-- The value of an enum entry after its name. An entry without a value is zero. -/
def enumEntryValue (name : String) : Rule EnumValue :=
  let comma : Rule Unit := symbol ',' (some "Every enum entry ends with ','")
  fun s =>
    match symbol? '=' s with
    | some p =>
      ((enumNumber.followedBy comma) p.rest).map fun q =>
        (q.map fun value => ⟨name, value⟩).relax p.rest_le
    | none => (comma s).map fun q => q.map fun _ => ⟨name, 0⟩

/-- An entry of an enum up to its comma. -/
def enumEntry : Rule EnumValue :=
  name.andThen enumEntryValue

def enumDefinition : Rule Definition :=
  (keyword "enum").andThen fun _ =>
    name.andThen fun name => (braced enumEntry).map (Definition.enum name)

def typedef : Rule Declaration :=
  (keyword "typedef").andThen fun _ =>
    typeRef.andThen fun source =>
      (name.followedBy (symbol ';')).map fun name => .typedef source name

/-- A struct, an enum or a typedef, declined when none starts here. -/
def typeDeclaration? : OptionalRule Declaration := fun s =>
  if (keyword? "struct" s).isSome then some ((structDefinition.map .define) s)
  else if (keyword? "enum" s).isSome then some ((enumDefinition.map .define) s)
  else if (keyword? "typedef" s).isSome then some (typedef s)
  else none

/-- The name of a generator after `gen:std:` or `gen:`. The first is looked for first, because the
second is its beginning. -/
def generatorName : Rule String :=
  let missing : Rule String := fun s =>
    .error (.unexpected s.skipBlanks ["'gen:std:'", "'gen:'"])
  Rule.onKeyword "gen:std:" (name.map GeneratorName.ofOwn) (Rule.onKeyword "gen:" name missing)

/-- What follows `var:constrained`. -/
def constrainedVariable : Rule Declaration :=
  name.andThen fun name => typeRef.map (.constrained name)

/-- What follows `var:free`. -/
def freeVariable : Rule Declaration :=
  name.andThen fun name =>
    generatorName.andThen fun generator =>
      typeRef.map fun ty => .free ⟨name, generator, ty⟩

/-- A variable, declined when none starts here. -/
def variableDeclaration? : OptionalRule Declaration := fun s =>
  (Rule.ifKeyword "var:constrained" constrainedVariable s).or
    (Rule.ifKeyword "var:free" freeVariable s)

/-- A parameter type up to its comma. -/
def parameter : Rule TypeExpr :=
  typeRef.followedBy (symbol ',' (some "Every parameter type ends with ','"))

/-- What follows `function:decl`. -/
def signature : Rule Declaration :=
  name.andThen fun name =>
    typeRef.andThen fun result =>
      (braced parameter).map fun parameters => .function ⟨name, result, parameters⟩

/-- A function, declined when none starts here. -/
def functionDeclaration? : OptionalRule Declaration :=
  Rule.ifKeyword "function:decl" signature

end FuzzFrontend.Program.Grammar
