import FuzzFrontend.Generator.Read
import FuzzFrontend.Program.Read
import FuzzFrontend.Proofs.Generator.Correspondence
import FuzzFrontend.Proofs.Generator.SplitLiteral
import FuzzFrontend.Proofs.Program.Correspondence
import FuzzFrontend.Proofs.Scan.Place
import FuzzFrontend.Proofs.Stacks

namespace FuzzFrontend

open Scan

variable {source : List Char}

/-- The families of problems that a text can have as a program. -/
def Program.problemFamilies : List Problem.Category :=
  [.grammar, .constantValue]

/-- The families of problems that a text can have as generators. -/
def Generator.problemFamilies : List Problem.Category :=
  [.grammar, .constantValue, .unknownType]

namespace Program.Grammar

theorem grammar_mem : .grammar ∈ problemFamilies := by
  decide

theorem constantValue_mem : .constantValue ∈ problemFamilies := by
  decide

/-- Every problem of a program is told on one line. -/
abbrev reading (source : List Char) : Correspondence :=
  .within source problemFamilies fun _ => False

theorem header_within : (reading source).Keeps header := by
  have hC : (reading source).Kept :=
    Correspondence.within_kept grammar_mem
  have hpath : ∀ style s, s.EndOf source → (reading source).Ends Eq
      (headerPath style s) (headerPath style s) := by
    intro style s hs
    unfold headerPath
    dsimp only
    split
    · exact .ok ⟨rfl, rfl, (hs.dropWhile _).drop 1⟩
    · exact Correspondence.within_unexpected grammar_mem (hs.dropWhile _)
        (by cases style <;> decide)
  refine (hC.keyword rfl asked_none).andThen fun _ => ?_
  rintro s _ ⟨rfl, hs⟩
  unfold delimitedPath
  split
  · rename_i p hp
    exact (hpath _ _ (hs.of_literal? hp)).relax _ _
  · split
    · rename_i p hp
      exact (hpath _ _ (hs.of_literal? hp)).relax _ _
    · exact Correspondence.within_unexpected grammar_mem hs.skipBlanks (by decide)

theorem within_kept : Kept (reading source) where
  toKept := Correspondence.within_kept grammar_mem
  outOfRange := by
    rintro s _ ⟨rfl, hs⟩ text hinteger htext -
    exact ⟨rfl, hs.skipBlanks, .of_found nofun nofun rfl htext, constantValue_mem,
      Or.inl (List.forall_mem_singleton.mpr (oneLine_of_isInteger hinteger))⟩
  tooLong := by
    rintro s _ ⟨rfl, hs⟩ digits hdigits hwithin - hlong
    exact ⟨rfl, digits, hwithin.trans hs.skipBlanks.suffix.isInfix, hdigits, hlong, rfl⟩

theorem about_of_program {nesting : Nesting} {s : Input} (hs : s.EndOf source) {e : Fault}
    (h : program nesting s = .error e) : e.About source problemFamilies (fun _ => False) := by
  have hheader : ∀ ⦃s s'⦄, (reading source).input s s' →
      (reading source).Offers Eq (header? s) (header? s') := by
    rintro s _ ⟨rfl, hs⟩
    unfold header?
    split
    · exact .some (header_within ⟨rfl, hs⟩)
    · exact .none
  have hheaders := Correspondence.many_ends_eq hheader ⟨rfl, hs⟩ (Nat.lt_succ_self _)
    (Nat.lt_succ_self _)
  have hagree := within_kept.program hheaders nesting
  obtain ⟨e', -, -, habout⟩ := hagree.of_error h
  exact habout

end Program.Grammar

namespace Generator.Grammar

theorem grammar_mem : .grammar ∈ problemFamilies := by
  decide

theorem constantValue_mem : .constantValue ∈ problemFamilies := by
  decide

theorem unknownType_mem : .unknownType ∈ problemFamilies := by
  decide

/-- Every problem of generators is told on one line, unless it is that of a split literal. -/
abbrev reading (source : List Char) : Correspondence :=
  .within source problemFamilies Problem.SplitsLiteral

theorem upTo_prefix_chars {s : Input} (hs : Plain s) (rest : Input) :
    (upTo s rest).toList <+: s.chars := by
  rw [upTo, String.toList_ofList, spelled_of_plain hs]
  exact List.take_prefix _ _

theorem endOf_sign {s : Input} (hs : s.EndOf source) : (sign s).2.EndOf source := by
  unfold sign
  split
  · exact (hs.drop 1).skipBlanks
  · exact hs

theorem intLiteral_within : (reading source).Keeps intLiteral := by
  refine Correspondence.within_afterBlanks fun s hs => ?_
  have hsign := endOf_sign hs
  dsimp only
  split
  · exact Correspondence.within_unexpected grammar_mem (hsign.dropWhile _) (by decide)
  · rename_i hne
    have hdigits := isDigits_spelledWhile hsign.plain hne
    have hspelled := spelledWhile_of_plain hsign.plain Char.isDigit
    have hline := fun rest runs =>
      @literal_oneLine_or_split s rest hs.plain (hspelled ▸ hdigits) runs
    split
    · exact .error ⟨rfl, hs, .of_found nofun nofun rfl (upTo_prefix_chars hs.plain _),
        constantValue_mem, Problem.onOneLine_or_split rfl rfl rfl (hline _ _
          List.takeWhile_append_dropWhile.symm (List.all_eq_true.mp List.all_takeWhile))⟩
    · have hwithin : (sign s).2.spelledWhile Char.isDigit <:+: source := by
        rw [hspelled]
        exact (List.takeWhile_prefix _).isInfix.trans hsign.suffix.isInfix
      refine Agree.map (signedWord_agree hdigits ?_ ?_ _) fun _ _ hsame => ?_
      · exact ⟨rfl, hs, .of_found nofun nofun rfl (upTo_prefix_chars hs.plain _),
          constantValue_mem, Problem.onOneLine_or_split rfl rfl rfl
            (hline _ [] rfl (List.forall_mem_nil _))⟩
      · exact fun hlong => ⟨rfl, _, hwithin, hdigits, hlong, rfl⟩
      · exact ⟨hsame, rfl, hsign.dropWhile _⟩

theorem generatorName_within {s : Input} (hs : s.EndOf source) :
    (reading source).Ends Eq (generatorName s) (generatorName s) := by
  have hskip := hs.skipBlanks
  unfold generatorName
  split
  · rename_i rest hrest
    have hafter : rest.EndOf source := by
      rw [(Input.after?_eq_some_iff.mp hrest).2]
      exact hskip.drop _
    refine Correspondence.Ends.relax ?_ _ _
    unfold standardName
    dsimp only
    split
    · exact Correspondence.within_unexpected grammar_mem hafter (by decide)
    · exact .ok ⟨rfl, rfl, hafter.dropWhile _⟩
  · refine Correspondence.Ends.relax ?_ _ _
    unfold ownName
    split
    · exact Correspondence.within_unexpected grammar_mem hskip (by decide)
    · rename_i hne
      split
      · have htext : (String.ofList s.skipBlanks.word).toList = word s.skipBlanks.chars := by
          rw [String.toList_ofList, word_of_plain hskip.plain]
        have hword : (String.ofList s.skipBlanks.word).toList <+: s.skipBlanks.chars :=
          htext ▸ word_prefix_self _
        have hline : OneLine (String.ofList s.skipBlanks.word).toList :=
          htext ▸ oneLine_of_isWord (isWord_word (by simpa using hne))
        exact .error ⟨rfl, hskip, .of_found nofun nofun rfl hword,
          grammar_mem, Or.inl (List.forall_mem_singleton.mpr hline)⟩
      · exact .ok ⟨rfl, rfl, hskip.drop _⟩

theorem within_kept : Kept (reading source) where
  toKept := Correspondence.within_kept grammar_mem
  intLiteral := intLiteral_within
  generatorName := by
    rintro s _ ⟨rfl, hs⟩
    exact generatorName_within hs
  unknownType := by
    rintro s _ ⟨rfl, hs⟩ text hword htext -
    exact ⟨rfl, hs.skipBlanks, .of_found nofun nofun rfl htext, unknownType_mem,
      Or.inl (List.forall_mem_singleton.mpr (oneLine_of_isWord hword))⟩

theorem about_of_generators {precedence : Precedence} {nesting : Nesting} {s : Input}
    (hs : s.EndOf source) {e : Fault} (h : generators precedence nesting [] s = .error e) :
    e.About source problemFamilies Problem.SplitsLiteral := by
  have hagree := within_kept.generators (carried_eq precedence) nesting .nil ⟨rfl, hs⟩
  obtain ⟨e', -, -, habout⟩ := hagree.of_error h
  exact habout

end Generator.Grammar

section Readers

/-- The failures that a reader of a source may end with. -/
inductive Scan.ReadError.Expected (reader : String) (source : String) (limits : Limits)
    (families : List Problem.Category) : ReadError → Prop
  /-- The size is checked, and the source is larger than allowed. -/
  | tooLarge (hchecked : 0 < limits.sourceSize) (hlarge : limits.sourceSize < source.length) :
      Expected reader source limits families
        (.tooLarge ⟨reader, source.length, limits.sourceSize⟩)
  /-- A problem of one of the families, with its place. -/
  | located {l : Located} (hfamily : l.what.category ∈ families) :
      Expected reader source limits families (.located l)
  /-- Digits of the source that are too many to be read as a number. -/
  | numeral {digits : List Char} (hwithin : digits <:+: source.toList)
      (hdigits : isDigits digits = true) (hlong : Text.maxNumeralDigits < digits.length) :
      Expected reader source limits families (.numeral (.tooLong digits.length))

variable {families : List Problem.Category} {broken : Problem → Prop} {text reader : String}
  {limits : Limits} {precedence : Precedence} {e : ReadError}

theorem endOf_toList (text : String) : (Input.ofList text.toList).EndOf text.toList :=
  ⟨rfl, List.suffix_refl _⟩

theorem Program.exists_fault_of_read (h : Program.read text limits = .error e) :
    limits.sizeError? "ProgramParser" text = some e ∨
      ∃ fault : Scan.Fault, fault.About text.toList Program.problemFamilies (fun _ => False) ∧
        fault.locate ⟨text.toList, 0⟩ = e := by
  unfold Program.read at h
  split at h
  · rename_i hsize
    cases h
    exact Or.inl hsize
  · obtain ⟨fault, hfault, hlocated⟩ := mapError_eq_error.mp h
    exact Or.inr ⟨fault, Grammar.about_of_program (endOf_toList text) hfault, hlocated⟩

theorem Generator.exists_fault_of_read (h : Generator.read text precedence limits = .error e) :
    limits.sizeError? "GeneratorParser" text = some e ∨
      ∃ fault : Scan.Fault, fault.About text.toList problemFamilies Problem.SplitsLiteral ∧
        fault.locate ⟨text.toList, 0⟩ = e := by
  unfold Generator.read at h
  split at h
  · rename_i hsize
    cases h
    exact Or.inl hsize
  · obtain ⟨fault, hfault, hlocated⟩ := mapError_eq_error.mp h
    exact Or.inr ⟨fault, Grammar.about_of_generators (endOf_toList text) hfault, hlocated⟩

theorem sizeError?_eq_some (h : limits.sizeError? reader text = some e) :
    0 < limits.sourceSize ∧ limits.sourceSize < text.length ∧
      e = .tooLarge ⟨reader, text.length, limits.sourceSize⟩ := by
  unfold Limits.sizeError? at h
  split at h
  · rename_i hlarge
    cases h
    exact ⟨hlarge.1, hlarge.2, rfl⟩
  · cases h

theorem expected_of_fault (h : limits.sizeError? reader text = some e ∨
    ∃ fault : Scan.Fault, fault.About text.toList families broken ∧
      fault.locate ⟨text.toList, 0⟩ = e) : e.Expected reader text limits families := by
  rcases h with hsize | ⟨fault, habout, rfl⟩
  · obtain ⟨hchecked, hlarge, rfl⟩ := sizeError?_eq_some hsize
    exact .tooLarge hchecked hlarge
  · rcases Scan.Fault.locate_of_about habout with
      ⟨l, hl, hfamily, -⟩ | ⟨digits, hwithin, hdigits, hlong, hnumeral⟩
    · rw [hl]
      exact .located hfamily
    · rw [hnumeral]
      exact .numeral hwithin hdigits hlong

/-- A coded failure is a located problem. It is told on one line unless it may be broken, and the
place is that of what the problem is about. -/
theorem located_of_fault (h : limits.sizeError? reader text = some e ∨
    ∃ fault : Scan.Fault, fault.About text.toList families broken ∧
      fault.locate ⟨text.toList, 0⟩ = e) (hcoded : e.category ≠ none) :
    ∃ l, e = .located l ∧ (l.what.OnOneLine ∨ broken l.what) ∧ l.PointsInto text.toList := by
  rcases h with hsize | ⟨fault, habout, rfl⟩
  · obtain ⟨-, -, rfl⟩ := sizeError?_eq_some hsize
    exact absurd rfl hcoded
  · rcases Scan.Fault.locate_of_about habout with
      ⟨l, hl, -, hline, hpoints⟩ | ⟨_, -, -, -, hnumeral⟩
    · exact ⟨l, hl, hline, hpoints⟩
    · rw [hnumeral] at hcoded
      exact absurd rfl hcoded

theorem pointsInto_of_fault (h : limits.sizeError? reader text = some e ∨
    ∃ fault : Scan.Fault, fault.About text.toList families broken ∧
      fault.locate ⟨text.toList, 0⟩ = e) (hcoded : e.category ≠ none) :
    ∃ l, e = .located l ∧ l.PointsInto text.toList := by
  obtain ⟨l, hl, -, hpoints⟩ := located_of_fault h hcoded
  exact ⟨l, hl, hpoints⟩

/-- A reading gives its value or fails as expected. No span is ill-formed, no numeral is empty, and
no constant is of a type or a value that has none. The operands of a program are put together with
stacks on which none is ever missing. -/
theorem read_closed (source : String) (limits : Limits) (precedence : Precedence) :
    ((∃ p, Program.read source limits = .ok p) ∨
      ∃ e, Program.read source limits = .error e ∧
        e.Expected "ProgramParser" source limits [.grammar, .constantValue]) ∧
    ((∃ gs, Generator.read source precedence limits = .ok gs) ∨
      ∃ e, Generator.read source precedence limits = .error e ∧
        e.Expected "GeneratorParser" source limits [.grammar, .constantValue, .unknownType]) ∧
    ∀ operand links, Chain.runStacks? BinaryOp.level Expr.compound [operand] [] links =
      some (Program.Grammar.grouped (operand, links)) := by
  refine ⟨?_, ?_, fun operand links => Chain.runStacks?_eq_group operand links⟩
  · cases h : Program.read source limits with
    | ok p => exact Or.inl ⟨p, rfl⟩
    | error e => exact Or.inr ⟨e, rfl, expected_of_fault (Program.exists_fault_of_read h)⟩
  · cases h : Generator.read source precedence limits with
    | ok gs => exact Or.inl ⟨gs, rfl⟩
    | error e => exact Or.inr ⟨e, rfl, expected_of_fault (Generator.exists_fault_of_read h)⟩

/-- A coded failure of either reader is a problem that points at the text it is about. -/
theorem read_error_points (source : String) (limits : Limits) :
    (∀ e, Program.read source limits = .error e → e.category ≠ none →
      ∃ l, e = .located l ∧ l.PointsInto source.toList) ∧
    ∀ precedence e, Generator.read source precedence limits = .error e → e.category ≠ none →
      ∃ l, e = .located l ∧ l.PointsInto source.toList :=
  ⟨fun _ h hcoded => pointsInto_of_fault (Program.exists_fault_of_read h) hcoded,
    fun _ _ h hcoded => pointsInto_of_fault (Generator.exists_fault_of_read h) hcoded⟩

/-- The same text, refused at its first word as a generator and at its second as a program. -/
theorem read_error_points_struct :
    ∃ d e : ReadError, Program.read "\nstruct ;" = .error d ∧
      Generator.read "\nstruct ;" = .error e ∧ d.category ≠ none ∧ e.category ≠ none ∧
      (∃ l, d = .located l ∧ l.PointsInto "\nstruct ;".toList) ∧
      ∃ l, e = .located l ∧ l.PointsInto "\nstruct ;".toList := by
  have hgenerator : Generator.read "\nstruct ;" = .error (.located
      { what := .unexpectedToken "struct" ["'generator'"] none
        span := ⟨1, 7, 2, 1, by decide, by decide, by decide⟩
        cursor := ⟨"\nstruct ;".toList, 1⟩
        wanted := ["'generator'"] }) := by
    -- Repetitions do not reduce and are opened by their equations; the rules below them do reduce.
    have hheading : Generator.Grammar.heading (.ofList "\nstruct ;".toList) =
        .error (.problem (.ofList "struct ;".toList)
          (.unexpectedToken "struct" ["'generator'"] none) ["'generator'"]) := rfl
    unfold Generator.read
    rw [Generator.Grammar.generators.eq_def]
    simp only [Generator.Grammar.generator, hheading]
    rfl
  have hprogram : Program.read "\nstruct ;" = .error (.located
      { what := .unexpectedToken ";" ["identifier"] none
        span := ⟨8, 9, 2, 8, by decide, by decide, by decide⟩
        cursor := ⟨"\nstruct ;".toList, 8⟩
        wanted := ["identifier"] }) := by
    have hheader : Program.Grammar.header? (.ofList "\nstruct ;".toList) = none := rfl
    have htype : Program.Grammar.typeDeclaration? (.ofList "\nstruct ;".toList) =
        some (.error (.problem (.ofList ";".toList)
          (.unexpectedToken ";" ["identifier"] none) ["identifier"])) := rfl
    unfold Program.read Program.Grammar.program
    rw [many.eq_def Program.Grammar.header?]
    simp only [hheader, bind, Except.bind]
    rw [many.eq_def Program.Grammar.typeDeclaration?]
    simp only [htype]
    rfl
  have hcoded : ∀ l : Located, (ReadError.located l).category ≠ none :=
    fun _ => Option.some_ne_none _
  exact ⟨_, _, hprogram, hgenerator, hcoded _, hcoded _,
    (read_error_points _ _).1 _ hprogram (hcoded _),
    (read_error_points _ _).2 _ _ hgenerator (hcoded _)⟩

end Readers

end FuzzFrontend
