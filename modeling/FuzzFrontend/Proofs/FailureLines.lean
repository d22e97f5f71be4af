import FuzzFrontend.Proofs.Diagnostic.Rows
import FuzzFrontend.Proofs.Failures

namespace FuzzFrontend

open Scan Diagnostic

theorem Scan.Located.keepsLines {l : Located} (h : l.what.OnOneLine) (w : Writer) :
    w.KeepsLines l.diagnostic :=
  Writer.keepsLines h.message h.expected h.hint

theorem Scan.Located.not_oneLine_line {l : Located} (h : l.what.SplitsLiteral) {w : Writer}
    (hwhole : w.truncate = false) : ¬ OneLine (w.line l.diagnostic).toList :=
  Writer.not_oneLine_line hwhole
    fun hmessage => h.not_onOneLine ((Problem.onOneLine_iff_message h.1).mpr hmessage)

/-- Generators with a literal whose digits are on the line below its sign, and run into a letter. -/
def splitSource : String :=
  "generator g U8\nstate U8:constant(-\n1x)\n"

theorem read_splitSource (precedence : Precedence) :
    Generator.read splitSource precedence = .error (.located
      { what := .constantMalformed "-\n1x"
        span := ⟨33, 37, 2, 19, by decide, by decide, by decide⟩
        cursor := ⟨splitSource.toList, 33⟩
        wanted := [] }) := by
  -- Repetitions do not reduce and are opened by their equations; the rules below them do reduce.
  let literal := Input.ofList "-\n1x)\n".toList
  let fault := Fault.problem literal (.constantMalformed "-\n1x") []
  have hheading : Generator.Grammar.heading (.ofList splitSource.toList) =
      .ok ⟨("g", .u8), .ofList "\nstate U8:constant(-\n1x)\n".toList, by decide⟩ := rfl
  have hkeyword : keyword? "state" (.ofList "\nstate U8:constant(-\n1x)\n".toList) =
      some ⟨(), .ofList " U8:constant(-\n1x)\n".toList, by decide⟩ := rfl
  have hterm : ∀ {n} (inner : Generator.Grammar.Inner n) nesting hle,
      Generator.Grammar.term inner nesting (.ofList " U8:constant(-\n1x)\n".toList) hle =
        .error fault := fun _ _ _ => rfl
  have hstate : ∀ nesting, Generator.Grammar.state precedence nesting
      (.ofList " U8:constant(-\n1x)\n".toList) = .error fault := by
    intro nesting
    rw [Generator.Grammar.state.eq_def]
    simp only [Generator.Grammar.chain, hterm]
    rfl
  have hitem : ∀ nesting, Rule.ifKeyword "state" (Generator.Grammar.state precedence nesting)
      (.ofList "\nstate U8:constant(-\n1x)\n".toList) = some (.error fault) := by
    intro nesting
    simp only [Rule.ifKeyword, hkeyword, Option.map_some, hstate]
    rfl
  have hgenerator : ∀ nesting, Generator.Grammar.generator precedence nesting
      (.ofList splitSource.toList) = .error fault := by
    intro nesting
    simp only [Generator.Grammar.generator, hheading]
    rw [many.eq_def]
    simp only [hitem]
  unfold Generator.read
  rw [Generator.Grammar.generators.eq_def]
  simp only [hgenerator]
  rfl

theorem splitsLiteral_malformed : (Problem.constantMalformed "-\n1x").SplitsLiteral :=
  ⟨rfl, "-\n1x", rfl, ['\n'], ['1', 'x'], rfl, List.forall_mem_singleton.mpr rfl, by decide, rfl,
    List.forall_mem_cons.mpr ⟨rfl, List.forall_mem_singleton.mpr rfl⟩⟩

/-- A coded failure keeps the lines that its diagnostic is written on, unless it is about a literal
with a line break between its sign and its digits. -/
theorem read_error_keeps_lines (source : String) (limits : Limits) :
    (∀ e, Program.read source limits = .error e → e.category ≠ none →
      ∃ l, e = .located l ∧ ∀ w : Writer, w.KeepsLines l.diagnostic) ∧
    ∀ precedence e, Generator.read source precedence limits = .error e → e.category ≠ none →
      ∃ l, e = .located l ∧ ∀ w : Writer,
        (¬ l.what.SplitsLiteral → w.KeepsLines l.diagnostic) ∧
        (l.what.SplitsLiteral → w.truncate = false → ¬ OneLine (w.line l.diagnostic).toList) := by
  refine ⟨fun e h hcoded => ?_, fun precedence e h hcoded => ?_⟩
  · obtain ⟨l, rfl, hline, -⟩ := located_of_fault (Program.exists_fault_of_read h) hcoded
    exact ⟨l, rfl, l.keepsLines (hline.resolve_right id)⟩
  · obtain ⟨l, rfl, hline, -⟩ := located_of_fault (Generator.exists_fault_of_read h) hcoded
    exact ⟨l, rfl, fun w => ⟨fun hsplit => l.keepsLines (hline.resolve_right hsplit) w,
      fun hsplit hwhole => l.not_oneLine_line hsplit hwhole⟩⟩

/-- An enum without a name, and a literal that is split. -/
theorem read_error_keeps_lines_split :
    ∃ d e : ReadError, Program.read "enum" = .error d ∧
      Generator.read splitSource .conventional = .error e ∧ d.category ≠ none ∧ e.category ≠ none ∧
      (∃ l, d = .located l ∧ ∀ w : Writer, w.KeepsLines l.diagnostic) ∧
      ∃ l, e = .located l ∧ ∀ w : Writer, w.truncate = false →
        ¬ OneLine (w.line l.diagnostic).toList := by
  have hprogram : Program.read "enum" = .error (.located
      { what := .unexpectedEnd ["identifier"]
        span := ⟨4, 4, 1, 5, by decide, by decide, by decide⟩
        cursor := ⟨"enum".toList, 4⟩
        wanted := ["identifier"] }) := by
    have hheader : Program.Grammar.header? (.ofList "enum".toList) = none := rfl
    have htype : Program.Grammar.typeDeclaration? (.ofList "enum".toList) =
        some (.error (.problem (.ofList []) (.unexpectedEnd ["identifier"]) ["identifier"])) := rfl
    unfold Program.read Program.Grammar.program
    rw [many.eq_def Program.Grammar.header?]
    simp only [hheader, bind, Except.bind]
    rw [many.eq_def Program.Grammar.typeDeclaration?]
    simp only [htype]
    rfl
  have hcoded : ∀ l : Located, (ReadError.located l).category ≠ none :=
    fun _ => Option.some_ne_none _
  have hgenerator := read_splitSource .conventional
  obtain ⟨l, hl, hlines⟩ := (read_error_keeps_lines _ _).2 _ _ hgenerator (hcoded _)
  refine ⟨_, _, hprogram, hgenerator, hcoded _, hcoded _,
    (read_error_keeps_lines _ _).1 _ hprogram (hcoded _), l, hl, fun w => (hlines w).2 ?_⟩
  cases hl
  exact splitsLiteral_malformed

/-- The line of the diagnostic has a line break, and so has the header of its block. -/
theorem split_literal_breaks_lines :
    ∃ l : Located, Generator.read splitSource = .error (.located l) ∧
      Writer.write { style := .line } l.diagnostic =
        "CONSTANT_MALFORMED: Malformed integer literal '-\n1x' (line 2, column 19)" ∧
      Writer.write { style := .block } l.diagnostic =
        "error[CONSTANT_MALFORMED]: Malformed integer literal '-\n1x'\n" ++
          "  --> line 2, column 19\n  = expected: digits" ∧
      ¬ OneLine (Writer.write { style := .line } l.diagnostic).toList := by
  have hline : Text.natural 2 = "2" := by
    rw [Text.natural, Text.decimalDigits]
    rfl
  have hcolumn : Text.natural 19 = "19" := by
    rw [Text.natural, Text.decimalDigits, Text.decimalDigits]
    rfl
  have hplace : "  --> line " ++ Text.natural 2 ++ ", column " ++ Text.natural 19 =
      "  --> line 2, column 19" := by
    rw [hline, hcolumn]
    rfl
  refine ⟨_, read_splitSource .flat, ?_, ?_, Located.not_oneLine_line ?_ rfl⟩
  · change "CONSTANT_MALFORMED: Malformed integer literal '-\n1x'" ++ " (line " ++ Text.natural 2 ++
      ", column " ++ Text.natural 19 ++ ")" = _
    rw [hline, hcolumn]
    rfl
  · change "\n".intercalate ["error[CONSTANT_MALFORMED]: Malformed integer literal '-\n1x'",
      "  --> line " ++ Text.natural 2 ++ ", column " ++ Text.natural 19,
      "  = expected: digits"] = _
    rw [hplace]
    rfl
  · exact splitsLiteral_malformed

end FuzzFrontend
