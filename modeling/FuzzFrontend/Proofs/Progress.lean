import FuzzFrontend.Generator.Read
import FuzzFrontend.Program.Read
import FuzzFrontend.Proofs.Generator.Progress
import FuzzFrontend.Proofs.Program.Progress

namespace FuzzFrontend

open Scan

/-- The program that a source spells, with a budget for each loop over its parts. -/
def Program.readWithin (budget : Nat) (source : String) (limits : Limits := {}) :
    Option (Except ReadError Program) :=
  match limits.sizeError? "ProgramParser" source with
  | some e => some (.error e)
  | none =>
    (Grammar.programWithin budget { limit := (clamped limits).nesting }
      (.ofList source.toList)).run.map
        (Except.mapError (Fault.locate (Cursor.ofString source)))

/-- The generators that a source spells, with a budget for the loop over them. -/
def Generator.readWithin (budget : Nat) (source : String) (precedence : Precedence := .flat)
    (limits : Limits := {}) : Option (Except ReadError (List Generator)) :=
  match limits.sizeError? "GeneratorParser" source with
  | some e => some (.error e)
  | none =>
    (Grammar.generatorsWithin budget precedence { limit := limits.nesting }
      (.ofList source.toList)).run.map
        (Except.mapError (Fault.locate (Cursor.ofString source)))

section Readers

variable {source : String} {budget : Nat}

theorem Scan.length_ofList_toList (source : String) :
    (Input.ofList source.toList).length = source.length :=
  String.length_toList

theorem Program.readWithin_eq (h : source.length ≤ budget) (limits : Limits) :
    Program.readWithin budget source limits = some (Program.read source limits) := by
  rw [← length_ofList_toList] at h
  unfold Program.readWithin Program.read
  cases limits.sizeError? "ProgramParser" source with
  | some e => rfl
  | none =>
      dsimp only
      rw [Grammar.programWithin_eq _ h]
      rfl

theorem Generator.readWithin_eq (h : source.length ≤ budget) (precedence : Precedence)
    (limits : Limits) :
    Generator.readWithin budget source precedence limits =
      some (Generator.read source precedence limits) := by
  rw [← length_ofList_toList] at h
  unfold Generator.readWithin Generator.read
  cases limits.sizeError? "GeneratorParser" source with
  | some e => rfl
  | none =>
      dsimp only
      rw [Grammar.generatorsWithin_eq _ _ h]
      rfl

end Readers

/-- The reading of a source goes forward and ends. At each offset the rules of both languages go on
to a later one in the source, if they give a value. A loop that starts there goes on no more often
than characters are left, and a rule goes into itself no more often. -/
structure ReadsForward (source : String) : Prop where
  programRules (pos : Nat) (nesting : Nesting) :
    Program.Grammar.RulesAdvance source.toList pos nesting
  programLoops (pos : Nat) (nesting : Nesting) :
    Program.Grammar.LoopsEnd source.toList pos nesting
  programNesting (pos : Nat) : Program.Grammar.NestingEnds source.toList pos
  generatorRules (pos : Nat) (precedence : Precedence) (nesting : Nesting) :
    Generator.Grammar.RulesAdvance source.toList pos precedence nesting
  generatorLoops (pos : Nat) (precedence : Precedence) (nesting : Nesting) :
    Generator.Grammar.LoopsEnd source.toList pos precedence nesting
  generatorNesting (pos : Nat) (precedence : Precedence) :
    NestsIn (Generator.Grammar.openedState precedence) (Generator.Grammar.state precedence)
      (source.toList.length - pos) (.ofList (source.toList.drop pos))
  program (limits : Limits) :
    Program.readWithin source.length source limits = some (Program.read source limits)
  generators (precedence : Precedence) (limits : Limits) :
    Generator.readWithin source.length source precedence limits =
      some (Generator.read source precedence limits)

/-- Every source is read forward, and both readers come to an end on it. -/
theorem readsForward (source : String) : ReadsForward source where
  programRules := Program.Grammar.rulesAdvance source.toList
  programLoops := Program.Grammar.loopsEnd source.toList
  programNesting := Program.Grammar.nestingEnds source.toList
  generatorRules := Generator.Grammar.rulesAdvance source.toList
  generatorLoops := Generator.Grammar.loopsEnd source.toList
  generatorNesting := Generator.Grammar.state_nestsIn source.toList
  program := Program.readWithin_eq (Nat.le_refl _)
  generators := Generator.readWithin_eq (Nat.le_refl _)

end FuzzFrontend
