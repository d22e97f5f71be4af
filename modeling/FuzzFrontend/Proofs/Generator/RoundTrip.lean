import FuzzFrontend.Generator.Read
import FuzzFrontend.Proofs.Generator.Shape

namespace FuzzFrontend.Generator

open Scan

variable {precedence : Precedence} {limits : Limits}

theorem read_eq_ok_iff {source : String} {gs : List Generator} (hsize : limits.sourceSize ≤ 0) :
    read source precedence limits = .ok gs ↔
      Grammar.generators precedence { limit := limits.nesting } [] (.ofList source.toList) =
        .ok gs := by
  rw [read, sizeError?_eq_none hsize, mapError_eq_ok]

theorem generators_of_writeAll {gs : List Generator} (hne : gs ≠ []) {maxDepth : Option Int}
    {t : String} (h : writeAll gs precedence maxDepth = .ok t) (limit : Int) :
    Grammar.generators precedence { limit := limit } [] (.ofList t.toList) = .ok gs ↔
      ∀ g ∈ gs, g.Within limit.toNat := by
  constructor
  · intro hread g hg
    have hwithin := ((Grammar.spellable_of_generators rfl (by simp) hread).2 g hg).2
    rwa [room_of_limit] at hwithin
  · intro hwithin
    have hspelled := spelledAll_of_writeAll h
    have hstart := (Grammar.startsAnew_of_nextGenerator
      (Grammar.nextGenerator_of_spelledAll hspelled)).1
    apply Grammar.generators_of_spelledAll hspelled hne _ [] hstart
    intro g hg
    rw [room_of_limit]
    exact ⟨(spellable_of_writeAll h g hg).1, hwithin g hg⟩

/-- Generators that are written are read back under the same limit. Generators that are read are
written unless that goes too deep, and then read back under the limits of their first reading. -/
theorem writeAll_reads_back (precedence : Precedence) {limits : Limits}
    (hsize : limits.sourceSize ≤ 0) :
    (∀ (gs : List Generator) (t : String), gs ≠ [] →
      writeAll gs precedence (some limits.nesting) = .ok t →
        read t precedence limits = .ok gs) ∧
      ∀ (source : String) (gs : List Generator), read source precedence limits = .ok gs →
        ∀ maxDepth : Option Int, (∃ e, writeAll gs precedence maxDepth = .error (.tooDeep e)) ∨
          ∃ t, writeAll gs precedence maxDepth = .ok t ∧ read t precedence limits = .ok gs := by
  constructor
  · intro gs t hne ht
    rw [read_eq_ok_iff hsize, generators_of_writeAll hne ht]
    intro g hg
    exact (spellable_of_writeAll ht g hg).2.mono (DepthGuard.room_ofRequest_le limits.nesting)
  · intro source gs hread maxDepth
    rw [read_eq_ok_iff hsize] at hread
    obtain ⟨hne, hgs⟩ := Grammar.spellable_of_generators rfl (by simp) hread
    rw [room_of_limit] at hgs
    rcases (unrefused_writeAll (fun g hg => (hgs g hg).1) maxDepth).cases with htooDeep | ⟨t, ht⟩
    · exact Or.inl htooDeep
    · refine Or.inr ⟨t, ht, ?_⟩
      rw [read_eq_ok_iff hsize, generators_of_writeAll hne ht]
      exact fun g hg => (hgs g hg).2

/-- The greatest unsigned word is written as a negative literal and read back, and a literal that
was read with a narrow type is written with a wide one. -/
theorem writeAll_reads_back_words :
    let wrapped : Generator := ⟨.scalar .u64, "std:g",
      [.constant (.unsigned (2 ^ 64 - 1) (by decide))], List.cons_ne_nil _ _⟩
    let narrow : Generator := ⟨.scalar .i8, "g",
      [.constant (.signed 1 (by decide))], List.cons_ne_nil _ _⟩
    read "generator std:g U64\n    state U64:constant(-1)\n" .flat { sourceSize := 0 } =
        .ok [wrapped] ∧
      read "generator g I8\n    state I8:constant(1)\n" .flat { sourceSize := 0 } =
        .ok [narrow] ∧
      read "generator g I8\n    state I64:constant(1)\n" .flat { sourceSize := 0 } =
        .ok [narrow] := by
  intro wrapped narrow
  have hwrapped : writeAll [wrapped] .flat (some 100) =
      .ok "generator std:g U64\n    state U64:constant(-1)\n" := by
    have hstate : writeState .flat (.ofRequest (some 100))
        (.constant (.unsigned (2 ^ 64 - 1) (by decide))) =
          .ok "    state U64:constant(-1)\n" := by with_unfolding_all rfl
    have hwrite : wrapped.write .flat (.ofRequest (some 100)) =
        .ok "generator std:g U64\n    state U64:constant(-1)\n" :=
      write_eq_ok.mpr ⟨by decide, "U64", rfl, _, mapM_eq_ok.mpr (.cons hstate .nil), rfl⟩
    exact writeAll_eq_ok.mpr ⟨_, mapM_eq_ok.mpr (.cons hwrite .nil), rfl⟩
  have hnarrow : writeAll [narrow] .flat none =
      .ok "generator g I8\n    state I64:constant(1)\n" := by
    have hstate : writeState .flat (.ofRequest none) (.constant (.signed 1 (by decide))) =
        .ok "    state I64:constant(1)\n" := by with_unfolding_all rfl
    have hwrite : narrow.write .flat (.ofRequest none) =
        .ok "generator g I8\n    state I64:constant(1)\n" :=
      write_eq_ok.mpr ⟨by decide, "I8", rfl, _, mapM_eq_ok.mpr (.cons hstate .nil), rfl⟩
    exact writeAll_eq_ok.mpr ⟨_, mapM_eq_ok.mpr (.cons hwrite .nil), rfl⟩
  have hsource : read "generator g I8\n    state I8:constant(1)\n" .flat { sourceSize := 0 } =
      .ok [narrow] := by
    have hone : Text.integer 1 = "1" := by with_unfolding_all rfl
    have hliteral : Constant.Spelled (.signed 1 (by decide)) "I8:constant(1)".toList := by
      have hread : Constant.forType (.scalar .i8) 1 = .ok (.signed 1 (by decide)) := rfl
      simpa [hone, Scalar.label] using Constant.Spelled.literal (by decide) (by decide) hread
    have hline : GenExpr.SpelledState (.constant (.signed 1 (by decide)))
        ("state ".toList ++ "I8:constant(1)".toList) := ⟨_, .constant hliteral, rfl⟩
    have hindent : Blank "    ".toList := blank_of_all rfl
    have hstates := Pieces.cons hindent hline gap_newline (.nil blank_nil)
    have hgenerator : narrow.Spelled "generator g I8\n    state I8:constant(1)\n".toList :=
      ⟨.i8, by decide, rfl, _, hstates, by simp [narrow, Scalar.label]⟩
    have hspelled : SpelledAll [narrow]
        ("generator g I8\n    state I8:constant(1)\n".toList ++ []) := .cons hgenerator .nil
    have hspellable : narrow.Spellable .flat ∧ narrow.Within (room { limit := 100 }) := by
      have hsized : Scalar.i8 ∈ Scalar.sized := by decide
      refine ⟨⟨by decide, hsized, fun e he => ?_⟩, fun e he => ?_⟩
      · obtain rfl := List.mem_singleton.mp he
        exact .constant trivial
      · obtain rfl := List.mem_singleton.mp he
        exact Nat.zero_le _
    rw [read_eq_ok_iff (by decide)]
    apply Grammar.generators_of_spelledAll hspelled (List.cons_ne_nil _ _) _ [] rfl
    intro g hg
    obtain rfl := List.mem_singleton.mp hg
    exact hspellable
  have hsize : ({ sourceSize := 0 } : Limits).sourceSize ≤ 0 := by decide
  obtain ⟨hwrite, hread⟩ := writeAll_reads_back .flat hsize
  refine ⟨hwrite [wrapped] _ (List.cons_ne_nil _ _) hwrapped, hsource, ?_⟩
  rcases hread _ [narrow] hsource none with ⟨e, he⟩ | ⟨t, ht, hback⟩
  · rw [hnarrow] at he
    cases he
  · rw [hnarrow] at ht
    cases ht
    exact hback

end FuzzFrontend.Generator
