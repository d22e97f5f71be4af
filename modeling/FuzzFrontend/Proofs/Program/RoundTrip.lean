import Mathlib.Algebra.Group.Int.Defs
import FuzzFrontend.Program.Read
import FuzzFrontend.Proofs.Program.Checked
import FuzzFrontend.Proofs.Program.ReadProgram
import FuzzFrontend.Proofs.Program.Shape

/-!
Writing and reading undo each other. A program that has a spelling is read back from what is written
for it, and what is read from any text has a spelling.
-/
namespace FuzzFrontend.Program

open Scan

theorem read_eq_ok_iff {source : String} {limits : Limits} {p : Program}
    (hsize : limits.sizeError? "ProgramParser" source = none) :
    read source limits = .ok p ↔
      Grammar.program { limit := (clamped limits).nesting } (.ofList source.toList) = .ok p := by
  rw [read, hsize, mapError_eq_ok]

theorem program_of_read {source : String} {limits : Limits} {p : Program}
    (h : read source limits = .ok p) :
    Grammar.program { limit := (clamped limits).nesting } (.ofList source.toList) = .ok p := by
  cases hsize : limits.sizeError? "ProgramParser" source with
  | some e =>
      rw [read, hsize] at h
      cases h
  | none => exact (read_eq_ok_iff hsize).mp h

theorem program_iff_of_spelled {p : Program} (hp : p.Spellable) {t : List Char} (h : p.Spelled t)
    (limit : Int) :
    Grammar.program { limit := limit } (.ofList t) = .ok p ↔ p.nesting ≤ limit.toNat := by
  constructor
  · intro hread
    obtain ⟨-, hroom⟩ := Grammar.spellable_of_program rfl hread
    rwa [room_of_limit] at hroom
  · intro hnesting
    refine Grammar.program_of_spelled hp ?_ h
    rwa [room_of_limit]

theorem program_of_write {p : Program} (hp : p.Spellable) {validate : Bool} {maxDepth : Option Int}
    {t : String} (h : p.write validate maxDepth = .ok t) (limit : Int) :
    Grammar.program { limit := limit } (.ofList t.toList) = .ok p ↔ p.nesting ≤ limit.toNat :=
  program_iff_of_spelled hp (spelled_of_write h) limit

/-- A program that has a spelling is written unless that goes too deep, and what is written is read
as the same program exactly when the nesting of the program is allowed. -/
theorem write_reads_back {p : Program} (hp : p.Spellable) (maxDepth : Option Int) :
    (∃ e, p.write true maxDepth = .error (.tooDeep e)) ∨
      ∃ t, p.write true maxDepth = .ok t ∧
        (∀ limit : Int, Grammar.program { limit := limit } (.ofList t.toList) = .ok p ↔
          p.nesting ≤ limit.toNat) ∧
        ∀ limits : Limits, limits.sizeError? "ProgramParser" t = none →
          (read t limits = .ok p ↔ p.nesting ≤ (clamped limits).nesting.toNat) := by
  rcases (unrefused_write hp true maxDepth).cases with htooDeep | ⟨t, ht⟩
  · exact Or.inl htooDeep
  · refine Or.inr ⟨t, ht, program_of_write hp ht, fun limits hsize => ?_⟩
    rw [read_eq_ok_iff hsize]
    exact program_of_write hp ht (clamped limits).nesting

/-- A minus sign after a gap belongs to an argument, and between spaces to the chain. -/
theorem write_reads_back_minus :
    let p : Program := ⟨[], [.verify (.compound (.call "f" [.var .plain "x", .integer "-1"]) .sub
      (.integer "2"))]⟩
    p.Spellable ∧ Grammar.program { limit := 1 }
      (.ofList "verify:new function:call f \x7b x -1 \x7d - 2\n".toList) = .ok p := by
  intro p
  have harguments : ∀ a ∈ [Expr.var .plain "x", .integer "-1"], a.Spellable := by
    intro a ha
    rcases List.mem_cons.mp ha with rfl | ha
    · exact .var (by decide)
    · obtain rfl := List.mem_singleton.mp ha
      exact .integer (by decide)
  have hp : p.Spellable := by
    refine ⟨.nil, by simp [p], fun s hs => ?_⟩
    obtain rfl := List.mem_singleton.mp hs
    refine .verify (.compound (.call (by decide) harguments) (.integer (by decide)) ?_ ?_)
    · simp [Expr.rootOp?]
    · simp [Expr.rootOp?]
  have hwrite : p.write true none =
      .ok "verify:new function:call f \x7b x -1 \x7d - 2\n" := rfl
  refine ⟨hp, ?_⟩
  rcases write_reads_back hp none with ⟨e, he⟩ | ⟨t, ht, hread, -⟩
  · rw [hwrite] at he
    cases he
  · rw [hwrite] at ht
    cases ht
    exact (hread 1).mpr (by decide)

/-- What is read has a spelling, and what is written for it is read as the same program under the
same limits, so that writing it again gives the same text. -/
theorem read_writes_back {source : String} {limits : Limits} {p : Program}
    (hsize : limits.sourceSize ≤ 0) (h : read source limits = .ok p) :
    p.Spellable ∧ ∀ maxDepth : Option Int,
      (∃ e, p.write true maxDepth = .error (.tooDeep e)) ∨
        ∃ t, p.write true maxDepth = .ok t ∧ read t limits = .ok p ∧
          ∀ q, read t limits = .ok q → q.write true maxDepth = .ok t := by
  rw [read_eq_ok_iff (sizeError?_eq_none hsize _ source)] at h
  obtain ⟨hp, hnesting⟩ := Grammar.spellable_of_program rfl h
  rw [room_of_limit] at hnesting
  refine ⟨hp, fun maxDepth => ?_⟩
  rcases (unrefused_write hp true maxDepth).cases with htooDeep | ⟨t, ht⟩
  · exact Or.inl htooDeep
  · have hread : read t limits = .ok p := by
      rw [read_eq_ok_iff (sizeError?_eq_none hsize _ t)]
      exact (program_of_write hp ht (clamped limits).nesting).mpr hnesting
    refine Or.inr ⟨t, ht, hread, fun q hq => ?_⟩
    rw [hread] at hq
    cases hq
    exact ht

/-- An entry without a value is written with its value. -/
theorem read_writes_back_zero :
    let p : Program := ⟨[.define (.enum "E" [⟨"A", 0⟩])], []⟩
    read "enum E \x7b A, \x7d\n" { sourceSize := 0 } = .ok p ∧
      read "enum E \x7b A = 0, \x7d\n" { sourceSize := 0 } = .ok p := by
  intro p
  have hp : p.Spellable := by
    refine ⟨List.pairwise_singleton _ _, fun d hd => ?_, by simp [p]⟩
    obtain rfl := List.mem_singleton.mp hd
    exact ⟨by decide, by simp [EnumValue.Spellable]; decide⟩
  have hentry : Pieces EnumValue.Spelled [⟨"A", 0⟩] [' ', 'A', ',', ' '] :=
    .cons gap_space.blank (EnumValue.Spelled.zero rfl) gap_space (.nil blank_nil)
  have hspelled : p.Spelled "enum E \x7b A, \x7d\n".toList :=
    ⟨_, [], .cons blank_nil (Declaration.Spelled.enum hentry) gap_newline (.nil blank_nil),
      .nil blank_nil, rfl⟩
  have hsource : read "enum E \x7b A, \x7d\n" { sourceSize := 0 } = .ok p := by
    rw [read_eq_ok_iff rfl]
    exact Grammar.program_of_spelled hp (by decide) hspelled
  have hwrite : p.write true none = .ok "enum E \x7b A = 0, \x7d\n" := by with_unfolding_all rfl
  refine ⟨hsource, ?_⟩
  rcases (read_writes_back (by decide) hsource).2 none with ⟨e, he⟩ | ⟨t, ht, hread, -⟩
  · rw [hwrite] at he
    cases he
  · rw [hwrite] at ht
    cases ht
    exact hread

/-- What is let through and written is the reading of some text, and of the text that is written,
exactly when no declaration has a defect that no check looks for. -/
theorem write_faithful_iff {p : Program} {maxDepth : Option Int} {t : String}
    (h : p.write true maxDepth = .ok t) :
    ((∃ (limit : Int) (s : List Char), Grammar.program { limit := limit } (.ofList s) = .ok p) ↔
        p.Sound) ∧
      ∀ limit : Int, p.nesting ≤ limit.toNat →
        (Grammar.program { limit := limit } (.ofList t.toList) = .ok p ↔ p.Sound) := by
  have hsound : ∀ (limit : Int) (s : List Char),
      Grammar.program { limit := limit } (.ofList s) = .ok p → p.Sound :=
    fun limit s hread => sound_of_spellable (Grammar.spellable_of_program rfl hread).1
  have hread : ∀ limit : Int, p.nesting ≤ limit.toNat → p.Sound →
      Grammar.program { limit := limit } (.ofList t.toList) = .ok p :=
    fun limit hnesting hp => (program_of_write (spellable_of_write h hp) h limit).mpr hnesting
  constructor
  · constructor
    · rintro ⟨limit, s, hs⟩
      exact hsound limit s hs
    · intro hp
      exact ⟨p.nesting, t.toList, hread p.nesting (by simp) hp⟩
  · intro limit hnesting
    exact ⟨hsound limit t.toList, hread limit hnesting⟩

/-- A value inside the words is let through, written and read back. -/
theorem write_faithful_value :
    let p : Program := ⟨[.define (.enum "E" [⟨"A", -1⟩])], []⟩
    p.write true none = .ok "enum E \x7b A = -1, \x7d\n" ∧
      Grammar.program {} (.ofList "enum E \x7b A = -1, \x7d\n".toList) = .ok p := by
  intro p
  have hwrite : p.write true none = .ok "enum E \x7b A = -1, \x7d\n" := by with_unfolding_all rfl
  have hsound : p.Sound := by
    intro d hd
    obtain rfl := List.mem_singleton.mp hd
    intro v hv
    obtain rfl := List.mem_singleton.mp hv
    decide
  exact ⟨hwrite, ((write_faithful_iff hwrite).2 100 (by decide)).mpr hsound⟩

/-- A value just outside the words is let through and written, but no text spells it. -/
theorem write_large_value :
    let p : Program := ⟨[.define (.enum "E" [⟨"A", 2 ^ 63⟩])], []⟩
    p.write true none = .ok "enum E \x7b A = 9223372036854775808, \x7d\n" ∧
      ∀ (limit : Int) (s : List Char), Grammar.program { limit := limit } (.ofList s) ≠ .ok p := by
  intro p
  refine ⟨by with_unfolding_all rfl, fun limit s hread => ?_⟩
  have hvalue := (Grammar.spellable_of_program rfl hread).1.declarations _ List.mem_cons_self
  exact absurd (hvalue.2 _ List.mem_cons_self).2 (by decide)

/-- The members of a placeholder are let through and not written, so that the text spells another
program. -/
theorem write_hidden_member :
    let hidden : Program :=
      ⟨[.typedef (.known (.pointer (.struct "s" [.mk "f" (.scalar .u8)] true))) "t"], []⟩
    let bare : Program := ⟨[.typedef (.known (.pointer (.struct "s" [] true))) "t"], []⟩
    hidden.write true none = .ok "typedef pointer struct s t;\n" ∧
      Grammar.program {} (.ofList "typedef pointer struct s t;\n".toList) = .ok bare := by
  intro hidden bare
  have hbare : bare.Spellable := by
    refine ⟨List.pairwise_singleton _ _, fun d hd => ?_, by simp [bare]⟩
    obtain rfl := List.mem_singleton.mp hd
    exact ⟨⟨by decide, rfl, rfl⟩, by decide⟩
  have hwrite : bare.write true none = .ok "typedef pointer struct s t;\n" := rfl
  exact ⟨rfl, (program_of_write hbare hwrite 100).mpr (by decide)⟩

end FuzzFrontend.Program
