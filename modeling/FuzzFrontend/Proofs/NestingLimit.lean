import FuzzFrontend.Proofs.Failures
import FuzzFrontend.Proofs.Generator.Limited
import FuzzFrontend.Proofs.Generator.RoundTrip
import FuzzFrontend.Proofs.Program.Limited
import FuzzFrontend.Proofs.Program.RoundTrip

namespace FuzzFrontend

open Scan

/-- The reading stops at a problem of the grammar: the limit on nesting is reached. -/
def Scan.StopsAt {α : Type} (limit : Int) (r : Except ReadError α) : Prop :=
  ∃ l : Located, r = .error (.located l) ∧ l.what = .nestingTooDeep limit ∧
    l.what.category = .grammar ∧ l.diagnostic.code = .nestingTooDeep

/-- What a second limit makes of a reading is seen from outside: the same value, or a problem at its
place in the source. -/
theorem Scan.Limited.mapError {α : Type} {source : String} {limit : Int} {fits : α → Prop}
    {full cut : Except Scan.Fault α} {a : α} (h : Limited limit fits full cut)
    (hfull : full = .ok a) (families : List Problem.Category) {broken : Problem → Prop}
    (habout : ∀ e, cut = .error e → e.About source.toList families broken) :
    (fits a ∧ cut.mapError (Fault.locate (Cursor.ofString source)) = .ok a) ∨
      ¬ fits a ∧ StopsAt limit (cut.mapError (Fault.locate (Cursor.ofString source))) := by
  rcases h.of_ok hfull with ⟨hfits, hcut⟩ | ⟨hdeep, rest, hcut⟩
  · exact Or.inl ⟨hfits, mapError_eq_ok.mpr hcut⟩
  · obtain ⟨hrest, hfound, -⟩ := habout _ hcut
    obtain ⟨l, hl, hwhat, -⟩ := exists_located [] hrest hfound
    refine Or.inr ⟨hdeep, l, ?_, hwhat, ?_, ?_⟩
    · rw [hcut]
      exact congrArg Except.error hl
    · rw [hwhat]
      rfl
    · rw [Located.diagnostic, hwhat]
      rfl

section Programs

variable {source : String} {limits : Limits}

theorem Program.sizeError?_of_read {p : Program} (h : Program.read source limits = .ok p) :
    limits.sizeError? "ProgramParser" source = none := by
  unfold Program.read at h
  split at h
  · cases h
  · assumption

theorem Program.read_eq (limits : Limits)
    (hsize : limits.sizeError? "ProgramParser" source = none) :
    Program.read source limits =
      (Grammar.program { limit := min limits.nesting 237 } (.ofList source.toList)).mapError
        (Fault.locate (Cursor.ofString source)) := by
  rw [Program.read, hsize, Program.clamped_nesting]

theorem Program.read_cut {p : Program} (h : Program.read source limits = .ok p) (depth : Int) :
    (p.nesting ≤ (min depth 237).toNat ∧
        Program.read source { limits with nesting := depth } = .ok p) ∨
      ¬ p.nesting ≤ (min depth 237).toNat ∧
        StopsAt (min depth 237) (Program.read source { limits with nesting := depth }) := by
  have hsize := Program.sizeError?_of_read h
  rw [Program.read_eq limits hsize, mapError_eq_ok] at h
  rw [Program.read_eq { limits with nesting := depth } hsize, ← room_of_limit]
  exact (Grammar.program_limited _ { limit := min depth 237 } _).mapError h problemFamilies
    fun e he => Grammar.about_of_program (endOf_toList source) he

end Programs

section Generators

variable {source : String} {limits : Limits} {precedence : Precedence}

theorem Generator.sizeError?_of_read {gs : List Generator}
    (h : Generator.read source precedence limits = .ok gs) :
    limits.sizeError? "GeneratorParser" source = none := by
  unfold Generator.read at h
  split at h
  · cases h
  · assumption

theorem Generator.read_eq (limits : Limits)
    (hsize : limits.sizeError? "GeneratorParser" source = none) :
    Generator.read source precedence limits =
      (Grammar.generators precedence { limit := limits.nesting } []
        (.ofList source.toList)).mapError (Fault.locate (Cursor.ofString source)) := by
  rw [Generator.read, hsize]

theorem Generator.read_cut {gs : List Generator}
    (h : Generator.read source precedence limits = .ok gs) (depth : Int) :
    ((∀ g ∈ gs, g.Within depth.toNat) ∧
        Generator.read source precedence { limits with nesting := depth } = .ok gs) ∨
      (¬ ∀ g ∈ gs, g.Within depth.toNat) ∧
        StopsAt depth (Generator.read source precedence { limits with nesting := depth }) := by
  have hsize := Generator.sizeError?_of_read h
  rw [Generator.read_eq limits hsize, mapError_eq_ok] at h
  rw [Generator.read_eq { limits with nesting := depth } hsize, ← room_of_limit]
  exact (Grammar.generators_limited precedence _ { limit := depth } (List.forall_mem_nil _)
    _).mapError h problemFamilies fun e he => Grammar.about_of_generators (endOf_toList source) he

end Generators

/-- What is read under one limit is read unchanged under every limit that the nesting of the tree
does not exceed, and under every other limit the reading stops there. Programs are read under no
limit above what the call stack holds. -/
theorem read_nesting_exact (source : String) (limits : Limits) (depth : Int) :
    (∀ p, Program.read source limits = .ok p →
      let cut := Program.read source { limits with nesting := depth }
      (p.nesting ≤ (min depth 237).toNat → cut = .ok p) ∧
        ((min depth 237).toNat < p.nesting → StopsAt (min depth 237) cut)) ∧
    ∀ precedence gs, Generator.read source precedence limits = .ok gs →
      let cut := Generator.read source precedence { limits with nesting := depth }
      ((∀ g ∈ gs, ∀ e ∈ g.states, e.nesting ≤ depth.toNat) → cut = .ok gs) ∧
        ((∃ g ∈ gs, ∃ e ∈ g.states, depth.toNat < e.nesting) → StopsAt depth cut) := by
  constructor
  · intro p h
    dsimp only
    rcases Program.read_cut h depth with ⟨hfits, hcut⟩ | ⟨hdeep, hcut⟩
    · exact ⟨fun _ => hcut, fun hdeep => absurd hfits (Nat.not_le.mpr hdeep)⟩
    · exact ⟨fun hfits => absurd hfits hdeep, fun _ => hcut⟩
  · intro precedence gs h
    dsimp only
    rcases Generator.read_cut h depth with ⟨hfits, hcut⟩ | ⟨hdeep, hcut⟩
    · refine ⟨fun _ => hcut, ?_⟩
      rintro ⟨g, hg, e, he, hlarge⟩
      exact absurd (hfits g hg e he) (Nat.not_le.mpr hlarge)
    · exact ⟨fun hfits => absurd hfits hdeep, fun _ => hcut⟩

/-- The call in the body and the random value in the bound stand at the second level, so both texts
are read under a limit of two and under no smaller one. -/
theorem read_nesting_exact_two :
    let p : Program := ⟨[], [.loop (.var .plain "x") [.verify (.call "f" [])]]⟩
    let program := "while ( x ) \x7b\n    verify:new function:call f \x7b \x7d\n\x7d\n"
    let bound : GenExpr := .random (.scalar .u8) (.least (.scalar .u8)) (.greatest (.scalar .u8))
    let g : Generator := ⟨.scalar .u8, "g", [.random (.scalar .u8) bound (.greatest (.scalar .u8))],
      List.cons_ne_nil _ _⟩
    let generator :=
      "generator g U8\n    state U8:random(U8:random(U8:min(), U8:max()), U8:max())\n"
    Program.read program { sourceSize := 0 } = .ok p ∧
      Program.read program { sourceSize := 0, nesting := 2 } = .ok p ∧
      StopsAt 1 (Program.read program { sourceSize := 0, nesting := 1 }) ∧
      Generator.read generator .conventional { sourceSize := 0 } = .ok [g] ∧
      Generator.read generator .conventional { sourceSize := 0, nesting := 2 } = .ok [g] ∧
      StopsAt 1 (Generator.read generator .conventional { sourceSize := 0, nesting := 1 }) := by
  intro p program bound g generator
  have hp : p.Spellable := by
    refine ⟨.nil, by simp [p], fun s hs => ?_⟩
    obtain rfl := List.mem_singleton.mp hs
    refine .loop (.var (by decide)) fun s hs => ?_
    obtain rfl := List.mem_singleton.mp hs
    exact .verify (.call (by decide) (List.forall_mem_nil _))
  have hprogram : Program.read program { sourceSize := 0 } = .ok p := by
    have hwrite : p.write true none = .ok program := rfl
    rw [Program.read_eq_ok_iff rfl]
    exact (Program.program_of_write hp hwrite _).mpr (by decide)
  have hgenerator : Generator.read generator .conventional { sourceSize := 0 } = .ok [g] := by
    have hstate : Generator.writeState .conventional (.ofRequest none)
        (.random (.scalar .u8) bound (.greatest (.scalar .u8))) =
          .ok "    state U8:random(U8:random(U8:min(), U8:max()), U8:max())\n" := rfl
    have hline : g.write .conventional (.ofRequest none) = .ok generator :=
      Generator.write_eq_ok.mpr ⟨by decide, "U8", rfl, _, mapM_eq_ok.mpr (.cons hstate .nil), rfl⟩
    have hwrite : Generator.writeAll [g] .conventional none = .ok generator :=
      Generator.writeAll_eq_ok.mpr ⟨_, mapM_eq_ok.mpr (.cons hline .nil), rfl⟩
    rw [Generator.read_eq_ok_iff (by decide)]
    refine (Generator.generators_of_writeAll (List.cons_ne_nil _ _) hwrite _).mpr fun g' hg' => ?_
    obtain rfl := List.mem_singleton.mp hg'
    intro e he
    obtain rfl := List.mem_singleton.mp he
    decide
  have hlimit := read_nesting_exact program { sourceSize := 0 }
  have hbounds := fun depth => (read_nesting_exact generator { sourceSize := 0 } depth).2
    .conventional [g] hgenerator
  refine ⟨hprogram, ((hlimit 2).1 p hprogram).1 (by decide),
    ((hlimit 1).1 p hprogram).2 (by decide), hgenerator, (hbounds 2).1 ?_, (hbounds 1).2 ?_⟩
  · intro g' hg' e he
    obtain rfl := List.mem_singleton.mp hg'
    obtain rfl := List.mem_singleton.mp he
    decide
  · exact ⟨g, List.mem_cons_self, _, List.mem_cons_self, by decide⟩

end FuzzFrontend
