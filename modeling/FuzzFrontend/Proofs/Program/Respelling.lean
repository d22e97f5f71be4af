import FuzzFrontend.Proofs.Program.RoundTrip

namespace FuzzFrontend.Program

open Scan

theorem read_iff_of_spelled {p : Program} (hp : p.Spellable) {u : String}
    (h : p.Spelled u.toList) (limits : Limits) :
    read u limits = .ok p ↔ limits.sizeError? "ProgramParser" u = none ∧
      p.nesting ≤ (clamped limits).nesting.toNat := by
  cases hsize : limits.sizeError? "ProgramParser" u with
  | some e => simp [read, hsize]
  | none => simp [read_eq_ok_iff hsize, program_iff_of_spelled hp h]

/-- What is written for a program that was read may be spelled otherwise at any number of the places
where there is a choice, and is read as the same program, by the same reader and by every other one
whose limits allow the size of the text and the nesting of the program. -/
theorem read_respelled {source : String} {limits : Limits} {p : Program}
    (h : read source limits = .ok p) {validate : Bool} {maxDepth : Option Int} {t : String}
    (ht : p.write validate maxDepth = .ok t) :
    ∃ segments, p.segments = .ok segments ∧ Segment.text segments = t ∧
      ∀ u : String, Segment.Spells segments u.toList →
        (limits.sizeError? "ProgramParser" u = none → read u limits = .ok p) ∧
          ∀ others : Limits, read u others = .ok p ↔
            others.sizeError? "ProgramParser" u = none ∧
              p.nesting ≤ (clamped others).nesting.toNat := by
  obtain ⟨hp, hnesting⟩ := Grammar.spellable_of_program rfl (program_of_read h)
  rw [room_of_limit] at hnesting
  obtain ⟨segments, hsegments, htext⟩ := segments_of_write ht
  refine ⟨segments, hsegments, htext.symm, fun u hu => ?_⟩
  have hread := read_iff_of_spelled hp (spelled_of_spells hsegments hu)
  exact ⟨fun hsize => (hread limits).mpr ⟨hsize, hnesting⟩, hread⟩

/-- A mark for an address after a conjunction, a keyword before a plain variable, and an entry
without its value. -/
theorem read_respelled_conjunction :
    let p : Program := ⟨[.define (.enum "E" [⟨"A", 0⟩])],
      [.verify (.compound (.var .plain "a") .and (.var .addressOf "b"))]⟩
    read "enum E \x7b A = 0, \x7d\nverify:new a && op:addressof b\n" = .ok p ∧
      read "enum E \x7b A, \x7d\nverify:new op:null a && &b\n" = .ok p := by
  intro p
  have hp : p.Spellable := by
    refine ⟨List.pairwise_singleton _ _, fun d hd => ?_, fun s hs => ?_⟩
    · obtain rfl := List.mem_singleton.mp hd
      exact ⟨by decide, by simp [EnumValue.Spellable]; decide⟩
    · obtain rfl := List.mem_singleton.mp hs
      refine .verify (.compound (.var (by decide)) (.var (by decide)) ?_ ?_)
      · simp [Expr.rootOp?]
      · simp [Expr.rootOp?]
  have hwrite : p.write true none =
      .ok "enum E \x7b A = 0, \x7d\nverify:new a && op:addressof b\n" := by with_unfolding_all rfl
  have hread : read "enum E \x7b A = 0, \x7d\nverify:new a && op:addressof b\n" = .ok p := by
    rw [read_eq_ok_iff rfl]
    exact (program_of_write hp hwrite _).mpr (by decide)
  refine ⟨hread, ?_⟩
  have hparts : p.segments = .ok [.fixed "enum E \x7b", .fixed " ", .fixed "A", .zero, .fixed ",",
      .fixed " \x7d", .fixed "\n", .fixed "", .fixed "verify:new ", .operator .plain, .fixed "a",
      .fixed " && ", .operator .addressOf, .fixed "b", .fixed "\n"] := rfl
  obtain ⟨segments, hsegments, -, hrespelled⟩ := read_respelled hread hwrite
  rw [hparts] at hsegments
  cases hsegments
  refine (hrespelled _ (Segment.spells_iff_choices.mpr ⟨["enum E \x7b", " ", "A", "", ",", " \x7d",
    "\n", "", "verify:new ", "op:null ", "a", " && ", "&", "b", "\n"], ?_, by decide⟩)).1 rfl
  simp [Segment.spellings, UnaryOp.spellings]

end FuzzFrontend.Program
