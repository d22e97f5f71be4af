import FuzzFrontend.Proofs.Failures
import FuzzFrontend.Proofs.Scan.Layout

namespace FuzzFrontend

open Scan

namespace Program.Grammar

theorem layout_kept : Kept .layout where
  toKept := Correspondence.layout_kept
  outOfRange := fun _ _ _ _ _ _ _ => rfl
  tooLong := fun _ _ _ _ _ _ _ _ => rfl

theorem header?_eq_none {s : Input} (h : '#' ∉ s.chars) : header? s = none := by
  have hnone : keyword? "#include" s = none := by
    refine Option.eq_none_iff_forall_not_mem.mpr fun p hp => h ?_
    have hhead := prefix_of_keyword? hp
    exact (List.dropWhile_suffix isBlank).subset (hhead.subset List.mem_cons_self)
  rw [header?, hnone]
  rfl

theorem program_layout {s s' : Input} (h : Correspondence.layout.input s s')
    (hmark : '#' ∉ s.chars) (nesting : Nesting) :
    Agree Correspondence.layout.fault Eq (program nesting s) (program nesting s') := by
  -- Blanks count in headers. Without the mark no header is read, and what follows keeps the layout.
  have hmark' : '#' ∉ s'.chars := mt (mem_iff_of_chunks_eq h.2.2 rfl).mpr hmark
  refine layout_kept.program ?_ nesting
  rw [many.eq_def header? [] s, many.eq_def header? [] s']
  simp only [header?_eq_none hmark, header?_eq_none hmark']
  exact .ok ⟨rfl, h⟩

end Program.Grammar

namespace Generator.Grammar

variable {s s' : Input}

theorem isBlank_of_runsOn {c : Char} (h : isBlank c = true) : runsOn c = false := by
  rcases eq_of_isBlank h with rfl | rfl | rfl | rfl <;> rfl

theorem sign_layout (h : Aligned s.chars s'.chars) :
    (sign s).1 = (sign s').1 ∧ Aligned (sign s).2.chars (sign s').2.chars := by
  unfold sign
  rcases h.cases with ⟨hb, hb'⟩ | ⟨c, t, t', -, ht, ht', haligned⟩
  · have hminus : ∀ {r : List Char}, Breaks r → r.head? ≠ some '-' :=
      fun hr hhead => absurd (hr '-' hhead) (by decide)
    rw [if_neg (hminus hb), if_neg (hminus hb')]
    exact ⟨rfl, h⟩
  · by_cases hc : c = '-'
    · rw [if_pos (by rw [ht, hc]; rfl), if_pos (by rw [ht', hc]; rfl)]
      refine ⟨rfl, ?_⟩
      change Aligned ((s.chars.drop 1).dropWhile isBlank) ((s'.chars.drop 1).dropWhile isBlank)
      rw [ht, ht']
      exact aligned_of_chunks_eq (chunks_eq_of_aligned haligned)
    · have hhead : s.chars.head? ≠ some '-' := by simpa [ht] using hc
      have hhead' : s'.chars.head? ≠ some '-' := by simpa [ht'] using hc
      rw [if_neg hhead, if_neg hhead']
      exact ⟨rfl, h⟩

/-- The text of a literal may differ in the blanks after its sign, but not its value. -/
theorem intLiteral_layout : Correspondence.layout.Keeps intLiteral := by
  intro s s' h
  have hplain : Plain (sign s.skipBlanks).2 := plain_sign h.1
  have hplain' : Plain (sign s'.skipBlanks).2 := plain_sign h.2.1
  obtain ⟨hsign, haligned⟩ := sign_layout (Correspondence.aligned_of_layout h)
  obtain ⟨htake, hdrop⟩ := haligned.takeWhile fun _ => isDigit_of_isBlank
  have hdigits : (sign s.skipBlanks).2.spelledWhile Char.isDigit =
      (sign s'.skipBlanks).2.spelledWhile Char.isDigit := by
    rw [spelledWhile_of_plain hplain, spelledWhile_of_plain hplain', htake]
  have hruns : (((sign s.skipBlanks).2.dropWhile Char.isDigit).chars.head?.any runsOn) =
      ((sign s'.skipBlanks).2.dropWhile Char.isDigit).chars.head?.any runsOn :=
    hdrop.head?_any fun _ => isBlank_of_runsOn
  simp only [intLiteral, Rule.afterBlanks]
  refine Correspondence.Ends.relax ?_ _ _
  by_cases hnil : (sign s.skipBlanks).2.spelledWhile Char.isDigit = []
  · rw [dif_pos hnil, dif_pos (hdigits ▸ hnil)]
    exact .error (Correspondence.layout_unexpected _ _ _ _)
  · rw [dif_neg hnil, dif_neg (hdigits ▸ hnil), ← hruns]
    split
    · exact .error rfl
    · have hform := isDigits_spelledWhile hplain hnil
      have hword : ∀ text text', Agree Correspondence.layout.fault Eq
          (signedWord s.skipBlanks text (sign s.skipBlanks).1
            ((sign s.skipBlanks).2.spelledWhile Char.isDigit))
          (signedWord s'.skipBlanks text' (sign s'.skipBlanks).1
            ((sign s'.skipBlanks).2.spelledWhile Char.isDigit)) := by
        intro text text'
        have hrange : Correspondence.layout.fault
            (.problem s.skipBlanks (.constantOutOfRange text) [])
            (.problem s'.skipBlanks (.constantOutOfRange text') []) := rfl
        rw [← hdigits, ← hsign]
        exact signedWord_agree hform hrange (fun _ => rfl) _
      refine (hword _ _).map fun _ _ hsame => ?_
      exact ⟨hsame, Correspondence.layout_of_aligned hplain hplain' hdrop⟩

theorem standardName_layout {rest rest' : Input} (hs : Plain s) (hs' : Plain s')
    (h : s.after? GeneratorName.standard = some rest)
    (h' : s'.after? GeneratorName.standard = some rest')
    (haligned : Aligned rest.chars rest'.chars) :
    Correspondence.layout.Ends Eq (standardName s rest) (standardName s' rest') := by
  have hrest : Plain rest := plain_of_after? hs h
  have hrest' : Plain rest' := plain_of_after? hs' h'
  obtain ⟨htake, hdrop⟩ := haligned.takeWhile fun _ => isWordChar_of_isBlank
  have hstop : rest.dropWhile isWordChar = rest ↔ rest'.dropWhile isWordChar = rest' := by
    rw [dropWhile_eq_self_iff, dropWhile_eq_self_iff, htake]
  unfold standardName
  dsimp only
  by_cases hnone : rest.dropWhile isWordChar = rest
  · rw [if_pos hnone, if_pos (hstop.mp hnone)]
    exact .error (Correspondence.layout_unexpected _ _ _ _)
  · rw [if_neg hnone, if_neg (mt hstop.mpr hnone)]
    refine .ok ⟨?_, Correspondence.layout_of_aligned hrest hrest' hdrop⟩
    rw [upTo_standard hs h, upTo_standard hs' h', htake]

theorem ownName_layout (hs : Plain s) (hs' : Plain s') (haligned : Aligned s.chars s'.chars) :
    Correspondence.layout.Ends Eq (ownName s) (ownName s') := by
  have hword : s.word = s'.word := by
    rw [word_of_plain hs, word_of_plain hs', haligned.word_eq]
  unfold ownName
  simp only [← haligned.word_eq, ← hword]
  split
  · exact .error (Correspondence.layout_unexpected _ _ _ _)
  · split
    · exact .error rfl
    · refine .ok ⟨rfl, ?_⟩
      change Correspondence.layout.input (s.drop _) (s'.drop _)
      rw [word_of_plain hs]
      exact Correspondence.layout_drop hs hs' haligned (unbroken_word _) (word_prefix_self _)

theorem generatorName_layout (h : Correspondence.layout.input s s') :
    Correspondence.layout.Ends Eq (generatorName s) (generatorName s') := by
  have hplain : Plain s.skipBlanks := h.1
  have hplain' : Plain s'.skipBlanks := h.2.1
  have haligned := Correspondence.aligned_of_layout h
  have hmark : Unbroken GeneratorName.standard := unbroken_of_any rfl
  have hafter := Correspondence.after?_aligned hplain hplain' haligned hmark
  unfold generatorName
  split
  · rename_i rest hrest
    obtain ⟨rest', hrest', -, -, hnames⟩ := hafter.of_some hrest
    split
    · rename_i rest'' hrest''
      obtain rfl := Option.some.inj (hrest'.symm.trans hrest'')
      exact (standardName_layout hplain hplain' hrest hrest' hnames).relax _ _
    · rename_i hnone
      rw [hrest'] at hnone
      cases hnone
  · rename_i hnone
    split
    · rename_i hsome
      rw [hafter.of_none hnone] at hsome
      cases hsome
    · exact (ownName_layout hplain hplain' haligned).relax _ _

theorem layout_kept : Kept .layout where
  toKept := Correspondence.layout_kept
  intLiteral := intLiteral_layout
  generatorName := fun _ _ h => generatorName_layout h
  unknownType := fun _ _ _ _ _ _ _ => rfl

end Generator.Grammar

section Readers

/-- Failures of one kind: located problems of one family, or numerals that stand for no number. -/
inductive Scan.ReadError.Alike : ReadError → ReadError → Prop
  | located {l l' : Located} (h : l.what.category = l'.what.category) :
      Alike (.located l) (.located l')
  | numeral {fault fault' : Text.NumeralFault} : Alike (.numeral fault) (.numeral fault')

theorem Scan.Fault.alike_of_category_eq {source source' : List Char}
    {families : List Problem.Category} {broken : Problem → Prop} {e e' : Fault}
    (he : e.About source families broken) (he' : e'.About source' families broken)
    (h : e.category = e'.category) :
    (e.locate ⟨source, 0⟩).Alike (e'.locate ⟨source', 0⟩) := by
  cases e with
  | problem rest what wanted =>
      cases e' with
      | problem rest' what' wanted' =>
          obtain ⟨l, hl, rfl, -⟩ := exists_located wanted he.1 he.2.1
          obtain ⟨l', hl', rfl, -⟩ := exists_located wanted' he'.1 he'.2.1
          rw [hl, hl']
          exact .located (Option.some.inj h)
      | numeral fault' => cases h
      | constant fault' => exact absurd he' id
  | numeral fault =>
      cases e' with
      | problem rest' what' wanted' => cases h
      | numeral fault' => exact .numeral
      | constant fault' => exact absurd he' id
  | constant fault => exact absurd he id

theorem alike_of_agree {source source' : List Char} {families : List Problem.Category}
    {broken : Problem → Prop} {α : Type} {x x' : Except Fault α}
    (h : Agree Correspondence.layout.fault Eq x x')
    (hx : ∀ e, x = .error e → e.About source families broken)
    (hx' : ∀ e, x' = .error e → e.About source' families broken) :
    Agree ReadError.Alike Eq (x.mapError (Fault.locate ⟨source, 0⟩))
      (x'.mapError (Fault.locate ⟨source', 0⟩)) := by
  rcases h.cases with ⟨e, e', rfl, rfl, hsame⟩ | ⟨a, _, rfl, rfl, rfl⟩
  · exact .error (Fault.alike_of_category_eq (hx e rfl) (hx' e' rfl) hsame)
  · exact .ok rfl

variable {source source' : String}

theorem layout_of_chunks_eq (h : chunks source.toList = chunks source'.toList) :
    Correspondence.layout.input (.ofList source.toList) (.ofList source'.toList) :=
  ⟨rfl, rfl, h⟩

/-- Sources with the same chunks are read alike: generators always, and programs when there is no
mark of a header. -/
theorem read_layout {limits limits' : Limits} (hsize : limits.sourceSize ≤ 0)
    (hsize' : limits'.sourceSize ≤ 0) (hnesting : limits.nesting = limits'.nesting)
    (h : chunks source.toList = chunks source'.toList) :
    (∀ precedence, Agree ReadError.Alike Eq (Generator.read source precedence limits)
      (Generator.read source' precedence limits')) ∧
    ('#' ∉ source.toList →
      Agree ReadError.Alike Eq (Program.read source limits) (Program.read source' limits')) := by
  have hlayout := layout_of_chunks_eq h
  constructor
  · intro precedence
    have hagree := (Generator.Grammar.layout_kept.generators
      (Generator.Grammar.carried_eq precedence) { limit := limits.nesting } .nil hlayout).imp
        fun _ _ => Generator.eq_of_forall₂_alike
    unfold Generator.read
    simp only [sizeError?_eq_none hsize, sizeError?_eq_none hsize', ← hnesting]
    exact alike_of_agree hagree
      (fun e => Generator.Grammar.about_of_generators (endOf_toList source))
      (fun e => Generator.Grammar.about_of_generators (endOf_toList source'))
  · intro hmark
    have hagree := Program.Grammar.program_layout hlayout hmark
      { limit := (Program.clamped limits).nesting }
    have hclamped : (Program.clamped limits).nesting = (Program.clamped limits').nesting := by
      simp only [Program.clamped, hnesting]
    unfold Program.read
    simp only [sizeError?_eq_none hsize, sizeError?_eq_none hsize', ← hclamped]
    exact alike_of_agree hagree
      (fun e => Program.Grammar.about_of_program (endOf_toList source))
      (fun e => Program.Grammar.about_of_program (endOf_toList source'))

/-- A statement and the same statement with other blanks. -/
theorem read_layout_assignment :
    chunks "a = b + 1".toList = chunks "\ta\r\n=\nb  +\n1 ".toList ∧
      (∀ precedence, Agree ReadError.Alike Eq
        (Generator.read "a = b + 1" precedence { sourceSize := 0 })
        (Generator.read "\ta\r\n=\nb  +\n1 " precedence { sourceSize := -1 })) ∧
      Agree ReadError.Alike Eq (Program.read "a = b + 1" { sourceSize := 0 })
        (Program.read "\ta\r\n=\nb  +\n1 " { sourceSize := -1 }) := by
  have hsize : ({ sourceSize := 0 } : Limits).sourceSize ≤ 0 := by decide
  have hsize' : ({ sourceSize := -1 } : Limits).sourceSize ≤ 0 := by decide
  have h : chunks "a = b + 1".toList = chunks "\ta\r\n=\nb  +\n1 ".toList := by decide
  obtain ⟨hgenerators, hprograms⟩ := read_layout hsize hsize' rfl h
  exact ⟨h, hgenerators, hprograms (by decide)⟩

end Readers

end FuzzFrontend
