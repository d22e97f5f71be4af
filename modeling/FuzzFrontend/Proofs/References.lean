import FuzzFrontend.Proofs.Generator.Regrouping
import FuzzFrontend.Proofs.Generator.RoundTrip
import FuzzFrontend.Proofs.Program.RoundTrip

namespace FuzzFrontend

open Scan

section Faults

variable {α β : Type} {a : α} {s : Input} {t : List Char} {e : Fault}

theorem Scan.andThen_eq_error_left {p : Rule α} {f : α → Rule β} (hp : p s = .error e) :
    p.andThen f s = .error e := by
  simp only [Rule.andThen, hp]

theorem Scan.andThen_eq_error_right {p : Rule α} {f : α → Rule β} (hp : Yields (p s) a t)
    (hf : f a (.ofList t) = .error e) : p.andThen f s = .error e := by
  obtain ⟨_, hp⟩ := hp
  simp only [Rule.andThen, hp, hf]

theorem Scan.map_eq_error {p : Rule α} {f : α → β} (hp : p s = .error e) :
    Rule.map f p s = .error e := by
  simp only [Rule.map, hp, Except.map]

theorem Scan.onKeyword_eq_error {text : String} {p q : Rule α}
    (hk : Finds (keyword? text s) () t) (hp : p (.ofList t) = .error e) :
    Rule.onKeyword text p q s = .error e := by
  obtain ⟨_, hk⟩ := hk
  simp only [Rule.onKeyword, hk, hp, Except.map]

theorem Scan.ifKeyword_eq_error {text : String} {p : Rule α}
    (hk : Finds (keyword? text s) () t) (hp : p (.ofList t) = .error e) :
    Rule.ifKeyword text p s = some (.error e) := by
  obtain ⟨_, hk⟩ := hk
  simp only [Rule.ifKeyword, hk, Option.map_some, hp, Except.map]

end Faults

section Names

variable {name own : String}

/-- Some source of generators has a generator of this name. -/
def Generator.Named (name : String) : Prop :=
  ∃ source precedence limits gs, Generator.read source precedence limits = .ok gs ∧
    ∃ g ∈ gs, g.name = name

/-- Some program has a variable that takes its values from the generator of this name. -/
def Program.Refers (name : String) : Prop :=
  ∃ source limits p, Program.read source limits = .ok p ∧
    ∃ decl, Declaration.free decl ∈ p.declarations ∧ decl.generator = name

/-- Without its mark the name starts with a letter and is not reserved in programs. -/
def GeneratorName.Usable (name : String) : Prop :=
  (plain name).toList.head?.any isWordStart = true ∧ plain name ∉ Program.Grammar.reservedWords

instance (name : String) : Decidable (GeneratorName.Usable name) :=
  inferInstanceAs (Decidable (_ ∧ _))

theorem GeneratorName.wordChars_plain (h : Generator.Grammar.isName name = true) :
    GeneratorName.plain name ≠ "" ∧
      ∀ c ∈ (GeneratorName.plain name).toList, isWordChar c = true := by
  unfold Generator.Grammar.isName at h
  unfold GeneratorName.plain
  split at h
  · rename_i own hown
    simpa [hown] using h
  · rename_i hnone
    have hword : isWord name.toList = true := (Bool.and_eq_true_iff.mp h).1
    rw [hnone, Option.getD_none]
    refine ⟨fun hempty => ?_, isWordChar_of_isWord hword⟩
    rw [hempty] at hword
    cases hword

/-- Of the conditions on a name in a program, the name of a generator always meets one. -/
theorem GeneratorName.isName_plain_iff (h : Generator.Grammar.isName name = true) :
    Program.Grammar.isName (GeneratorName.plain name) = true ↔ GeneratorName.Usable name := by
  obtain ⟨hne, hword⟩ := GeneratorName.wordChars_plain h
  unfold Program.Grammar.isName GeneratorName.Usable
  cases hcs : (plain name).toList with
  | nil => exact absurd (String.toList_eq_nil_iff.mp hcs) hne
  | cons c w =>
      have htail : ∀ d ∈ w, isWordChar d = true := fun d hd => hword d (by simp [hcs, hd])
      simp [isWord, List.all_eq_true.mpr htail]

theorem Generator.named_iff : Generator.Named name ↔ Generator.Grammar.isName name = true := by
  constructor
  · rintro ⟨source, precedence, limits, gs, hread, g, hg, rfl⟩
    exact (spellable_of_read hread g hg).name
  · intro hname
    let g : Generator := ⟨.scalar .i32, name, [.least (.scalar .i32)], List.cons_ne_nil _ _⟩
    have hsize : ({ sourceSize := 0 } : Limits).sourceSize ≤ 0 := by decide
    have hstate : writeState .flat (.ofRequest (some 100)) (.least (.scalar .i32)) =
        .ok "    state I32:min()\n" := rfl
    have hwrite := write_eq_ok (g := g).mpr
      ⟨hname, "I32", rfl, _, mapM_eq_ok.mpr (.cons hstate .nil), rfl⟩
    have hall := writeAll_eq_ok.mpr ⟨_, mapM_eq_ok.mpr (.cons hwrite .nil), rfl⟩
    have hread := (read_eq_ok_iff hsize).mpr
      ((generators_of_writeAll (List.cons_ne_nil _ _) hall 100).mpr ?_)
    · exact ⟨_, .flat, { sourceSize := 0 }, [g], hread, g, List.mem_singleton_self g, rfl⟩
    · intro g' hg'
      obtain rfl := List.mem_singleton.mp hg'
      intro e he
      obtain rfl := List.mem_singleton.mp he
      exact Nat.zero_le _

end Names

namespace Program

variable {name : String} {limits : Limits}

/-- The text of a variable that takes its values from the generator of this name. -/
def reference (name : String) : String :=
  match GeneratorName.ofStandard? name with
  | some own => "var:free x gen:std: " ++ own ++ " i32"
  | none => "var:free x gen: " ++ name ++ " i32"

/-- The variable that the reference declares. -/
def referrer (name : String) : FreeVariable :=
  ⟨"x", name, .known (.scalar .i32)⟩

theorem toList_reference (name : String) :
    (reference name).toList = "var:free".toList ++ ' ' :: ("x".toList ++
      ' ' :: ((GeneratorName.write name).toList ++ ' ' :: "i32".toList)) := by
  unfold reference GeneratorName.write
  cases GeneratorName.ofStandard? name <;> simp

theorem dropWhile_reference (name : String) :
    (reference name).toList.dropWhile isBlank = (reference name).toList ++ [] := by
  rw [List.append_nil, toList_reference]
  exact dropWhile_of_solid rfl

theorem spelled_reference (name : String) :
    Declaration.Spelled (.free (referrer name)) (reference name).toList := by
  have hty : (referrer name).ty.write = .ok "i32" := rfl
  simpa [toList_reference, referrer] using Declaration.Spelled.free hty

section Reading

open Grammar

variable {nesting : Nesting} {cs r : List Char} {d : Declaration}

theorem exists_name_eq_error {own : String} (hne : own ≠ "")
    (hword : ∀ c ∈ own.toList, isWordChar c = true) (hown : isName own = false)
    (hr : apart r = true) : ∃ e, Grammar.name (.ofList (' ' :: (own.toList ++ r))) = .error e := by
  obtain ⟨c, w, hcons⟩ := List.exists_cons_of_ne_nil (mt String.toList_eq_nil_iff.mp hne)
  have hsolid : solid own.toList = true := by
    simp [hcons, solid, isBlank_of_isWordChar (hword c (by simp [hcons]))]
  have hcs : (' ' :: (own.toList ++ r)).dropWhile isBlank = own.toList ++ r :=
    dropWhile_solid_append hsolid r
  cases hisWord : isWord own.toList with
  | true =>
      have hreserved : own ∈ reservedWords := by simpa [isName, hisWord] using hown
      obtain ⟨_, hread⟩ := identifier_yields hisWord hcs (head?_of_apart hr)
      rw [Grammar.name, hread]
      exact ⟨_, if_pos hreserved⟩
  | false =>
      have htail : w.all isWordChar = true :=
        List.all_eq_true.mpr fun d hd => hword d (by simp [hcons, hd])
      have hstart : isWordStart c = false := by simpa [hcons, isWord, htail] using hisWord
      have hnone : Scan.word (own.toList ++ r) = [] := by simp [hcons, Scan.word, hstart]
      have hread : identifier (.ofList (' ' :: (own.toList ++ r))) =
          .error (.unexpected (.ofList (own.toList ++ r)) ["identifier"]) := by
        simp [identifier, Rule.afterBlanks, hcs, hnone, Except.map]
      rw [Grammar.name, hread]
      exact ⟨_, rfl⟩

theorem exists_generatorName_eq_error (hname : Generator.Grammar.isName name = true)
    (hplain : isName (GeneratorName.plain name) = false) (hr : apart r = true) :
    ∃ e, generatorName (.ofList (' ' :: ((GeneratorName.write name).toList ++ r))) = .error e := by
  obtain ⟨hne, hword⟩ := GeneratorName.wordChars_plain hname
  obtain ⟨e, he⟩ := exists_name_eq_error hne hword hplain hr
  refine ⟨e, ?_⟩
  unfold GeneratorName.plain at he
  unfold GeneratorName.write
  cases hmark : GeneratorName.ofStandard? name with
  | some own =>
      rw [hmark, Option.getD_some] at he
      have hcs : (' ' :: (("gen:std: " ++ own).toList ++ r)).dropWhile isBlank =
          "gen:std:".toList ++ ' ' :: (own.toList ++ r) := by simp [isBlank]
      exact onKeyword_eq_error (keyword?_finds_marked (by decide) (by decide) hcs) (map_eq_error he)
  | none =>
      rw [hmark, Option.getD_none] at he
      have hcs : (' ' :: (("gen: " ++ name).toList ++ r)).dropWhile isBlank =
          "gen:".toList ++ ' ' :: (name.toList ++ r) := by simp [isBlank]
      have hstandard : keyword? "gen:std:" (.ofList (' ' :: (("gen: " ++ name).toList ++ r))) =
          none := by
        apply keyword?_eq_none
        rw [hcs]
        simp [List.cons_prefix_cons]
      unfold generatorName
      rw [Rule.onKeyword, hstandard]
      exact onKeyword_eq_error (keyword?_finds_marked (by decide) (by decide) hcs) he

/-- Where neither a header nor a type starts, the text is read from its variables on. -/
theorem program_eq_error {s : Input} {e : Fault} (hheader : header? s = none)
    (htype : typeDeclaration? s = none) (hvar : variableDeclaration? s = some (.error e)) :
    program nesting s = .error e := by
  unfold program
  rw [many, hheader]
  simp only [bind, Except.bind]
  rw [many, htype]
  simp only
  rw [many, hvar]

theorem program_eq_ok {s : Input} (hheader : header? s = none)
    (htype : typeDeclaration? s = none) (hvar : Offers (variableDeclaration? s) d []) :
    program nesting s = .ok ⟨[d], []⟩ := by
  obtain ⟨_, hvar⟩ := hvar
  unfold program
  rw [many, hheader]
  simp only [bind, Except.bind]
  rw [many, htype]
  simp only
  rw [many, hvar]
  simp only
  rw [many, show variableDeclaration? (.ofList []) = none from rfl]
  simp only
  rw [many, show functionDeclaration? (.ofList []) = none from rfl]
  simp only
  rw [stmts]
  rfl

theorem keyword?_reference {text : String} {phase : Phase}
    (hmem : (text, phase) ∈ declarationKeywords) (hne : text ≠ "var:free") :
    keyword? text (.ofList (reference name).toList) = none :=
  keyword?_eq_none_of_spelled (spelled_reference name) hmem hne (dropWhile_reference name)

theorem header?_reference : header? (.ofList (reference name).toList) = none := by
  simp [header?, @keyword?_reference name "#include" .headers (by decide) (by decide)]

theorem typeDeclaration?_reference :
    typeDeclaration? (.ofList (reference name).toList) = none := by
  refine @declaration?_declines _ .types fun text hmem => keyword?_reference hmem ?_
  rintro rfl
  exact absurd hmem (by decide)

theorem program_reference_eq_ok (h : isName (GeneratorName.plain name) = true) :
    program nesting (.ofList (reference name).toList) = .ok ⟨[.free (referrer name)], []⟩ := by
  have hx : isName "x" = true := by decide
  have hd : (Declaration.free (referrer name)).Spellable :=
    ⟨hx, GeneratorName.spellable_iff.mpr h, trivial⟩
  exact program_eq_ok header?_reference typeDeclaration?_reference
    (variableDeclaration?_offers hd (spelled_reference name) rfl (dropWhile_reference name) rfl)

theorem exists_program_reference_eq_error (hname : Generator.Grammar.isName name = true)
    (h : isName (GeneratorName.plain name) = false) :
    ∃ e, program nesting (.ofList (reference name).toList) = .error e := by
  obtain ⟨e, he⟩ := exists_generatorName_eq_error hname h (r := ' ' :: "i32".toList) rfl
  have hcs : (reference name).toList.dropWhile isBlank = "var:free".toList ++
      ' ' :: ("x".toList ++ ' ' :: ((GeneratorName.write name).toList ++ ' ' :: "i32".toList)) := by
    rw [dropWhile_reference, List.append_nil, toList_reference]
  have hx : Grammar.isName "x" = true := by decide
  have hfree := ifKeyword_eq_error (p := freeVariable) (keyword?_finds (by decide) hcs rfl)
    (andThen_eq_error_right (spaced_name_yields hx rfl) (andThen_eq_error_left he))
  have hconstrained := @keyword?_reference name "var:constrained" .vars (by decide) (by decide)
  refine ⟨e, program_eq_error header?_reference typeDeclaration?_reference ?_⟩
  rw [variableDeclaration?, Rule.ifKeyword, hconstrained, Option.map_none, Option.none_or, hfree]

end Reading

/-- Programs refer to a name just when it is a name of programs, with the mark or without. -/
theorem refers_iff : Refers name ↔ Grammar.isName (GeneratorName.plain name) = true := by
  constructor
  · rintro ⟨source, limits, p, hread, decl, hdecl, rfl⟩
    have hp := (Grammar.spellable_of_program rfl (program_of_read hread)).1
    exact GeneratorName.spellable_iff.mp (hp.declarations _ hdecl).2.1
  · intro hplain
    have hsize : ({ sourceSize := 0 } : Limits).sourceSize ≤ 0 := by decide
    have hread := (read_eq_ok_iff (sizeError?_eq_none hsize _ (reference name))).mpr
      (program_reference_eq_ok hplain)
    exact ⟨_, _, _, hread, referrer name, List.mem_singleton_self _, rfl⟩

theorem exists_read_reference_eq_error (hname : Generator.Grammar.isName name = true)
    (hplain : Grammar.isName (GeneratorName.plain name) = false)
    (hsize : limits.sizeError? "ProgramParser" (reference name) = none) :
    ∃ e, read (reference name) limits = .error e := by
  obtain ⟨e, he⟩ := exists_program_reference_eq_error hname hplain
  rw [read, hsize, he]
  exact ⟨_, rfl⟩

/-- The reference of a generator is read as one variable that keeps the name, if the name is usable.
Otherwise the reference is refused, and so is every other way to refer to that generator. -/
theorem read_reference_exact (hname : Generator.Named name)
    (hsize : limits.sizeError? "ProgramParser" (reference name) = none) :
    (GeneratorName.Usable name →
        read (reference name) limits =
          .ok ⟨[.free ⟨"x", name, .known (.scalar .i32)⟩], []⟩) ∧
      (¬ GeneratorName.Usable name →
        (∃ e, read (reference name) limits = .error e) ∧ ¬ Refers name) := by
  have hisName := Generator.named_iff.mp hname
  rw [← GeneratorName.isName_plain_iff hisName, refers_iff]
  refine ⟨fun hplain => (read_eq_ok_iff hsize).mpr (program_reference_eq_ok hplain),
    fun hplain => ⟨?_, hplain⟩⟩
  exact exists_read_reference_eq_error hisName (Bool.eq_false_iff.mpr hplain) hsize

/-- A word that is reserved in generator files only is usable with the mark. -/
theorem read_reference_exact_random :
    Generator.Named "std:random" ∧ GeneratorName.Usable "std:random" ∧
      read "var:free x gen:std: random i32" =
        .ok ⟨[.free ⟨"x", "std:random", .known (.scalar .i32)⟩], []⟩ := by
  have hname : Generator.Named "std:random" := Generator.named_iff.mpr (by decide)
  have husable : GeneratorName.Usable "std:random" := by decide
  have htext : reference "std:random" = "var:free x gen:std: random i32" := rfl
  have hsize : ({} : Limits).sizeError? "ProgramParser" (reference "std:random") = none := by
    rw [htext]
    rfl
  have hread := (read_reference_exact hname hsize).1 husable
  rw [htext] at hread
  exact ⟨hname, husable, hread⟩

/-- After the mark a digit is enough for a generator, and without it a word that only programs
reserve; neither generator can be referred to. -/
theorem reference_refused :
    (Generator.Named "std:1" ∧ (∃ e, read "var:free x gen:std: 1 i32" = .error e) ∧
        ¬ Refers "std:1") ∧
      Generator.Named "struct" ∧ (∃ e, read "var:free x gen: struct i32" = .error e) ∧
        ¬ Refers "struct" := by
  have hdigit : Generator.Grammar.isName "std:1" = true := by decide
  have hword : Generator.Grammar.isName "struct" = true := by decide
  have hdigitText : reference "std:1" = "var:free x gen:std: 1 i32" := rfl
  have hwordText : reference "struct" = "var:free x gen: struct i32" := rfl
  rw [← hdigitText, ← hwordText]
  refine ⟨⟨Generator.named_iff.mpr hdigit, ?_, mt refers_iff.mp (by decide)⟩,
    Generator.named_iff.mpr hword, ?_, mt refers_iff.mp (by decide)⟩
  · exact exists_read_reference_eq_error hdigit (by decide) (by rw [hdigitText]; rfl)
  · exact exists_read_reference_eq_error hword (by decide) (by rw [hwordText]; rfl)

end Program

end FuzzFrontend
