import FuzzFrontend.Proofs.Generator.ReadGenerator
import FuzzFrontend.Proofs.Generator.Shape
import FuzzFrontend.Proofs.Program.Checked
import FuzzFrontend.Proofs.Program.Shape
import FuzzFrontend.Proofs.Scan.Pattern
import FuzzFrontend.Proofs.Scan.Run

namespace FuzzFrontend

open Scan

section Offsets

variable {source : List Char} {pos : Nat}

/-- The word at a cursor, empty when none starts there. -/
def Cursor.word (c : Cursor) : Except Cursor.Fault (List Char) :=
  c.input.map Input.word

theorem Cursor.word_ofNat : (⟨source, pos⟩ : Cursor).word = .ok (Scan.word (source.drop pos)) := by
  rw [Cursor.word, Cursor.input_ofNat, Except.map, Input.word_ofList]

end Offsets

section Wholes

variable {bound : Input → Nat} {rule : (s : Input) → Except Fault (Parsed String (bound s))}
variable {w : String}

/-- The rule reads the text up to its end, and gives it back. -/
def Scan.ReadsWhole (rule : (s : Input) → Except Fault (Parsed String (bound s))) (w : String) :
    Prop :=
  runAt rule (Cursor.ofString w) = .ok (w, ⟨w.toList, w.toList.length⟩)

/-- A rule reads whole just those texts that it can give at all. -/
theorem Scan.readsWhole_iff {P : String → Prop} (hmeets : ∀ s, Plain s → Meets (rule s) P)
    (hyields : P w → Yields (rule (.ofList w.toList)) w []) : ReadsWhole rule w ↔ P w := by
  constructor
  · -- the value alone tells it: whatever the rule gives meets the condition
    intro h
    have hinput : (Cursor.ofString w).input = .ok (.ofList w.toList) := Cursor.input_ofNat
    simp only [ReadsWhole, runAt, hinput] at h
    split at h
    · cases h
    · rename_i p hp
      have hvalue : p.value = w := congrArg Prod.fst (Except.ok.inj h)
      exact hvalue ▸ (hmeets _ rfl p hp).1
  · intro h
    have hsplit : w.toList.drop 0 = w.toList ++ [] := (List.append_nil w.toList).symm
    have hread := runAt_of_yields (hyields h) hsplit
    rwa [Nat.zero_add] at hread

theorem dropWhile_eq_append_nil {w : List Char} (h : solid w = true) :
    w.dropWhile isBlank = w ++ [] := by
  rw [List.append_nil, dropWhile_of_solid h]

theorem Program.Grammar.readsWhole_name : ReadsWhole name w ↔ isName w = true :=
  readsWhole_iff name_ensures fun h =>
    name_yields h (dropWhile_eq_append_nil (solid_of_isName h)) rfl

theorem Scan.readsWhole_numeral :
    ReadsWhole numeral w ↔ isInteger w.toList = true ∨ isDecimal w.toList = true :=
  readsWhole_iff numeral_ensures fun h =>
    numeral_yields h (dropWhile_eq_append_nil (solid_of_isNumber h)) ⟨rfl, by simp⟩

theorem Generator.Grammar.readsWhole_generatorName :
    ReadsWhole generatorName w ↔ isName w = true :=
  readsWhole_iff (fun _ => generatorName_meets) fun h =>
    generatorName_yields h (dropWhile_eq_append_nil (solid_of_isName h)) rfl

theorem Scan.isInteger_iff_readsWhole :
    isInteger w.toList = true ↔ ReadsWhole numeral w ∧ '.' ∉ w.toList := by
  rw [readsWhole_numeral]
  constructor
  · exact fun h => ⟨Or.inl h, point_not_mem_of_isInteger h⟩
  · rintro ⟨h | h, hpoint⟩
    · exact h
    · exact absurd (point_mem_of_isDecimal h) hpoint

theorem Scan.isDecimal_iff_readsWhole :
    isDecimal w.toList = true ↔ ReadsWhole numeral w ∧ '.' ∈ w.toList := by
  rw [readsWhole_numeral]
  constructor
  · exact fun h => ⟨Or.inr h, point_mem_of_isDecimal h⟩
  · rintro ⟨h | h, hpoint⟩
    · exact absurd hpoint (point_not_mem_of_isInteger h)
    · exact h

end Wholes

section Checks

variable {w : String}

theorem Expr.check_integer_eq_ok : (integer w).check = .ok () ↔ isInteger w.toList = true := by
  simp [check]

theorem Expr.check_decimal_eq_ok : (decimal w).check = .ok () ↔ isDecimal w.toList = true := by
  simp [check]

theorem Program.Grammar.isName_iff_mem :
    isName w = true ↔ w.toList ∈ Pattern.word ∧ w ∉ reservedWords := by
  rw [← Pattern.isWord_iff]
  simp [isName]

/-- A name with its mark is no reserved word, so it need not be looked for among them. -/
theorem Generator.Grammar.isName_iff_mem :
    isName w = true ↔ w.toList ∈ Pattern.generatorName ∧ w ∉ reservedNames := by
  have hmark : w.toList ∈ ({GeneratorName.standard} : Language Char) * someOf Pattern.wordChars ↔
      ∃ own, w.toList = GeneratorName.standard ++ own ∧ own ≠ [] ∧
        ∀ c ∈ own, isWordChar c = true := by
    rw [mem_singleton_mul]
    simp only [mem_someOf, Pattern.isWordChar_iff]
    exact exists_congr fun own => and_comm
  rw [isName_iff, Pattern.generatorName, Language.mem_add, hmark, ← Pattern.isWord_iff]
  have hreserved : ∀ name ∈ reservedNames, ¬ GeneratorName.standard <+: name.toList := by decide
  constructor
  · rintro (⟨own, heq, hown⟩ | ⟨-, hword, hfree⟩)
    · exact ⟨Or.inl ⟨own, heq, hown⟩, fun hin => hreserved w hin ⟨own, heq.symm⟩⟩
    · exact ⟨Or.inr hword, hfree⟩
  · rintro ⟨hown | hword, hfree⟩
    · exact Or.inl hown
    · refine Or.inr ⟨fun hprefix => ?_, hword, hfree⟩
      -- the mark has a colon, which no word has
      have hcolon : ':' ∈ w.toList := hprefix.subset (by decide)
      exact absurd (isWordChar_of_isWord hword ':' hcolon) (by decide)

end Checks

section Scanners

variable {source : List Char} {pos first : Nat}

/-- Reading a word at an offset gives the longest one there, or nothing. -/
def WordAt (source : List Char) (pos : Nat) : Prop :=
  ∃ o, Longest Pattern.word (source.drop pos) o ∧
    (⟨source, pos⟩ : Cursor).word = .ok (o.getD [])

/-- Reading a number at `pos` gives the longest one at `first` and ends behind it, or it tells that
none is there. -/
def NumberAt (source : List Char) (pos first : Nat) : Prop :=
  ∃ o, Longest Pattern.number (source.drop first) o ∧
    runAt numeral ⟨source, pos⟩ =
      match o with
      | some m => .ok (String.ofList m, ⟨source, (first + m.length : Nat)⟩)
      | none => .error (.unread
          ((Fault.unexpected (.ofList (source.drop first)) ["number"]).locate ⟨source, pos⟩))

/-- A keyword is found from `pos`, and its end behind it, just when it is the word at `first`. -/
def KeywordAt (source : List Char) (pos first : Nat) (text : String) : Prop :=
  ((⟨source, first⟩ : Cursor).word = .ok text.toList ∧
      keywordAt? text ⟨source, pos⟩ =
        .ok (some ⟨source, (first + text.toList.length : Nat)⟩)) ∨
    ((⟨source, first⟩ : Cursor).word ≠ .ok text.toList ∧
      keywordAt? text ⟨source, pos⟩ = .ok none)

/-- What the scanners find at an offset of a source, with `first` as the offset after the blanks
there. -/
structure LexemesAt (source : List Char) (pos first : Nat) : Prop where
  blanks : (⟨source, pos⟩ : Cursor).skipBlanks = .ok ⟨source, first⟩
  left : source.drop first = (source.drop pos).dropWhile isBlank
  word : WordAt source pos
  number : NumberAt source pos first
  keyword (text : String) (h : text.toList ∈ Pattern.word) : KeywordAt source pos first text

theorem wordAt (source : List Char) (pos : Nat) : WordAt source pos := by
  obtain ⟨o, ho, hword⟩ := longest_word (source.drop pos)
  exact ⟨o, ho, by rw [Cursor.word_ofNat, hword]⟩

/-- Blanks lead from the first offset to the second, and no blank stands there. -/
structure Cursor.Skips (source : List Char) (pos first : Nat) : Prop where
  split : ∃ blanks, first = pos + blanks.length ∧ source.drop pos = blanks ++ source.drop first
  left : source.drop first = (source.drop pos).dropWhile isBlank

theorem Cursor.exists_skips (source : List Char) (pos : Nat) :
    ∃ first, Cursor.Skips source pos first := by
  let blanks := (source.drop pos).takeWhile isBlank
  have hsplit : source.drop pos = blanks ++ (source.drop pos).dropWhile isBlank :=
    List.takeWhile_append_dropWhile.symm
  have hleft := drop_add_of_drop_eq hsplit
  exact ⟨pos + blanks.length, ⟨blanks, rfl, by rwa [hleft]⟩, hleft⟩

namespace Cursor.Skips

theorem skipBlanks (h : Cursor.Skips source pos first) :
    (⟨source, pos⟩ : Cursor).skipBlanks = .ok ⟨source, first⟩ := by
  obtain ⟨⟨blanks, rfl, hsplit⟩, hleft⟩ := h
  rw [Cursor.skipBlanks, Cursor.input_ofNat, Except.map, Input.skipBlanks_ofList, ← hleft]
  exact congrArg Except.ok (Cursor.reaching_ofList hsplit)

theorem reaching (h : Cursor.Skips source pos first) {taken rest : List Char}
    (hrest : source.drop first = taken ++ rest) :
    (⟨source, pos⟩ : Cursor).reaching (.ofList rest) =
      ⟨source, (first + taken.length : Nat)⟩ := by
  obtain ⟨⟨blanks, rfl, hsplit⟩, -⟩ := h
  rw [hrest, ← List.append_assoc] at hsplit
  rw [Cursor.reaching_ofList hsplit, List.length_append, ← Nat.add_assoc]

theorem numberAt (h : Cursor.Skips source pos first) : NumberAt source pos first := by
  refine ⟨_, longest_number _, ?_⟩
  -- the rule skips the blanks itself, so what it reads is told of what is left after them
  cases hstarts : startsNumber (source.drop first) with
  | false =>
      rw [h.left] at hstarts
      simp only [runAt, Cursor.input_ofNat, numeral_eq_error hstarts, h.left]
      rfl
  | true =>
      have hnumber := List.prefix_iff_eq_append.mp (number_prefix_self (source.drop first))
      have hreaching := h.reaching hnumber.symm
      rw [h.left] at hstarts hreaching
      obtain ⟨hlt, e⟩ := numeral_yields_number hstarts
      simp only [runAt, Cursor.input_ofNat, e, hreaching, h.left]
      rfl

theorem keywordAt (h : Cursor.Skips source pos first) {text : String}
    (htext : text.toList ∈ Pattern.word) : KeywordAt source pos first text := by
  have hword := Pattern.isWord_iff.mpr htext
  have hne := ne_nil_of_isWord hword
  have hkeyword : keywordAt? text ⟨source, pos⟩ =
      .ok ((keyword? text (.ofList (source.drop pos))).map fun p =>
        (⟨source, pos⟩ : Cursor).reaching p.rest) := by
    have hnonempty : text.isEmpty = false := by
      rw [String.isEmpty_eq_false_iff]
      rintro rfl
      exact hne rfl
    simp [keywordAt?, Cursor.input_ofNat, hnonempty]
  rw [KeywordAt, hkeyword, Cursor.word_ofNat]
  by_cases heq : Scan.word (source.drop first) = text.toList
  · obtain ⟨⟨rest, hstands⟩, hend⟩ := (word_eq_iff hword).mp heq
    rw [← hstands, List.drop_left] at hend
    obtain ⟨hlt, e⟩ := keyword?_finds hne (h.left.symm.trans hstands.symm) hend
    exact Or.inl ⟨congrArg Except.ok heq, by rw [e, Option.map_some, h.reaching hstands.symm]⟩
  · refine Or.inr ⟨fun hsame => heq (Except.ok.inj hsame), ?_⟩
    rw [h.left] at heq
    rw [keyword?_eq_none_of_word hword heq]
    rfl

end Cursor.Skips

theorem exists_lexemesAt (source : List Char) (pos : Nat) :
    ∃ first, LexemesAt source pos first := by
  obtain ⟨first, h⟩ := Cursor.exists_skips source pos
  exact ⟨first, h.skipBlanks, h.left, wordAt source pos, h.numberAt, fun _ => h.keywordAt⟩

end Scanners

/-- The checks of names and literals before writing let through the texts of their patterns, which
are those that the rules read up to their end and give back; and wherever in a source the scanners
start, they find the longest text of a pattern, and a keyword that is a word where it is that
word. -/
theorem lexical_checks_agree_with_scanners :
    (∀ w place, (Unspellable.checkName w place = .ok () ↔
        w.toList ∈ Pattern.word ∧ w ∉ Program.Grammar.reservedWords) ∧
      (Unspellable.checkName w place = .ok () ↔ ReadsWhole Program.Grammar.name w)) ∧
    (∀ w, ((Expr.integer w).check = .ok () ↔ w.toList ∈ Pattern.integer) ∧
      ((Expr.integer w).check = .ok () ↔ ReadsWhole numeral w ∧ '.' ∉ w.toList)) ∧
    (∀ w, ((Expr.decimal w).check = .ok () ↔ w.toList ∈ Pattern.decimal) ∧
      ((Expr.decimal w).check = .ok () ↔ ReadsWhole numeral w ∧ '.' ∈ w.toList)) ∧
    (∀ w, (Generator.Grammar.isName w = true ↔
        w.toList ∈ Pattern.generatorName ∧ w ∉ Generator.Grammar.reservedNames) ∧
      (Generator.Grammar.isName w = true ↔ ReadsWhole Generator.Grammar.generatorName w)) ∧
    ∀ (source : List Char) (pos : Nat), ∃ first, LexemesAt source pos first := by
  refine ⟨fun w place => ?_, fun w => ?_, fun w => ?_, fun w => ?_, exists_lexemesAt⟩
  · rw [checkName_eq_ok]
    exact ⟨Program.Grammar.isName_iff_mem, Program.Grammar.readsWhole_name.symm⟩
  · rw [Expr.check_integer_eq_ok]
    exact ⟨Pattern.isInteger_iff, isInteger_iff_readsWhole⟩
  · rw [Expr.check_decimal_eq_ok]
    exact ⟨Pattern.isDecimal_iff_mem, isDecimal_iff_readsWhole⟩
  · exact ⟨Generator.Grammar.isName_iff_mem, Generator.Grammar.readsWhole_generatorName.symm⟩

/-- A keyword is found before a bracket, and not at the head of a longer word. -/
theorem lexical_checks_agree_with_scanners_if :
    keywordAt? "if" ⟨" if(".toList, 0⟩ = .ok (some ⟨" if(".toList, 3⟩) ∧
      keywordAt? "if" ⟨" iffy".toList, 0⟩ = .ok none := by
  obtain ⟨-, -, -, -, hscan⟩ := lexical_checks_agree_with_scanners
  have hif : "if".toList ∈ Pattern.word := Pattern.isWord_iff.mp rfl
  have hfirst : ∀ source first, (⟨source, 0⟩ : Cursor).skipBlanks = .ok ⟨source, 1⟩ →
      LexemesAt source 0 first → first = 1 := by
    intro source first hskip hlexemes
    have hsame := Except.ok.inj (hskip.symm.trans hlexemes.blanks)
    have hpos : (1 : Int) = first := congrArg Cursor.pos hsame
    omega
  constructor
  · obtain ⟨first, hlexemes⟩ := hscan " if(".toList 0
    obtain rfl := hfirst _ first rfl hlexemes
    exact (hlexemes.keyword "if" hif).elim And.right fun h => absurd rfl h.1
  · obtain ⟨first, hlexemes⟩ := hscan " iffy".toList 0
    obtain rfl := hfirst _ first rfl hlexemes
    exact (hlexemes.keyword "if" hif).elim (fun h => absurd h.1 (by decide)) And.right

end FuzzFrontend
