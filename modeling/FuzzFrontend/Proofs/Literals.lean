import FuzzFrontend.Proofs.Generator.ReadLiteral
import FuzzFrontend.Proofs.NestingLimit
import FuzzFrontend.Proofs.Program.ReadLiteral

namespace FuzzFrontend

open Scan

section Sources

variable {α : Type} {l : Literal}

/-- The reading stops at a constant that is out of range, at a place in the source. -/
def Scan.StopsOutOfRange (r : Except ReadError α) : Prop :=
  ∃ (located : Located) (text : String), r = .error (.located located) ∧
    located.what = .constantOutOfRange text ∧ located.what.category = .constantValue ∧
      located.diagnostic.code = .constantOutOfRange

/-- What a literal makes of a reading, as it is seen from outside. -/
structure Scan.Literal.Settles (l : Literal) (reads : Prop) (r : Except ReadError α) : Prop where
  accepted (hlength : l.digits.length ≤ Text.maxNumeralDigits) (hvalue : Word.IsSigned l.value) :
    reads
  outOfRange (hlength : l.digits.length ≤ Text.maxNumeralDigits)
    (hvalue : ¬ Word.IsSigned l.value) : StopsOutOfRange r
  tooLong (hlength : Text.maxNumeralDigits < l.digits.length) :
    r = .error (.numeral (.tooLong l.digits.length))

theorem Scan.Literal.Settles.imp {p q : Prop} {r : Except ReadError α} (h : l.Settles p r)
    (hpq : p → q) : l.Settles q r :=
  ⟨fun hlength hvalue => hpq (h.accepted hlength hvalue), h.outOfRange, h.tooLong⟩

theorem Scan.Literal.Decides.settles {source : String} {reads : Except Scan.Fault α → Prop}
    {x : Except Scan.Fault α} (h : l.Decides reads x) (families : List Problem.Category)
    {broken : Problem → Prop} (habout : ∀ e, x = .error e → e.About source.toList families broken)
    {reads' : Prop}
    (hok : Word.IsSigned l.value → reads x → reads') :
    l.Settles reads' (x.mapError (Fault.locate (Cursor.ofString source))) := by
  cases h with
  | accepted hlength hvalue h =>
      exact ⟨fun _ _ => hok hvalue h, fun _ hout => absurd hvalue hout,
        fun hlong => absurd hlength (Nat.not_le.mpr hlong)⟩
  | outOfRange s text hlength hvalue =>
      refine ⟨fun _ hin => absurd hin hvalue, fun _ _ => ?_,
        fun hlong => absurd hlength (Nat.not_le.mpr hlong)⟩
      obtain ⟨hrest, hfound, -⟩ := habout _ rfl
      obtain ⟨located, hlocated, hwhat, -⟩ := exists_located [] hrest hfound
      refine ⟨located, text, congrArg Except.error hlocated, hwhat, ?_, ?_⟩
      · rw [hwhat]
        rfl
      · rw [Located.diagnostic, hwhat]
        rfl
  | tooLong hlength =>
      exact ⟨fun hshort _ => absurd hshort (Nat.not_le.mpr hlength),
        fun hshort => absurd hshort (Nat.not_le.mpr hlength), fun _ => rfl⟩

end Sources

section Programs

variable {l : Literal} {limits : Limits} {t rest : List Char}

/-- A source that has the literal as the value of an enum entry is read, or refused, as the literal
has it. -/
theorem Program.read_settles {front : Program.EntryFront}
    (h : (front.close 0 ⟨[], [], []⟩).Spellable) (ht : front.Spelled l t)
    (hsize : limits.sizeError? "ProgramParser" (String.ofList (t ++ rest)) = none) :
    l.Settles (∀ back : Program.EntryBack, (front.close 0 back).Spellable → back.Spelled rest →
        (∀ s ∈ back.statements, s.nesting ≤ (min limits.nesting 237).toNat) →
          Program.read (String.ofList (t ++ rest)) limits = .ok (front.close l.value back))
      (Program.read (String.ofList (t ++ rest)) limits) := by
  have hread : l.Decides _ (Program.Grammar.program { limit := min limits.nesting 237 }
    (.ofList (t ++ rest))) := Program.Grammar.program_decides h ht
  rw [Program.read_eq limits hsize]
  rw [← String.toList_ofList (l := t ++ rest)] at hread
  refine hread.settles problemFamilies
    (fun e he => Program.Grammar.about_of_program (endOf_toList _) he) ?_
  exact fun _ hok back hback hrest hroom =>
    mapError_eq_ok.mpr (hok back hback hrest (by rwa [room_of_limit]))

end Programs

section Generators

theorem Constant.exists_standsFor_of_isSigned {token : String} {kind : Scalar}
    (h : Scalar.ofToken? token = some kind) (value : Int) :
    ∃ c : Constant, Word.IsSigned value → c.StandsFor kind value := by
  by_cases hvalue : Word.IsSigned value
  · obtain ⟨c, hc⟩ := exists_standsFor (Generator.Grammar.of_ofToken? h).1 hvalue
    exact ⟨c, fun _ => hc⟩
  · exact ⟨.wrap 0, fun hin => absurd hin hvalue⟩

variable {l : Literal} {limits : Limits} {t rest : List Char} {precedence : Precedence}

theorem Generator.read_settles {front : Generator.StateFront} {token : String} {kind : Scalar}
    (htoken : Scalar.ofToken? token = some kind)
    (h : ∀ g ∈ front.close (.wrap 0) ⟨[], []⟩,
      g.Spellable precedence ∧ g.Within limits.nesting.toNat) (ht : front.Spelled l token t)
    (hsize : limits.sizeError? "GeneratorParser" (String.ofList (t ++ rest)) = none) :
    l.Settles (∃ c : Constant, c.StandsFor kind l.value ∧ ∀ back : Generator.StateBack,
        (∀ g ∈ front.close (.wrap 0) back,
          g.Spellable precedence ∧ g.Within limits.nesting.toNat) → back.Spelled rest →
            Generator.read (String.ofList (t ++ rest)) precedence limits =
              .ok (front.close c back))
      (Generator.read (String.ofList (t ++ rest)) precedence limits) := by
  obtain ⟨c, hc⟩ := Constant.exists_standsFor_of_isSigned htoken l.value
  rw [← room_of_limit limits.nesting] at h ⊢
  have hread : l.Decides _ (Generator.Grammar.generators precedence { limit := limits.nesting } []
    (.ofList (t ++ rest))) := Generator.Grammar.generators_decide htoken hc h ht []
  rw [Generator.read_eq limits hsize]
  rw [← String.toList_ofList (l := t ++ rest)] at hread
  refine hread.settles problemFamilies
    (fun e he => Generator.Grammar.about_of_generators (endOf_toList _) he) ?_
  exact fun hvalue hok => ⟨c, hc hvalue, fun back hback hrest =>
    mapError_eq_ok.mpr (hok back hback hrest)⟩

end Generators

/-- Wherever the value of an enum entry or the constant of a type is read, a literal in its place
decides alone how that ends: its value is read exactly, or is out of range, unless it has too many
digits to be looked at. The same holds of the sources around them. -/
theorem read_literal_exact (l : Literal) (limits : Limits) :
    (∀ entry t cs r, Program.Grammar.isName entry = true → Program.Grammar.SpelledEntry l entry t →
      cs.dropWhile isBlank = t ++ r →
        l.Decides (fun x => Yields x ⟨entry, l.value⟩ r)
          (Program.Grammar.enumEntry (.ofList cs))) ∧
    (∀ token kind t cs r n (inner : Generator.Grammar.Inner n) nesting hle,
      Scalar.ofToken? token = some kind → Generator.SpelledConstant l token t →
      cs.dropWhile isBlank = t ++ r →
        l.Decides (fun x => ∃ c : Constant, c.StandsFor kind l.value ∧ Yields x (.constant c) r)
          (Generator.Grammar.term inner nesting (.ofList cs) hle)) ∧
    (∀ (front : Program.EntryFront) (t rest : List Char),
      (front.close 0 ⟨[], [], []⟩).Spellable → front.Spelled l t →
      limits.sizeError? "ProgramParser" (String.ofList (t ++ rest)) = none →
        l.Settles (∀ back : Program.EntryBack, (front.close 0 back).Spellable →
            back.Spelled rest →
            (∀ s ∈ back.statements, s.nesting ≤ (min limits.nesting 237).toNat) →
              Program.read (String.ofList (t ++ rest)) limits = .ok (front.close l.value back))
          (Program.read (String.ofList (t ++ rest)) limits)) ∧
    ∀ (front : Generator.StateFront) (token : String) (kind : Scalar) (t rest : List Char)
      (precedence : Precedence), Scalar.ofToken? token = some kind →
      (∀ g ∈ front.close (.wrap 0) ⟨[], []⟩,
        g.Spellable precedence ∧ g.Within limits.nesting.toNat) → front.Spelled l token t →
      limits.sizeError? "GeneratorParser" (String.ofList (t ++ rest)) = none →
        l.Settles (∃ c : Constant, c.StandsFor kind l.value ∧ ∀ back : Generator.StateBack,
            (∀ g ∈ front.close (.wrap 0) back,
              g.Spellable precedence ∧ g.Within limits.nesting.toNat) → back.Spelled rest →
                Generator.read (String.ofList (t ++ rest)) precedence limits =
                  .ok (front.close c back))
          (Generator.read (String.ofList (t ++ rest)) precedence limits) := by
  refine ⟨fun entry t cs r hentry ht hcs => Program.Grammar.enumEntry_decides hentry ht hcs,
    fun token kind t cs r n inner nesting hle htoken ht hcs => ?_,
    fun front t rest h ht hsize => Program.read_settles h ht hsize,
    fun front token kind t rest precedence htoken h ht hsize =>
      Generator.read_settles htoken h ht hsize⟩
  obtain ⟨c, hc⟩ := Constant.exists_standsFor_of_isSigned htoken l.value
  have hread : l.Decides _ (Generator.Grammar.term inner nesting (.ofList cs) hle) :=
    Generator.Grammar.term_decides htoken hc ht hcs hle
  exact hread.around (fun e he => he) fun hvalue hyields => ⟨c, hc hvalue, hyields⟩

/-- A literal with a sign and zeros in front is read in both languages; in a type without a sign it
stands for its last 64 bits. -/
theorem read_literal_exact_minus_seven :
    Program.read "enum E \x7b A = -007 , \x7d" { sourceSize := 0 } =
        .ok ⟨[.define (.enum "E" [⟨"A", -7⟩])], []⟩ ∧
      Generator.read "generator g U8\nstate u8:constant(-  007)\n" .conventional
          { sourceSize := 0 } =
        .ok [⟨.scalar .u8, "g", [.constant (.unsigned 18446744073709551609 (by decide))],
          List.cons_ne_nil _ _⟩] := by
  let l : Literal := ⟨true, ['0', '0', '7'], rfl⟩
  have hsigned : Word.IsSigned l.value := by decide
  obtain ⟨-, -, hprogram, hgenerator⟩ := read_literal_exact l { sourceSize := 0 }
  constructor
  · let front : Program.EntryFront := ⟨[], "E", [], "A"⟩
    let back : Program.EntryBack := ⟨[], [], []⟩
    have hp : (front.close 0 back).Spellable := by
      refine ⟨List.pairwise_singleton _ _, fun d hd => ?_, List.forall_mem_nil _⟩
      obtain rfl := List.mem_singleton.mp hd
      refine ⟨by decide, fun v hv => ?_⟩
      obtain rfl := List.mem_singleton.mp hv
      exact ⟨by decide, by decide⟩
    have hfront : front.Spelled l "enum E \x7b A = -007 ,".toList :=
      ⟨[], [' '], "A = -007 ,".toList, .nil blank_nil, .nil gap_space.blank,
        ⟨[' '], [' '], [' '], gap_space.blank, gap_space.blank, gap_space.blank,
          by simp [front, l, Literal.spelled]⟩, by simp [front]⟩
    have hback : back.Spelled " \x7d".toList :=
      ⟨[' '], [], [], .nil gap_space.blank, .nil blank_nil, .nil blank_nil, rfl⟩
    exact (hprogram front _ _ hp hfront (sizeError?_eq_none (Int.le_refl 0) _ _)).accepted
      (by decide) hsigned back hp hback (List.forall_mem_nil _)
  · let front : Generator.StateFront := ⟨[], .u8, "g", []⟩
    let back : Generator.StateBack := ⟨[], []⟩
    have hg : ∀ g ∈ front.close (.wrap 0) back,
        g.Spellable .conventional ∧ g.Within (Limits.nesting { sourceSize := 0 }).toNat := by
      intro g hg
      obtain rfl := List.mem_singleton.mp hg
      have hsized : Scalar.u8 ∈ Scalar.sized := by decide
      refine ⟨⟨by decide, hsized, fun e he => ?_⟩, fun e he => ?_⟩
      · obtain rfl := List.mem_singleton.mp he
        exact .constant trivial
      · obtain rfl := List.mem_singleton.mp he
        exact Nat.zero_le _
    have hblanks : Blank [' ', ' '] := List.forall_mem_cons.mpr ⟨rfl, gap_space.blank⟩
    have hfront : front.Spelled l "u8" "generator g U8\nstate u8:constant(-  007)".toList :=
      ⟨[], [], "u8:constant(-  007)".toList, .nil, .nil blank_nil,
        ⟨[' ', ' '], hblanks, by simp [l, Literal.spelled]⟩, by simp [front, Scalar.label]⟩
    have hback : back.Spelled "\n".toList :=
      ⟨['\n'], [], [], gap_newline, .nil blank_nil, .nil, rfl⟩
    obtain ⟨c, hc, hread⟩ := (hgenerator front "u8" .u8 _ _ .conventional rfl hg hfront
      (sizeError?_eq_none (Int.le_refl 0) _ _)).accepted (by decide) hsigned
    cases hc with
    | signed hkind => exact absurd hkind (by decide)
    | @unsigned n _ h hn =>
        obtain rfl : n = 18446744073709551609 := by
          have hvalue : l.value = -7 := by decide
          rw [hvalue] at hn
          omega
        exact hread back hg hback

section Long

/-- A literal of one digit again and again, once more than the given number of times. -/
def Scan.Literal.repeated (d : Char) (hd : d.isDigit = true) (n : Nat) : Literal :=
  ⟨false, List.replicate (n + 1) d, isDigits_iff.mpr ⟨by simp, fun _ hc => by
    rwa [List.eq_of_mem_replicate hc]⟩⟩

theorem Text.nine_mul_decimalValue_replicate (d : Char) (n : Nat) :
    9 * decimalValue (List.replicate n d) + (d.toNat - '0'.toNat) =
      (d.toNat - '0'.toNat) * 10 ^ n := by
  induction n with
  | zero => simp [decimalValue]
  | succ n ih =>
      rw [List.replicate_succ', decimalValue_append_singleton, Nat.pow_succ, ← Nat.mul_assoc, ← ih]
      omega

theorem Scan.Literal.isSigned_zeros (n : Nat) : Word.IsSigned (repeated '0' rfl n).value := by
  have hvalue := Text.nine_mul_decimalValue_replicate '0' (n + 1)
  have hdigit : '0'.toNat - '0'.toNat = 0 := rfl
  rw [hdigit, Nat.zero_mul] at hvalue
  change Word.IsSigned (Text.decimalValue (List.replicate (n + 1) '0') : Int)
  omega

theorem Scan.Literal.not_isSigned_nines {n : Nat} (h : 19 ≤ n) :
    ¬ Word.IsSigned (repeated '9' rfl n).value := by
  have hvalue := Text.nine_mul_decimalValue_replicate '9' (n + 1)
  have hdigit : '9'.toNat - '0'.toNat = 9 := rfl
  have hlarge : 10 ^ 20 ≤ 10 ^ (n + 1) :=
    Nat.pow_le_pow_right (by decide) (Nat.succ_le_succ h)
  rw [hdigit] at hvalue
  change ¬ Word.IsSigned (Text.decimalValue (List.replicate (n + 1) '9') : Int)
  omega

/-- An enum with the literal as the value of its only entry. -/
def Program.entrySource (l : Literal) : String :=
  String.ofList ("enum E \x7b A =".toList ++ (l.spelled [] ++ [',']) ++ ['}'])

theorem Program.read_entrySource (l : Literal) :
    l.Settles (Program.read (entrySource l) { sourceSize := 0 } =
        .ok ⟨[.define (.enum "E" [⟨"A", l.value⟩])], []⟩)
      (Program.read (entrySource l) { sourceSize := 0 }) := by
  have hp : (EntryFront.close ⟨[], "E", [], "A"⟩ 0 ⟨[], [], []⟩).Spellable := by
    refine ⟨List.pairwise_singleton _ _, fun d hd => ?_, List.forall_mem_nil _⟩
    obtain rfl := List.mem_singleton.mp hd
    refine ⟨by decide, fun v hv => ?_⟩
    obtain rfl := List.mem_singleton.mp hv
    exact ⟨by decide, by decide⟩
  have hfront : EntryFront.Spelled ⟨[], "E", [], "A"⟩ l
      ("enum E \x7b A =".toList ++ (l.spelled [] ++ [','])) :=
    ⟨[], [' '], "A =".toList ++ (l.spelled [] ++ [',']), .nil blank_nil, .nil gap_space.blank,
      ⟨[' '], [], [], gap_space.blank, blank_nil, blank_nil, by simp⟩, by simp⟩
  have hback : EntryBack.Spelled ⟨[], [], []⟩ ['}'] :=
    ⟨[], [], [], .nil blank_nil, .nil blank_nil, .nil blank_nil, rfl⟩
  exact (Program.read_settles hp hfront (sizeError?_eq_none (Int.le_refl 0) _ _)).imp
    fun hread => hread ⟨[], [], []⟩ hp hback (List.forall_mem_nil _)

/-- The value of zeros is a word, and that of nines is none; but both are refused because of the
number of their digits. -/
theorem Program.read_long_literals :
    Word.IsSigned (Literal.repeated '0' rfl 4300).value ∧
      Program.read (entrySource (.repeated '0' rfl 4300)) { sourceSize := 0 } =
        .error (.numeral (.tooLong 4301)) ∧
      ¬ Word.IsSigned (Literal.repeated '9' rfl 4300).value ∧
      Program.read (entrySource (.repeated '9' rfl 4300)) { sourceSize := 0 } =
        .error (.numeral (.tooLong 4301)) := by
  have hlength : ∀ d hd, (Literal.repeated d hd 4300).digits.length = 4301 :=
    fun d hd => List.length_replicate
  have hlong : ∀ d hd, Program.read (entrySource (.repeated d hd 4300)) { sourceSize := 0 } =
      .error (.numeral (.tooLong 4301)) := by
    intro d hd
    have hrefused := (read_entrySource (.repeated d hd 4300)).tooLong
    rw [hlength] at hrefused
    exact hrefused (by decide)
  exact ⟨Literal.isSigned_zeros 4300, hlong _ _, Literal.not_isSigned_nines (by decide), hlong _ _⟩

end Long

end FuzzFrontend
