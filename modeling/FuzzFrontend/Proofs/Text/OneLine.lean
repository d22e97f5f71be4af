import FuzzFrontend.Proofs.Scan.Number
import FuzzFrontend.Proofs.Text.Lines
import FuzzFrontend.Text.JsonString
import FuzzFrontend.Text.Slice

namespace FuzzFrontend

/-- The text has no line feed and no carriage return. -/
def OneLine (text : List Char) : Prop :=
  ∀ c ∈ text, c ≠ '\n' ∧ c ≠ '\r'

instance (text : List Char) : Decidable (OneLine text) :=
  decidable_of_iff (text.all fun c => c != '\n' && c != '\r') (by simp [OneLine])

section Parts

variable {s t : List Char} {c : Char}

theorem oneLine_nil : OneLine [] :=
  List.forall_mem_nil _

theorem oneLine_cons : OneLine (c :: t) ↔ (c ≠ '\n' ∧ c ≠ '\r') ∧ OneLine t :=
  List.forall_mem_cons

theorem oneLine_append : OneLine (s ++ t) ↔ OneLine s ∧ OneLine t :=
  List.forall_mem_append

theorem oneLine_toList_append {s t : String} :
    OneLine (s ++ t).toList ↔ OneLine s.toList ∧ OneLine t.toList := by
  rw [String.toList_append, oneLine_append]

theorem oneLine_around {before text after : String} (hbefore : OneLine before.toList)
    (h : OneLine text.toList) (hafter : OneLine after.toList) :
    OneLine (before ++ text ++ after).toList :=
  oneLine_toList_append.mpr ⟨oneLine_toList_append.mpr ⟨hbefore, h⟩, hafter⟩

theorem oneLine_ofList (h : (t.all fun c => c != '\n' && c != '\r') = true) :
    OneLine (String.ofList t).toList := by
  rw [String.toList_ofList]
  simpa [OneLine] using h

theorem OneLine.newline_not_mem (h : OneLine t) : '\n' ∉ t :=
  fun hmem => (h _ hmem).1 rfl

theorem OneLine.subset (h : OneLine t) (hs : s ⊆ t) : OneLine s :=
  fun c hc => h c (hs hc)

theorem OneLine.intercalate {separator : List Char} (hseparator : OneLine separator)
    {parts : List (List Char)} (h : ∀ part ∈ parts, OneLine part) :
    OneLine (separator.intercalate parts) := by
  intro c hc
  by_cases hmem : c ∈ separator
  · exact hseparator c hmem
  · obtain ⟨part, hpart, hcpart⟩ := (mem_intercalate hmem).mp hc
    exact h part hpart c hcpart

theorem oneLine_intercalate {separator : String} (hseparator : OneLine separator.toList)
    {texts : List String} (h : ∀ text ∈ texts, OneLine text.toList) :
    OneLine (separator.intercalate texts).toList := by
  rw [String.toList_intercalate]
  exact hseparator.intercalate (List.forall_mem_map.mpr h)

theorem OneLine.slice (h : OneLine t) (start stop : Int) : OneLine (Text.slice t start stop) :=
  h.subset fun _ hc => List.mem_of_mem_take (List.mem_of_mem_drop hc)

theorem oneLine_of_solid (h : t.any Scan.isBlank = false) : OneLine t := by
  intro c hc
  have hblank : Scan.isBlank c = false := by simpa using List.any_eq_false.mp h c hc
  constructor <;> rintro rfl <;> exact absurd hblank (by decide)

theorem oneLine_of_isWordChar (h : ∀ c ∈ t, Scan.isWordChar c = true) : OneLine t :=
  oneLine_of_solid (List.any_eq_false.mpr fun c hc => by
    simp [Scan.isBlank_of_isWordChar (h c hc)])

theorem oneLine_of_isWord (h : Scan.isWord t = true) : OneLine t :=
  oneLine_of_isWordChar (Scan.isWordChar_of_isWord h)

theorem oneLine_of_isInteger (h : Scan.isInteger t = true) : OneLine t := by
  have hdigits : OneLine (Scan.dropSign t) := oneLine_of_isWordChar fun c hc =>
    Scan.isWordChar_of_isDigit ((Scan.isDigits_iff.mp h).2 c hc)
  unfold Scan.dropSign at hdigits
  split at hdigits
  · exact oneLine_cons.mpr ⟨by decide, hdigits⟩
  · exact hdigits

end Parts

namespace Text

theorem oneLine_decimalDigits (n : Nat) : OneLine (decimalDigits n) :=
  oneLine_of_isWordChar fun c hc =>
    Scan.isWordChar_of_isDigit (isDigit_of_mem_decimalDigits n c hc)

theorem oneLine_natural (n : Nat) : OneLine (natural n).toList := by
  rw [natural, String.toList_ofList]
  exact oneLine_decimalDigits n

theorem oneLine_integer (n : Int) : OneLine (integer n).toList := by
  cases n with
  | ofNat n => exact oneLine_natural n
  | negSucc n => exact oneLine_toList_append.mpr ⟨by decide, oneLine_natural (n + 1)⟩

theorem oneLine_hexDigits (width n : Nat) : OneLine (hexDigits width n) := by
  induction width generalizing n with
  | zero => exact oneLine_nil
  | succ width ih =>
      have hdigit : ∀ d < 16, hexDigit d ≠ '\n' ∧ hexDigit d ≠ '\r' := by decide
      exact oneLine_append.mpr ⟨ih _, oneLine_cons.mpr
        ⟨hdigit _ (Nat.mod_lt n (by decide)), oneLine_nil⟩⟩

theorem oneLine_escape {e : Char} (he : e ≠ '\n' ∧ e ≠ '\r') {digits : List Char}
    (hdigits : OneLine digits) : OneLine ('\\' :: e :: digits) :=
  oneLine_cons.mpr ⟨by decide, oneLine_cons.mpr ⟨he, hdigits⟩⟩

theorem oneLine_codePointEscape (n : Nat) : OneLine (codePointEscape n) := by
  unfold codePointEscape
  split_ifs <;> exact oneLine_escape (by decide) (oneLine_hexDigits _ n)

theorem oneLine_quotedChar {mark : Char} (hmark : mark ≠ '\n' ∧ mark ≠ '\r') (c : Char) :
    OneLine (quotedChar mark c) := by
  unfold quotedChar
  split_ifs with hplain _ hnewline hreturn
  · rcases hplain with rfl | rfl
    · exact oneLine_escape hmark oneLine_nil
    · exact oneLine_escape (by decide) oneLine_nil
  · exact oneLine_escape (by decide) oneLine_nil
  · exact oneLine_escape (by decide) oneLine_nil
  · exact oneLine_escape (by decide) oneLine_nil
  · exact oneLine_cons.mpr ⟨⟨hnewline, hreturn⟩, oneLine_nil⟩
  · exact oneLine_codePointEscape _

theorem oneLine_quoted (text : String) : OneLine (quoted text).toList := by
  have hmark : quoteMark text.toList ≠ '\n' ∧ quoteMark text.toList ≠ '\r' := by
    unfold quoteMark
    split <;> decide
  rw [quoted, String.toList_ofList, quotedChars, List.cons_append]
  refine oneLine_cons.mpr ⟨hmark, oneLine_append.mpr ⟨fun c hc => ?_, oneLine_cons.mpr
    ⟨hmark, oneLine_nil⟩⟩⟩
  obtain ⟨a, -, hca⟩ := List.mem_flatMap.mp hc
  exact oneLine_quotedChar hmark a c hca

theorem oneLine_jsonChar (c : Char) : OneLine (jsonChar c) := by
  unfold jsonChar
  split_ifs with _ _ hnewline hreturn
  case neg => exact oneLine_cons.mpr ⟨⟨hnewline, hreturn⟩, oneLine_nil⟩
  iterate 7 exact oneLine_escape (by decide) oneLine_nil
  exact oneLine_escape (by decide) (oneLine_hexDigits 4 _)

theorem oneLine_jsonString (text : String) : OneLine (jsonString text).toList := by
  rw [jsonString, String.toList_ofList, List.cons_append]
  refine oneLine_cons.mpr ⟨by decide, oneLine_append.mpr ⟨fun c hc => ?_, oneLine_cons.mpr
    ⟨by decide, oneLine_nil⟩⟩⟩
  obtain ⟨a, -, hca⟩ := List.mem_flatMap.mp hc
  exact oneLine_jsonChar a c hca

end Text

end FuzzFrontend
