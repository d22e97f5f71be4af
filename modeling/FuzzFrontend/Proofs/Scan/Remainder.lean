import FuzzFrontend.Proofs.Scan.Correspondence

namespace FuzzFrontend.Scan

/-- What is left is an end of the source, and no seam is ahead. -/
structure Input.EndOf (source : List Char) (s : Input) : Prop where
  plain : Plain s
  suffix : s.chars <:+ source

namespace Input.EndOf

variable {source : List Char} {s : Input}

theorem drop (hs : s.EndOf source) (n : Nat) : (s.drop n).EndOf source :=
  ⟨hs.plain, (List.drop_suffix n s.chars).trans hs.suffix⟩

theorem dropWhile (hs : s.EndOf source) (p : Char → Bool) : (s.dropWhile p).EndOf source :=
  ⟨hs.plain, (List.dropWhile_suffix p).trans hs.suffix⟩

theorem skipBlanks (hs : s.EndOf source) : s.skipBlanks.EndOf source :=
  hs.dropWhile isBlank

theorem of_literal? (hs : s.EndOf source) {text : List Char} {ht : text ≠ []}
    {p : Parsed Unit s.length} (h : literal? text ht s = some p) : p.rest.EndOf source := by
  rw [(literal?_eq_some_iff.mp h).2]
  exact hs.skipBlanks.drop _

theorem of_keyword? (hs : s.EndOf source) {text : String} {p : Parsed Unit s.length}
    (h : keyword? text s = some p) : p.rest.EndOf source := by
  rw [(keyword?_eq_some_iff.mp h).2.2.1]
  exact hs.skipBlanks.drop _

end Input.EndOf

/-- The fault is of one of the families and is about the source. It can be told on one line unless
it may be broken. Of the numerals of the source only one with too many digits is a fault, and the
source has a constant of every type that it has a word for. -/
def Fault.About (source : List Char) (families : List Problem.Category) (broken : Problem → Prop) :
    Fault → Prop
  | .problem rest what _ => rest.EndOf source ∧ what.Fits rest ∧ what.category ∈ families ∧
      (what.OnOneLine ∨ broken what)
  | .numeral fault => ∃ digits, digits <:+: source ∧ isDigits digits = true ∧
      Text.maxNumeralDigits < digits.length ∧ fault = .tooLong digits.length
  | .constant _ => False

/-- Readings of one source from the same place. -/
def Correspondence.within (source : List Char) (families : List Problem.Category)
    (broken : Problem → Prop) : Correspondence where
  input s s' := s = s' ∧ s.EndOf source
  fault e e' := e = e' ∧ e.About source families broken

variable {source : List Char} {families : List Problem.Category} {broken : Problem → Prop}
  {α : Type} {n : Nat} {s : Input}

theorem offending_prefix (hs : Plain s) : s.offending <+: s.chars := by
  rw [eq_ofList_of_plain hs]
  unfold Input.offending
  split
  · exact List.nil_prefix
  · rename_i c rest hchars
    rw [Input.chars_ofList] at hchars
    split
    · cases hfound : Input.doubleOperators.find? (·.isPrefixOf (Input.ofList s.chars).ahead) with
      | none => simp [hchars]
      | some op =>
          have hop := List.find?_some hfound
          exact List.isPrefixOf_iff_prefix.mp hop
    · rw [Input.word_ofList]
      exact word_prefix_self _

theorem offending_ne_nil (h : s.chars ≠ []) : s.offending ≠ [] := by
  have hdouble : ∀ op ∈ Input.doubleOperators, op ≠ [] := by decide
  unfold Input.offending
  split
  · rename_i hnil
    exact absurd hnil h
  · split
    · cases hfound : Input.doubleOperators.find? (·.isPrefixOf s.ahead) with
      | none => exact List.cons_ne_nil _ _
      | some op => exact hdouble op (List.mem_of_find?_eq_some hfound)
    · assumption

theorem about_unexpected (hgrammar : .grammar ∈ families) (hs : s.EndOf source)
    {wanted : List String} {hint : Option String} (hasked : Asked wanted hint) :
    (Fault.unexpected s wanted hint).About source families broken := by
  unfold Fault.unexpected
  split
  · rename_i hnil
    exact ⟨hs, ⟨nofun, nofun, fun _ => hnil⟩, hgrammar,
      Or.inl (List.forall_mem_append.mp hasked).1⟩
  · rename_i hchars
    have hne : s.offending ≠ [] := offending_ne_nil (by simp [hchars])
    have hfound : String.ofList s.offending ≠ "" := fun h => hne (by simpa using h)
    refine ⟨hs, ⟨?_, fun _ => ⟨_, rfl, hfound⟩, nofun⟩, hgrammar, Or.inl hasked⟩
    intro text h
    cases h
    rw [String.toList_ofList]
    exact offending_prefix hs.plain

namespace Correspondence

theorem within_finds {r : Option (Parsed α n)} (h : ∀ p, r = some p → p.rest.EndOf source) :
    (within source families broken).Finds Eq r r := by
  cases r with
  | none => exact .none
  | some p => exact .some ⟨rfl, rfl, h p rfl⟩

theorem within_unexpected (hgrammar : .grammar ∈ families) (hs : s.EndOf source)
    {wanted : List String} {hint : Option String} (hasked : Asked wanted hint) :
    (within source families broken).Ends Eq
      (.error (.unexpected s wanted hint) : Except Fault (Parsed α n))
      (.error (.unexpected s wanted hint) : Except Fault (Parsed α n)) :=
  .error ⟨rfl, about_unexpected hgrammar hs hasked⟩

theorem within_afterBlanks {p : Rule α}
    (hp : ∀ s, s.EndOf source → (within source families broken).Ends Eq (p s) (p s)) :
    (within source families broken).Keeps p.afterBlanks := by
  rintro s _ ⟨rfl, hs⟩
  exact (hp s.skipBlanks hs.skipBlanks).relax _ _

theorem within_kept (hgrammar : .grammar ∈ families) : (within source families broken).Kept where
  plain := by
    rintro s _ ⟨rfl, hs⟩
    exact ⟨hs.plain, hs.plain⟩
  literal? := by
    rintro text ht - s _ ⟨rfl, hs⟩
    exact within_finds fun p => hs.of_literal?
  keyword? := by
    rintro text - s _ ⟨rfl, hs⟩
    exact within_finds fun p => hs.of_keyword?
  identifier := by
    refine within_afterBlanks fun s hs => ?_
    split
    · exact within_unexpected hgrammar hs (by decide)
    · exact .ok ⟨rfl, rfl, hs.drop _⟩
  numeral := by
    refine within_afterBlanks fun s hs => ?_
    dsimp only
    split
    · exact .ok ⟨rfl, rfl, hs.drop _⟩
    · exact within_unexpected hgrammar hs (by decide)
  startsNumber := by
    rintro s _ ⟨rfl, -⟩
    rfl
  isEmpty := by
    rintro s _ ⟨rfl, -⟩
    rfl
  unexpected := by
    rintro s _ ⟨rfl, hs⟩ wanted hint hasked
    exact ⟨rfl, about_unexpected hgrammar hs.skipBlanks hasked⟩
  problem := by
    rintro s _ ⟨rfl, hs⟩ what wanted hfamily hline hfits -
    exact ⟨rfl, hs.skipBlanks, hfits, hfamily ▸ hgrammar, Or.inl hline⟩

end Correspondence

end FuzzFrontend.Scan
