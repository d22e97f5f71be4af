import FuzzFrontend.Proofs.Scan.Number

namespace FuzzFrontend.Scan

variable {α β : Type} {m n : Nat}

/-- The result is the value, and the text is left after it. -/
def Yields (r : Except Fault (Parsed α n)) (value : α) (rest : List Char) : Prop :=
  ∃ h, r = .ok ⟨value, .ofList rest, h⟩

/-- The value is found, and the text is left after it. -/
def Finds (r : Option (Parsed α n)) (value : α) (rest : List Char) : Prop :=
  ∃ h, r = some ⟨value, .ofList rest, h⟩

/-- The rule does not decline; it reads the value, and the text is left after it. -/
def Offers (r : Option (Except Fault (Parsed α n))) (value : α) (rest : List Char) : Prop :=
  ∃ h, r = some (.ok ⟨value, .ofList rest, h⟩)

namespace Yields

variable {a : α} {b : β} {s : Input} {t r : List Char}

theorem map {x : Except Fault (Parsed α n)} (h : Yields x a r) (f : α → β) :
    Yields (x.map fun p => p.map f) (f a) r := by
  obtain ⟨hlt, rfl⟩ := h
  exact ⟨hlt, rfl⟩

theorem relax {x : Except Fault (Parsed α m)} (h : Yields x a r) (hmn : m ≤ n) :
    Yields (x.map fun p => p.relax hmn) a r := by
  obtain ⟨hlt, rfl⟩ := h
  exact ⟨Nat.lt_of_lt_of_le hlt hmn, rfl⟩

theorem mapRelax {x : Except Fault (Parsed α m)} (h : Yields x a r) (f : α → β) (hmn : m ≤ n) :
    Yields (x.map fun p => (p.map f).relax hmn) (f a) r := by
  obtain ⟨hlt, rfl⟩ := h
  exact ⟨Nat.lt_of_lt_of_le hlt hmn, rfl⟩

theorem mapRule {p : Rule α} (h : Yields (p s) a r) (f : α → β) :
    Yields (Rule.map f p s) (f a) r :=
  h.map f

theorem andThen {p : Rule α} {f : α → Rule β} (hp : Yields (p s) a t)
    (hf : Yields (f a (.ofList t)) b r) : Yields (p.andThen f s) b r := by
  obtain ⟨h₁, e₁⟩ := hp
  obtain ⟨h₂, e₂⟩ := hf
  simp only [Rule.andThen, e₁, e₂]
  exact ⟨_, rfl⟩

theorem followedBy {p : Rule α} {q : Rule Unit} (hp : Yields (p s) a t)
    (hq : Yields (q (.ofList t)) () r) : Yields (p.followedBy q s) a r :=
  hp.andThen (hq.mapRule fun _ => a)

theorem afterBlanks {p : Rule α} {cs : List Char}
    (h : Yields (p (.ofList (cs.dropWhile isBlank))) a r) :
    Yields (p.afterBlanks (.ofList cs)) a r :=
  h.relax (Input.ofList cs).length_skipBlanks_le

theorem onKeyword {text : String} {p q : Rule α} (hk : Finds (keyword? text s) () t)
    (hp : Yields (p (.ofList t)) a r) : Yields (Rule.onKeyword text p q s) a r := by
  obtain ⟨h, e⟩ := hk
  simp only [Rule.onKeyword, e]
  exact hp.relax (Nat.le_of_lt h)

theorem onOtherKeyword {text : String} {p q : Rule α} (hk : keyword? text s = none)
    (hq : Yields (q s) a r) : Yields (Rule.onKeyword text p q s) a r := by
  simpa only [Rule.onKeyword, hk] using hq

theorem ifKeyword {text : String} {p : Rule α} (hk : Finds (keyword? text s) () t)
    (hp : Yields (p (.ofList t)) a r) : Offers (Rule.ifKeyword text p s) a r := by
  obtain ⟨h, e⟩ := hk
  obtain ⟨hlt, hp⟩ := hp
  simp only [Rule.ifKeyword, e, Option.map_some, hp]
  exact ⟨_, rfl⟩

end Yields

section Scanners

variable {cs r : List Char}

theorem literal?_finds {text : List Char} (ht : text ≠ [])
    (hcs : cs.dropWhile isBlank = text ++ r) : Finds (literal? text ht (.ofList cs)) () r := by
  refine ⟨length_lt_of_dropWhile hcs ht, ?_⟩
  rw [literal?_eq_some_iff]
  simp [hcs]

theorem literal?_eq_none {text : List Char} {ht : text ≠ []}
    (h : ¬ text <+: cs.dropWhile isBlank) : literal? text ht (.ofList cs) = none := by
  rw [Option.eq_none_iff_forall_ne_some]
  intro p hp
  exact h (by simpa using (literal?_eq_some_iff.mp hp).1)

theorem keyword?_finds {text : String} (ht : text.toList ≠ [])
    (hcs : cs.dropWhile isBlank = text.toList ++ r) (hr : r.head?.any isWordChar = false) :
    Finds (keyword? text (.ofList cs)) () r := by
  refine ⟨length_lt_of_dropWhile hcs ht, ?_⟩
  rw [keyword?_eq_some_iff]
  simp [hcs, ht, runsOnAsWord, hr]

theorem keyword?_finds_marked {text : String} (ht : text.toList ≠ [])
    (hend : endsInWord text.toList = false) (hcs : cs.dropWhile isBlank = text.toList ++ r) :
    Finds (keyword? text (.ofList cs)) () r := by
  refine ⟨length_lt_of_dropWhile hcs ht, ?_⟩
  rw [keyword?_eq_some_iff]
  simp [hcs, ht, hend]

theorem keyword?_eq_none {text : String} (h : ¬ text.toList <+: cs.dropWhile isBlank) :
    keyword? text (.ofList cs) = none := by
  rw [Option.eq_none_iff_forall_ne_some]
  intro p hp
  exact h (by simpa using (keyword?_eq_some_iff.mp hp).2.1)

theorem keyword?_eq_none_of_head? {text : String}
    (h : text.toList.head? ≠ (cs.dropWhile isBlank).head?) :
    keyword? text (.ofList cs) = none := by
  cases ht : text.toList with
  | nil => simp [keyword?, ht]
  | cons c k =>
      apply keyword?_eq_none
      rintro ⟨tail, htail⟩
      apply h
      rw [← htail, ht]
      rfl

theorem keyword?_eq_none_of_not_prefix {text word : String} {c : Char} (hc : c ∉ text.toList)
    (h : text.toList.isPrefixOf word.toList = false)
    (hcs : cs.dropWhile isBlank = word.toList ++ c :: r) : keyword? text (.ofList cs) = none := by
  apply keyword?_eq_none
  intro hprefix
  rw [hcs] at hprefix
  rw [List.isPrefixOf_iff_prefix.mpr (prefix_of_prefix_append hc hprefix)] at h
  exact absurd h Bool.false_ne_true.symm

theorem keyword?_eq_none_of_word {text : String} (htext : isWord text.toList = true)
    (hcs : word (cs.dropWhile isBlank) ≠ text.toList) : keyword? text (.ofList cs) = none := by
  rw [Option.eq_none_iff_forall_ne_some]
  intro p hp
  obtain ⟨hne, hprefix, hrest, hrunsOn⟩ := keyword?_eq_some_iff.mp hp
  have hends : endsInWord text.toList = true := by
    rw [endsInWord, List.getLast?_eq_some_getLast hne]
    exact isWordChar_of_isWord htext _ (List.getLast_mem hne)
  refine hcs ((word_eq_iff htext).mpr ⟨by simpa using hprefix, ?_⟩)
  simpa [hends, runsOnAsWord, hrest] using hrunsOn

theorem keyword_yields {text : String} {hint : Option String} (ht : text.toList ≠ [])
    (hcs : cs.dropWhile isBlank = text.toList ++ r) (hr : r.head?.any isWordChar = false) :
    Yields (keyword text hint (.ofList cs)) () r := by
  obtain ⟨h, e⟩ := keyword?_finds ht hcs hr
  exact ⟨h, by rw [keyword, e]⟩

theorem symbol?_finds {c : Char} (hcs : cs.dropWhile isBlank = c :: r) :
    Finds (symbol? c (.ofList cs)) () r :=
  literal?_finds _ hcs

theorem symbol?_eq_none {c : Char} (h : (cs.dropWhile isBlank).head? ≠ some c) :
    symbol? c (.ofList cs) = none := by
  apply literal?_eq_none
  rintro ⟨t, ht⟩
  exact h (by rw [← ht]; rfl)

theorem symbol_yields {c : Char} {hint : Option String} (hcs : cs.dropWhile isBlank = c :: r) :
    Yields (symbol c hint (.ofList cs)) () r := by
  obtain ⟨h, e⟩ := symbol?_finds hcs
  exact ⟨h, by rw [symbol, e]⟩

theorem identifier_yields {w : String} (hw : isWord w.toList = true)
    (hcs : cs.dropWhile isBlank = w.toList ++ r) (hr : r.head?.any isWordChar = false) :
    Yields (identifier (.ofList cs)) w r := by
  apply Yields.afterBlanks
  rw [hcs]
  have hword : word (w.toList ++ r) = w.toList := word_append hw hr
  have hne : w.toList ≠ [] := ne_nil_of_isWord hw
  have hlt : r.length < (w.toList ++ r).length := by
    have := List.length_pos_iff.mpr hne
    rw [List.length_append]
    omega
  refine ⟨hlt, ?_⟩
  rw [dif_neg (by simpa [hword] using hne)]
  simp [Parsed.taking, hword]

theorem numeral_yields_number (h : startsNumber (cs.dropWhile isBlank) = true) :
    Yields (numeral (.ofList cs)) (String.ofList (number (cs.dropWhile isBlank)))
      ((cs.dropWhile isBlank).drop (number (cs.dropWhile isBlank)).length) := by
  apply Yields.afterBlanks
  have hspelled := List.prefix_iff_eq_take.mp (number_prefix_self (cs.dropWhile isBlank))
  rw [dif_pos (by simpa using h)]
  simp only [Parsed.taking, Input.chars_ofList, Input.spelled_ofList, Input.drop_ofList, ← hspelled]
  exact ⟨_, rfl⟩

theorem numeral_eq_error (h : startsNumber (cs.dropWhile isBlank) = false) :
    numeral (.ofList cs) =
      .error (.unexpected (.ofList (cs.dropWhile isBlank)) ["number"]) := by
  simp [numeral, Rule.afterBlanks, h, Except.map]

theorem numeral_yields {w : String} (hw : isInteger w.toList = true ∨ isDecimal w.toList = true)
    (hcs : cs.dropWhile isBlank = w.toList ++ r) (hr : endsNumber r) :
    Yields (numeral (.ofList cs)) w r := by
  obtain ⟨hstart, hnumber⟩ := number_append hw hr
  rw [← hcs] at hstart
  have hread := numeral_yields_number hstart
  rwa [hcs, hnumber, List.drop_left, String.ofList_toList] at hread

end Scanners

end FuzzFrontend.Scan
