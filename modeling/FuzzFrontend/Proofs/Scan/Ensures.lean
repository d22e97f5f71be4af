import FuzzFrontend.Proofs.Scan.Number
import FuzzFrontend.Scan.Rule

namespace FuzzFrontend.Scan

variable {α β : Type} {m n : Nat}

/-- No seam is ahead. -/
abbrev Plain (s : Input) : Prop :=
  s.seamAt = none

/-- If there is a value, the condition holds of it, and no seam is ahead. -/
def Meets (r : Except Fault (Parsed α n)) (P : α → Prop) : Prop :=
  ∀ p, r = .ok p → P p.value ∧ Plain p.rest

/-- Every value that the rule reads meets the condition. -/
def Ensures (p : Rule α) (P : α → Prop) : Prop :=
  ∀ s, Plain s → Meets (p s) P

theorem eq_ofList_of_plain {s : Input} (h : Plain s) : s = .ofList s.chars := by
  obtain ⟨chars, seam⟩ := s
  obtain rfl : seam = none := h
  rfl

section Plain

variable {s : Input}

theorem ahead_of_plain (hs : Plain s) : s.ahead = s.chars := by
  rw [eq_ofList_of_plain hs]
  exact Input.ahead_ofList _

theorem spelled_of_plain (hs : Plain s) (n : Nat) : s.spelled n = s.chars.take n := by
  rw [eq_ofList_of_plain hs]
  exact Input.spelled_ofList _ _

theorem spelledWhile_of_plain (hs : Plain s) (p : Char → Bool) :
    s.spelledWhile p = s.chars.takeWhile p := by
  rw [eq_ofList_of_plain hs]
  exact Input.spelledWhile_ofList _ _

theorem word_of_plain (hs : Plain s) : s.word = word s.chars := by
  rw [eq_ofList_of_plain hs]
  exact Input.word_ofList _

end Plain

namespace Meets

variable {P : α → Prop} {Q : β → Prop} {s : Input}

theorem error {e : Fault} : Meets (.error e : Except Fault (Parsed α n)) P := by
  intro p hp
  cases hp

theorem ok {p : Parsed α n} (hP : P p.value) (hs : Plain p.rest) : Meets (.ok p) P := by
  intro q hq
  cases hq
  exact ⟨hP, hs⟩

theorem imp {r : Except Fault (Parsed α n)} {P' : α → Prop} (h : Meets r P)
    (hP : ∀ a, P a → P' a) : Meets r P' := by
  intro p hp
  obtain ⟨hvalue, hs⟩ := h p hp
  exact ⟨hP _ hvalue, hs⟩

theorem map {r : Except Fault (Parsed α n)} {f : α → β} (h : Meets r fun a => Q (f a)) :
    Meets (r.map fun p => p.map f) Q := by
  cases r with
  | error e => exact error
  | ok p =>
      obtain ⟨hvalue, hs⟩ := h p rfl
      exact ok hvalue hs

theorem relax {r : Except Fault (Parsed α m)} (h : Meets r P) (hmn : m ≤ n) :
    Meets (r.map fun p => p.relax hmn) P := by
  cases r with
  | error e => exact error
  | ok p =>
      obtain ⟨hvalue, hs⟩ := h p rfl
      exact ok hvalue hs

theorem mapRelax {r : Except Fault (Parsed α m)} {f : α → β} (h : Meets r fun a => Q (f a))
    (hmn : m ≤ n) : Meets (r.map fun p => (p.map f).relax hmn) Q := by
  cases r with
  | error e => exact error
  | ok p =>
      obtain ⟨hvalue, hs⟩ := h p rfl
      exact ok hvalue hs

end Meets

namespace Ensures

variable {P : α → Prop} {Q : β → Prop}

theorem imp {p : Rule α} {P' : α → Prop} (h : Ensures p P) (hP : ∀ a, P a → P' a) :
    Ensures p P' :=
  fun s hs => (h s hs).imp hP

theorem map {p : Rule α} {f : α → β} (h : Ensures p fun a => Q (f a)) : Ensures (p.map f) Q :=
  fun s hs => (h s hs).map

theorem andThen {p : Rule α} {f : α → Rule β} (hp : Ensures p P)
    (hf : ∀ a, P a → Ensures (f a) Q) : Ensures (p.andThen f) Q := by
  intro s hs q hq
  unfold Rule.andThen at hq
  split at hq
  · cases hq
  · rename_i a ha
    obtain ⟨hvalue, hrest⟩ := hp s hs a ha
    split at hq
    · cases hq
    · rename_i b hb
      cases hq
      exact hf a.value hvalue a.rest hrest b hb

theorem followedBy {p : Rule α} {q : Rule Unit} (hp : Ensures p P) (hq : Ensures q fun _ => True) :
    Ensures (p.followedBy q) P :=
  hp.andThen fun _ ha => (hq.imp fun _ _ => ha).map

theorem afterBlanks {p : Rule α} (h : Ensures p P) : Ensures p.afterBlanks P := by
  intro s hs
  exact (h s.skipBlanks hs).relax s.length_skipBlanks_le

end Ensures

section Scanners

variable {s : Input}

theorem plain_of_literal? {text : List Char} {ht : text ≠ []} {p : Parsed Unit s.length}
    (hs : Plain s) (h : literal? text ht s = some p) : Plain p.rest := by
  rw [(literal?_eq_some_iff.mp h).2]
  exact hs

theorem plain_of_keyword? {text : String} {p : Parsed Unit s.length} (hs : Plain s)
    (h : keyword? text s = some p) : Plain p.rest := by
  rw [(keyword?_eq_some_iff.mp h).2.2.1]
  exact hs

theorem plain_of_symbol? {c : Char} {p : Parsed Unit s.length} (hs : Plain s)
    (h : symbol? c s = some p) : Plain p.rest :=
  plain_of_literal? hs h

theorem keyword_ensures (text : String) (hint : Option String) :
    Ensures (keyword text hint) fun _ => True := by
  intro s hs
  unfold keyword
  split
  · rename_i p hp
    exact .ok trivial (plain_of_keyword? hs hp)
  · exact .error

theorem symbol_ensures (c : Char) (hint : Option String) :
    Ensures (symbol c hint) fun _ => True := by
  intro s hs
  unfold symbol
  split
  · rename_i p hp
    exact .ok trivial (plain_of_symbol? hs hp)
  · exact .error

theorem Ensures.onKeyword {text : String} {p q : Rule α} {P : α → Prop} (hp : Ensures p P)
    (hq : Ensures q P) : Ensures (Rule.onKeyword text p q) P := by
  intro s hs
  unfold Rule.onKeyword
  split
  · rename_i k hk
    exact (hp k.rest (plain_of_keyword? hs hk)).relax _
  · exact hq s hs

theorem ifKeyword_meets {P : α → Prop} {text : String} {p : Rule α} {s : Input}
    (hp : Ensures p P) (hs : Plain s) {r : Except Fault (Parsed α s.length)}
    (h : Rule.ifKeyword text p s = some r) : Meets r P := by
  obtain ⟨k, hk, rfl⟩ := Option.map_eq_some_iff.mp h
  exact (hp k.rest (plain_of_keyword? hs hk)).relax _

theorem identifier_ensures : Ensures identifier fun w => isWord w.toList = true := by
  apply Ensures.afterBlanks
  intro s hs
  rw [eq_ofList_of_plain hs]
  dsimp only
  split
  · exact .error
  · rename_i hne
    rw [Input.word_ofList] at hne
    refine .ok ?_ rfl
    simpa [Parsed.taking] using isWord_word hne

theorem numeral_ensures :
    Ensures numeral fun w => isInteger w.toList = true ∨ isDecimal w.toList = true := by
  apply Ensures.afterBlanks
  intro s hs
  rw [eq_ofList_of_plain hs]
  dsimp only
  split
  · rename_i h
    refine .ok ?_ rfl
    have hspelled := List.prefix_iff_eq_take.mp (number_prefix_self s.chars)
    simpa [Parsed.taking, ← hspelled] using isNumber_number h
  · exact .error

end Scanners

section Repetitions

variable {P : α → Prop}

theorem itemsUntilBrace_meets {item : (s : Input) → s.length < n → Except Fault (Parsed α s.length)}
    (hitem : ∀ s h, Plain s → Meets (item s h) P) (found : List α) (hfound : ∀ x ∈ found, P x)
    (s : Input) (hs : Plain s) (h : s.length < n) :
    Meets (itemsUntilBrace item found s h) fun xs => ∀ x ∈ xs, P x := by
  fun_induction itemsUntilBrace item found s h with
  | case1 found s h p hp => exact .ok (by simpa using hfound) (plain_of_symbol? hs hp)
  | case2 found s h hbrace e he => exact .error
  | case3 found s h hbrace p hp ih =>
      obtain ⟨hvalue, hrest⟩ := hitem s h hs p hp
      exact ih (List.forall_mem_cons.mpr ⟨hvalue, hfound⟩) hrest

theorem braced_ensures {item : Rule α} (h : Ensures item P) :
    Ensures (braced item) fun xs => ∀ x ∈ xs, P x := by
  intro s hs
  unfold braced
  split
  · exact .error
  · rename_i p hp
    exact itemsUntilBrace_meets (fun s _ hs => h s hs) [] (by simp) p.rest
      (symbol_ensures '{' none s hs p hp).2 p.shorter

theorem many_meets {item : OptionalRule α}
    (hitem : ∀ s, Plain s → ∀ r, item s = some r → Meets r P) (found : List α)
    (hfound : ∀ x ∈ found, P x) (s : Input) (hs : Plain s) (h : s.length < n) :
    Meets (many item found s h) fun xs => ∀ x ∈ xs, P x := by
  fun_induction many item found s h with
  | case1 found s h hnone => exact .ok (by simpa using hfound) hs
  | case2 found s h e he => exact .error
  | case3 found s h p hp ih =>
      obtain ⟨hvalue, hrest⟩ := hitem s hs _ hp p rfl
      exact ih (List.forall_mem_cons.mpr ⟨hvalue, hfound⟩) hrest

end Repetitions

end FuzzFrontend.Scan
