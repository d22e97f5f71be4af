import Mathlib.Data.Option.Defs
import Mathlib.Data.List.Forall2
import FuzzFrontend.Proofs.Diagnostic.Wording
import FuzzFrontend.Proofs.Scan.Ensures
import FuzzFrontend.Scan.Integer
import FuzzFrontend.Scan.Nesting

/-!
Two readings side by side. A correspondence says which inputs and which faults of two readings
belong together. If the scanners keep it, then so does every rule that is made of them: two readings
that start on corresponding inputs both fail, with corresponding faults, or both go on, with related
values and on corresponding inputs. A correspondence of a reading with itself is an invariant of
the reading.
-/
namespace FuzzFrontend

/-- Two outcomes agree: both are errors that correspond, or both are values that are related. -/
inductive Agree {ε α β : Type} (E : ε → ε → Prop) (R : α → β → Prop) :
    Except ε α → Except ε β → Prop
  | error {e e' : ε} (h : E e e') : Agree E R (.error e) (.error e')
  | ok {a : α} {b : β} (h : R a b) : Agree E R (.ok a) (.ok b)

namespace Agree

variable {ε δ α β α' β' : Type} {E : ε → ε → Prop} {R : α → β → Prop} {R' : α' → β' → Prop}
  {x : Except ε α} {y : Except ε β}

theorem cases (h : Agree E R x y) :
    (∃ e e', x = .error e ∧ y = .error e' ∧ E e e') ∨ ∃ a b, x = .ok a ∧ y = .ok b ∧ R a b := by
  cases h with
  | error h => exact Or.inl ⟨_, _, rfl, rfl, h⟩
  | ok h => exact Or.inr ⟨_, _, rfl, rfl, h⟩

theorem of_error {e : ε} (h : Agree E R x y) (hx : x = .error e) :
    ∃ e', y = .error e' ∧ E e e' := by
  subst hx
  cases h with
  | error h => exact ⟨_, rfl, h⟩

theorem of_ok {a : α} (h : Agree E R x y) (hx : x = .ok a) : ∃ b, y = .ok b ∧ R a b := by
  subst hx
  cases h with
  | ok h => exact ⟨_, rfl, h⟩

theorem imp {S : α → β → Prop} (h : Agree E R x y) (hR : ∀ a b, R a b → S a b) :
    Agree E S x y := by
  cases h with
  | error h => exact .error h
  | ok h => exact .ok (hR _ _ h)

theorem map {f : α → α'} {g : β → β'} (h : Agree E R x y) (hfg : ∀ a b, R a b → R' (f a) (g b)) :
    Agree E R' (x.map f) (y.map g) := by
  cases h with
  | error h => exact .error h
  | ok h => exact .ok (hfg _ _ h)

theorem bind {f : α → Except ε α'} {g : β → Except ε β'} (h : Agree E R x y)
    (hfg : ∀ a b, R a b → Agree E R' (f a) (g b)) : Agree E R' (x >>= f) (y >>= g) := by
  cases h with
  | error h => exact .error h
  | ok h => exact hfg _ _ h

theorem mapError {D : δ → δ → Prop} {f g : ε → δ} (h : Agree E R x y)
    (hfg : ∀ e e', E e e' → D (f e) (g e')) : Agree D R (x.mapError f) (y.mapError g) := by
  cases h with
  | error h => exact .error (hfg _ _ h)
  | ok h => exact .ok h

end Agree

end FuzzFrontend

namespace Option.Rel

variable {α β : Type} {r : α → β → Prop} {x : Option α} {y : Option β}

theorem cases (h : Option.Rel r x y) :
    (x = .none ∧ y = .none) ∨ ∃ a b, x = .some a ∧ y = .some b ∧ r a b := by
  cases h with
  | none => exact Or.inl ⟨rfl, rfl⟩
  | some h => exact Or.inr ⟨_, _, rfl, rfl, h⟩

theorem isSome_eq (h : Option.Rel r x y) : x.isSome = y.isSome := by
  cases h with
  | none => rfl
  | some h => rfl

theorem of_none (h : Option.Rel r x y) (hx : x = .none) : y = .none := by
  subst hx
  cases h with
  | none => rfl

theorem of_some {a : α} (h : Option.Rel r x y) (hx : x = .some a) : ∃ b, y = .some b ∧ r a b := by
  subst hx
  cases h with
  | some h => exact ⟨_, rfl, h⟩

theorem or {x' : Option α} {y' : Option β} (h : Option.Rel r x y) (h' : Option.Rel r x' y') :
    Option.Rel r (x.or x') (y.or y') := by
  cases h with
  | none => exact h'
  | some h => exact .some h

theorem filter {p : α → Bool} {q : β → Bool} (h : Option.Rel r x y)
    (hpq : ∀ a b, r a b → p a = q b) : Option.Rel r (x.filter p) (y.filter q) := by
  cases h with
  | none => exact .none
  | @some a b h =>
      rw [Option.filter_some, Option.filter_some, ← hpq a b h]
      split
      · exact .some h
      · exact .none

theorem imp {r' : α → β → Prop} (h : Option.Rel r x y) (hr : ∀ a b, r a b → r' a b) :
    Option.Rel r' x y := by
  cases h with
  | none => exact .none
  | some h => exact .some (hr _ _ h)

theorem findSome? {γ : Type} {f : γ → Option α} {g : γ → Option β} {xs : List γ}
    (h : ∀ c ∈ xs, Option.Rel r (f c) (g c)) :
    Option.Rel r (xs.findSome? f) (xs.findSome? g) := by
  induction xs with
  | nil => exact .none
  | cons c xs ih =>
      rw [List.findSome?_cons, List.findSome?_cons]
      rcases (h c List.mem_cons_self).cases with ⟨hf, hg⟩ | ⟨a, b, hf, hg, hab⟩
      · simp only [hf, hg]
        exact ih fun d hd => h d (List.mem_cons_of_mem _ hd)
      · simp only [hf, hg]
        exact .some hab

theorem find?_map {γ : Type} {p q : γ → Bool} {f : γ → α} {g : γ → β} {xs : List γ}
    (hpq : ∀ c ∈ xs, p c = q c) (h : ∀ c ∈ xs, p c = true → r (f c) (g c)) :
    Option.Rel r ((xs.find? p).map f) ((xs.find? q).map g) := by
  induction xs with
  | nil => exact .none
  | cons c xs ih =>
      rw [List.find?_cons, List.find?_cons, ← hpq c List.mem_cons_self]
      cases hp : p c with
      | true => exact .some (h c List.mem_cons_self hp)
      | false =>
          exact ih (fun d hd => hpq d (List.mem_cons_of_mem _ hd))
            fun d hd => h d (List.mem_cons_of_mem _ hd)

end Option.Rel

namespace FuzzFrontend

/-- A problem may be reported at the head of an input: the text that it is about is there, an
unwanted lexeme is not empty, and nothing is left where the text is said to have ended. -/
structure Problem.Fits (what : Problem) (s : Scan.Input) : Prop where
  found : ∀ text ∈ what.found, text.toList <+: s.chars
  token : what.code = .unexpectedToken → ∃ text ∈ what.found, text ≠ ""
  atEnd : what.code = .unexpectedEnd → s.chars = []

namespace Problem.Fits

variable {what : Problem} {s : Scan.Input}

theorem of_found {text : String} (htoken : what.code ≠ .unexpectedToken)
    (hend : what.code ≠ .unexpectedEnd) (hfound : what.found = some text)
    (htext : text.toList <+: s.chars) : what.Fits s := by
  refine ⟨?_, fun h => absurd h htoken, fun h => absurd h hend⟩
  intro found h
  rw [hfound] at h
  cases h
  exact htext

theorem of_no_text (htoken : what.code ≠ .unexpectedToken) (hend : what.code ≠ .unexpectedEnd)
    (hfound : what.found = none) : what.Fits s := by
  refine ⟨?_, fun h => absurd h htoken, fun h => absurd h hend⟩
  rw [hfound]
  exact nofun

theorem emptyGenerator (name : String) : (Problem.emptyGenerator name).Fits s :=
  .of_no_text nofun nofun rfl

theorem nestingTooDeep (limit : Int) : (Problem.nestingTooDeep limit).Fits s :=
  .of_no_text nofun nofun rfl

end Problem.Fits

namespace Scan

section Heads

variable {s : Input}

theorem value_prefix_of_identifier (hs : Plain s) {p : Parsed String s.length}
    (h : identifier s = .ok p) : p.value.toList <+: s.skipBlanks.chars := by
  have hplain : Plain s.skipBlanks := hs
  simp only [identifier, Rule.afterBlanks] at h
  split at h
  · cases h
  · cases h
    change (String.ofList s.skipBlanks.word).toList <+: _
    rw [String.toList_ofList, word_of_plain hplain]
    exact word_prefix_self _

theorem value_prefix_of_numeral (hs : Plain s) {p : Parsed String s.length}
    (h : numeral s = .ok p) : p.value.toList <+: s.skipBlanks.chars := by
  have hplain : Plain s.skipBlanks := hs
  simp only [numeral, Rule.afterBlanks] at h
  split at h
  · cases h
    change (String.ofList (s.skipBlanks.spelled _)).toList <+: _
    rw [String.toList_ofList, spelled_of_plain hplain]
    exact List.take_prefix _ _
  · cases h

theorem word_eq_nil_iff_identifier : s.skipBlanks.word = [] ↔ ∃ e, identifier s = .error e := by
  simp only [identifier, Rule.afterBlanks]
  split
  · rename_i h
    simp [h, Except.map]
  · rename_i h
    simp [h, Except.map]

theorem isSome_literal? {text : List Char} (ht : text ≠ []) :
    (literal? text ht s).isSome = text.isPrefixOf s.skipBlanks.ahead := by
  simp only [literal?, Input.after?]
  split
  · rename_i h
    split at h
    · cases h
    · rename_i hp
      simp [hp]
  · rename_i h
    split at h
    · rename_i hp
      simp [hp]
    · cases h

theorem prefix_of_keyword? {text : String} {p : Parsed Unit s.length}
    (h : keyword? text s = some p) : text.toList <+: s.skipBlanks.chars :=
  (keyword?_eq_some_iff.mp h).2.1.trans s.skipBlanks.ahead_prefix_chars

end Heads

theorem dropSign_suffix (w : List Char) : dropSign w <:+ w := by
  unfold dropSign
  split
  · exact List.suffix_cons _ _
  · exact List.suffix_refl _

theorem signedWord_agree {E : Fault → Fault → Prop} {s s' : Input} {text text' : String}
    {digits : List Char} (hdigits : isDigits digits = true)
    (hrange : E (.problem s (.constantOutOfRange text) [])
      (.problem s' (.constantOutOfRange text') []))
    (hlong : Text.maxNumeralDigits < digits.length →
      E (.numeral (.tooLong digits.length)) (.numeral (.tooLong digits.length)))
    (negative : Bool) :
    Agree E Eq (signedWord s text negative digits) (signedWord s' text' negative digits) := by
  have hne : digits.isEmpty = false := by simpa using (isDigits_iff.mp hdigits).1
  unfold signedWord Text.readDigits
  simp only [hne, Bool.false_eq_true, if_false]
  by_cases hlength : Text.maxNumeralDigits < digits.length
  · simp only [if_pos hlength]
    exact .error (hlong hlength)
  · simp only [if_neg hlength]
    generalize (if negative then -(Text.decimalValue digits : Int)
      else Text.decimalValue digits) = value
    split
    · exact .ok rfl
    · exact .error hrange

/-- What is asked for, and the hint, are on one line. -/
def Asked (wanted : List String) (hint : Option String) : Prop :=
  ∀ text ∈ wanted ++ hint.toList, OneLine text.toList

instance (wanted : List String) (hint : Option String) : Decidable (Asked wanted hint) :=
  inferInstanceAs (Decidable (∀ text ∈ wanted ++ hint.toList, OneLine text.toList))

theorem asked_none : Asked [] none :=
  List.forall_mem_nil _

theorem asked_text {text : String} (htext : text.toList.any isBlank = false)
    {hint : Option String} (hhint : Asked [] hint) : Asked ["'" ++ text ++ "'"] hint :=
  List.forall_mem_cons.mpr ⟨oneLine_around (oneLine_ofList rfl) (oneLine_of_solid htext)
    (oneLine_ofList rfl), hhint⟩

/-- Which inputs and which faults of two readings belong together. -/
structure Correspondence where
  input : Input → Input → Prop
  fault : Fault → Fault → Prop

namespace Correspondence

variable {α β γ δ : Type} {m n k l : Nat} (C : Correspondence)

/-- The values are related, and what is left corresponds. -/
def Leaves (R : α → β → Prop) (p : Parsed α m) (q : Parsed β n) : Prop :=
  R p.value q.value ∧ C.input p.rest q.rest

abbrev Ends (R : α → β → Prop) :
    Except Fault (Parsed α m) → Except Fault (Parsed β n) → Prop :=
  Agree C.fault (C.Leaves R)

abbrev Finds (R : α → β → Prop) : Option (Parsed α m) → Option (Parsed β n) → Prop :=
  Option.Rel (C.Leaves R)

abbrev Offers (R : α → β → Prop) :
    Option (Except Fault (Parsed α m)) → Option (Except Fault (Parsed β n)) → Prop :=
  Option.Rel (C.Ends R)

/-- Readings of the rule on corresponding inputs end alike. -/
def Keeps (p : Rule α) : Prop :=
  ∀ ⦃s s'⦄, C.input s s' → C.Ends Eq (p s) (p s')

/-- The scanners keep the correspondence, and what they find wrong with corresponding inputs
corresponds. All that is told of it is on one line. -/
structure Kept : Prop where
  plain : ∀ ⦃s s'⦄, C.input s s' → Plain s ∧ Plain s'
  literal? : ∀ {text : List Char} (ht : text ≠ []), text.any isBlank = false →
    ∀ ⦃s s'⦄, C.input s s' → C.Finds Eq (literal? text ht s) (literal? text ht s')
  keyword? : ∀ text : String, text.toList.any isBlank = false →
    ∀ ⦃s s'⦄, C.input s s' → C.Finds Eq (keyword? text s) (keyword? text s')
  identifier : C.Keeps identifier
  numeral : C.Keeps numeral
  startsNumber : ∀ ⦃s s'⦄, C.input s s' →
    startsNumber s.skipBlanks.chars = startsNumber s'.skipBlanks.chars
  isEmpty : ∀ ⦃s s'⦄, C.input s s' →
    s.skipBlanks.chars.isEmpty = s'.skipBlanks.chars.isEmpty
  unexpected : ∀ ⦃s s'⦄, C.input s s' → ∀ {wanted hint}, Asked wanted hint →
    C.fault (.unexpected s.skipBlanks wanted hint) (.unexpected s'.skipBlanks wanted hint)
  problem : ∀ ⦃s s'⦄, C.input s s' → ∀ {what : Problem} {wanted : List String},
    what.category = .grammar → what.OnOneLine → what.Fits s.skipBlanks → what.Fits s'.skipBlanks →
      C.fault (.problem s.skipBlanks what wanted) (.problem s'.skipBlanks what wanted)

variable {C}

section Outcomes

variable {R : α → β → Prop} {R' : γ → δ → Prop} {r : Except Fault (Parsed α m)}
  {r' : Except Fault (Parsed β n)}

theorem Ends.map {f : α → γ} {g : β → δ} (h : C.Ends R r r') (hfg : ∀ a b, R a b → R' (f a) (g b)) :
    C.Ends R' (r.map fun p => p.map f) (r'.map fun p => p.map g) :=
  Agree.map h fun _ _ hp => ⟨hfg _ _ hp.1, hp.2⟩

theorem Ends.relax (h : C.Ends R r r') (hm : m ≤ k) (hn : n ≤ l) :
    C.Ends R (r.map fun p => p.relax hm) (r'.map fun p => p.relax hn) :=
  Agree.map h fun _ _ hp => hp

theorem Ends.mapRelax {f : α → γ} {g : β → δ} (h : C.Ends R r r')
    (hfg : ∀ a b, R a b → R' (f a) (g b)) (hm : m ≤ k) (hn : n ≤ l) :
    C.Ends R' (r.map fun p => (p.map f).relax hm) (r'.map fun p => (p.map g).relax hn) :=
  Agree.map h fun _ _ hp => ⟨hfg _ _ hp.1, hp.2⟩

end Outcomes

theorem Finds.mapValue {f : α → γ} {g : β → δ} {r : Option (Parsed α m)} {r' : Option (Parsed β n)}
    (h : C.Finds R r r') (hfg : ∀ a b, R a b → R' (f a) (g b)) :
    C.Finds R' (r.map fun p => p.map f) (r'.map fun p => p.map g) := by
  cases h with
  | none => exact .none
  | some h => exact .some ⟨hfg _ _ h.1, h.2⟩

section Heads

variable {s s' : Input}

theorem Kept.missing (hC : C.Kept) (h : C.input s s') {text : String}
    (ht : text.toList.any isBlank = false) {hint : Option String} (hhint : Asked [] hint) :
    C.fault (missing text hint s) (missing text hint s') :=
  hC.unexpected h (asked_text ht hhint)

theorem Kept.isPrefixOf_ahead (hC : C.Kept) (h : C.input s s') {text : List Char} (ht : text ≠ [])
    (hsolid : text.any isBlank = false) :
    text.isPrefixOf s.skipBlanks.ahead = text.isPrefixOf s'.skipBlanks.ahead := by
  rw [← isSome_literal? ht, ← isSome_literal? ht]
  exact (hC.literal? ht hsolid h).isSome_eq

theorem Kept.isEmpty_word (hC : C.Kept) (h : C.input s s') :
    s.skipBlanks.word.isEmpty = s'.skipBlanks.word.isEmpty := by
  rw [Bool.eq_iff_iff, List.isEmpty_iff, List.isEmpty_iff, word_eq_nil_iff_identifier,
    word_eq_nil_iff_identifier]
  rcases (hC.identifier h).cases with ⟨e, e', he, he', -⟩ | ⟨p, p', hp, hp', -⟩
  · simp only [he, he', Except.error.injEq, exists_eq']
  · simp only [hp, hp', reduceCtorEq]

theorem Kept.enter (hC : C.Kept) (h : C.input s s') (nesting : Nesting) :
    Agree C.fault Eq (nesting.enter s) (nesting.enter s') := by
  unfold Nesting.enter
  split
  · exact .error (hC.problem h rfl (List.forall_mem_nil _) (.nestingTooDeep _) (.nestingTooDeep _))
  · exact .ok rfl

end Heads

section Rules

variable {p : Rule α}

theorem Keeps.map (hp : C.Keeps p) (f : α → β) : C.Keeps (p.map f) :=
  fun _ _ h => (hp h).map fun _ _ => congrArg f

theorem Ends.andThen {R : α → β → Prop} {R' : γ → δ → Prop} {p : Rule α} {q : Rule β}
    {f : α → Rule γ} {g : β → Rule δ} {s s' : Input} (hpq : C.Ends R (p s) (q s'))
    (hfg : ∀ a b ⦃t t'⦄, R a b → C.input t t' → C.Ends R' (f a t) (g b t')) :
    C.Ends R' (p.andThen f s) (q.andThen g s') := by
  unfold Rule.andThen
  rcases hpq.cases with ⟨e, e', he, he', hfault⟩ | ⟨a, b, ha, hb, hvalue, hrest⟩
  · simp only [he, he']
    exact .error hfault
  · simp only [ha, hb]
    rcases (hfg a.value b.value hvalue hrest).cases with
      ⟨e, e', he, he', hfault⟩ | ⟨c, d, hc, hd, hleaves⟩
    · simp only [he, he']
      exact .error hfault
    · simp only [hc, hd]
      exact .ok hleaves

theorem Keeps.andThen {f : α → Rule β} (hp : C.Keeps p) (hf : ∀ a, C.Keeps (f a)) :
    C.Keeps (p.andThen f) := by
  intro s s' h
  refine (hp h).andThen fun a b t t' hab htt' => ?_
  rw [← hab]
  exact hf a htt'

theorem Keeps.followedBy {q : Rule Unit} (hp : C.Keeps p) (hq : C.Keeps q) :
    C.Keeps (p.followedBy q) :=
  hp.andThen fun _ => hq.map _

theorem Kept.symbol? (hC : C.Kept) {c : Char} (hc : isBlank c = false) ⦃s s' : Input⦄
    (h : C.input s s') : C.Finds Eq (symbol? c s) (symbol? c s') :=
  hC.literal? (List.cons_ne_nil c []) (by simpa using hc) h

theorem Kept.keyword (hC : C.Kept) {text : String} (ht : text.toList.any isBlank = false)
    {hint : Option String} (hhint : Asked [] hint) : C.Keeps (keyword text hint) := by
  intro s s' h
  unfold Scan.keyword
  rcases (hC.keyword? _ ht h).cases with ⟨hk, hk'⟩ | ⟨k, k', hk, hk', hleaves⟩
  · simp only [hk, hk']
    exact .error (hC.missing h ht hhint)
  · simp only [hk, hk']
    exact .ok hleaves

theorem Kept.symbol (hC : C.Kept) {c : Char} (hc : isBlank c = false) {hint : Option String}
    (hhint : Asked [] hint) : C.Keeps (symbol c hint) := by
  intro s s' h
  have ht : (String.singleton c).toList.any isBlank = false := by simpa using hc
  unfold Scan.symbol
  rcases (hC.symbol? hc h).cases with ⟨hk, hk'⟩ | ⟨k, k', hk, hk', hleaves⟩
  · simp only [hk, hk']
    exact .error (hC.missing h ht hhint)
  · simp only [hk, hk']
    exact .ok hleaves

theorem Kept.onKeyword_ends (hC : C.Kept) {text : String} (ht : text.toList.any isBlank = false)
    {R : α → β → Prop} {p q : Rule α} {p' q' : Rule β} {s s' : Input} (h : C.input s s')
    (hp : ∀ ⦃t t'⦄, C.input t t' → C.Ends R (p t) (p' t')) (hq : C.Ends R (q s) (q' s')) :
    C.Ends R (Rule.onKeyword text p q s) (Rule.onKeyword text p' q' s') := by
  unfold Rule.onKeyword
  rcases (hC.keyword? _ ht h).cases with ⟨hk, hk'⟩ | ⟨k, k', hk, hk', -, hrest⟩
  · simp only [hk, hk']
    exact hq
  · simp only [hk, hk']
    exact (hp hrest).relax _ _

theorem Kept.onKeyword (hC : C.Kept) {text : String} (ht : text.toList.any isBlank = false)
    {p q : Rule α} (hp : C.Keeps p) (hq : C.Keeps q) : C.Keeps (Rule.onKeyword text p q) :=
  fun _ _ h => hC.onKeyword_ends ht h hp (hq h)

theorem Kept.ifKeyword (hC : C.Kept) {text : String} (ht : text.toList.any isBlank = false)
    {R : α → β → Prop} {p : Rule α} {q : Rule β}
    (hpq : ∀ ⦃s s'⦄, C.input s s' → C.Ends R (p s) (q s')) ⦃s s' : Input⦄ (h : C.input s s') :
    C.Offers R (Rule.ifKeyword text p s) (Rule.ifKeyword text q s') := by
  unfold Rule.ifKeyword
  rcases (hC.keyword? _ ht h).cases with ⟨hk, hk'⟩ | ⟨k, k', hk, hk', -, hrest⟩
  · simp only [hk, hk']
    exact .none
  · simp only [hk, hk']
    exact .some ((hpq hrest).relax _ _)

end Rules

section Repetitions

theorem Kept.itemsUntilBrace (hC : C.Kept)
    {item : (s : Input) → s.length < m → Except Fault (Parsed α s.length)}
    {item' : (s : Input) → s.length < n → Except Fault (Parsed α s.length)}
    (hitem : ∀ s s' h h', C.input s s' → C.Ends Eq (item s h) (item' s' h')) (found : List α)
    {s s' : Input} (hs : C.input s s') (h : s.length < m) (h' : s'.length < n) :
    C.Ends Eq (itemsUntilBrace item found s h) (itemsUntilBrace item' found s' h') := by
  fun_induction Scan.itemsUntilBrace item found s h generalizing s' with
  | case1 found s h p hp =>
      obtain ⟨p', hp', -, hrest⟩ := (hC.symbol? (c := '}') rfl hs).of_some hp
      rw [Scan.itemsUntilBrace.eq_def item']
      simp only [hp']
      exact .ok ⟨rfl, hrest⟩
  | case2 found s h hnone e he =>
      obtain ⟨e', he', hfault⟩ := (hitem s s' h h' hs).of_error he
      rw [Scan.itemsUntilBrace.eq_def item']
      simp only [(hC.symbol? (c := '}') rfl hs).of_none hnone, he']
      exact .error hfault
  | case3 found s h hnone p hp ih =>
      obtain ⟨p', hp', hvalue, hrest⟩ := (hitem s s' h h' hs).of_ok hp
      rw [Scan.itemsUntilBrace.eq_def item']
      simp only [(hC.symbol? (c := '}') rfl hs).of_none hnone, hp', ← hvalue]
      exact ih hrest _

theorem Kept.braced (hC : C.Kept) {item : Rule α} (hitem : C.Keeps item) :
    C.Keeps (braced item) := by
  intro s s' h
  unfold Scan.braced
  rcases (hC.symbol (c := '{') rfl asked_none h).cases with
    ⟨e, e', he, he', hfault⟩ | ⟨p, p', hp, hp', -, hrest⟩
  · simp only [he, he']
    exact .error hfault
  · simp only [hp, hp']
    exact hC.itemsUntilBrace (fun s s' _ _ hs => hitem hs) [] hrest _ _

theorem many_ends {R : α → β → Prop} {item : OptionalRule α} {item' : OptionalRule β}
    (hitem : ∀ ⦃s s'⦄, C.input s s' → C.Offers R (item s) (item' s')) {found : List α}
    {found' : List β} (hfound : List.Forall₂ R found found') {s s' : Input} (hs : C.input s s')
    (h : s.length < m) (h' : s'.length < n) :
    C.Ends (List.Forall₂ R) (many item found s h) (many item' found' s' h') := by
  fun_induction many item found s h generalizing found' s' with
  | case1 found s h hnone =>
      rw [many.eq_def item']
      simp only [(hitem hs).of_none hnone]
      exact .ok ⟨List.rel_reverse hfound, hs⟩
  | case2 found s h e he =>
      obtain ⟨r', hr', hends⟩ := (hitem hs).of_some he
      obtain ⟨e', rfl, hfault⟩ := hends.of_error rfl
      rw [many.eq_def item']
      simp only [hr']
      exact .error hfault
  | case3 found s h p hp ih =>
      obtain ⟨r', hr', hends⟩ := (hitem hs).of_some hp
      obtain ⟨p', rfl, hvalue, hrest⟩ := hends.of_ok rfl
      rw [many.eq_def item']
      simp only [hr']
      exact ih (.cons hvalue hfound) hrest _

theorem many_ends_eq {item : OptionalRule α}
    (hitem : ∀ ⦃s s'⦄, C.input s s' → C.Offers Eq (item s) (item s')) {s s' : Input}
    (hs : C.input s s') (h : s.length < m) (h' : s'.length < n) :
    C.Ends Eq (many item [] s h) (many item [] s' h') := by
  have hends := many_ends hitem .nil hs h h'
  rwa [List.forall₂_eq_eq_eq] at hends

end Repetitions

end Correspondence

end Scan

end FuzzFrontend
