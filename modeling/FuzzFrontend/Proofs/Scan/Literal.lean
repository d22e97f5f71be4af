import FuzzFrontend.Proofs.Scan.Integer
import FuzzFrontend.Proofs.Scan.Pieces

/-!
Readings of integer literals. Whatever stands around a literal, the literal alone decides whether it
is read: its digits may be too many to be looked at, and the value of fewer digits is a signed word
or out of range. A rule that comes to a literal ends in one of these three ways, and so do the rules
around it.
-/
namespace FuzzFrontend.Scan

/-- An integer literal: a minus sign or none, and digits, at least one, that may start with
zeros. -/
structure Literal where
  negative : Bool
  digits : List Char
  isDigits : isDigits digits = true

namespace Literal

/-- The integer that the literal spells. -/
def value (l : Literal) : Int :=
  if l.negative then -(Text.decimalValue l.digits : Int) else Text.decimalValue l.digits

/-- The text of the literal, with some text between the sign and the digits. -/
def spelled (l : Literal) (between : List Char) : List Char :=
  if l.negative then '-' :: (between ++ l.digits) else l.digits

/-- The literal decides how a reading ends: as stated for its value, because the value is out of
range, or because it has too many digits. -/
inductive Decides {α : Type} (l : Literal) (reads : Except Fault α → Prop) : Except Fault α → Prop
  | accepted {r : Except Fault α} (hlength : l.digits.length ≤ Text.maxNumeralDigits)
      (hvalue : Word.IsSigned l.value) (h : reads r) : Decides l reads r
  | outOfRange (s : Input) (text : String) (hlength : l.digits.length ≤ Text.maxNumeralDigits)
      (hvalue : ¬ Word.IsSigned l.value) :
      Decides l reads (.error (.problem s (.constantOutOfRange text) []))
  | tooLong (hlength : Text.maxNumeralDigits < l.digits.length) :
      Decides l reads (.error (.numeral (.tooLong l.digits.length)))

variable {α β : Type} {l : Literal} {n m : Nat}

theorem digits_ne_nil (l : Literal) : l.digits ≠ [] :=
  (isDigits_iff.mp l.isDigits).1

theorem isDigit_of_mem (l : Literal) : ∀ c ∈ l.digits, c.isDigit = true :=
  (isDigits_iff.mp l.isDigits).2

theorem exists_head (l : Literal) :
    ∃ d rest, l.digits = d :: rest ∧ d.isDigit = true ∧ d ≠ '-' ∧ isBlank d = false := by
  obtain ⟨d, rest, heq, hd⟩ := isDigit_head_of_isDigits l.isDigits
  refine ⟨d, rest, heq, hd, ?_, isBlank_of_isWordChar (isWordChar_of_isDigit hd)⟩
  rintro rfl
  exact absurd hd (by decide)

theorem solid_digits (l : Literal) : solid l.digits = true := by
  obtain ⟨d, rest, heq, -, -, hblank⟩ := l.exists_head
  simp [heq, solid, hblank]

theorem solid_spelled (l : Literal) (between : List Char) : solid (l.spelled between) = true := by
  unfold spelled
  split
  · rfl
  · exact l.solid_digits

theorem spelled_ne_nil (l : Literal) (between : List Char) : l.spelled between ≠ [] := by
  intro h
  have hsolid := l.solid_spelled between
  rw [h] at hsolid
  exact absurd hsolid Bool.false_ne_true

theorem dropSign_spelled (l : Literal) : dropSign (l.spelled []) = l.digits := by
  unfold spelled
  split
  · rfl
  · obtain ⟨d, rest, heq, hd, -⟩ := l.exists_head
    rw [heq]
    exact dropSign_digit hd rest

theorem head?_spelled (l : Literal) : ((l.spelled []).head? == some '-') = l.negative := by
  unfold spelled
  cases l.negative with
  | true => rfl
  | false =>
      obtain ⟨d, rest, heq, -, hminus, -⟩ := l.exists_head
      simpa [heq] using hminus

theorem isInteger_spelled (l : Literal) : isInteger (l.spelled []) = true := by
  rw [isInteger, dropSign_spelled]
  exact l.isDigits

theorem decides_signedWord (l : Literal) (s : Input) (text : String) :
    l.Decides (· = .ok l.value) (signedWord s text l.negative l.digits) := by
  have hnonempty : l.digits.isEmpty = false := by simpa using l.digits_ne_nil
  unfold signedWord Text.readDigits
  simp only [hnonempty, Bool.false_eq_true, if_false]
  by_cases hlength : Text.maxNumeralDigits < l.digits.length
  · simp only [if_pos hlength]
    exact .tooLong hlength
  · simp only [if_neg hlength]
    have hshort := Nat.not_lt.mp hlength
    change l.Decides _ (if Word.IsSigned l.value then .ok l.value else .error _)
    by_cases hvalue : Word.IsSigned l.value
    · exact .accepted hshort hvalue (if_pos hvalue)
    · rw [if_neg hvalue]
      exact .outOfRange s text hshort hvalue

section Canonical

/-- The literal that an integer is written as. -/
def ofInteger (v : Int) : Literal :=
  ⟨decide (v < 0), Text.decimalDigits v.natAbs, Text.isDigits_decimalDigits _⟩

theorem spelled_ofInteger (v : Int) : (ofInteger v).spelled [] = (Text.integer v).toList := by
  cases v with
  | ofNat n =>
      rw [Text.integer_ofNat]
      simp [spelled, ofInteger]
  | negSucc n =>
      rw [Text.integer_negSucc]
      simp [spelled, ofInteger, Int.negSucc_lt_zero]

theorem value_ofInteger (v : Int) : (ofInteger v).value = v := by
  simp only [value, ofInteger, Text.decimalValue_decimalDigits, decide_eq_true_eq]
  split <;> omega

theorem Decides.reads_ofInteger {reads : Except Fault α → Prop} {r : Except Fault α} {v : Int}
    (h : (ofInteger v).Decides reads r) (hv : Word.IsSigned v) : reads r := by
  have hshort : (ofInteger v).digits.length ≤ 20 := Text.length_decimalDigits_le (by omega)
  cases h with
  | accepted _ _ h => exact h
  | outOfRange _ _ _ hvalue =>
      rw [value_ofInteger] at hvalue
      exact absurd hv hvalue
  | tooLong hlength =>
      rw [Text.maxNumeralDigits] at hlength
      omega

end Canonical

namespace Decides

variable {reads : Except Fault α → Prop} {r : Except Fault α}

/-- What a literal decides, it decides for every reading that fails as the first one does. -/
theorem around {reads' : Except Fault β → Prop} {r' : Except Fault β} (h : l.Decides reads r)
    (herror : ∀ e, r = .error e → r' = .error e)
    (hok : Word.IsSigned l.value → reads r → reads' r') : l.Decides reads' r' := by
  cases h with
  | accepted hlength hvalue h => exact .accepted hlength hvalue (hok hvalue h)
  | outOfRange s text hlength hvalue =>
      rw [herror _ rfl]
      exact .outOfRange s text hlength hvalue
  | tooLong hlength =>
      rw [herror _ rfl]
      exact .tooLong hlength

variable {p : Rule α} {f : α → Rule β} {q : Rule Unit} {s : Input} {a : α} {b : β}
  {t k : List Char}

theorem andThen (h : l.Decides (fun r => Yields r a t) (p s)) (hf : Yields (f a (.ofList t)) b k) :
    l.Decides (fun r => Yields r b k) (p.andThen f s) :=
  h.around (fun e he => by simp only [Rule.andThen, he]) fun _ hp => hp.andThen hf

theorem mapRule {reads : Except Fault (Parsed α s.length) → Prop}
    {reads' : Except Fault (Parsed β s.length) → Prop} (h : l.Decides reads (p s)) (f : α → β)
    (hok : reads (p s) → reads' (Rule.map f p s)) : l.Decides reads' (Rule.map f p s) :=
  h.around (fun e he => by rw [Rule.map, he]; rfl) fun _ => hok

theorem followedBy (h : l.Decides (fun r => Yields r a t) (p s))
    (hq : Yields (q (.ofList t)) () k) :
    l.Decides (fun r => Yields r a k) (p.followedBy q s) :=
  h.andThen (hq.mapRule fun _ => a)

theorem afterBlanks {cs : List Char}
    (h : l.Decides (fun r => Yields r a t) (p (.ofList (cs.dropWhile isBlank)))) :
    l.Decides (fun r => Yields r a t) (p.afterBlanks (.ofList cs)) := by
  refine h.around (fun e he => ?_) fun _ hp => hp.afterBlanks
  simp only [Rule.afterBlanks, Input.skipBlanks_ofList, he]
  rfl

theorem onKeyword {text : String} {p q : Rule α} (hk : Finds (keyword? text s) () t)
    (h : l.Decides (fun r => Yields r a k) (p (.ofList t))) :
    l.Decides (fun r => Yields r a k) (Rule.onKeyword text p q s) := by
  obtain ⟨hlt, e⟩ := id hk
  refine h.around (fun error herror => ?_) fun _ hp => hp.onKeyword hk
  simp only [Rule.onKeyword, e, herror]
  rfl

theorem ifKeyword {text : String} {reads : Except Fault (Parsed α (Input.ofList t).length) → Prop}
    {reads' : Except Fault (Parsed α s.length) → Prop} (hk : Finds (keyword? text s) () t)
    (h : l.Decides reads (p (.ofList t)))
    (hok : ∀ hle, reads (p (.ofList t)) → reads' ((p (.ofList t)).map (·.relax hle))) :
    ∃ q, Rule.ifKeyword text p s = some q ∧ l.Decides reads' q := by
  obtain ⟨hlt, e⟩ := hk
  refine ⟨_, congrArg (Option.map _) e, h.around (fun error herror => ?_) fun _ => hok _⟩
  simp only [herror]
  rfl

theorem behind {reads : Except Fault (Parsed β (Input.ofList t).length) → Prop}
    {reads' : Except Fault (Parsed β s.length) → Prop} (hp : Yields (p s) a t)
    (h : l.Decides reads (f a (.ofList t)))
    (hok : reads (f a (.ofList t)) → reads' (p.andThen f s)) :
    l.Decides reads' (p.andThen f s) := by
  obtain ⟨hlt, e⟩ := hp
  refine h.around (fun error herror => ?_) fun _ => hok
  simp only [Rule.andThen, e, herror]

end Decides

end Literal

section Repetitions

variable {α : Type} {n : Nat} {l : Literal} {x : α} {cs r : List Char}

/-- Items that the rule reads, whatever follows them. -/
structure ReadBy (item : Rule α) (R : α → List Char → Prop) (xs : List α) : Prop where
  opens : ∀ x ∈ xs, ∀ t, R x t → ∀ r, Scan.opens (t ++ r) = true
  yields : ∀ x ∈ xs, ∀ t, R x t → ∀ cs r, cs.dropWhile isBlank = t ++ r →
    Yields (item (.ofList cs)) x r

/-- Items in braces, one of which has the literal: the items behind it are read if it is. -/
theorem Literal.Decides.braced {R : α → List Char → Prop} {xs : List α} {ts s : List Char}
    {item : Rule α} (hxs : ReadBy item R xs) (hts : Pieces R xs ts) (hs : opens s = true)
    (hitem : ∀ cs, cs.dropWhile isBlank = s →
      l.Decides (fun q => Yields q x r) (item (.ofList cs)))
    (hcs : cs.dropWhile isBlank = '{' :: (ts ++ s)) :
    l.Decides (fun q => ∀ ys us k, ReadBy item R ys → Pieces R ys us → r = us ++ '}' :: k →
      Yields q (xs ++ x :: ys) k) (Scan.braced item (.ofList cs)) := by
  obtain ⟨hlt, e⟩ : Yields (symbol '{' none (.ofList cs)) () (ts ++ s) := symbol_yields hcs
  have hbelow : ∀ {ys : List α}, ReadBy item R ys → ∀ y ∈ ys, ∀ t, R y t → ∀ cs' r,
      cs'.dropWhile isBlank = t ++ r → Fresh r →
        ∀ h, Yields (item.below (Input.ofList cs).length (.ofList cs') h) y r :=
    fun hys y hy t ht cs' r hcs' _ _ => hys.yields y hy t ht cs' r hcs'
  obtain ⟨cs', h', hcs', hskip⟩ :=
    itemsUntilBrace_skips hts hxs.opens (hbelow hxs) (Or.inl hs) [] hlt rfl
  have hbrace : symbol? '}' (.ofList cs') = none := by
    apply symbol?_eq_none
    rw [hcs']
    exact head?_of_opens hs
  simp only [Scan.braced, e, hskip]
  rw [itemsUntilBrace]
  simp only [hbrace, Rule.below]
  refine (hitem cs' hcs').around (fun _ he => by rw [he]) fun _ hx ys us k hys hus hr => ?_
  obtain ⟨hlt', e'⟩ := hx
  subst hr
  rw [e']
  have hread := itemsUntilBrace_yields hus hys.opens (hbelow hys) (x :: (xs.reverse ++ []))
    (Nat.lt_trans hlt' h') rfl
  simpa only [List.append_nil, List.reverse_cons, List.reverse_reverse, List.append_assoc,
    List.singleton_append] using hread

end Repetitions

end FuzzFrontend.Scan
