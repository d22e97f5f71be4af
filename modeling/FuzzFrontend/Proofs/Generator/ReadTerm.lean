import FuzzFrontend.Proofs.Generator.Spelling
import FuzzFrontend.Proofs.Scan.Limits
import FuzzFrontend.Proofs.Scan.Literal

namespace FuzzFrontend.Generator.Grammar

open Scan

variable {cs r t : List Char}

section Tokens

theorem ofToken?_label {kind : Scalar} (h : kind ∈ Scalar.sized) :
    Scalar.ofToken? kind.label = some kind := by
  cases kind <;> revert h <;> decide

theorem of_ofToken? {token : String} {kind : Scalar} (h : Scalar.ofToken? token = some kind) :
    kind ∈ Scalar.sized ∧ (token = kind.label ∨ token = kind.spelling) := by
  have hfound := List.find?_some h
  simp only [Bool.or_eq_true, beq_iff_eq] at hfound
  exact ⟨List.mem_of_find?_eq_some h, hfound.imp Eq.symm Eq.symm⟩

theorem isWord_token {token : String} {kind : Scalar} (h : Scalar.ofToken? token = some kind) :
    isWord token.toList = true := by
  have hall : ∀ kind ∈ Scalar.sized, isWord kind.label.toList = true ∧
      isWord kind.spelling.toList = true := by decide
  obtain ⟨hkind, rfl | rfl⟩ := of_ofToken? h
  · exact (hall kind hkind).1
  · exact (hall kind hkind).2

theorem typeToken_yields {token : String} {kind : Scalar} (h : Scalar.ofToken? token = some kind)
    (hcs : cs.dropWhile isBlank = token.toList ++ r) (hr : r.head?.any isWordChar = false) :
    Yields (typeToken (.ofList cs)) kind r := by
  obtain ⟨hlt, e⟩ := identifier_yields (isWord_token h) hcs hr
  refine ⟨hlt, ?_⟩
  simp [typeToken, e, h, Parsed.map]

theorem keyword?_textToken_eq_none {token : String} {kind : Scalar}
    (h : Scalar.ofToken? token = some kind) (hcs : cs.dropWhile isBlank = token.toList ++ r) :
    keyword? textToken (.ofList cs) = none := by
  apply keyword?_eq_none_of_head?
  rw [hcs]
  rcases (of_ofToken? h).2 with rfl | rfl <;>
    cases kind <;> simp [Scalar.label, Scalar.spelling, textToken]

end Tokens

section Literals

variable {l : Literal} {gap : List Char}

theorem sign_spelled (l : Literal) (hgap : Blank gap) (r : List Char) :
    sign (.ofList (l.spelled gap ++ r)) = (l.negative, .ofList (l.digits ++ r)) := by
  have hsolid : (l.digits ++ r).dropWhile isBlank = l.digits ++ r :=
    dropWhile_solid_append l.solid_digits r
  unfold Literal.spelled
  cases l.negative with
  | true => simp [sign, dropWhile_blank_append hgap, hsolid]
  | false =>
      obtain ⟨d, rest, heq, -, hminus, -⟩ := l.exists_head
      simp [sign, heq, hminus]

theorem head?_isDigit_of_runsOn (h : r.head?.any runsOn = false) :
    r.head?.any Char.isDigit = false := by
  cases r with
  | nil => rfl
  | cons c r =>
      have hc : isWordChar c = false := by
        simpa using (Bool.or_eq_false_iff.mp (show runsOn c = false from h)).1
      cases hd : c.isDigit with
      | false => exact hd
      | true =>
          rw [isWordChar_of_isDigit hd] at hc
          exact absurd hc Bool.false_ne_true.symm

theorem intLiteral_decides (hgap : Blank gap) (hcs : cs.dropWhile isBlank = l.spelled gap ++ r)
    (hr : r.head?.any runsOn = false) :
    l.Decides (fun x => Yields x l.value r) (intLiteral (.ofList cs)) := by
  have hend := head?_isDigit_of_runsOn hr
  have htake : (l.digits ++ r).takeWhile Char.isDigit = l.digits :=
    takeWhile_append_of_head? l.isDigit_of_mem hend
  have hdrop : (l.digits ++ r).dropWhile Char.isDigit = r :=
    dropWhile_append_of_head? l.isDigit_of_mem hend
  have hshorter : r.length < (l.spelled gap ++ r).length := by
    have hpos := List.length_pos_iff.mpr (l.spelled_ne_nil gap)
    rw [List.length_append]
    omega
  apply Literal.Decides.afterBlanks
  rw [hcs]
  simp only [sign_spelled l hgap, Input.spelledWhile_ofList, Input.dropWhile_ofList, htake, hdrop,
    l.digits_ne_nil, dif_neg, not_false_eq_true, Input.chars_ofList, hr, Bool.false_eq_true,
    if_false]
  refine (l.decides_signedWord _ _).around (fun e he => by rw [he]; rfl) fun _ hword => ?_
  rw [hword]
  exact ⟨hshorter, rfl⟩

theorem bracketedLiteral_decides (hgap : Blank gap)
    (hcs : cs.dropWhile isBlank = '(' :: (l.spelled gap ++ ')' :: r)) :
    l.Decides (fun x => Yields x l.value r) (bracketedLiteral (.ofList cs)) := by
  have hopening : Yields (symbol '(' none (.ofList cs)) () (l.spelled gap ++ ')' :: r) :=
    symbol_yields hcs
  have hclosing : Yields (symbol ')' none (.ofList (')' :: r))) () r := symbol_yields rfl
  have hsolid : (l.spelled gap ++ ')' :: r).dropWhile isBlank = l.spelled gap ++ ')' :: r :=
    dropWhile_solid_append (l.solid_spelled gap) _
  have hliteral := (intLiteral_decides hgap hsolid rfl).followedBy hclosing
  exact hliteral.behind hopening fun hread => hopening.andThen hread

end Literals

section Operators

theorem mem_arithmetic (op : ArithmeticOp) : op ∈ arithmetic := by
  obtain ⟨op, h⟩ := op
  cases op with
  | add | sub | mul | div | mod => simp [arithmetic]
  | _ => exact absurd h (by decide)

theorem symbol_arithmetic (op : ArithmeticOp) : ∃ c, op.val.symbol.toList = [c] := by
  have hall : ∀ op ∈ arithmetic, op.val.symbol.toList.length = 1 := by decide
  exact List.length_eq_one_iff.mp (hall op (mem_arithmetic op))

theorem solid_symbol (op : ArithmeticOp) : solid op.val.symbol.toList = true := by
  have hall : ∀ op ∈ arithmetic, solid op.val.symbol.toList = true := by decide
  exact hall op (mem_arithmetic op)

theorem symbol_injective {op other : ArithmeticOp}
    (h : op.val.symbol.toList = other.val.symbol.toList) : op = other := by
  have hall : ∀ p ∈ arithmetic, ∀ q ∈ arithmetic,
      p.val.symbol.toList = q.val.symbol.toList → p = q := by decide
  exact hall op (mem_arithmetic op) other (mem_arithmetic other) h

theorem arithmeticOp?_finds {op : ArithmeticOp}
    (hcs : cs.dropWhile isBlank = op.val.symbol.toList ++ r) :
    Finds (arithmeticOp? (.ofList cs)) op r := by
  obtain ⟨hlt, e⟩ := literal?_finds op.val.symbol_ne_empty hcs
  refine ⟨hlt, ?_⟩
  apply findSome?_eq_of_unique (mem_arithmetic op)
  · rw [e]
    rfl
  · intro other _ hother
    rw [literal?_eq_none, Option.map_none]
    intro hprefix
    obtain ⟨c, hc⟩ := symbol_arithmetic op
    obtain ⟨d, hd⟩ := symbol_arithmetic other
    rw [hcs, hc, hd, List.singleton_append, List.cons_prefix_cons] at hprefix
    exact hother (symbol_injective (by rw [hc, hd, hprefix.1]))

theorem arithmeticOp?_eq_none
    (h : (cs.dropWhile isBlank).head?.any (fun c => "+-*/%".toList.contains c) = false) :
    arithmeticOp? (.ofList cs) = none := by
  have hall : ∀ op ∈ arithmetic,
      op.val.symbol.toList.head?.any (fun c => "+-*/%".toList.contains c) = true := by decide
  rw [arithmeticOp?, List.findSome?_eq_none_iff]
  intro op hop
  rw [literal?_eq_none, Option.map_none]
  rintro ⟨k, hk⟩
  obtain ⟨c, hc⟩ := symbol_arithmetic op
  have hstart := hall op hop
  rw [← hk, hc] at h
  rw [hc] at hstart
  exact absurd (hstart.symm.trans h) Bool.false_ne_true.symm

end Operators

section Terms

variable {n : Nat} {inner : Inner n} {nesting : Nesting}

theorem term_eq_typed {token : String} {kind : Scalar} (h : Scalar.ofToken? token = some kind)
    (hcs : cs.dropWhile isBlank = token.toList ++ ':' :: t) (hle : (Input.ofList cs).length ≤ n) :
    ∃ hle' hrest, term inner nesting (.ofList cs) hle =
      (typedTerm inner nesting kind (.ofList (':' :: t)) hle').map (·.relax hrest) := by
  obtain ⟨hlt, e⟩ := typeToken_yields h hcs rfl
  refine ⟨Nat.le_trans (Nat.le_of_lt hlt) hle, Nat.le_of_lt hlt, ?_⟩
  simp only [term, keyword?_textToken_eq_none h hcs, e]

theorem term_yields_typed {kind : Scalar} {e : GenExpr} (h : kind ∈ Scalar.sized)
    (hcs : cs.dropWhile isBlank = kind.label.toList ++ ':' :: t)
    (hle : (Input.ofList cs).length ≤ n)
    (hread : ∀ hle, Yields (typedTerm inner nesting kind (.ofList (':' :: t)) hle) e r) :
    Yields (term inner nesting (.ofList cs) hle) e r := by
  obtain ⟨hle', hrest, e'⟩ := term_eq_typed (ofToken?_label h) hcs hle
  rw [e']
  exact (hread hle').relax hrest

/-- The words that may follow the colon of a term. -/
def termWords : List String :=
  ["constant", "min", "max", "random"]

theorem termWord?_finds {word : String} (hword : word ∈ termWords) (k : List Char) :
    Finds (keyword? word (.ofList (word.toList ++ '(' :: k))) () ('(' :: k) := by
  have hall : ∀ w ∈ termWords, w.toList ≠ [] ∧ solid w.toList = true := by decide
  obtain ⟨hne, hsolid⟩ := hall word hword
  exact keyword?_finds hne (dropWhile_solid_append hsolid _) rfl

theorem termWord?_eq_none {text word : String} (htext : text ∈ termWords)
    (hword : word ∈ termWords) (hne : text ≠ word) (k : List Char) :
    keyword? text (.ofList (word.toList ++ '(' :: k)) = none := by
  have hsolid : ∀ w ∈ termWords, solid w.toList = true := by decide
  have hbracket : ∀ w ∈ termWords, '(' ∉ w.toList := by decide
  have hall : ∀ v ∈ termWords, ∀ w ∈ termWords, v ≠ w →
      v.toList.isPrefixOf w.toList = false := by decide
  apply keyword?_eq_none_of_not_prefix (hbracket text htext) (hall text htext word hword hne)
  exact dropWhile_solid_append (hsolid word hword) ('(' :: k)

theorem typedConstant_decides {l : Literal} {gap : List Char} {kind : Scalar} {c : Constant}
    (hgap : Blank gap)
    (hc : Word.IsSigned l.value → Constant.forType (.scalar kind) l.value = .ok c) :
    l.Decides (fun x => Yields x (.constant c) r)
      (typedConstant kind (.ofList ('(' :: (l.spelled gap ++ ')' :: r)))) := by
  have hliteral : l.Decides _ (bracketedLiteral (.ofList ('(' :: (l.spelled gap ++ ')' :: r)))) :=
    bracketedLiteral_decides hgap rfl
  refine hliteral.around (fun e he => ?_) fun hvalue hread => ?_
  · simp only [typedConstant, he]
  · obtain ⟨hlt, e⟩ := hread
    refine ⟨hlt, ?_⟩
    simp only [typedConstant, e, hc hvalue]
    rfl

theorem emptyBrackets_yields : Yields (emptyBrackets (.ofList ('(' :: ')' :: r))) () r := by
  have hopening : Yields (symbol '(' none (.ofList ('(' :: ')' :: r))) () (')' :: r) :=
    symbol_yields rfl
  have hclosing : Yields (symbol ')' none (.ofList (')' :: r))) () r := symbol_yields rfl
  exact hopening.andThen hclosing

theorem colon_yields (word : String) (k : List Char) :
    Yields (symbol ':' none (.ofList (':' :: (word.toList ++ '(' :: k)))) ()
      (word.toList ++ '(' :: k) :=
  symbol_yields rfl

theorem constant_decides {l : Literal} {gap : List Char} {kind : Scalar} {c : Constant}
    (hgap : Blank gap)
    (hc : Word.IsSigned l.value → Constant.forType (.scalar kind) l.value = .ok c)
    (hle : (Input.ofList (':' :: ("constant".toList ++
      '(' :: (l.spelled gap ++ ')' :: r)))).length ≤ n) :
    l.Decides (fun x => Yields x (.constant c) r) (typedTerm inner nesting kind
      (.ofList (':' :: ("constant".toList ++ '(' :: (l.spelled gap ++ ')' :: r)))) hle) := by
  obtain ⟨hlt, e⟩ := colon_yields "constant" (l.spelled gap ++ ')' :: r)
  have hword : "constant" ∈ termWords := by decide
  obtain ⟨hlt', e'⟩ := termWord?_finds hword (l.spelled gap ++ ')' :: r)
  have hconstant : l.Decides _
      (typedConstant kind (.ofList ('(' :: (l.spelled gap ++ ')' :: r)))) :=
    typedConstant_decides hgap hc
  refine hconstant.around (fun error herror => ?_) fun _ hread => ?_
  · simp only [typedTerm, e, e', herror]
    rfl
  · simp only [typedTerm, e, e']
    exact (hread.relax _).relax _

theorem constant_yields {kind : Scalar} {v : Int} {c : Constant} (hv : Word.IsSigned v)
    (hc : Constant.forType (.scalar kind) v = .ok c)
    (hle : (Input.ofList (':' :: ("constant".toList ++
      '(' :: ((Text.integer v).toList ++ ')' :: r)))).length ≤ n) :
    Yields (typedTerm inner nesting kind
      (.ofList (':' :: ("constant".toList ++ '(' :: ((Text.integer v).toList ++ ')' :: r)))) hle)
      (.constant c) r := by
  revert hle
  rw [← Literal.spelled_ofInteger]
  intro hle
  exact (constant_decides blank_nil (fun _ => (Literal.value_ofInteger v).symm ▸ hc)
    hle).reads_ofInteger hv

theorem least_yields {kind : Scalar}
    (hle : (Input.ofList (':' :: ("min".toList ++ '(' :: ')' :: r))).length ≤ n) :
    Yields (typedTerm inner nesting kind (.ofList (':' :: ("min".toList ++ '(' :: ')' :: r))) hle)
      (.least (.scalar kind)) r := by
  obtain ⟨hlt, e⟩ := colon_yields "min" (')' :: r)
  have hmin : "min" ∈ termWords := by decide
  have hconstant : keyword? "constant" (.ofList ("min".toList ++ '(' :: ')' :: r)) = none :=
    termWord?_eq_none (by decide) hmin (by decide) _
  obtain ⟨hlt', e'⟩ := termWord?_finds hmin (')' :: r)
  simp only [typedTerm, e, hconstant, e']
  exact (emptyBrackets_yields.mapRelax (fun _ => GenExpr.least (.scalar kind)) _).relax _

theorem greatest_yields {kind : Scalar}
    (hle : (Input.ofList (':' :: ("max".toList ++ '(' :: ')' :: r))).length ≤ n) :
    Yields (typedTerm inner nesting kind (.ofList (':' :: ("max".toList ++ '(' :: ')' :: r))) hle)
      (.greatest (.scalar kind)) r := by
  obtain ⟨hlt, e⟩ := colon_yields "max" (')' :: r)
  have hmax : "max" ∈ termWords := by decide
  have hconstant : keyword? "constant" (.ofList ("max".toList ++ '(' :: ')' :: r)) = none :=
    termWord?_eq_none (by decide) hmax (by decide) _
  have hmin : keyword? "min" (.ofList ("max".toList ++ '(' :: ')' :: r)) = none :=
    termWord?_eq_none (by decide) hmax (by decide) _
  obtain ⟨hlt', e'⟩ := termWord?_finds hmax (')' :: r)
  simp only [typedTerm, e, hconstant, hmin, e']
  exact (emptyBrackets_yields.mapRelax (fun _ => GenExpr.greatest (.scalar kind)) _).relax _

/-- No operator follows, so that a state ends before the text. -/
def StateEnds (r : List Char) : Prop :=
  arithmeticOp? (.ofList r) = none

/-- The rule reads the state from the text wherever a state may end after it. -/
def ReadFrom (inner : Inner n) (e : GenExpr) (t : List Char) : Prop :=
  ∀ nested cs r h, e.nesting ≤ room nested → cs.dropWhile isBlank = t ++ r → StateEnds r →
    Yields (inner nested (.ofList cs) h) e r

theorem randomRest_yields {kind : Scalar} {low high : GenExpr} {tl th k : List Char}
    (hroom : max low.nesting high.nesting + 1 ≤ room nesting) (hl : ReadFrom inner low tl)
    (hh : ReadFrom inner high th) (hsolidl : solid tl = true) (hsolidh : solid th = true)
    (hk : k = tl ++ ',' :: ' ' :: (th ++ ')' :: r)) (hle : (Input.ofList ('(' :: k)).length ≤ n) :
    Yields (randomRest inner nesting kind (.ofList ('(' :: k)) hle)
      (.random (.scalar kind) low high) r := by
  obtain ⟨nested, henter, hnested⟩ := enter_of_room hroom (.ofList ('(' :: k))
  obtain ⟨hlow, hhigh⟩ := Nat.max_le.mp hnested
  have hsolid : k.dropWhile isBlank = tl ++ ',' :: ' ' :: (th ++ ')' :: r) := by
    rw [hk]
    exact dropWhile_solid_append hsolidl _
  have hopening : Yields (symbol '(' none (.ofList ('(' :: k))) () k := symbol_yields rfl
  have hcomma : Yields (symbol ',' none (.ofList (',' :: ' ' :: (th ++ ')' :: r)))) ()
      (' ' :: (th ++ ')' :: r)) := symbol_yields rfl
  have hclosing : Yields (symbol ')' none (.ofList (')' :: r))) () r := symbol_yields rfl
  obtain ⟨h₁, e₁⟩ := hopening
  obtain ⟨h₂, e₂⟩ := hl nested k (',' :: ' ' :: (th ++ ')' :: r)) (Nat.lt_of_lt_of_le h₁ hle) hlow
    hsolid (arithmeticOp?_eq_none rfl)
  obtain ⟨h₃, e₃⟩ := hcomma
  obtain ⟨h₄, e₄⟩ := hh nested (' ' :: (th ++ ')' :: r)) (')' :: r)
    (Nat.lt_of_lt_of_le (Nat.lt_trans h₃ (Nat.lt_trans h₂ h₁)) hle) hhigh
    (dropWhile_solid_append hsolidh _) (arithmeticOp?_eq_none rfl)
  simp only [randomRest, henter, e₁, e₂, e₃, e₄]
  exact hclosing.mapRelax (fun _ => GenExpr.random (.scalar kind) low high) _

theorem random_yields {kind : Scalar} {low high : GenExpr} {tl th k : List Char}
    (hroom : max low.nesting high.nesting + 1 ≤ room nesting) (hl : ReadFrom inner low tl)
    (hh : ReadFrom inner high th) (hsolidl : solid tl = true) (hsolidh : solid th = true)
    (hk : k = tl ++ ',' :: ' ' :: (th ++ ')' :: r))
    (hle : (Input.ofList (':' :: ("random".toList ++ '(' :: k))).length ≤ n) :
    Yields (typedTerm inner nesting kind (.ofList (':' :: ("random".toList ++ '(' :: k))) hle)
      (.random (.scalar kind) low high) r := by
  have hrandom : "random" ∈ termWords := by decide
  have hconstant : keyword? "constant" (.ofList ("random".toList ++ '(' :: k)) = none :=
    termWord?_eq_none (by decide) hrandom (by decide) k
  have hmin : keyword? "min" (.ofList ("random".toList ++ '(' :: k)) = none :=
    termWord?_eq_none (by decide) hrandom (by decide) k
  have hmax : keyword? "max" (.ofList ("random".toList ++ '(' :: k)) = none :=
    termWord?_eq_none (by decide) hrandom (by decide) k
  obtain ⟨hlt, e⟩ := colon_yields "random" k
  obtain ⟨hlt', e'⟩ := termWord?_finds hrandom k
  simp only [typedTerm, e, hconstant, hmin, hmax, e']
  exact ((randomRest_yields hroom hl hh hsolidl hsolidh hk _).relax _).relax _

/-- The text constant is read with its literal, whose value is not kept. -/
theorem textConstant_decides {l : Literal} {gap : List Char} {start : Input} (hgap : Blank gap) :
    l.Decides (fun x => Yields x (.constant (.text textToken)) r) (textConstant start
      (.ofList (':' :: ("constant".toList ++ '(' :: (l.spelled gap ++ ')' :: r))))) := by
  have hword : "constant" ∈ termWords := by decide
  have hkeyword := termWord?_finds hword (l.spelled gap ++ ')' :: r)
  have hliteral : l.Decides _ (bracketedLiteral (.ofList ('(' :: (l.spelled gap ++ ')' :: r)))) :=
    bracketedLiteral_decides hgap rfl
  have hconstant : l.Decides (fun x => Yields x (GenExpr.constant (.text textToken)) r)
      ((bracketedLiteral.map fun _ => GenExpr.constant (.text textToken))
        (.ofList ('(' :: (l.spelled gap ++ ')' :: r)))) :=
    hliteral.mapRule _ fun hread => hread.mapRule _
  unfold textConstant
  refine (hconstant.onKeyword hkeyword).behind (colon_yields "constant" _) ?_
  exact fun hread => (colon_yields "constant" _).andThen hread

theorem text_yields (hcs : cs.dropWhile isBlank = "string:constant(0)".toList ++ r)
    (hle : (Input.ofList cs).length ≤ n) :
    Yields (term inner nesting (.ofList cs) hle) (.constant (.text textToken)) r := by
  have htoken : cs.dropWhile isBlank = textToken.toList ++ ':' :: ("constant".toList ++
      '(' :: ((Literal.ofInteger 0).spelled [] ++ ')' :: r)) := by
    simpa [textToken, Literal.spelled_ofInteger, Text.integer_zero] using hcs
  obtain ⟨hlt, e⟩ := keyword?_finds (by decide) htoken rfl
  simp only [term, e]
  exact ((textConstant_decides blank_nil).reads_ofInteger (by decide)).relax (Nat.le_of_lt hlt)

end Terms

end FuzzFrontend.Generator.Grammar
