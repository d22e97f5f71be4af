import FuzzFrontend.Program.Grammar.Expression
import FuzzFrontend.Proofs.Program.ReadTypes
import FuzzFrontend.Proofs.Scan.Limits

namespace FuzzFrontend.Program.Grammar

open Scan

variable {cs r t : List Char}

/-- After a gap no point follows, which would make a field of a name before the gap. -/
abbrev OperandEnds : List Char → Prop :=
  Follows fun s => s.dropWhile isBlank = s ∧ s.head? ≠ some '.'

section Operators

theorem mem_searchedOperators (op : BinaryOp) : op ∈ searchedOperators := by
  cases op <;> decide

theorem symbol_prefix_unique {op other : BinaryOp} (h : other.symbol.toList <+: op.symbol.toList) :
    other = op := by
  have hall : ∀ p ∈ searchedOperators, ∀ q ∈ searchedOperators,
      q.symbol.toList.isPrefixOf p.symbol.toList = true → q = p := by decide
  exact hall op (mem_searchedOperators op) other (mem_searchedOperators other)
    (List.isPrefixOf_iff_prefix.mpr h)

theorem binaryOp?_finds {op : BinaryOp}
    (hcs : cs.dropWhile isBlank = op.symbol.toList ++ ' ' :: r) :
    Finds (binaryOp? (.ofList cs)) op (' ' :: r) := by
  obtain ⟨hlt, e⟩ := literal?_finds op.symbol_ne_empty hcs
  have hspace : ∀ q : BinaryOp, ' ' ∉ q.symbol.toList := by
    intro q
    cases q <;> decide
  have hother : ∀ q ∈ searchedOperators, q ≠ op →
      literal? q.symbol.toList q.symbol_ne_empty (.ofList cs) = none := by
    intro q _ hq
    apply literal?_eq_none
    rw [hcs]
    exact fun h => hq (symbol_prefix_unique (prefix_of_prefix_append (hspace q) h))
  have hsign : (op == .sub && startsNumber (cs.dropWhile isBlank)) = false := by
    rw [hcs]
    cases op <;> rfl
  refine ⟨hlt, ?_⟩
  have hfound : searchedOperators.findSome? (fun op =>
      (literal? op.symbol.toList op.symbol_ne_empty (.ofList cs)).map fun p => p.map fun _ => op) =
        some ⟨op, .ofList (' ' :: r), hlt⟩ := by
    apply findSome?_eq_of_unique (mem_searchedOperators op)
    · rw [e]
      rfl
    · intro q hq hne
      rw [hother q hq hne, Option.map_none]
  rw [binaryOp?, hfound, Option.filter_some]
  simp [hsign]

/-- No operator is read where no operator stands, or a minus sign that belongs to a number. -/
theorem binaryOp?_eq_none
    (h : ∀ op : BinaryOp, op.symbol.toList <+: cs.dropWhile isBlank →
      op = .sub ∧ startsNumber (cs.dropWhile isBlank) = true) :
    binaryOp? (.ofList cs) = none := by
  rw [binaryOp?, Option.filter_eq_none_iff]
  intro p hp
  obtain ⟨op, -, hop⟩ := List.exists_of_findSome?_eq_some hp
  obtain ⟨q, hq, rfl⟩ := Option.map_eq_some_iff.mp hop
  obtain ⟨rfl, hnumber⟩ := h op (by simpa using (literal?_eq_some_iff.mp hq).1)
  simp [Parsed.map, hnumber]

end Operators

section UnaryOperators

theorem head_of_unaryKeyword {text : String} {op : UnaryOp} (h : (text, op) ∈ unaryKeywords) :
    ∃ k, text.toList = 'o' :: k := by
  have hall : ∀ p ∈ unaryKeywords, p.1.toList.head? = some 'o' := by decide
  have hhead := hall _ h
  cases heq : text.toList with
  | nil => simp [heq] at hhead
  | cons c k => exact ⟨k, by simpa [heq] using hhead⟩

theorem unaryKeywords_eq_none (h : ∀ p ∈ unaryKeywords, keyword? p.1 (.ofList cs) = none) :
    (unaryKeywords.findSome? fun (text, op) =>
      (keyword? text (.ofList cs)).map fun k => k.map fun _ => op) = none := by
  rw [List.findSome?_eq_none_iff]
  intro p hp
  simp only [h p hp, Option.map_none]

theorem unaryOp?_finds_keyword {text : String} {op : UnaryOp} (hmem : (text, op) ∈ unaryKeywords)
    (hcs : cs.dropWhile isBlank = text.toList ++ ' ' :: r) :
    Finds (unaryOp? (.ofList cs)) op (' ' :: r) := by
  have hne : ∀ p ∈ unaryKeywords, p.1.toList ≠ [] := by decide
  have hspace : ∀ p ∈ unaryKeywords, ' ' ∉ p.1.toList := by decide
  have hall : ∀ p ∈ unaryKeywords, ∀ q ∈ unaryKeywords, p ≠ q →
      p.1.toList.isPrefixOf q.1.toList = false := by decide
  obtain ⟨hlt, e⟩ := keyword?_finds (hne _ hmem) hcs rfl
  refine ⟨hlt, ?_⟩
  have hfound : (unaryKeywords.findSome? fun (text, op) =>
      (keyword? text (.ofList cs)).map fun k => k.map fun _ => op) =
        some ⟨op, .ofList (' ' :: r), hlt⟩ := by
    apply findSome?_eq_of_unique hmem
    · simp only [e]
      rfl
    · intro p hp hother
      have hnone : keyword? p.1 (.ofList cs) = none :=
        keyword?_eq_none_of_not_prefix (hspace p hp) (hall p hp _ hmem hother) hcs
      simp only [hnone, Option.map_none]
  rw [unaryOp?, hfound]

theorem unaryOp?_finds_ampersand {c : Char} (hc : c ≠ '&')
    (hcs : cs.dropWhile isBlank = '&' :: c :: r) :
    Finds (unaryOp? (.ofList cs)) .addressOf (c :: r) := by
  have hkeywords : ∀ p ∈ unaryKeywords, keyword? p.1 (.ofList cs) = none := by
    intro p hp
    obtain ⟨k, hk⟩ := head_of_unaryKeyword hp
    apply keyword?_eq_none_of_head?
    rw [hk, hcs, List.head?_cons, List.head?_cons]
    decide
  have hstar : symbol? '*' (.ofList cs) = none := by
    apply symbol?_eq_none
    simp [hcs]
  have hdouble : ['&', '&'].isPrefixOf (cs.dropWhile isBlank) = false := by
    simp [hcs, List.isPrefixOf, Ne.symm hc]
  obtain ⟨hlt, e⟩ := symbol?_finds hcs
  refine ⟨hlt, ?_⟩
  simp only [unaryOp?, unaryKeywords_eq_none hkeywords, hstar, Input.skipBlanks_ofList,
    Input.ahead_ofList, hdouble, e]
  rfl

theorem neverNamed_unaryKeywords : ∀ p ∈ unaryKeywords, neverNamed p.1 = true := by
  decide

theorem unaryOp?_eq_none {n : String} (hn : isName n = true)
    (hcs : cs.dropWhile isBlank = n.toList ++ r) (hr : apart r = true) :
    unaryOp? (.ofList cs) = none := by
  have hkeywords : ∀ p ∈ unaryKeywords, keyword? p.1 (.ofList cs) = none :=
    fun p hp => keyword?_eq_none_of_name (neverNamed_unaryKeywords p hp) hn hcs hr
  obtain ⟨c, w, heq, hc⟩ := head_of_isName hn
  have hmark : ∀ d, isWordStart d = false → c ≠ d := by
    rintro d hd rfl
    rw [hc] at hd
    exact absurd hd Bool.false_ne_true.symm
  have hstar : symbol? '*' (.ofList cs) = none := by
    apply symbol?_eq_none
    simp [hcs, heq, hmark '*' (by decide)]
  have hampersand : symbol? '&' (.ofList cs) = none := by
    apply symbol?_eq_none
    simp [hcs, heq, hmark '&' (by decide)]
  simp only [unaryOp?, unaryKeywords_eq_none hkeywords, hstar, hampersand, Option.map_none,
    ite_self]

end UnaryOperators

section Operands

variable {n : Nat} {inner : Inner Expr n} {nesting : Nesting}

theorem symbol?_eq_none_of_operandEnds (h : OperandEnds r) : symbol? '.' (.ofList r) = none := by
  apply symbol?_eq_none
  exact (h.dropWhile fun s hs => hs.1).2

theorem startsNumber_of_isWordStart {c : Char} (hc : isWordStart c = true) (r : List Char) :
    startsNumber (c :: r) = false := by
  unfold startsNumber
  split
  · rename_i heq
    rw [(List.cons.inj heq).1] at hc
    exact absurd hc (by decide)
  · rename_i heq
    rw [← (List.cons.inj heq).1]
    exact isDigit_of_isWordStart hc
  · rfl

theorem literal_yields {text : String}
    (htext : isInteger text.toList = true ∨ isDecimal text.toList = true)
    (hcs : cs.dropWhile isBlank = text.toList ++ r) (hr : OperandEnds r)
    (h : (Input.ofList cs).length ≤ n) :
    Yields (operand inner nesting (.ofList cs) h)
      (if '.' ∈ text.toList then .decimal text else .integer text) r := by
  have hstart : startsNumber (cs.dropWhile isBlank) = true := by
    rw [hcs]
    exact (number_append htext hr.endsNumber).1
  rw [operand, if_pos (by simpa using hstart)]
  exact (numeral_yields htext hcs hr.endsNumber).map fun text : String =>
    if '.' ∈ text.toList then Expr.decimal text else .integer text

theorem nameOrField_yields_var {v : String} (hv : isName v = true)
    (hcs : cs.dropWhile isBlank = v.toList ++ r) (hr : OperandEnds r) :
    Yields (nameOrField (.ofList cs)) (.var .plain v) r := by
  obtain ⟨hlt, e⟩ := name_yields hv hcs hr.apart
  refine ⟨hlt, ?_⟩
  simp only [nameOrField, e, symbol?_eq_none_of_operandEnds hr]
  rfl

theorem nameOrField_yields_field {object member : String} (hobject : isName object = true)
    (hmember : isName member = true)
    (hcs : cs.dropWhile isBlank = object.toList ++ '.' :: (member.toList ++ r))
    (hr : apart r = true) : Yields (nameOrField (.ofList cs)) (.field object member) r := by
  have hpoint : ('.' :: (member.toList ++ r)).dropWhile isBlank = '.' :: (member.toList ++ r) :=
    rfl
  obtain ⟨hlt, e⟩ := name_yields hobject hcs rfl
  obtain ⟨hlt', e'⟩ := symbol?_finds hpoint
  obtain ⟨hlt'', e''⟩ := name_yields hmember (dropWhile_solid_append (solid_of_isName hmember) r) hr
  unfold nameOrField
  simp only [e, e', e'']
  exact ⟨_, rfl⟩

theorem operand_of_name {v : String} (hv : isName v = true)
    (hcs : cs.dropWhile isBlank = v.toList ++ t) (ht : apart t = true)
    (h : (Input.ofList cs).length ≤ n) :
    operand inner nesting (.ofList cs) h = nameOrField (.ofList cs) := by
  obtain ⟨c, w, heq, hc⟩ := head_of_isName hv
  have hnumber : startsNumber (cs.dropWhile isBlank) = false := by
    rw [hcs, heq]
    exact startsNumber_of_isWordStart hc _
  have hcall : keyword? "function:call" (.ofList cs) = none :=
    keyword?_eq_none_of_name (by decide) hv hcs ht
  have hword : (Scan.word (cs.dropWhile isBlank)).isEmpty = false := by
    rw [hcs, word_append (isWord_of_isName hv) (head?_of_apart ht), heq]
    rfl
  simp only [operand, Input.skipBlanks_ofList, Input.chars_ofList, hnumber, hcall,
    unaryOp?_eq_none hv hcs ht, Input.word_ofList, hword, Bool.false_eq_true, if_false]

theorem operand_yields_unary {op : UnaryOp} {v : String} {k : List Char} (hv : isName v = true)
    (hfinds : Finds (unaryOp? (.ofList cs)) op k) (hk : k.dropWhile isBlank = v.toList ++ r)
    (hr : apart r = true) (hnumber : startsNumber (cs.dropWhile isBlank) = false)
    (hcall : keyword? "function:call" (.ofList cs) = none) (h : (Input.ofList cs).length ≤ n) :
    Yields (operand inner nesting (.ofList cs) h) (.var op v) r := by
  obtain ⟨hlt, e⟩ := hfinds
  simp only [operand, Input.skipBlanks_ofList, Input.chars_ofList, hnumber, hcall, e,
    Bool.false_eq_true, if_false]
  exact (name_yields hv hk hr).mapRelax (Expr.var op) (Nat.le_of_lt hlt)

theorem spellings_cases {op : UnaryOp} {spelling : String} (h : spelling ∈ op.spellings) :
    (op = .plain ∧ spelling = "") ∨ (op = .addressOf ∧ spelling = "&") ∨
      ∃ text, (text, op) ∈ unaryKeywords ∧ spelling = text ++ " " := by
  cases op with
  | plain =>
      have h' : spelling = "" ∨ spelling = "op:null " := by simpa [UnaryOp.spellings] using h
      rcases h' with rfl | rfl
      · exact Or.inl ⟨rfl, rfl⟩
      · exact Or.inr (Or.inr ⟨"op:null", by decide, rfl⟩)
  | deref =>
      have h' : spelling = "op:deref " ∨ spelling = "op:* " := by
        simpa [UnaryOp.spellings] using h
      rcases h' with rfl | rfl
      · exact Or.inr (Or.inr ⟨"op:deref", by decide, rfl⟩)
      · exact Or.inr (Or.inr ⟨"op:*", by decide, rfl⟩)
  | addressOf =>
      have h' : spelling = "op:addressof " ∨ spelling = "op:& " ∨ spelling = "&" := by
        simpa [UnaryOp.spellings] using h
      rcases h' with rfl | rfl | rfl
      · exact Or.inr (Or.inr ⟨"op:addressof", by decide, rfl⟩)
      · exact Or.inr (Or.inr ⟨"op:&", by decide, rfl⟩)
      · exact Or.inr (Or.inl ⟨rfl, rfl⟩)

theorem var_yields {op : UnaryOp} {v spelling : String} (hv : isName v = true)
    (hspelling : spelling ∈ op.spellings)
    (hcs : cs.dropWhile isBlank = spelling.toList ++ (v.toList ++ r)) (hr : OperandEnds r)
    (h : (Input.ofList cs).length ≤ n) :
    Yields (operand inner nesting (.ofList cs) h) (.var op v) r := by
  rcases spellings_cases hspelling with ⟨rfl, rfl⟩ | ⟨rfl, rfl⟩ | ⟨text, hmem, rfl⟩
  · have htext : cs.dropWhile isBlank = v.toList ++ r := by simpa using hcs
    rw [operand_of_name hv htext hr.apart]
    exact nameOrField_yields_var hv htext hr
  · obtain ⟨c, w, heq, hc⟩ := head_of_isName hv
    have htext : cs.dropWhile isBlank = '&' :: c :: (w ++ r) := by simpa [heq] using hcs
    have hne : c ≠ '&' := by
      rintro rfl
      exact absurd hc (by decide)
    have hname : (c :: (w ++ r)).dropWhile isBlank = v.toList ++ r := by
      simpa [heq] using dropWhile_solid_append (solid_of_isName hv) r
    have hcall : keyword? "function:call" (.ofList cs) = none := by
      apply keyword?_eq_none_of_head?
      simp [htext]
    apply operand_yields_unary hv (unaryOp?_finds_ampersand hne htext) hname hr.apart _ hcall
    rw [htext]
    rfl
  · have htext : cs.dropWhile isBlank = text.toList ++ ' ' :: (v.toList ++ r) := by
      simpa using hcs
    have hname : (' ' :: (v.toList ++ r)).dropWhile isBlank = v.toList ++ r :=
      dropWhile_solid_append (solid_of_isName hv) r
    obtain ⟨k, hk⟩ := head_of_unaryKeyword hmem
    have hcall : keyword? "function:call" (.ofList cs) = none := by
      apply keyword?_eq_none_of_head?
      simp [htext, hk]
    apply operand_yields_unary hv (unaryOp?_finds_keyword hmem htext) hname hr.apart _ hcall
    rw [htext, hk]
    rfl

theorem field_operand_yields {object member : String} (hobject : isName object = true)
    (hmember : isName member = true)
    (hcs : cs.dropWhile isBlank = object.toList ++ '.' :: (member.toList ++ r))
    (hr : OperandEnds r) (h : (Input.ofList cs).length ≤ n) :
    Yields (operand inner nesting (.ofList cs) h) (.field object member) r := by
  rw [operand_of_name hobject hcs rfl]
  exact nameOrField_yields_field hobject hmember hcs hr.apart

theorem callRest_yields {f : String} {arguments : List Expr} {ts : List Char}
    (hf : isName f = true) (hts : Pieces Expr.Spelled arguments ts)
    (hroom : Expr.nestingAll arguments + 1 ≤ room nesting)
    (hopens : ∀ a ∈ arguments, ∀ t, a.Spelled t → ∀ r, opens (t ++ r) = true)
    (harguments : ∀ a ∈ arguments, ∀ t, a.Spelled t → ∀ nested cs r h,
      a.nesting ≤ room nested → cs.dropWhile isBlank = t ++ r → Fresh r →
        Yields (inner nested (.ofList cs) h) a r)
    (h : (Input.ofList (' ' :: (f.toList ++ ' ' :: '{' :: (ts ++ '}' :: r)))).length < n) :
    Yields (callRest inner nesting
      (.ofList (' ' :: (f.toList ++ ' ' :: '{' :: (ts ++ '}' :: r)))) h) (.call f arguments) r := by
  obtain ⟨nested, henter, hnested⟩ := enter_of_room hroom
    (.ofList (' ' :: (f.toList ++ ' ' :: '{' :: (ts ++ '}' :: r))))
  have hbrace : Yields (symbol '{' none (.ofList (' ' :: '{' :: (ts ++ '}' :: r)))) ()
      (ts ++ '}' :: r) := symbol_yields rfl
  have hheading : Yields (name.followedBy (symbol '{')
      (.ofList (' ' :: (f.toList ++ ' ' :: '{' :: (ts ++ '}' :: r))))) f (ts ++ '}' :: r) :=
    (spaced_name_yields hf rfl).followedBy hbrace
  obtain ⟨hlt, e⟩ := hheading
  simp only [callRest, henter, e]
  refine Yields.map ?_ (Expr.call f)
  apply itemsUntilBrace_yields hts hopens _ [] _ rfl
  intro a ha t ht cs r hcs hr _
  exact harguments a ha t ht nested cs r _
    (Nat.le_trans (Expr.nestingAll_le_iff.mp (Nat.le_refl _) a ha) hnested) hcs hr

theorem call_yields {f : String} {arguments : List Expr} {ts : List Char} (hf : isName f = true)
    (hts : Pieces Expr.Spelled arguments ts)
    (hroom : Expr.nestingAll arguments + 1 ≤ room nesting)
    (hopens : ∀ a ∈ arguments, ∀ t, a.Spelled t → ∀ r, opens (t ++ r) = true)
    (harguments : ∀ a ∈ arguments, ∀ t, a.Spelled t → ∀ nested cs r h,
      a.nesting ≤ room nested → cs.dropWhile isBlank = t ++ r → Fresh r →
        Yields (inner nested (.ofList cs) h) a r)
    (hcs : cs.dropWhile isBlank = "function:call".toList ++
      ' ' :: (f.toList ++ ' ' :: '{' :: (ts ++ '}' :: r)))
    (h : (Input.ofList cs).length ≤ n) :
    Yields (operand inner nesting (.ofList cs) h) (.call f arguments) r := by
  obtain ⟨hlt, e⟩ := keyword?_finds (by decide) hcs rfl
  have hnumber : startsNumber (cs.dropWhile isBlank) = false := by
    rw [hcs]
    rfl
  simp only [operand, Input.skipBlanks_ofList, Input.chars_ofList, hnumber, e, Bool.false_eq_true,
    if_false]
  exact (callRest_yields hf hts hroom hopens harguments _).relax (Nat.le_of_lt hlt)

end Operands

end FuzzFrontend.Program.Grammar
