import FuzzFrontend.Program.Grammar.Phases
import FuzzFrontend.Proofs.Program.ReadExpression

namespace FuzzFrontend.Program.Grammar

open Scan

variable {cs r t : List Char} {nesting : Nesting}

section Words

/-- The words that start statements. -/
def statementWords : List String :=
  ["verify:new", "constraint:new", "if", "while"]

/-- The words that start anything but an expression. -/
def foreignWords : List String :=
  statementWords ++ declarationKeywords.map Prod.fst

theorem space_not_mem_of_foreign {text : String} (h : text ∈ foreignWords) :
    ' ' ∉ text.toList := by
  have hall : ∀ w ∈ foreignWords, ' ' ∉ w.toList := by decide
  exact hall text h

theorem neverNamed_of_foreign {text : String} (h : text ∈ foreignWords) :
    neverNamed text = true := by
  have hall : ∀ w ∈ foreignWords, neverNamed w = true := by decide
  exact hall text h

theorem keyword?_eq_none_of_statementWord {text word : String} (htext : text ∈ foreignWords)
    (hword : word ∈ statementWords) (hne : text ≠ word)
    (hcs : cs.dropWhile isBlank = word.toList ++ ' ' :: r) :
    keyword? text (.ofList cs) = none := by
  have hall : ∀ w ∈ foreignWords, ∀ w' ∈ statementWords, w ≠ w' →
      w.toList.isPrefixOf w'.toList = false := by decide
  exact keyword?_eq_none_of_not_prefix (space_not_mem_of_foreign htext)
    (hall text htext word hword hne) hcs

theorem foreign_of_declarationKeyword {text : String} {phase : Phase}
    (h : (text, phase) ∈ declarationKeywords) : text ∈ foreignWords :=
  List.mem_append_right _ (List.mem_map_of_mem h)

theorem head?_of_foreign {text : String} (h : text ∈ foreignWords) {c : Char}
    (hc : c.isDigit = true ∨ c = '-' ∨ c = '&' ∨ c = 'o') : text.toList.head? ≠ some c := by
  have hall : ∀ w ∈ foreignWords, w.toList.head?.any
      (fun d => d.isDigit || d == '-' || d == '&' || d == 'o') = false := by decide
  intro hhead
  have hnone := hall text h
  rw [hhead] at hnone
  rcases hc with hc | rfl | rfl | rfl
  · simp [hc] at hnone
  · exact absurd hnone (by decide)
  · exact absurd hnone (by decide)
  · exact absurd hnone (by decide)

theorem keyword?_eq_none_of_number {text w : String} (h : text ∈ foreignWords)
    (hw : isInteger w.toList = true ∨ isDecimal w.toList = true)
    (hcs : cs.dropWhile isBlank = w.toList ++ r) : keyword? text (.ofList cs) = none := by
  apply keyword?_eq_none_of_head?
  obtain ⟨d, rest, hd, -, heq | heq⟩ := dropSign_cases hw
  · rw [hcs, heq]
    exact head?_of_foreign h (Or.inr (Or.inl rfl))
  · rw [hcs, heq]
    exact head?_of_foreign h (Or.inl hd)

theorem keyword?_eq_none_of_var {text v spelling : String} {op : UnaryOp}
    (h : text ∈ foreignWords) (hv : isName v = true) (hspelling : spelling ∈ op.spellings)
    (hcs : cs.dropWhile isBlank = spelling.toList ++ (v.toList ++ r)) (hr : apart r = true) :
    keyword? text (.ofList cs) = none := by
  rcases spellings_cases hspelling with ⟨-, rfl⟩ | ⟨-, rfl⟩ | ⟨w, hmem, rfl⟩
  · exact keyword?_eq_none_of_name (neverNamed_of_foreign h) hv (by simpa using hcs) hr
  · apply keyword?_eq_none_of_head?
    rw [hcs]
    exact head?_of_foreign h (Or.inr (Or.inr (Or.inl rfl)))
  · obtain ⟨k, hk⟩ := head_of_unaryKeyword hmem
    apply keyword?_eq_none_of_head?
    rw [hcs, String.toList_append, hk]
    exact head?_of_foreign h (Or.inr (Or.inr (Or.inr rfl)))

theorem keyword?_eq_none_of_expr {text : String} (h : text ∈ foreignWords) {e : Expr}
    (he : e.Spellable) (ht : e.Spelled t) (hcs : cs.dropWhile isBlank = t ++ r)
    (hr : apart r = true) : keyword? text (.ofList cs) = none := by
  induction e generalizing t r with
  | compound left op right ihl _ =>
      cases he with
      | compound hl _ _ _ =>
          cases ht with
          | compound htl _ =>
              rw [List.append_assoc] at hcs
              exact ihl hl htl hcs rfl
  | integer w =>
      cases he with
      | integer hw =>
          cases ht
          exact keyword?_eq_none_of_number h (Or.inl hw) hcs
  | decimal w =>
      cases he with
      | decimal hw =>
          cases ht
          exact keyword?_eq_none_of_number h (Or.inr hw) hcs
  | var op v =>
      cases he with
      | var hv =>
          cases ht with
          | var hspelling =>
              rw [List.append_assoc] at hcs
              exact keyword?_eq_none_of_var h hv hspelling hcs hr
  | call f arguments _ =>
      cases ht
      have hall : ∀ w ∈ foreignWords, w.toList.isPrefixOf "function:call".toList = false := by
        decide
      exact keyword?_eq_none_of_not_prefix (space_not_mem_of_foreign h) (hall text h) hcs
  | field object member =>
      cases he with
      | field hobject _ =>
          cases ht
          rw [List.append_assoc] at hcs
          exact keyword?_eq_none_of_name (neverNamed_of_foreign h) hobject hcs rfl

end Words

section Simple

theorem exprEnds_equals (k : List Char) : ExprEnds (' ' :: '=' :: ' ' :: k) := by
  refine ⟨⟨[' '], '=' :: ' ' :: k, gap_space, ⟨rfl, by simp⟩, rfl⟩, ?_⟩
  apply binaryOp?_eq_none
  intro op hprefix
  have hsymbol : op.symbol.toList <+: '=' :: ' ' :: k := hprefix
  cases op <;> simp [BinaryOp.symbol, List.cons_prefix_cons] at hsymbol

theorem simple_yields_bare {e : Expr} (he : e.Spellable) (hroom : e.nesting ≤ room nesting)
    (ht : e.Spelled t) (hcs : cs.dropWhile isBlank = t ++ r) (hr : Fresh r) :
    Yields (simple nesting (.ofList cs)) (.bare e) r := by
  have hequals : (r.dropWhile isBlank).head? ≠ some '=' :=
    head?_ne_of_opens_or_closes hr.dropWhile (Or.inr rfl)
  have hdouble : ['=', '='].isPrefixOf (r.dropWhile isBlank) = false := by
    cases hd : r.dropWhile isBlank with
    | nil => rfl
    | cons c k =>
        have hc : '=' ≠ c := by
          rintro rfl
          exact hequals (by rw [hd]; rfl)
        simp [List.isPrefixOf, hc]
  obtain ⟨hlt, e₁⟩ := expr_yields he hroom ht hcs (exprEnds_of_fresh hr)
  refine ⟨hlt, ?_⟩
  simp only [simple, e₁, Input.skipBlanks_ofList, Input.ahead_ofList, hdouble,
    symbol?_eq_none hequals]
  rfl

theorem simple_yields_assign {target value : Expr} {tt tv : List Char} (htarget : target.Spellable)
    (hvalue : value.Spellable)
    (hroom : target.nesting ≤ room nesting ∧ value.nesting ≤ room nesting)
    (htt : target.Spelled tt) (htv : value.Spelled tv)
    (hcs : cs.dropWhile isBlank = tt ++ ' ' :: '=' :: ' ' :: (tv ++ r)) (hr : Fresh r) :
    Yields (simple nesting (.ofList cs)) (.assign target value) r := by
  have hequals : Finds (symbol? '=' (.ofList (' ' :: '=' :: ' ' :: (tv ++ r)))) ()
      (' ' :: (tv ++ r)) := symbol?_finds rfl
  have hspace : (' ' :: (tv ++ r)).dropWhile isBlank = tv ++ r :=
    dropWhile_of_solid (solid_of_opens (opens_of_expr hvalue htv r))
  obtain ⟨hlt, e₁⟩ := expr_yields htarget hroom.1 htt hcs (exprEnds_equals (tv ++ r))
  obtain ⟨hlt', e₂⟩ := hequals
  obtain ⟨hlt'', e₃⟩ := expr_yields hvalue hroom.2 htv hspace (exprEnds_of_fresh hr)
  have hdouble : ['=', '='].isPrefixOf ((' ' :: '=' :: ' ' :: (tv ++ r)).dropWhile isBlank) =
      false := rfl
  unfold simple
  simp only [e₁, Input.skipBlanks_ofList, Input.ahead_ofList, hdouble, e₂, e₃]
  exact ⟨_, rfl⟩

theorem stmt_of_expr {e : Expr} (he : e.Spellable) (ht : e.Spelled t)
    (hcs : cs.dropWhile isBlank = t ++ r) (hr : apart r = true) :
    stmt nesting (.ofList cs) = simple nesting (.ofList cs) := by
  have hnone : ∀ w ∈ foreignWords, keyword? w (.ofList cs) = none :=
    fun w hw => keyword?_eq_none_of_expr hw he ht hcs hr
  rw [stmt, stmtWith]
  simp only [hnone "verify:new" (by decide), hnone "constraint:new" (by decide),
    hnone "if" (by decide), hnone "while" (by decide)]

end Simple

section Blocks

theorem condition_yields {e : Expr} (he : e.Spellable) (hroom : e.nesting ≤ room nesting)
    (ht : e.Spelled t) :
    Yields (condition nesting (.ofList (' ' :: '(' :: ' ' :: (t ++ ' ' :: ')' :: r)))) e r := by
  have hopening : Yields (symbol '(' none (.ofList (' ' :: '(' :: ' ' ::
      (t ++ ' ' :: ')' :: r)))) () (' ' :: (t ++ ' ' :: ')' :: r)) := symbol_yields rfl
  have hclosing : Yields (symbol ')' none (.ofList (' ' :: ')' :: r))) () r := symbol_yields rfl
  have hspace : (' ' :: (t ++ ' ' :: ')' :: r)).dropWhile isBlank = t ++ ' ' :: ')' :: r :=
    dropWhile_of_solid (solid_of_opens (opens_of_expr he ht _))
  have hend : Fresh (' ' :: ')' :: r) := ⟨[' '], ')' :: r, gap_space, Or.inr rfl, rfl⟩
  refine hopening.andThen (Yields.followedBy ?_ hclosing)
  exact expr_yields he hroom ht hspace (exprEnds_of_fresh hend)

theorem opens_of_stmt {s : Stmt} (hs : s.Spellable) (ht : s.Spelled t) (r : List Char) :
    opens (t ++ r) = true := by
  cases ht with
  | bare h =>
      cases hs with
      | bare he => exact opens_of_expr he h r
  | assign h _ =>
      cases hs with
      | assign he _ =>
          rw [List.append_assoc, List.append_assoc]
          exact opens_of_expr he h _
  | verify h => rfl
  | constrain h => rfl
  | branch h _ => rfl
  | loop h _ => rfl

theorem block_yields {n : Nat} {inner : Inner Stmt n} {body : List Stmt} {ts : List Char}
    (hts : Pieces Stmt.Spelled body ts) (hroom : Stmt.nestingAll body + 1 ≤ room nesting)
    (hopens : ∀ s ∈ body, ∀ t, s.Spelled t → ∀ r, opens (t ++ r) = true)
    (hbody : ∀ s ∈ body, ∀ t, s.Spelled t → ∀ nested cs r h, s.nesting ≤ room nested →
      cs.dropWhile isBlank = t ++ r → Fresh r → Yields (inner nested (.ofList cs) h) s r)
    (h : (Input.ofList (' ' :: '{' :: (ts ++ '}' :: r))).length ≤ n) :
    Yields (block inner nesting (.ofList (' ' :: '{' :: (ts ++ '}' :: r))) h) body r := by
  obtain ⟨nested, henter, hnested⟩ := enter_of_room hroom (.ofList (' ' :: '{' :: (ts ++ '}' :: r)))
  have hbrace : Yields (symbol '{' none (.ofList (' ' :: '{' :: (ts ++ '}' :: r)))) ()
      (ts ++ '}' :: r) := symbol_yields rfl
  obtain ⟨hlt, e⟩ := hbrace
  simp only [block, henter, e]
  apply itemsUntilBrace_yields hts hopens _ [] _ rfl
  intro s hs t ht cs r hcs hr _
  exact hbody s hs t ht nested cs r _
    (Nat.le_trans (Stmt.nestingAll_le_iff.mp (Nat.le_refl _) s hs) hnested) hcs hr

theorem conditional_yields {n : Nat} {inner : Inner Stmt n} {form : Expr → List Stmt → Stmt}
    {e : Expr} {body : List Stmt} {ts : List Char} (he : e.Spellable)
    (hcondition : e.nesting ≤ room nesting) (ht : e.Spelled t)
    (hts : Pieces Stmt.Spelled body ts) (hroom : Stmt.nestingAll body + 1 ≤ room nesting)
    (hopens : ∀ s ∈ body, ∀ t, s.Spelled t → ∀ r, opens (t ++ r) = true)
    (hbody : ∀ s ∈ body, ∀ t, s.Spelled t → ∀ nested cs r h, s.nesting ≤ room nested →
      cs.dropWhile isBlank = t ++ r → Fresh r → Yields (inner nested (.ofList cs) h) s r)
    (h : (Input.ofList (' ' :: '(' :: ' ' :: (t ++ ' ' :: ')' :: ' ' :: '{' ::
      (ts ++ '}' :: r)))).length ≤ n) :
    Yields (conditional form inner nesting (.ofList (' ' :: '(' :: ' ' ::
      (t ++ ' ' :: ')' :: ' ' :: '{' :: (ts ++ '}' :: r)))) h) (form e body) r := by
  have hread : Yields (condition nesting (.ofList (' ' :: '(' :: ' ' ::
      (t ++ ' ' :: ')' :: ' ' :: '{' :: (ts ++ '}' :: r))))) e (' ' :: '{' :: (ts ++ '}' :: r)) :=
    condition_yields he hcondition ht
  obtain ⟨hlt, e₁⟩ := hread
  simp only [conditional, e₁]
  exact (block_yields hts hroom hopens hbody _).mapRelax (form e) (Nat.le_of_lt hlt)

end Blocks

section Statements

theorem stmt_yields_verify {e : Expr} (he : e.Spellable) (hroom : e.nesting ≤ room nesting)
    (ht : e.Spelled t) (hcs : cs.dropWhile isBlank = "verify:new".toList ++ ' ' :: (t ++ r))
    (hr : Fresh r) : Yields (stmt nesting (.ofList cs)) (.verify e) r := by
  have hspace : (' ' :: (t ++ r)).dropWhile isBlank = t ++ r :=
    dropWhile_of_solid (solid_of_opens (opens_of_expr he ht r))
  obtain ⟨hlt, e₁⟩ := keyword?_finds (by decide) hcs rfl
  rw [stmt, stmtWith]
  simp only [e₁]
  exact (expr_yields he hroom ht hspace (exprEnds_of_fresh hr)).mapRelax Stmt.verify
    (Nat.le_of_lt hlt)

theorem stmt_yields_constrain {e : Expr} (he : e.Spellable) (hroom : e.nesting ≤ room nesting)
    (ht : e.Spelled t) (hcs : cs.dropWhile isBlank = "constraint:new".toList ++ ' ' :: (t ++ r))
    (hr : Fresh r) : Yields (stmt nesting (.ofList cs)) (.constrain e) r := by
  have hspace : (' ' :: (t ++ r)).dropWhile isBlank = t ++ r :=
    dropWhile_of_solid (solid_of_opens (opens_of_expr he ht r))
  have hverify : keyword? "verify:new" (.ofList cs) = none :=
    keyword?_eq_none_of_statementWord (by decide) (by decide) (by decide) hcs
  obtain ⟨hlt, e₁⟩ := keyword?_finds (by decide) hcs rfl
  rw [stmt, stmtWith]
  simp only [hverify, e₁]
  exact (expr_yields he hroom ht hspace (exprEnds_of_fresh hr)).mapRelax Stmt.constrain
    (Nat.le_of_lt hlt)

theorem stmt_yields_conditional {word : String} {form : Expr → List Stmt → Stmt}
    (hform : word = "if" ∧ form = .branch ∨ word = "while" ∧ form = .loop) {e : Expr}
    {body : List Stmt} {tc ts : List Char} (he : e.Spellable) (hbody : ∀ s ∈ body, s.Spellable)
    (hroom : max e.nesting (Stmt.nestingAll body + 1) ≤ room nesting) (htc : e.Spelled tc)
    (hts : Pieces Stmt.Spelled body ts)
    (hread : ∀ s ∈ body, ∀ t, s.Spelled t → ∀ nested cs r, s.nesting ≤ room nested →
      cs.dropWhile isBlank = t ++ r → Fresh r → Yields (stmt nested (.ofList cs)) s r)
    (hcs : cs.dropWhile isBlank = word.toList ++ ' ' :: '(' :: ' ' ::
      (tc ++ ' ' :: ')' :: ' ' :: '{' :: (ts ++ '}' :: r))) :
    Yields (stmt nesting (.ofList cs)) (form e body) r := by
  obtain ⟨hcondition, hnested⟩ := Nat.max_le.mp hroom
  have hword : word ∈ statementWords ∧ word.toList ≠ [] := by
    rcases hform with ⟨rfl, -⟩ | ⟨rfl, -⟩
    · decide
    · decide
  have hother : ∀ w ∈ statementWords, w ≠ word → keyword? w (.ofList cs) = none := by
    intro w hw hne
    exact keyword?_eq_none_of_statementWord (List.mem_append_left _ hw) hword.1 hne hcs
  obtain ⟨hlt, e₁⟩ := keyword?_finds hword.2 hcs rfl
  have hconditional : ∀ h, Yields (conditional form
      (fun nested s (_ : s.length < (Input.ofList cs).length) => stmt nested s) nesting
      (.ofList (' ' :: '(' :: ' ' :: (tc ++ ' ' :: ')' :: ' ' :: '{' :: (ts ++ '}' :: r)))) h)
      (form e body) r := by
    intro h
    apply conditional_yields he hcondition htc hts hnested
    · intro s hs t ht r
      exact opens_of_stmt (hbody s hs) ht r
    · intro s hs t ht nested cs r _ hnested hcs hr
      exact hread s hs t ht nested cs r hnested hcs hr
  rw [stmt, stmtWith]
  rcases hform with ⟨rfl, rfl⟩ | ⟨rfl, rfl⟩
  · simp only [hother "verify:new" (by decide) (by decide),
      hother "constraint:new" (by decide) (by decide), e₁]
    exact (hconditional _).relax (Nat.le_of_lt hlt)
  · simp only [hother "verify:new" (by decide) (by decide),
      hother "constraint:new" (by decide) (by decide), hother "if" (by decide) (by decide), e₁]
    exact (hconditional _).relax (Nat.le_of_lt hlt)

/-- A statement is read back from each of its spellings where there is room for its parts. -/
theorem stmt_yields {s : Stmt} (hs : s.Spellable) (hroom : s.nesting ≤ room nesting)
    (ht : s.Spelled t) (hcs : cs.dropWhile isBlank = t ++ r) (hr : Fresh r) :
    Yields (stmt nesting (.ofList cs)) s r := by
  induction s generalizing nesting cs r t with
  | bare e =>
      cases hs with
      | bare he =>
          cases ht with
          | bare ht =>
              rw [stmt_of_expr he ht hcs hr.apart]
              exact simple_yields_bare he hroom ht hcs hr
  | assign target value =>
      cases hs with
      | assign htarget hvalue =>
          cases ht with
          | @assign _ _ tt tv htt htv =>
              have htext : cs.dropWhile isBlank = tt ++ ' ' :: '=' :: ' ' :: (tv ++ r) := by
                simpa using hcs
              rw [stmt_of_expr htarget htt htext rfl]
              exact simple_yields_assign htarget hvalue (Nat.max_le.mp hroom) htt htv htext hr
  | verify e =>
      cases hs with
      | verify he =>
          cases ht with
          | verify ht => exact stmt_yields_verify he hroom ht (by simpa using hcs) hr
  | constrain e =>
      cases hs with
      | constrain he =>
          cases ht with
          | constrain ht => exact stmt_yields_constrain he hroom ht (by simpa using hcs) hr
  | branch e body ih =>
      cases hs with
      | branch he hbody =>
          cases ht with
          | branch htc hts =>
              apply stmt_yields_conditional (Or.inl ⟨rfl, rfl⟩) he hbody hroom htc hts
              · intro s hs t ht nested cs r hnested hcs hr
                exact ih s hs (hbody s hs) hnested ht hcs hr
              · simpa using hcs
  | loop e body ih =>
      cases hs with
      | loop he hbody =>
          cases ht with
          | loop htc hts =>
              apply stmt_yields_conditional (Or.inr ⟨rfl, rfl⟩) he hbody hroom htc hts
              · intro s hs t ht nested cs r hnested hcs hr
                exact ih s hs (hbody s hs) hnested ht hcs hr
              · simpa using hcs

theorem keyword?_eq_none_of_stmt {s : Stmt} (hs : s.Spellable) (ht : s.Spelled t)
    (hcs : cs.dropWhile isBlank = t ++ r) (hr : apart r = true) {text : String} {phase : Phase}
    (h : (text, phase) ∈ declarationKeywords) : keyword? text (.ofList cs) = none := by
  have hforeign := foreign_of_declarationKeyword h
  have hother : ∀ p ∈ declarationKeywords, p.1 ∉ statementWords := by decide
  have hword : ∀ word ∈ statementWords, ∀ k, cs.dropWhile isBlank = word.toList ++ ' ' :: k →
      keyword? text (.ofList cs) = none :=
    fun word hw k hk => keyword?_eq_none_of_statementWord hforeign hw
      (fun heq => hother _ h (heq ▸ hw)) hk
  cases ht with
  | bare ht =>
      cases hs with
      | bare he => exact keyword?_eq_none_of_expr hforeign he ht hcs hr
  | assign htt _ =>
      cases hs with
      | assign he _ =>
          rw [List.append_assoc, List.append_assoc] at hcs
          exact keyword?_eq_none_of_expr hforeign he htt hcs rfl
  | verify ht => exact hword "verify:new" (by decide) _ hcs
  | constrain ht => exact hword "constraint:new" (by decide) _ hcs
  | branch htc hts => exact hword "if" (by decide) _ hcs
  | loop htc hts => exact hword "while" (by decide) _ hcs

end Statements

end FuzzFrontend.Program.Grammar
