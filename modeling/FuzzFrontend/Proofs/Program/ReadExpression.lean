import FuzzFrontend.Proofs.Grouping
import FuzzFrontend.Proofs.Program.ReadOperand

namespace FuzzFrontend.Program.Grammar

open Scan

variable {cs r t : List Char}

section Groupings

/-- The chain that an expression is, as it is grouped. -/
def grouping : Expr → Grouping Expr BinaryOp
  | .compound left op right => .node (grouping left) op (grouping right)
  | e => .leaf e

theorem fold_grouping (e : Expr) : (grouping e).fold .compound = e := by
  induction e with
  | compound left op right ihl ihr => simp only [grouping, Grouping.fold, ihl, ihr]
  | _ => rfl

theorem atLeast_grouping {e : Expr} {bound : Nat} (h : ∀ op ∈ e.rootOp?, bound ≤ op.level) :
    (grouping e).AtLeast BinaryOp.level bound := by
  cases e with
  | compound left op right => exact h op rfl
  | _ => trivial

theorem layered_grouping {e : Expr} (h : e.Spellable) : (grouping e).Layered BinaryOp.level := by
  induction h with
  | compound _ _ hleft hright ihl ihr =>
      exact ⟨ihl, ihr, atLeast_grouping hleft, atLeast_grouping hright⟩
  | _ => trivial

theorem spelled_grouping {e : Expr} (h : e.Spelled t) :
    (grouping e).Spelled Expr.Spelled (fun op => op.symbol.toList) t := by
  induction e generalizing t with
  | compound left op right ihl ihr =>
      cases h with
      | compound hl hr => exact .node (ihl hl) (ihr hr)
  | _ => exact .leaf h

end Groupings

section Boundaries

/-- After a gap neither a point follows, nor an operator. -/
structure ExprEnds (r : List Char) : Prop where
  operand : OperandEnds r
  noOperator : binaryOp? (.ofList r) = none

theorem binaryOp?_eq_none_of_opens_or_closes
    (h : opens (cs.dropWhile isBlank) = true ∨ closes (cs.dropWhile isBlank) = true) :
    binaryOp? (.ofList cs) = none := by
  have hheads : ∀ op ∈ searchedOperators, op.symbol.toList.head?.any
      (fun c => isWordStart c || c.isDigit || c == '#' || c == '}' || c == ')') = false := by decide
  have hnone : ∀ c rest (op : BinaryOp), (isWordStart c || c.isDigit || c == '#' || c == '}' ||
      c == ')') = true → ¬ op.symbol.toList <+: c :: rest := by
    intro c rest op hc hprefix
    have hhead := hheads op (mem_searchedOperators op)
    cases hs : op.symbol.toList with
    | nil => exact op.symbol_ne_empty hs
    | cons d k =>
        rw [hs] at hprefix hhead
        obtain rfl := (List.cons_prefix_cons.mp hprefix).1
        rw [List.head?_cons, Option.any_some, hc] at hhead
        exact absurd hhead Bool.false_ne_true.symm
  apply binaryOp?_eq_none
  intro op hprefix
  rcases h with h | h
  · rcases opens_cases h with ⟨d, rest, hd, heq⟩ | ⟨c, rest, hc, heq⟩ | ⟨c, rest, hc, heq⟩
    · rw [heq] at hprefix ⊢
      refine ⟨?_, hd⟩
      cases op <;> simp [BinaryOp.symbol, List.cons_prefix_cons] at hprefix ⊢
    · rw [heq] at hprefix
      have hand : c = '&' := by
        cases op <;> simp [BinaryOp.symbol, List.cons_prefix_cons] at hprefix
        exact hprefix.symm
      exact absurd hand hc
    · rw [heq] at hprefix
      refine absurd hprefix (hnone c rest op ?_)
      rcases hc with hc | hc | rfl
      · simp [hc]
      · simp [hc]
      · rfl
  · cases heq : cs.dropWhile isBlank with
    | nil =>
        rw [heq, List.prefix_nil] at hprefix
        exact absurd hprefix op.symbol_ne_empty
    | cons c rest =>
        rw [heq] at hprefix h
        refine absurd hprefix (hnone c rest op ?_)
        have hc : c = '}' ∨ c = ')' := by simpa [closes] using h
        rcases hc with rfl | rfl <;> rfl

theorem head?_ne_of_opens_or_closes {s : List Char} (h : opens s = true ∨ closes s = true)
    {c : Char} (hc : c = '.' ∨ c = '=') : s.head? ≠ some c := by
  intro hhead
  cases s with
  | nil => cases hhead
  | cons d s =>
      obtain rfl : d = c := by simpa using hhead
      rcases hc with rfl | rfl <;> simp [opens, closes, isWordStart] at h

theorem exprEnds_of_fresh (h : Fresh r) : ExprEnds r := by
  refine ⟨?_, binaryOp?_eq_none_of_opens_or_closes h.dropWhile⟩
  obtain ⟨g, s, hg, hs, rfl⟩ := h
  exact ⟨g, s, hg, ⟨dropWhile_of_opens_or_closes hs,
    head?_ne_of_opens_or_closes hs (Or.inl rfl)⟩, rfl⟩

/-- The text of operators and operands. -/
abbrev LinksSpelled : List (BinaryOp × Expr) → List Char → Prop :=
  Grouping.LinksSpelled Expr.Spelled fun op => op.symbol.toList

theorem operandEnds_of_links {links : List (BinaryOp × Expr)} {ts : List Char}
    (h : LinksSpelled links ts) (hr : OperandEnds r) : OperandEnds (ts ++ r) := by
  cases h with
  | nil => exact hr
  | @cons op a links t ts ha h =>
      refine ⟨[' '], op.symbol.toList ++ ' ' :: (t ++ ts) ++ r, gap_space, ⟨?_, ?_⟩, by simp⟩
      · cases op <;> rfl
      · cases op <;> simp [BinaryOp.symbol]

end Boundaries

section Chains

variable {nesting : Nesting}

/-- The operand is read from each of its spellings. -/
structure Readable (nesting : Nesting) (a : Expr) : Prop where
  opens : ∀ t, a.Spelled t → ∀ r, opens (t ++ r) = true
  yields : ∀ n t cs r, ∀ h : (Input.ofList cs).length ≤ n, a.Spelled t →
    cs.dropWhile isBlank = t ++ r → OperandEnds r →
      Yields (operand (fun nested s _ => expr nested s) nesting (.ofList cs) h) a r

theorem opens_of_spelling {op : UnaryOp} {v spelling : String} (hv : isName v = true)
    (h : spelling ∈ op.spellings) (r : List Char) :
    opens (spelling.toList ++ v.toList ++ r) = true := by
  obtain ⟨c, w, heq, hc⟩ := head_of_isName hv
  rcases spellings_cases h with ⟨-, rfl⟩ | ⟨-, rfl⟩ | ⟨text, hmem, rfl⟩
  · simpa [heq] using opens_of_isWordStart hc (w ++ r)
  · have hne : c ≠ '&' := by
      rintro rfl
      exact absurd hc (by decide)
    simpa [heq, opens] using hne
  · obtain ⟨k, hk⟩ := head_of_unaryKeyword hmem
    simp [hk, opens, isWordStart]

theorem opens_of_expr {e : Expr} (he : e.Spellable) (ht : e.Spelled t) (r : List Char) :
    opens (t ++ r) = true := by
  induction e generalizing t r with
  | compound left op right ihl _ =>
      cases he with
      | compound hl _ _ _ =>
          cases ht with
          | compound htl _ =>
              rw [List.append_assoc]
              exact ihl hl htl _
  | integer text =>
      cases he with
      | integer h =>
          cases ht
          exact opens_of_isNumber (Or.inl h) r
  | decimal text =>
      cases he with
      | decimal h =>
          cases ht
          exact opens_of_isNumber (Or.inr h) r
  | var op v =>
      cases he with
      | var h =>
          cases ht with
          | var hspelling => exact opens_of_spelling h hspelling r
  | call f arguments _ =>
      cases ht
      rfl
  | field object member =>
      cases he with
      | field hobject hmember =>
          cases ht
          rw [List.append_assoc]
          exact opens_of_isWord (isWord_of_isName hobject) _

theorem operands_yields {n : Nat} {links : List (BinaryOp × Expr)} {ts : List Char}
    (hts : LinksSpelled links ts) (hread : ∀ p ∈ links, Readable nesting p.2) (hr : ExprEnds r)
    (found : List (BinaryOp × Expr)) (hcs : cs = ts ++ r) (h : (Input.ofList cs).length < n) :
    Yields (operands (fun nested s _ => expr nested s) nesting found (.ofList cs) h)
      (found.reverse ++ links) r := by
  induction hts generalizing found cs with
  | nil =>
      obtain rfl : cs = r := hcs
      unfold operands
      simp only [hr.noOperator, List.append_nil]
      exact ⟨h, rfl⟩
  | @cons op a links t ts ha hts ih =>
      obtain ⟨hopens, hyields⟩ := hread (op, a) List.mem_cons_self
      have hsymbol : cs.dropWhile isBlank = op.symbol.toList ++ ' ' :: (t ++ (ts ++ r)) := by
        rw [hcs]
        cases op <;> simp [BinaryOp.symbol, isBlank]
      have hoperand : (' ' :: (t ++ (ts ++ r))).dropWhile isBlank = t ++ (ts ++ r) :=
        dropWhile_of_solid (solid_of_opens (hopens t ha (ts ++ r)))
      obtain ⟨hlt, e⟩ := binaryOp?_finds hsymbol
      obtain ⟨hlt', e'⟩ := hyields n t _ _ (Nat.le_of_lt (Nat.lt_trans hlt h)) ha hoperand
        (operandEnds_of_links hts hr.operand)
      have hrest := ih (fun p hp => hread p (List.mem_cons_of_mem _ hp)) ((op, a) :: found) rfl
        (Nat.lt_trans hlt' (Nat.lt_trans hlt h))
      unfold operands
      simp only [e, e']
      simpa using hrest

theorem expr_yields_of_operands {e : Expr} (he : e.Spellable)
    (hread : ∀ a ∈ (grouping e).operands, Readable nesting a) (ht : e.Spelled t)
    (hcs : cs.dropWhile isBlank = t ++ r) (hr : ExprEnds r) :
    Yields (expr nesting (.ofList cs)) e r := by
  obtain ⟨t₀, ts, hfirst, hlinks, rfl⟩ := (spelled_grouping ht).chain
  have hreadFirst := hread (grouping e).first List.mem_cons_self
  have hreadLinks : ∀ p ∈ (grouping e).links, Readable nesting p.2 :=
    fun p hp => hread p.2 (List.mem_cons_of_mem _ (List.mem_map_of_mem hp))
  rw [List.append_assoc] at hcs
  obtain ⟨hlt, e₁⟩ := hreadFirst.yields _ t₀ cs (ts ++ r) (Nat.le_refl _) hfirst hcs
    (operandEnds_of_links hlinks hr.operand)
  obtain ⟨hlt', e₂⟩ := operands_yields hlinks hreadLinks hr [] rfl hlt
  have hgroup : grouped ((grouping e).first, (grouping e).links) = e := by
    rw [grouped, Chain.group_of_layered (layered_grouping he), fold_grouping]
  have hchain : Yields (chain (.ofList cs) (fun nested s _ => expr nested s) nesting)
      ((grouping e).first, (grouping e).links) r := by
    refine ⟨hlt', ?_⟩
    simp only [chain, e₁, e₂]
    rfl
  rw [expr]
  simpa only [hgroup] using hchain.map grouped

theorem readable_operands {e : Expr} (he : e.Spellable) (hroom : e.nesting ≤ room nesting) :
    ∀ a ∈ (grouping e).operands, Readable nesting a := by
  induction e generalizing nesting with
  | compound left op right ihl ihr =>
      obtain ⟨hleft, hright⟩ := Nat.max_le.mp hroom
      cases he with
      | compound hl hr _ _ => exact Grouping.forall_operands_node (ihl hl hleft) (ihr hr hright)
  | integer text =>
      refine Grouping.forall_operands_leaf ⟨fun t ht r => opens_of_expr he ht r, ?_⟩
      intro n t cs r h ht hcs hr
      cases he with
      | integer htext =>
          cases ht
          have hread : Yields (operand (fun nested s _ => expr nested s) nesting (.ofList cs) h)
              (if '.' ∈ text.toList then .decimal text else .integer text) r :=
            literal_yields (Or.inl htext) hcs hr h
          rwa [if_neg (point_not_mem_of_isInteger htext)] at hread
  | decimal text =>
      refine Grouping.forall_operands_leaf ⟨fun t ht r => opens_of_expr he ht r, ?_⟩
      intro n t cs r h ht hcs hr
      cases he with
      | decimal htext =>
          cases ht
          have hread : Yields (operand (fun nested s _ => expr nested s) nesting (.ofList cs) h)
              (if '.' ∈ text.toList then .decimal text else .integer text) r :=
            literal_yields (Or.inr htext) hcs hr h
          rwa [if_pos (point_mem_of_isDecimal htext)] at hread
  | var op v =>
      refine Grouping.forall_operands_leaf ⟨fun t ht r => opens_of_expr he ht r, ?_⟩
      intro n t cs r h ht hcs hr
      cases he with
      | var hv =>
          cases ht with
          | var hspelling =>
              rw [List.append_assoc] at hcs
              exact var_yields hv hspelling hcs hr h
  | call f arguments ih =>
      refine Grouping.forall_operands_leaf ⟨fun t ht r => opens_of_expr he ht r, ?_⟩
      intro n t cs r h ht hcs hr
      cases he with
      | call hf harguments =>
          cases ht with
          | call hts =>
              apply call_yields hf hts hroom
              · intro b hb t ht r
                exact opens_of_expr (harguments b hb) ht r
              · intro b hb t ht nested cs r h hnested hcs hr
                -- An argument is a chain of its own, whose operands are smaller than the call.
                have hoperands := ih b hb (harguments b hb) hnested
                exact expr_yields_of_operands (harguments b hb) hoperands ht hcs
                  (exprEnds_of_fresh hr)
              · simpa using hcs
  | field object member =>
      refine Grouping.forall_operands_leaf ⟨fun t ht r => opens_of_expr he ht r, ?_⟩
      intro n t cs r h ht hcs hr
      cases he with
      | field hobject hmember =>
          cases ht
          rw [List.append_assoc] at hcs
          exact field_operand_yields hobject hmember hcs hr h

/-- An expression is read back from each of its spellings where there is room for its calls. -/
theorem expr_yields {e : Expr} (he : e.Spellable) (hroom : e.nesting ≤ room nesting)
    (ht : e.Spelled t) (hcs : cs.dropWhile isBlank = t ++ r) (hr : ExprEnds r) :
    Yields (expr nesting (.ofList cs)) e r :=
  expr_yields_of_operands he (readable_operands he hroom) ht hcs hr

end Chains

end FuzzFrontend.Program.Grammar
