import FuzzFrontend.Proofs.Generator.ReadTerm

namespace FuzzFrontend.Generator.Grammar

open Scan

variable {cs r t : List Char}

section Groupings

/-- The chain that a state is, as it is grouped. -/
def grouping : GenExpr → Grouping GenExpr ArithmeticOp
  | .compound left op right => .node (grouping left) op (grouping right)
  | e => .leaf e

theorem fold_grouping (e : GenExpr) : (grouping e).fold .compound = e := by
  induction e with
  | compound left op right ihl ihr => simp only [grouping, Grouping.fold, ihl, ihr]
  | _ => rfl

theorem spelled_grouping {e : GenExpr} (h : e.Spelled t) :
    (grouping e).Spelled GenExpr.Spelled (fun op => op.val.symbol.toList) t := by
  induction e generalizing t with
  | compound left op right ihl ihr =>
      cases h with
      | compound hl hr => exact .node (ihl hl) (ihr hr)
  | _ => exact .leaf h

variable {precedence : Precedence}

theorem atLeast_grouping {e : GenExpr} {bound : Nat}
    (h : ∀ op ∈ e.rootOp?, bound ≤ precedence.level op) :
    (grouping e).AtLeast (fun op => precedence.level op.val) bound := by
  cases e with
  | compound left op right => exact h op.val rfl
  | _ => trivial

theorem layered_grouping {e : GenExpr} (h : e.Spellable precedence) :
    (grouping e).Layered fun op => precedence.level op.val := by
  induction h with
  | compound _ _ hleft hright ihl ihr =>
      exact ⟨ihl, ihr, atLeast_grouping hleft, atLeast_grouping hright⟩
  | _ => trivial

end Groupings

section States

variable {precedence : Precedence} {nesting : Nesting}

theorem solid_label (kind : Scalar) (k : List Char) :
    solid (kind.label.toList ++ k) = true := by
  cases kind <;> rfl

theorem solid_of_spelled {e : GenExpr} (h : e.Spelled t) : solid t = true := by
  induction h with
  | constant h =>
      cases h with
      | literal => exact solid_label _ _
      | text => rfl
  | least => exact solid_label _ _
  | greatest => exact solid_label _ _
  | random => exact solid_label _ _
  | compound _ _ ihl _ => exact solid_append ihl _

/-- The term is read from each of its spellings. -/
def Readable (precedence : Precedence) (nesting : Nesting) (a : GenExpr) : Prop :=
  ∀ n t cs r, ∀ h : (Input.ofList cs).length ≤ n, a.Spelled t → cs.dropWhile isBlank = t ++ r →
    Yields (term (fun nested s _ => state precedence nested s) nesting (.ofList cs) h) a r

theorem terms_yields {n : Nat} {links : List (ArithmeticOp × GenExpr)} {ts : List Char}
    (hts : Grouping.LinksSpelled GenExpr.Spelled (fun op => op.val.symbol.toList) links ts)
    (hread : ∀ p ∈ links, Readable precedence nesting p.2) (hr : StateEnds r)
    (found : List (ArithmeticOp × GenExpr)) (hcs : cs = ts ++ r)
    (h : (Input.ofList cs).length < n) :
    Yields (terms (fun nested s _ => state precedence nested s) nesting found (.ofList cs) h)
      (found.reverse ++ links) r := by
  induction hts generalizing found cs with
  | nil =>
      obtain rfl : cs = r := hcs
      unfold terms
      simp only [show arithmeticOp? (.ofList cs) = none from hr, List.append_nil]
      exact ⟨h, rfl⟩
  | @cons op a links t ts ha hts ih =>
      have hsymbol : cs.dropWhile isBlank = op.val.symbol.toList ++ ' ' :: (t ++ (ts ++ r)) := by
        have hsolid := dropWhile_solid_append (solid_symbol op) (' ' :: (t ++ (ts ++ r)))
        simpa [hcs, isBlank] using hsolid
      have hterm : (' ' :: (t ++ (ts ++ r))).dropWhile isBlank = t ++ (ts ++ r) :=
        dropWhile_solid_append (solid_of_spelled ha) _
      obtain ⟨hlt, e⟩ := arithmeticOp?_finds hsymbol
      obtain ⟨hlt', e'⟩ := hread (op, a) List.mem_cons_self n t _ _
        (Nat.le_of_lt (Nat.lt_trans hlt h)) ha hterm
      have hrest := ih (fun p hp => hread p (List.mem_cons_of_mem _ hp)) ((op, a) :: found) rfl
        (Nat.lt_trans hlt' (Nat.lt_trans hlt h))
      unfold terms
      simp only [e, e']
      simpa using hrest

theorem state_yields_of_terms {e : GenExpr} (he : e.Spellable precedence)
    (hread : ∀ a ∈ (grouping e).operands, Readable precedence nesting a) (ht : e.Spelled t)
    (hcs : cs.dropWhile isBlank = t ++ r) (hr : StateEnds r) :
    Yields (state precedence nesting (.ofList cs)) e r := by
  obtain ⟨t₀, ts, hfirst, hlinks, rfl⟩ := (spelled_grouping ht).chain
  have hreadFirst := hread (grouping e).first List.mem_cons_self
  have hreadLinks : ∀ p ∈ (grouping e).links, Readable precedence nesting p.2 :=
    fun p hp => hread p.2 (List.mem_cons_of_mem _ (List.mem_map_of_mem hp))
  rw [List.append_assoc] at hcs
  obtain ⟨hlt, e₁⟩ := hreadFirst _ t₀ cs (ts ++ r) (Nat.le_refl _) hfirst hcs
  obtain ⟨hlt', e₂⟩ := terms_yields hlinks hreadLinks hr [] rfl hlt
  have hgroup : grouped precedence ((grouping e).first, (grouping e).links) = e := by
    rw [grouped, Chain.group_of_layered (layered_grouping he), fold_grouping]
  have hchain : Yields (chain (.ofList cs) (fun nested s _ => state precedence nested s) nesting)
      ((grouping e).first, (grouping e).links) r := by
    refine ⟨hlt', ?_⟩
    simp only [chain, e₁, e₂]
    rfl
  rw [state]
  simpa only [hgroup] using hchain.map (grouped precedence)

theorem readable_terms {e : GenExpr} (he : e.Spellable precedence)
    (hroom : e.nesting ≤ room nesting) :
    ∀ a ∈ (grouping e).operands, Readable precedence nesting a := by
  induction e generalizing nesting with
  | compound left op right ihl ihr =>
      obtain ⟨hleft, hright⟩ := Nat.max_le.mp hroom
      cases he with
      | compound hl hr _ _ => exact Grouping.forall_operands_node (ihl hl hleft) (ihr hr hright)
  | constant value =>
      refine Grouping.forall_operands_leaf fun n t cs r h ht hcs => ?_
      cases ht with
      | constant ht =>
          cases ht with
          | literal hkind hvalue hc =>
              refine term_yields_typed hkind (by simpa using hcs) h fun hle => ?_
              exact constant_yields hvalue hc hle
          | text => exact text_yields hcs h
  | least ty =>
      refine Grouping.forall_operands_leaf fun n t cs r h ht hcs => ?_
      cases ht with
      | least hkind =>
          refine term_yields_typed hkind (by simpa using hcs) h fun hle => ?_
          exact least_yields hle
  | greatest ty =>
      refine Grouping.forall_operands_leaf fun n t cs r h ht hcs => ?_
      cases ht with
      | greatest hkind =>
          refine term_yields_typed hkind (by simpa using hcs) h fun hle => ?_
          exact greatest_yields hle
  | random ty low high ihl ihh =>
      refine Grouping.forall_operands_leaf fun n t cs r h ht hcs => ?_
      cases he with
      | random _ hl hh =>
          cases ht with
          | @random kind _ _ tl th hkind htl hth =>
              have hlow : ReadFrom (fun nested s (_ : s.length < n) => state precedence nested s)
                  low tl :=
                fun nested cs r _ hnested hcs hr =>
                  state_yields_of_terms hl (ihl hl hnested) htl hcs hr
              have hhigh : ReadFrom (fun nested s (_ : s.length < n) => state precedence nested s)
                  high th :=
                fun nested cs r _ hnested hcs hr =>
                  state_yields_of_terms hh (ihh hh hnested) hth hcs hr
              refine term_yields_typed hkind (by simpa using hcs) h fun hle => ?_
              exact random_yields hroom hlow hhigh (solid_of_spelled htl) (solid_of_spelled hth)
                rfl hle

/-- A state is read back from each of its spellings where there is room for its random values. -/
theorem state_yields {e : GenExpr} (he : e.Spellable precedence) (hroom : e.nesting ≤ room nesting)
    (ht : e.Spelled t) (hcs : cs.dropWhile isBlank = t ++ r) (hr : StateEnds r) :
    Yields (state precedence nesting (.ofList cs)) e r :=
  state_yields_of_terms he (readable_terms he hroom) ht hcs hr

end States

end FuzzFrontend.Generator.Grammar
