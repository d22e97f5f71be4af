import FuzzFrontend.Proofs.Program.ReadExpression
import FuzzFrontend.Proofs.Stacks
import FuzzFrontend.Proofs.Writing

namespace FuzzFrontend

namespace Chain

variable {α ω : Type} {level : ω → Nat} {combine : α → ω → α → α}

/-- The last of the loosest operators with the operand after it, between what stands before and what
stands after. -/
def lastLoosest? (level : ω → Nat) :
    List (ω × α) → Option (List (ω × α) × (ω × α) × List (ω × α))
  | [] => none
  | link :: links =>
    match lastLoosest? level links with
    | none => some ([], link, links)
    | some (before, root, after) =>
      if level root.1 ≤ level link.1 then some (link :: before, root, after)
      else some ([], link, links)

theorem lastLoosest?_eq_none_iff {links : List (ω × α)} :
    lastLoosest? level links = none ↔ links = [] := by
  cases links with
  | nil => simp [lastLoosest?]
  | cons link links =>
      simp only [lastLoosest?]
      split
      · simp
      · split <;> simp

theorem lastLoosest?_spec {links before after : List (ω × α)} {root : ω × α}
    (h : lastLoosest? level links = some (before, root, after)) :
    links = before ++ root :: after ∧ (∀ l ∈ before, level root.1 ≤ level l.1) ∧
      ∀ l ∈ after, level root.1 < level l.1 := by
  induction links generalizing before root after with
  | nil => cases h
  | cons link links ih =>
      simp only [lastLoosest?] at h
      split at h
      · rename_i hnone
        cases h
        obtain rfl := lastLoosest?_eq_none_iff.mp hnone
        simp
      · rename_i before' root' after' hsome
        obtain ⟨rfl, hbefore, hafter⟩ := ih hsome
        split at h
        · rename_i hle
          cases h
          exact ⟨rfl, List.forall_mem_cons.mpr ⟨hle, hbefore⟩, hafter⟩
        · rename_i hlt
          cases h
          -- All that follows binds at least as tightly as the root found there.
          have htighter : level link.1 < level root'.1 := Nat.not_le.mp hlt
          refine ⟨rfl, by simp, fun l hl => ?_⟩
          rcases List.mem_append.mp hl with hl | hl
          · exact Nat.lt_of_lt_of_le htighter (hbefore l hl)
          · rcases List.mem_cons.mp hl with rfl | hl
            · exact htighter
            · exact Nat.lt_trans htighter (hafter l hl)

theorem lastLoosest?_append {before after : List (ω × α)} {root : ω × α}
    (hbefore : ∀ l ∈ before, level root.1 ≤ level l.1)
    (hafter : ∀ l ∈ after, level root.1 < level l.1) :
    lastLoosest? level (before ++ root :: after) = some (before, root, after) := by
  induction before with
  | nil =>
      simp only [List.nil_append, lastLoosest?]
      split
      · rfl
      · rename_i before' root' after' hsome
        obtain ⟨rfl, -, -⟩ := lastLoosest?_spec hsome
        have hroot : level root.1 < level root'.1 :=
          hafter root' (List.mem_append_right _ List.mem_cons_self)
        rw [if_neg (Nat.not_le.mpr hroot)]
  | cons link before ih =>
      obtain ⟨hlink, hbefore⟩ := List.forall_mem_cons.mp hbefore
      simp only [List.cons_append, lastLoosest?, ih hbefore, if_pos hlink]

/-- The tree of a chain by its definition. -/
def splitTree (level : ω → Nat) (combine : α → ω → α → α) (first : α) (links : List (ω × α)) : α :=
  match h : lastLoosest? level links with
  | none => first
  | some (before, root, after) =>
    have := congrArg List.length (lastLoosest?_spec h).1
    combine (splitTree level combine first before) root.1
      (splitTree level combine root.2 after)
termination_by links.length
decreasing_by
  · simp only [List.length_append, List.length_cons] at this
    omega
  · simp only [List.length_append, List.length_cons] at this
    omega

theorem splitTree_nil (first : α) : splitTree level combine first [] = first := by
  rw [splitTree]
  split
  · rfl
  · rename_i h
    cases h

theorem splitTree_append (first : α) {before after : List (ω × α)} {root : ω × α}
    (hbefore : ∀ l ∈ before, level root.1 ≤ level l.1)
    (hafter : ∀ l ∈ after, level root.1 < level l.1) :
    splitTree level combine first (before ++ root :: after) =
      combine (splitTree level combine first before) root.1
        (splitTree level combine root.2 after) := by
  have hroot := lastLoosest?_append hbefore hafter
  rw [splitTree]
  split
  · rename_i hnone
    rw [hroot] at hnone
    cases hnone
  · rename_i hsome
    rw [hroot] at hsome
    cases hsome
    rfl

theorem le_level_of_mem_links {t : Grouping α ω} {bound : Nat} (ht : t.Layered level)
    (hbound : t.AtLeast level bound) : ∀ l ∈ t.links, bound ≤ level l.1 := by
  induction t generalizing bound with
  | leaf a => simp [Grouping.links]
  | node left op right ihl ihr =>
      obtain ⟨hleft, hright, hlop, hrop⟩ := ht
      intro l hl
      rcases List.mem_append.mp hl with hl | hl
      · exact Nat.le_trans hbound (ihl hleft hlop l hl)
      · rcases List.mem_cons.mp hl with rfl | hl
        · exact hbound
        · exact Nat.le_trans hbound (Nat.le_of_succ_le (ihr hright hrop l hl))

theorem splitTree_of_layered {t : Grouping α ω} (ht : t.Layered level) :
    splitTree level combine t.first t.links = t.fold combine := by
  induction t with
  | leaf a => exact splitTree_nil a
  | node left op right ihl ihr =>
      obtain ⟨hleft, hright, hlop, hrop⟩ := ht
      calc splitTree level combine left.first (left.links ++ (op, right.first) :: right.links)
          = combine (splitTree level combine left.first left.links) op
              (splitTree level combine right.first right.links) :=
            splitTree_append left.first (le_level_of_mem_links hleft hlop)
              (le_level_of_mem_links hright hrop)
        _ = combine (left.fold combine) op (right.fold combine) := by rw [ihl hleft, ihr hright]

theorem group_eq_splitTree (first : α) (links : List (ω × α)) :
    group level combine first links = splitTree level combine first links := by
  obtain ⟨t, ht, rfl, rfl, hgroup⟩ := exists_layered level combine first links
  rw [hgroup, splitTree_of_layered ht]

end Chain

namespace Program.Grammar

open Scan

section Operands

theorem rootOp?_of_operand {n : Nat} {inner : Inner Expr n} {nesting : Nesting} {s : Input}
    {h : s.length ≤ n} {p : Parsed Expr s.length} (hp : operand inner nesting s h = .ok p) :
    p.value.rootOp? = none := by
  unfold operand at hp
  split at hp
  · obtain ⟨q, -, rfl⟩ := map_eq_ok.mp hp
    dsimp only [Parsed.map]
    split <;> rfl
  · split at hp
    · obtain ⟨q, hq, rfl⟩ := map_eq_ok.mp hp
      unfold callRest at hq
      split at hq
      · cases hq
      · split at hq
        · cases hq
        · obtain ⟨arguments, -, rfl⟩ := map_eq_ok.mp hq
          rfl
    · split at hp
      · obtain ⟨q, -, rfl⟩ := map_eq_ok.mp hp
        rfl
      · split at hp
        · cases hp
        · unfold nameOrField at hp
          split at hp
          · cases hp
          · split at hp
            · cases hp
              rfl
            · obtain ⟨q, -, rfl⟩ := map_eq_ok.mp hp
              rfl

theorem rootOp?_of_operands {n : Nat} {inner : Inner Expr n} {nesting : Nesting}
    {found : List (BinaryOp × Expr)} {s : Input} {h : s.length < n}
    {p : Parsed (List (BinaryOp × Expr)) n} (hfound : ∀ l ∈ found, l.2.rootOp? = none)
    (hp : operands inner nesting found s h = .ok p) : ∀ l ∈ p.value, l.2.rootOp? = none := by
  fun_induction operands inner nesting found s h with
  | case1 found s h hnone =>
      cases hp
      simpa using hfound
  | case2 found s h op hop e he => cases hp
  | case3 found s h op hop q hq ih =>
      exact ih (List.forall_mem_cons.mpr ⟨rootOp?_of_operand hq, hfound⟩) hp

theorem rootOp?_of_chain {s : Input} {inner : Inner Expr s.length} {nesting : Nesting}
    {p : Parsed (Expr × List (BinaryOp × Expr)) s.length} (hp : chain s inner nesting = .ok p) :
    p.value.1.rootOp? = none ∧ ∀ l ∈ p.value.2, l.2.rootOp? = none := by
  unfold chain at hp
  split at hp
  · cases hp
  · rename_i first hfirst
    obtain ⟨links, hlinks, rfl⟩ := map_eq_ok.mp hp
    exact ⟨rootOp?_of_operand hfirst, rootOp?_of_operands (by simp) hlinks⟩

end Operands

theorem grouping_fold {t : Grouping Expr BinaryOp} (h : ∀ a ∈ t.operands, a.rootOp? = none) :
    grouping (t.fold .compound) = t := by
  induction t with
  | leaf a =>
      have ha : a.rootOp? = none := h a List.mem_cons_self
      cases a with
      | compound left op right => cases ha
      | _ => rfl
  | node left op right ihl ihr =>
      rw [Grouping.operands_node] at h
      have hleft := ihl fun a ha => h a (List.mem_append_left _ ha)
      have hright := ihr fun a ha => h a (List.mem_append_right _ ha)
      simp only [Grouping.fold, grouping, hleft, hright]

/-- The operands and operators of a chain stand in its tree as they stand in the chain. -/
theorem chain_of_grouped {first : Expr} {links : List (BinaryOp × Expr)}
    (hfirst : first.rootOp? = none) (hlinks : ∀ l ∈ links, l.2.rootOp? = none) :
    ((grouping (grouped (first, links))).first, (grouping (grouped (first, links))).links) =
      (first, links) := by
  obtain ⟨t, -, rfl, rfl, hgroup⟩ := Chain.exists_layered BinaryOp.level .compound first links
  have hoperands : ∀ a ∈ t.operands, a.rootOp? = none := by
    intro a ha
    rcases List.mem_cons.mp ha with rfl | ha
    · exact hfirst
    · obtain ⟨l, hl, rfl⟩ := List.mem_map.mp ha
      exact hlinks l hl
  rw [grouped, hgroup, grouping_fold hoperands]

/-- The tree of any operands and operators is the one split at its last loosest operator, and with
two stacks it is the only thing left in the end. What is read as an expression is the tree of the
operands and operators that are read, and these stand in it in their order. -/
theorem expr_splits :
    (∀ (first : Expr) (links : List (BinaryOp × Expr)),
      grouped (first, links) = Chain.splitTree BinaryOp.level .compound first links ∧
        Chain.finalStacks? BinaryOp.level .compound [first] [] links =
          some ([Chain.splitTree BinaryOp.level .compound first links], [])) ∧
    ∀ (nesting : Nesting) (s : Input) (p : Parsed Expr s.length), expr nesting s = .ok p →
      ∃ c, chain s (fun nested t _ => expr nested t) nesting = .ok c ∧ p.rest = c.rest ∧
        p.value = Chain.splitTree BinaryOp.level .compound c.value.1 c.value.2 ∧
        ((grouping p.value).first, (grouping p.value).links) = c.value := by
  constructor
  · intro first links
    have hfinal : Chain.finalStacks? BinaryOp.level .compound [first] [] links =
        some ([Chain.run BinaryOp.level .compound [] first links], []) :=
      Chain.finalStacks?_eq_run [] first links
    have htree : Chain.group BinaryOp.level .compound first links =
        Chain.splitTree BinaryOp.level .compound first links :=
      Chain.group_eq_splitTree first links
    refine ⟨htree, ?_⟩
    rw [hfinal, ← htree]
    rfl
  · intro nesting s p hp
    rw [expr] at hp
    obtain ⟨c, hc, rfl⟩ := map_eq_ok.mp hp
    obtain ⟨hfirst, hlinks⟩ := rootOp?_of_chain hc
    exact ⟨c, hc, rfl, Chain.group_eq_splitTree _ _, chain_of_grouped hfirst hlinks⟩

/-- A looser operator on both sides of a tighter one. -/
theorem expr_splits_mixed :
    let v : String → Expr := .var .plain
    let tree : Expr :=
      .compound (.compound (v "a") .sub (.compound (v "b") .mul (v "c"))) .sub (v "d")
    let s : Input := .ofList "a - b * c - d\n".toList
    ∃ p, expr {} s = .ok p ∧ p.value = tree ∧
      ∃ c, chain s (fun nested t _ => expr nested t) {} = .ok c ∧
        c.value = (v "a", [(.sub, v "b"), (.mul, v "c"), (.sub, v "d")]) ∧
        Chain.splitTree BinaryOp.level .compound c.value.1 c.value.2 = tree := by
  intro v tree s
  have hv : ∀ {name : String}, isName name = true → (v name).Spellable := .var
  have hproduct : (Expr.compound (v "b") .mul (v "c")).Spellable :=
    .compound (hv (by decide)) (hv (by decide)) nofun nofun
  have htree : tree.Spellable := by
    refine .compound (.compound (hv (by decide)) hproduct nofun ?_) (hv (by decide)) ?_ nofun
    · rintro inner ⟨⟩
      decide
    · rintro inner ⟨⟩
      decide
  have hname : ∀ name, (v name).Spelled ("".toList ++ name.toList) := fun _ =>
    .var UnaryOp.plain.spelling_mem_spellings
  have htext : tree.Spelled "a - b * c - d".toList :=
    .compound (.compound (hname "a") (.compound (hname "b") (hname "c"))) (hname "d")
  have hread : Yields (expr {} s) tree ['\n'] :=
    expr_yields htree (by decide) htext rfl
      (exprEnds_of_fresh ⟨['\n'], [], gap_newline, Or.inr rfl, rfl⟩)
  obtain ⟨hlt, hp⟩ := hread
  obtain ⟨c, hc, -, hsplit, hchain⟩ := expr_splits.2 {} s _ hp
  exact ⟨_, hp, rfl, c, hc, hchain.symm, hsplit.symm⟩

end Program.Grammar

end FuzzFrontend
