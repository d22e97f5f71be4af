import FuzzFrontend.Chain

/-!
What grouping a chain computes. A grouping is a tree over the operands; it is layered when it needs
no brackets, that is, when no operator stands below a tighter one on its left, or below one that is
as tight on its right. A chain has exactly one layered grouping, and that is the one it gets.
-/
namespace FuzzFrontend

variable {α ω β : Type}

/-- A way to put brackets into a chain. -/
inductive Grouping (α ω : Type)
  | leaf (operand : α)
  | node (left : Grouping α ω) (op : ω) (right : Grouping α ω)

namespace Grouping

def first : Grouping α ω → α
  | leaf a => a
  | node l _ _ => l.first

/-- The operators of the chain, each with the operand after it. -/
def links : Grouping α ω → List (ω × α)
  | leaf _ => []
  | node l op r => l.links ++ (op, r.first) :: r.links

def operands (t : Grouping α ω) : List α :=
  t.first :: t.links.map Prod.snd

/-- The value of a grouping. -/
def fold (combine : α → ω → α → α) : Grouping α ω → α
  | leaf a => a
  | node l op r => combine (l.fold combine) op (r.fold combine)

/-- The operator at the root, if there is one, binds as tightly as the bound. -/
def AtLeast (level : ω → Nat) (bound : Nat) : Grouping α ω → Prop
  | leaf _ => True
  | node _ op _ => bound ≤ level op

/-- No operand needs brackets. -/
def Layered (level : ω → Nat) : Grouping α ω → Prop
  | leaf _ => True
  | node l op r =>
      l.Layered level ∧ r.Layered level ∧ l.AtLeast level (level op) ∧
        r.AtLeast level (level op + 1)

theorem AtLeast.mono {level : ω → Nat} {m n : Nat} {t : Grouping α ω} (h : t.AtLeast level n)
    (hmn : m ≤ n) : t.AtLeast level m := by
  cases t with
  | leaf a => trivial
  | node l op r => exact Nat.le_trans hmn h

theorem operands_node (l r : Grouping α ω) (op : ω) :
    (node l op r).operands = l.operands ++ r.operands := by
  simp [operands, first, links]

theorem forall_operands_leaf {P : α → Prop} {a : α} (h : P a) :
    ∀ b ∈ (leaf a : Grouping α ω).operands, P b := by
  intro b hb
  obtain rfl := List.mem_singleton.mp hb
  exact h

theorem forall_operands_node {P : α → Prop} {l r : Grouping α ω} {op : ω}
    (hl : ∀ a ∈ l.operands, P a) (hr : ∀ a ∈ r.operands, P a) :
    ∀ a ∈ (node l op r).operands, P a := by
  intro a ha
  rw [operands_node] at ha
  rcases List.mem_append.mp ha with ha | ha
  · exact hl a ha
  · exact hr a ha

section Spellings

variable {R : α → List Char → Prop} {symbol : ω → List Char}

/-- A grouping is spelled as its chain, with a space on each side of an operator. -/
inductive Spelled (R : α → List Char → Prop) (symbol : ω → List Char) :
    Grouping α ω → List Char → Prop
  | leaf {a : α} {t : List Char} (h : R a t) : Spelled R symbol (leaf a) t
  | node {l r : Grouping α ω} {op : ω} {tl tr : List Char} (hl : Spelled R symbol l tl)
      (hr : Spelled R symbol r tr) :
      Spelled R symbol (node l op r) (tl ++ ' ' :: (symbol op ++ ' ' :: tr))

/-- The text of the operators and operands after the first operand. -/
inductive LinksSpelled (R : α → List Char → Prop) (symbol : ω → List Char) :
    List (ω × α) → List Char → Prop
  | nil : LinksSpelled R symbol [] []
  | cons {op : ω} {a : α} {links : List (ω × α)} {t ts : List Char} (ha : R a t)
      (h : LinksSpelled R symbol links ts) :
      LinksSpelled R symbol ((op, a) :: links) (' ' :: (symbol op ++ ' ' :: (t ++ ts)))

theorem LinksSpelled.append {links links' : List (ω × α)} {ts ts' : List Char}
    (h : LinksSpelled R symbol links ts) (h' : LinksSpelled R symbol links' ts') :
    LinksSpelled R symbol (links ++ links') (ts ++ ts') := by
  induction h with
  | nil => exact h'
  | cons ha _ ih => simpa using cons ha ih

theorem Spelled.chain {g : Grouping α ω} {t : List Char} (h : g.Spelled R symbol t) :
    ∃ t₀ ts, R g.first t₀ ∧ LinksSpelled R symbol g.links ts ∧ t = t₀ ++ ts := by
  induction h with
  | @leaf a t h => exact ⟨t, [], h, .nil, by simp⟩
  | @node l r op tl tr hl hr ihl ihr =>
      obtain ⟨l₀, ls, hl₀, hls, rfl⟩ := ihl
      obtain ⟨r₀, rs, hr₀, hrs, rfl⟩ := ihr
      refine ⟨l₀, ls ++ ' ' :: (symbol op ++ ' ' :: (r₀ ++ rs)), hl₀, ?_, by simp⟩
      exact hls.append (.cons hr₀ hrs)

end Spellings

end Grouping

namespace Chain

open Grouping

variable {level : ω → Nat} {combine : α → ω → α → α}

theorem close_of_lt {bound : Nat} {pending : Pending α ω}
    (h : ∀ p ∈ pending.head?, level p.2 < bound) (a : α) :
    close level combine bound pending a = (pending, a) := by
  cases pending with
  | nil => rfl
  | cons p pending =>
      have hp : ¬ bound ≤ level p.2 := Nat.not_le.mpr (h p rfl)
      simp [close, hp]

theorem close_cons {bound : Nat} {l : α} {op : ω} (h : bound ≤ level op)
    (pending : Pending α ω) (a : α) :
    close level combine bound ((l, op) :: pending) a =
      close level combine bound pending (combine l op a) := by
  simp [close, h]

theorem close_all {bound : Nat} {pending : Pending α ω} (h : ∀ p ∈ pending, bound ≤ level p.2)
    (a : α) :
    close level combine bound pending a = ([], (close level combine 0 pending a).2) := by
  induction pending generalizing a with
  | nil => rfl
  | cons p pending ih =>
      obtain ⟨l, op⟩ := p
      rw [List.forall_mem_cons] at h
      rw [close_cons h.1, close_cons (Nat.zero_le _), ih h.2]

/-- An operand on top of a tighter operator is the same as the two combined, when what follows does
not bind tighter than that operator. -/
theorem run_pending_cons {l : α} {op : ω} (pending : Pending α ω) (a : α) {more : List (ω × α)}
    (h : ∀ p ∈ more.head?, level p.1 ≤ level op) :
    run level combine ((l, op) :: pending) a more =
      run level combine pending (combine l op a) more := by
  cases more with
  | nil => simp only [run, close_cons (Nat.zero_le _)]
  | cons p more =>
      have hp : level p.1 ≤ level op := h p rfl
      simp only [run, close_cons hp]

/-- A layered part of a chain is grouped as it is written, wherever it stands between looser
operators. -/
theorem run_links {t : Grouping α ω} (ht : t.Layered level) {pending : Pending α ω}
    (hpending : ∀ p ∈ pending.head?, t.AtLeast level (level p.2 + 1)) {more : List (ω × α)}
    (hmore : ∀ p ∈ more.head?, t.AtLeast level (level p.1)) :
    run level combine pending t.first (t.links ++ more) =
      run level combine pending (t.fold combine) more := by
  -- The left operand is grouped on top of the same pending operands, the right one on top of these
  -- and the operator; so the induction is over all of them.
  induction t generalizing pending more with
  | leaf a => rfl
  | node l op r ihl ihr =>
      obtain ⟨hl, hr, hlop, hrop⟩ := ht
      have hbelow : ∀ p ∈ pending.head?, level p.2 < level op := fun p hp => hpending p hp
      have hleft : ∀ p ∈ pending.head?, l.AtLeast level (level p.2 + 1) :=
        fun p hp => hlop.mono (hbelow p hp)
      have hnext : ∀ p ∈ more.head?, level p.1 ≤ level op := fun p hp => hmore p hp
      calc run level combine pending l.first ((l.links ++ (op, r.first) :: r.links) ++ more)
          = run level combine pending l.first
              (l.links ++ ((op, r.first) :: (r.links ++ more))) := by
            simp only [List.append_assoc, List.cons_append]
        _ = run level combine pending (l.fold combine) ((op, r.first) :: (r.links ++ more)) := by
            apply ihl hl hleft
            intro p hp
            obtain rfl : (op, r.first) = p := by simpa using hp
            exact hlop
        _ = run level combine ((l.fold combine, op) :: pending) r.first (r.links ++ more) := by
            simp only [run, close_of_lt hbelow]
        _ = run level combine ((l.fold combine, op) :: pending) (r.fold combine) more := by
            apply ihr hr
            · intro p hp
              obtain rfl : (l.fold combine, op) = p := by simpa using hp
              exact hrop
            · intro p hp
              exact hrop.mono (Nat.le_succ_of_le (hnext p hp))
        _ = run level combine pending (combine (l.fold combine) op (r.fold combine)) more :=
            run_pending_cons pending (r.fold combine) hnext

theorem group_of_layered {t : Grouping α ω} (ht : t.Layered level) :
    group level combine t.first t.links = t.fold combine := by
  have h : run level combine [] t.first (t.links ++ []) =
      run level combine [] (t.fold combine) [] := run_links ht (by simp) (by simp)
  simpa [group, run, close] using h

section Existence

/-- The operands that wait, outermost last, are layered, and each operator binds tighter than the
one outside it and looser than the bound. -/
def Waiting (level : ω → Nat) : Nat → Pending (Grouping α ω) ω → Prop
  | _, [] => True
  | bound, (l, op) :: pending =>
      level op < bound ∧ l.Layered level ∧ l.AtLeast level (level op) ∧
        Waiting level (level op) pending

/-- The chain that the waiting operands and the one after them spell. -/
def spelled : Pending (Grouping α ω) ω → Grouping α ω → α × List (ω × α)
  | [], t => (t.first, t.links)
  | (l, op) :: pending, t => spelled pending (.node l op t)

theorem spelled_links (pending : Pending (Grouping α ω) ω) {t u : Grouping α ω}
    (more : List (ω × α)) (hfirst : u.first = t.first) (hlinks : u.links = t.links ++ more) :
    spelled pending u = ((spelled pending t).1, (spelled pending t).2 ++ more) := by
  induction pending generalizing t u with
  | nil => simp [spelled, hfirst, hlinks]
  | cons p pending ih =>
      obtain ⟨l, op⟩ := p
      apply ih
      · rfl
      · simp [links, hfirst, hlinks]

theorem spelled_push (pending : Pending (Grouping α ω) ω) (t : Grouping α ω) (op : ω) (a : α) :
    spelled ((t, op) :: pending) (.leaf a) =
      ((spelled pending t).1, (spelled pending t).2 ++ [(op, a)]) :=
  spelled_links pending [(op, a)] rfl rfl

theorem close_waiting (bound : Nat) {n : Nat} {pending : Pending (Grouping α ω) ω}
    {t : Grouping α ω} (hpending : Waiting level n pending) (ht : t.Layered level)
    (hn : t.AtLeast level n) (hbound : t.AtLeast level bound) :
    let closed := close level Grouping.node bound pending t
    Waiting level bound closed.1 ∧ closed.2.Layered level ∧ closed.2.AtLeast level bound ∧
      spelled closed.1 closed.2 = spelled pending t := by
  induction pending generalizing n t with
  | nil => exact ⟨trivial, ht, hbound, rfl⟩
  | cons p pending ih =>
      obtain ⟨l, op⟩ := p
      obtain ⟨hop, hl, hlop, hrest⟩ := hpending
      by_cases h : bound ≤ level op
      · have hnode : (Grouping.node l op t).Layered level := ⟨hl, ht, hlop, hn.mono hop⟩
        simpa only [close_cons h, spelled] using ih hrest hnode (Nat.le_refl (level op)) h
      · have hlt : ∀ p ∈ ((l, op) :: pending).head?, level p.2 < bound := by
          intro p hp
          obtain rfl : (l, op) = p := by simpa using hp
          exact Nat.not_le.mp h
        rw [close_of_lt hlt]
        exact ⟨⟨Nat.not_le.mp h, hl, hlop, hrest⟩, ht, hbound, rfl⟩

theorem run_waiting {n : Nat} {pending : Pending (Grouping α ω) ω} {t : Grouping α ω}
    (hpending : Waiting level n pending) (ht : t.Layered level)
    (hall : ∀ bound, t.AtLeast level bound) (chain : List (ω × α)) :
    let grouped := run level Grouping.node pending t (chain.map fun p => (p.1, .leaf p.2))
    grouped.Layered level ∧
      (grouped.first, grouped.links) =
        ((spelled pending t).1, (spelled pending t).2 ++ chain) := by
  induction chain generalizing n pending t with
  | nil =>
      obtain ⟨hwait, hlayered, -, hspelled⟩ :=
        close_waiting 0 hpending ht (hall n) (hall 0)
      simp only [List.map_nil, run, List.append_nil]
      refine ⟨hlayered, ?_⟩
      rw [← hspelled]
      cases hclosed : (close level Grouping.node 0 pending t).1 with
      | nil => rfl
      | cons p rest =>
          rw [hclosed] at hwait
          exact absurd hwait.1 (Nat.not_lt_zero _)
  | cons p chain ih =>
      obtain ⟨op, a⟩ := p
      obtain ⟨hwait, hlayered, hat, hspelled⟩ :=
        close_waiting (level op) hpending ht (hall n) (hall (level op))
      have hpushed : Waiting level (level op + 1)
          (((close level Grouping.node (level op) pending t).2, op) ::
            (close level Grouping.node (level op) pending t).1) :=
        ⟨Nat.lt_succ_self _, hlayered, hat, hwait⟩
      have hleaf : (Grouping.leaf a : Grouping α ω).Layered level := trivial
      obtain ⟨hgrouped, hchain⟩ := ih hpushed hleaf (fun _ => trivial)
      refine ⟨hgrouped, ?_⟩
      simp only [List.map_cons, run]
      rw [hchain, spelled_push, hspelled, List.append_assoc, List.singleton_append]

end Existence

theorem close_fold (bound : Nat) (pending : Pending (Grouping α ω) ω) (t : Grouping α ω) :
    close level combine bound (pending.map fun p => (p.1.fold combine, p.2)) (t.fold combine) =
      ((close level Grouping.node bound pending t).1.map fun p => (p.1.fold combine, p.2),
        (close level Grouping.node bound pending t).2.fold combine) := by
  induction pending generalizing t with
  | nil => rfl
  | cons p pending ih =>
      obtain ⟨l, op⟩ := p
      by_cases h : bound ≤ level op
      · simpa [close, h, fold] using ih (.node l op t)
      · simp [close, h]

theorem run_fold (pending : Pending (Grouping α ω) ω) (t : Grouping α ω)
    (chain : List (ω × α)) :
    run level combine (pending.map fun p => (p.1.fold combine, p.2)) (t.fold combine) chain =
      (run level Grouping.node pending t (chain.map fun p => (p.1, .leaf p.2))).fold combine := by
  induction chain generalizing pending t with
  | nil => simp only [run, List.map_nil, close_fold]
  | cons p chain ih =>
      obtain ⟨op, a⟩ := p
      simp only [run, List.map_cons, close_fold]
      exact ih (((close level Grouping.node (level op) pending t).2, op) ::
        (close level Grouping.node (level op) pending t).1) (.leaf a)

/-- Every chain has a layered grouping, and is grouped by it. -/
theorem exists_layered (level : ω → Nat) (combine : α → ω → α → α) (a : α)
    (chain : List (ω × α)) :
    ∃ t : Grouping α ω, t.Layered level ∧ t.first = a ∧ t.links = chain ∧
      group level combine a chain = t.fold combine := by
  have hnone : Waiting level 0 ([] : Pending (Grouping α ω) ω) := trivial
  have hleaf : (Grouping.leaf a : Grouping α ω).Layered level := trivial
  obtain ⟨hlayered, hchain⟩ := run_waiting hnone hleaf (fun _ => trivial) chain
  refine ⟨_, hlayered, congrArg Prod.fst hchain, ?_, run_fold [] (.leaf a) chain⟩
  simpa [spelled, links] using congrArg Prod.snd hchain

section Values

variable {P : α → Prop}

theorem fold_iff (hcombine : ∀ l op r, P (combine l op r) ↔ P l ∧ P r) (t : Grouping α ω) :
    P (t.fold combine) ↔ ∀ a ∈ t.operands, P a := by
  induction t with
  | leaf a => simp [fold, operands, first, links]
  | node l op r ihl ihr => rw [fold, hcombine, ihl, ihr, operands_node, List.forall_mem_append]

theorem group_iff (hcombine : ∀ l op r, P (combine l op r) ↔ P l ∧ P r) (a : α)
    (chain : List (ω × α)) :
    P (group level combine a chain) ↔ P a ∧ ∀ p ∈ chain, P p.2 := by
  obtain ⟨t, -, rfl, rfl, hgroup⟩ := exists_layered level combine a chain
  rw [hgroup, fold_iff hcombine, operands, List.forall_mem_cons]
  simp only [List.forall_mem_map]

variable (rootOp? : α → Option ω)

/-- What holds of the operands, and of two values combined wherever that needs no brackets, holds
of a layered grouping. -/
theorem fold_meets (hroot : ∀ l op r, rootOp? (combine l op r) = some op)
    (hcombine : ∀ l op r, P l → P r → (∀ o ∈ rootOp? l, level op ≤ level o) →
      (∀ o ∈ rootOp? r, level op < level o) → P (combine l op r))
    {t : Grouping α ω} (ht : t.Layered level)
    (hoperands : ∀ a ∈ t.operands, P a ∧ rootOp? a = none) : P (t.fold combine) := by
  have hlevel : ∀ (u : Grouping α ω) (bound : Nat),
      (∀ a ∈ u.operands, P a ∧ rootOp? a = none) → u.AtLeast level bound →
        ∀ op ∈ rootOp? (u.fold combine), bound ≤ level op := by
    intro u bound hu hbound op hop
    cases u with
    | leaf a =>
        have hnone := (hu a List.mem_cons_self).2
        rw [fold, hnone] at hop
        cases hop
    | node l op' r =>
        obtain rfl : op' = op := by simpa [fold, hroot] using hop
        exact hbound
  induction t with
  | leaf a => exact (hoperands a List.mem_cons_self).1
  | node l op r ihl ihr =>
      rw [operands_node] at hoperands
      obtain ⟨hl, hr, hlop, hrop⟩ := ht
      have hleft : ∀ a ∈ l.operands, P a ∧ rootOp? a = none :=
        fun a ha => hoperands a (List.mem_append_left _ ha)
      have hright : ∀ a ∈ r.operands, P a ∧ rootOp? a = none :=
        fun a ha => hoperands a (List.mem_append_right _ ha)
      exact hcombine _ op _ (ihl hl hleft) (ihr hr hright) (hlevel l _ hleft hlop)
        (hlevel r _ hright hrop)

theorem group_meets (hroot : ∀ l op r, rootOp? (combine l op r) = some op)
    (hcombine : ∀ l op r, P l → P r → (∀ o ∈ rootOp? l, level op ≤ level o) →
      (∀ o ∈ rootOp? r, level op < level o) → P (combine l op r))
    {a : α} {chain : List (ω × α)} (hfirst : P a ∧ rootOp? a = none)
    (hlinks : ∀ p ∈ chain, P p.2 ∧ rootOp? p.2 = none) : P (group level combine a chain) := by
  obtain ⟨t, ht, rfl, rfl, hgroup⟩ := exists_layered level combine a chain
  rw [hgroup]
  apply fold_meets rootOp? hroot hcombine ht
  intro a ha
  rcases List.mem_cons.mp ha with rfl | ha
  · exact hfirst
  · obtain ⟨p, hp, rfl⟩ := List.mem_map.mp ha
    exact hlinks p hp

end Values

end Chain

end FuzzFrontend
