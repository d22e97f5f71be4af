import FuzzFrontend.Proofs.Tree.Editing

/-!
Edits that drop nodes, double them or leave them as they are. A sequence of children becomes what
its members become, one after another; nothing else of a tree is touched. Nodes that are dropped,
doubled or kept are not gone into, so that what a second pass goes through lies as deep as what the
first one went through.
-/
namespace FuzzFrontend

/-- What is done with a node that is not gone into. -/
inductive Splice
  | remove
  | duplicate
  | keep
  deriving DecidableEq

/-- What is done with the nodes of each kind. Nodes of the other kinds are gone into. -/
abbrev Splices : Type :=
  Kind → Option Splice

def Splice.edit : Splice → Edit
  | remove => .remove
  | duplicate => .duplicate
  | keep => .keep

namespace Splices

def edits (rules : Splices) : Edits := fun kind =>
  (rules kind).map Splice.edit

/-- Every node of the kind becomes one node. -/
def KeepsOne (rules : Splices) (kind : Kind) : Prop :=
  rules kind = none ∨ rules kind = some .keep

instance (rules : Splices) (kind : Kind) : Decidable (rules.KeepsOne kind) :=
  inferInstanceAs (Decidable (_ ∨ _))

variable {α β : Type}

/-- What a member of a sequence becomes if it has the given kind and becomes `inside` when it is
gone into. -/
def among (rules : Splices) (kind : Kind) (self inside : α) : List α :=
  match rules kind with
  | none => [inside]
  | some .remove => []
  | some .duplicate => [self, self]
  | some .keep => [self]

/-- What a node becomes that stands alone. -/
def alone (rules : Splices) (kind : Kind) (self inside : α) : α :=
  match rules kind with
  | none => inside
  | some _ => self

variable {rules : Splices} {kind : Kind}

theorem map_among (f : α → β) (self inside : α) :
    (rules.among kind self inside).map f = rules.among kind (f self) (f inside) := by
  unfold among
  split <;> rfl

theorem apply_alone (f : α → β) (self inside : α) :
    f (rules.alone kind self inside) = rules.alone kind (f self) (f inside) := by
  unfold alone
  split <;> rfl

theorem alone_self (self : α) : rules.alone kind self self = self := by
  unfold alone
  split <;> rfl

end Splices

mutual

/-- The tree with what becomes of its parts. The parts of a leaf stay as they are. -/
def Tree.rebuilt (rules : Splices) : Tree → Tree
  | .node kind attributes slots =>
    .node kind attributes (if kind.isLeaf then slots else Slot.rebuiltAll rules slots)

def Slot.rebuiltAll (rules : Splices) : List Slot → List Slot
  | [] => []
  | .one label child :: rest =>
    .one label (rules.alone child.kind child (child.rebuilt rules)) :: Slot.rebuiltAll rules rest
  | .many label children :: rest =>
    .many label (Tree.splicedAll rules children) :: Slot.rebuiltAll rules rest

/-- What becomes of the members of a sequence, one after another. -/
def Tree.splicedAll (rules : Splices) : List Tree → List Tree
  | [] => []
  | t :: rest => rules.among t.kind t (t.rebuilt rules) ++ Tree.splicedAll rules rest

end

mutual

/-- The nodes that are gone into, each before its children, and the depth at which each lies when
the root lies at the given one. -/
def Tree.entered (rules : Splices) (depth : Nat) : Tree → List (Nat × Tree)
  | .node kind attributes slots =>
    if (rules kind).isSome then []
    else
      (depth, .node kind attributes slots) ::
        if kind.isLeaf then [] else Slot.entered rules (depth + 1) slots

def Slot.entered (rules : Splices) (depth : Nat) : List Slot → List (Nat × Tree)
  | [] => []
  | .one _ child :: rest => child.entered rules depth ++ Slot.entered rules depth rest
  | .many _ children :: rest =>
    Tree.enteredAll rules depth children ++ Slot.entered rules depth rest

def Tree.enteredAll (rules : Splices) (depth : Nat) : List Tree → List (Nat × Tree)
  | [] => []
  | t :: rest => t.entered rules depth ++ Tree.enteredAll rules depth rest

end

mutual

/-- The parts of a tree, at any depth, that are no members of sequences. -/
def Tree.lone : Tree → List Tree
  | .node _ _ slots => Slot.lone slots

def Slot.lone : List Slot → List Tree
  | [] => []
  | .one _ child :: rest => child :: (child.lone ++ Slot.lone rest)
  | .many _ children :: rest => Tree.loneAll children ++ Slot.lone rest

def Tree.loneAll : List Tree → List Tree
  | [] => []
  | t :: rest => t.lone ++ Tree.loneAll rest

end

/-- What takes the place of a tree, given what it becomes when it is gone into. -/
def Splices.replacement (rules : Splices) (self inside : Tree) : Replacement :=
  match rules self.kind with
  | none => .single inside
  | some .remove => .nothing
  | some .duplicate => .several [self, self]
  | some .keep => .single self

theorem Splices.toList_replacement (rules : Splices) (self inside : Tree) :
    (rules.replacement self inside).toList = rules.among self.kind self inside := by
  unfold replacement among
  split <;> rfl

theorem Splices.replacement_of_keepsOne {rules : Splices} {self : Tree}
    (h : rules.KeepsOne self.kind) (inside : Tree) :
    rules.replacement self inside = .single (rules.alone self.kind self inside) := by
  unfold replacement alone
  rcases h with hkind | hkind
  · rw [hkind]
  · rw [hkind]

theorem Tree.kind_rebuilt (rules : Splices) (t : Tree) : (t.rebuilt rules).kind = t.kind := by
  cases t
  rfl

section Steps

open Walk

variable {rules : Splices} {limit : Int}

mutual

/-- An edit goes through the nodes that are gone into and puts in the place of each node what the
rules have for it. -/
theorem Tree.edit_splices (depth : Nat) :
    (t : Tree) → (∀ u ∈ t.lone, rules.KeepsOne u.kind) →
      Records .tooDeep limit depth (t.entered rules (depth + 1)) []
        (rules.replacement t (t.rebuilt rules)) (t.edit rules.edits)
  | .node kind attributes slots => by
    intro h
    have hbalanced := Slot.editAll_balanced rules.edits slots
    have hinside := Tree.editInside_records kind attributes attributes
      (Slot.editAll_splices (depth + 1) slots h) hbalanced
    rw [ite_self] at hinside
    have hedit : rules.edits kind = (rules kind).map Splice.edit := rfl
    rw [Tree.edit, Tree.entered, Tree.rebuilt]
    refine Records.bind (.method kind) (.method kind) ?_
    rw [hedit, Splices.replacement, Tree.kind]
    cases rules kind with
    | none =>
        have hsingle := hinside.map (Tree.editInside_balanced hbalanced) Replacement.single
        rwa [← map_eq_pure_bind] at hsingle
    | some splice =>
        cases splice <;> exact .pure _

theorem Slot.editAll_splices (depth : Nat) :
    (slots : List Slot) → (∀ u ∈ Slot.lone slots, rules.KeepsOne u.kind) →
      Records .tooDeep limit depth (Slot.entered rules (depth + 1) slots) []
        (Slot.rebuiltAll rules slots) (Slot.editAll rules.edits slots)
  | [] => fun _ => .pure _
  | .one label child :: rest => by
    intro h
    obtain ⟨hchild, hparts⟩ := List.forall_mem_cons.mp h
    obtain ⟨hinside, hrest⟩ := List.forall_mem_append.mp hparts
    have hedit := Tree.edit_splices depth child hinside
    rw [Splices.replacement_of_keepsOne hchild] at hedit
    rw [Slot.editAll, Slot.entered, Slot.rebuiltAll]
    exact hedit.bind (Tree.edit_balanced rules.edits child)
      ((Slot.editAll_splices depth rest hrest).map (Slot.editAll_balanced rules.edits rest) _)
  | .many label children :: rest => by
    intro h
    obtain ⟨hchildren, hrest⟩ := List.forall_mem_append.mp h
    rw [Slot.editAll, Slot.entered, Slot.rebuiltAll]
    exact (Tree.editAll_splices depth children hchildren).bind
      (Tree.editAll_balanced rules.edits children)
      ((Slot.editAll_splices depth rest hrest).map (Slot.editAll_balanced rules.edits rest) _)

theorem Tree.editAll_splices (depth : Nat) :
    (ts : List Tree) → (∀ u ∈ Tree.loneAll ts, rules.KeepsOne u.kind) →
      Records .tooDeep limit depth (Tree.enteredAll rules (depth + 1) ts) []
        (Tree.splicedAll rules ts) (Tree.editAll rules.edits ts)
  | [] => fun _ => .pure _
  | t :: rest => by
    intro h
    obtain ⟨ht, hrest⟩ := List.forall_mem_append.mp h
    rw [Tree.editAll, Tree.enteredAll, Tree.splicedAll, ← Splices.toList_replacement]
    exact (Tree.edit_splices depth t ht).bind (Tree.edit_balanced rules.edits t)
      ((Tree.editAll_splices depth rest hrest).map (Tree.editAll_balanced rules.edits rest) _)

end

theorem Tree.transform_splices_recorded {t : Tree} (hroot : rules.KeepsOne t.kind)
    (h : ∀ u ∈ t.lone, rules.KeepsOne u.kind) (maxDepth : Option Int) :
    Recorded .tooDeep (DepthGuard.ofRequest maxDepth).limit (t.entered rules 1) []
      (.single (rules.alone t.kind t (t.rebuilt rules)))
      (t.transform rules.edits maxDepth).2 (t.transform rules.edits maxDepth).1 := by
  rw [← Splices.replacement_of_keepsOne hroot]
  exact Tree.recorded_of_records (Tree.edit_splices 0 t h)

theorem Tree.transform_of_entered {t : Tree} (hroot : rules.KeepsOne t.kind)
    (h : ∀ u ∈ t.lone, rules.KeepsOne u.kind) {maxDepth : Option Int}
    (hdepth : ∀ node ∈ t.entered rules 1, (node.1 : Int) ≤ (DepthGuard.ofRequest maxDepth).limit) :
    t.transform rules.edits maxDepth =
      (.ok (.single (rules.alone t.kind t (t.rebuilt rules))), []) :=
  Prod.ext_iff.mpr ((Tree.transform_splices_recorded hroot h maxDepth).eq_of_shallow hdepth)

end Steps

section Again

variable {rules : Splices}

theorem Tree.enteredAll_append (depth : Nat) (ts us : List Tree) :
    Tree.enteredAll rules depth (ts ++ us) =
      Tree.enteredAll rules depth ts ++ Tree.enteredAll rules depth us := by
  induction ts with
  | nil => rfl
  | cons t rest ih => rw [List.cons_append, Tree.enteredAll, Tree.enteredAll, ih, List.append_assoc]

theorem Tree.entered_of_isSome {t : Tree} (h : (rules t.kind).isSome = true) (depth : Nat) :
    t.entered rules depth = [] := by
  cases t
  exact if_pos h

theorem Tree.enteredAll_among {t inside : Tree} {depth : Nat}
    (h : (inside.entered rules depth).map Prod.fst = (t.entered rules depth).map Prod.fst) :
    (Tree.enteredAll rules depth (rules.among t.kind t inside)).map Prod.fst =
      (t.entered rules depth).map Prod.fst := by
  unfold Splices.among
  cases hkind : rules t.kind with
  | none => simpa [Tree.enteredAll] using h
  | some splice =>
      have hnone : t.entered rules depth = [] := Tree.entered_of_isSome (by rw [hkind]; rfl) depth
      cases splice <;> simp [Tree.enteredAll, hnone]

theorem Tree.entered_alone {t inside : Tree} {depth : Nat}
    (h : (inside.entered rules depth).map Prod.fst = (t.entered rules depth).map Prod.fst) :
    ((rules.alone t.kind t inside).entered rules depth).map Prod.fst =
      (t.entered rules depth).map Prod.fst := by
  unfold Splices.alone
  split
  · exact h
  · rfl

mutual

/-- What is left after a pass is gone into at the same depths as what was there before. -/
theorem Tree.entered_rebuilt (depth : Nat) :
    (t : Tree) → ((t.rebuilt rules).entered rules depth).map Prod.fst =
      (t.entered rules depth).map Prod.fst
  | .node kind attributes slots => by
    rw [Tree.rebuilt, Tree.entered, Tree.entered]
    by_cases hkind : (rules kind).isSome = true
    · rw [if_pos hkind, if_pos hkind]
    · by_cases hleaf : kind.isLeaf = true
      · simp [hkind, hleaf]
      · simp [hkind, hleaf, Slot.entered_rebuiltAll (depth + 1) slots]

theorem Slot.entered_rebuiltAll (depth : Nat) :
    (slots : List Slot) → (Slot.entered rules depth (Slot.rebuiltAll rules slots)).map Prod.fst =
      (Slot.entered rules depth slots).map Prod.fst
  | [] => rfl
  | .one _ child :: rest => by
    have hchild := Tree.entered_alone (Tree.entered_rebuilt depth child)
    rw [Slot.rebuiltAll, Slot.entered, Slot.entered, List.map_append, List.map_append, hchild,
      Slot.entered_rebuiltAll depth rest]
  | .many _ children :: rest => by
    rw [Slot.rebuiltAll, Slot.entered, Slot.entered, List.map_append, List.map_append,
      Tree.enteredAll_splicedAll depth children, Slot.entered_rebuiltAll depth rest]

theorem Tree.enteredAll_splicedAll (depth : Nat) :
    (ts : List Tree) → (Tree.enteredAll rules depth (Tree.splicedAll rules ts)).map Prod.fst =
      (Tree.enteredAll rules depth ts).map Prod.fst
  | [] => rfl
  | t :: rest => by
    have ht := Tree.enteredAll_among (Tree.entered_rebuilt depth t)
    rw [Tree.splicedAll, Tree.enteredAll_append, Tree.enteredAll, List.map_append,
      List.map_append, ht, Tree.enteredAll_splicedAll depth rest]

end

theorem Tree.entered_rebuilt_le {t : Tree} {limit : Int} {depth : Nat}
    (h : ∀ node ∈ t.entered rules depth, (node.1 : Int) ≤ limit) :
    ∀ node ∈ (t.rebuilt rules).entered rules depth, (node.1 : Int) ≤ limit := by
  intro node hnode
  have hdepth : node.1 ∈ (t.entered rules depth).map Prod.fst := by
    rw [← Tree.entered_rebuilt depth t]
    exact List.mem_map_of_mem hnode
  obtain ⟨before, hbefore, heq⟩ := List.mem_map.mp hdepth
  rw [← heq]
  exact h before hbefore

theorem Tree.splicedAll_append (ts us : List Tree) :
    Tree.splicedAll rules (ts ++ us) = Tree.splicedAll rules ts ++ Tree.splicedAll rules us := by
  induction ts with
  | nil => rfl
  | cons t rest ih =>
      rw [List.cons_append, Tree.splicedAll, Tree.splicedAll, ih, List.append_assoc]

theorem Tree.splicedAll_among (hrules : ∀ kind, rules kind ≠ some .duplicate) {t inside : Tree}
    (hkind : inside.kind = t.kind) (h : inside.rebuilt rules = inside) :
    Tree.splicedAll rules (rules.among t.kind t inside) = rules.among t.kind t inside := by
  unfold Splices.among
  cases hrule : rules t.kind with
  | none => simp [Tree.splicedAll, Splices.among, hkind, hrule, h]
  | some splice =>
      cases splice with
      | remove => rfl
      | duplicate => exact absurd hrule (hrules t.kind)
      | keep => simp [Tree.splicedAll, Splices.among, hrule]

theorem Tree.alone_alone {t inside : Tree} (hkind : inside.kind = t.kind)
    (h : inside.rebuilt rules = inside) :
    let result := rules.alone t.kind t inside
    rules.alone result.kind result (result.rebuilt rules) = result := by
  unfold Splices.alone
  cases hrule : rules t.kind with
  | none => simp [hkind, hrule, h]
  | some splice => simp [hrule]

mutual

/-- Unless nodes are doubled, nothing is left to do for a second pass. -/
theorem Tree.rebuilt_rebuilt (hrules : ∀ kind, rules kind ≠ some .duplicate) :
    (t : Tree) → (t.rebuilt rules).rebuilt rules = t.rebuilt rules
  | .node kind attributes slots => by
    rw [Tree.rebuilt, Tree.rebuilt]
    by_cases hleaf : kind.isLeaf = true
    · simp [hleaf]
    · simp [hleaf, Slot.rebuiltAll_rebuiltAll hrules slots]

theorem Slot.rebuiltAll_rebuiltAll (hrules : ∀ kind, rules kind ≠ some .duplicate) :
    (slots : List Slot) →
      Slot.rebuiltAll rules (Slot.rebuiltAll rules slots) = Slot.rebuiltAll rules slots
  | [] => rfl
  | .one _ child :: rest => by
    have hchild := Tree.alone_alone (child.kind_rebuilt rules) (Tree.rebuilt_rebuilt hrules child)
    rw [Slot.rebuiltAll, Slot.rebuiltAll, hchild, Slot.rebuiltAll_rebuiltAll hrules rest]
  | .many _ children :: rest => by
    rw [Slot.rebuiltAll, Slot.rebuiltAll, Tree.splicedAll_splicedAll hrules children,
      Slot.rebuiltAll_rebuiltAll hrules rest]

theorem Tree.splicedAll_splicedAll (hrules : ∀ kind, rules kind ≠ some .duplicate) :
    (ts : List Tree) →
      Tree.splicedAll rules (Tree.splicedAll rules ts) = Tree.splicedAll rules ts
  | [] => rfl
  | t :: rest => by
    have ht := Tree.splicedAll_among hrules (t.kind_rebuilt rules) (Tree.rebuilt_rebuilt hrules t)
    rw [Tree.splicedAll, Tree.splicedAll_append, ht, Tree.splicedAll_splicedAll hrules rest]

end

end Again

section Untouched

variable {rules : Splices} {P : Kind → Prop}

theorem Tree.mem_levels (t : Tree) (depth : Nat) : (depth, t) ∈ t.levels depth := by
  rw [Tree.levels_eq]
  exact List.mem_cons_self

mutual

theorem Tree.rebuilt_eq_self (depth : Nat) :
    (t : Tree) → (∀ node ∈ t.levels depth, rules node.2.kind = none) → t.rebuilt rules = t
  | .node kind attributes slots => by
    intro h
    obtain ⟨-, hslots⟩ := List.forall_mem_cons.mp h
    rw [Tree.rebuilt, Slot.rebuiltAll_eq_self (depth + 1) slots hslots, ite_self]

theorem Slot.rebuiltAll_eq_self (depth : Nat) :
    (slots : List Slot) → (∀ node ∈ Slot.levels depth slots, rules node.2.kind = none) →
      Slot.rebuiltAll rules slots = slots
  | [] => fun _ => rfl
  | .one _ child :: rest => by
    intro h
    obtain ⟨hchild, hrest⟩ := List.forall_mem_append.mp h
    rw [Slot.rebuiltAll, Tree.rebuilt_eq_self depth child hchild, Splices.alone_self,
      Slot.rebuiltAll_eq_self depth rest hrest]
  | .many _ children :: rest => by
    intro h
    obtain ⟨hchildren, hrest⟩ := List.forall_mem_append.mp h
    rw [Slot.rebuiltAll, Tree.splicedAll_eq_self depth children hchildren,
      Slot.rebuiltAll_eq_self depth rest hrest]

theorem Tree.splicedAll_eq_self (depth : Nat) :
    (ts : List Tree) → (∀ node ∈ Tree.levelsAll depth ts, rules node.2.kind = none) →
      Tree.splicedAll rules ts = ts
  | [] => fun _ => rfl
  | t :: rest => by
    intro h
    obtain ⟨ht, hrest⟩ := List.forall_mem_append.mp h
    have hroot : rules t.kind = none := ht (depth, t) (t.mem_levels depth)
    rw [Tree.splicedAll, Tree.rebuilt_eq_self depth t ht, Tree.splicedAll_eq_self depth rest hrest,
      Splices.among, hroot, List.singleton_append]

end

mutual

theorem Tree.lone_of_levels (depth : Nat) :
    (t : Tree) → (∀ node ∈ t.levels depth, P node.2.kind) → ∀ u ∈ t.lone, P u.kind
  | .node _ _ slots => fun h =>
    Slot.lone_of_levels (depth + 1) slots (List.forall_mem_cons.mp h).2

theorem Slot.lone_of_levels (depth : Nat) :
    (slots : List Slot) → (∀ node ∈ Slot.levels depth slots, P node.2.kind) →
      ∀ u ∈ Slot.lone slots, P u.kind
  | [] => fun _ => nofun
  | .one _ child :: rest => by
    intro h
    obtain ⟨hchild, hrest⟩ := List.forall_mem_append.mp h
    exact List.forall_mem_cons.mpr ⟨hchild _ (child.mem_levels depth),
      List.forall_mem_append.mpr ⟨Tree.lone_of_levels depth child hchild,
        Slot.lone_of_levels depth rest hrest⟩⟩
  | .many _ children :: rest => by
    intro h
    obtain ⟨hchildren, hrest⟩ := List.forall_mem_append.mp h
    exact List.forall_mem_append.mpr ⟨Tree.loneAll_of_levels depth children hchildren,
      Slot.lone_of_levels depth rest hrest⟩

theorem Tree.loneAll_of_levels (depth : Nat) :
    (ts : List Tree) → (∀ node ∈ Tree.levelsAll depth ts, P node.2.kind) →
      ∀ u ∈ Tree.loneAll ts, P u.kind
  | [] => fun _ => nofun
  | t :: rest => by
    intro h
    obtain ⟨ht, hrest⟩ := List.forall_mem_append.mp h
    exact List.forall_mem_append.mpr ⟨Tree.lone_of_levels depth t ht,
      Tree.loneAll_of_levels depth rest hrest⟩

end

theorem Tree.EveryKind.root {t : Tree} (h : t.EveryKind P) : P t.kind :=
  h 0 _ (t.mem_levels 0)

theorem Tree.EveryKind.lone {t : Tree} (h : t.EveryKind P) : ∀ u ∈ t.lone, P u.kind :=
  Tree.lone_of_levels 0 t (h 0)

theorem Tree.loneAll_of_everyKind {ts : List Tree} (h : ∀ t ∈ ts, t.EveryKind P) :
    ∀ u ∈ Tree.loneAll ts, P u.kind := by
  induction ts with
  | nil => exact nofun
  | cons t rest ih =>
      obtain ⟨ht, hrest⟩ := List.forall_mem_cons.mp h
      exact List.forall_mem_append.mpr ⟨ht.lone, ih hrest⟩

theorem Tree.EveryKind.rebuilt_eq_self {t : Tree} (h : t.EveryKind fun kind => rules kind = none) :
    t.rebuilt rules = t :=
  Tree.rebuilt_eq_self 0 t (h 0)

end Untouched

end FuzzFrontend
