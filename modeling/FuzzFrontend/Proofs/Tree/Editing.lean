import FuzzFrontend.Proofs.Tree.Tracing
import FuzzFrontend.Tree.Edit

/-!
What an edit reaches. An edit that only notes nodes and gives them new names leaves every node in
its place, and it goes through the nodes of a tree in the order of its parts, but not below the
leaves. A visitor goes below them too.
-/
namespace FuzzFrontend

mutual

/-- The nodes that an edit reaches, each before its children, and the depth at which each lies when
the root lies at the given one. -/
def Tree.reached (depth : Nat) : Tree → List (Nat × Tree)
  | .node kind attributes slots =>
    (depth, .node kind attributes slots) ::
      if kind.isLeaf then [] else Slot.reached (depth + 1) slots

def Slot.reached (depth : Nat) : List Slot → List (Nat × Tree)
  | [] => []
  | .one _ child :: rest => child.reached depth ++ Slot.reached depth rest
  | .many _ children :: rest => Tree.reachedAll depth children ++ Slot.reached depth rest

def Tree.reachedAll (depth : Nat) : List Tree → List (Nat × Tree)
  | [] => []
  | t :: rest => t.reached depth ++ Tree.reachedAll depth rest

end

/-- Those of the nodes that are of the given kinds. -/
def Tree.picked (picks : Kind → Bool) (nodes : List (Nat × Tree)) : List Tree :=
  (nodes.map Prod.snd).filter fun t => picks t.kind

theorem Tree.picked_append (picks : Kind → Bool) (nodes more : List (Nat × Tree)) :
    picked picks (nodes ++ more) = picked picks nodes ++ picked picks more := by
  simp [picked]

theorem Tree.picked_cons (picks : Kind → Bool) (depth : Nat) (t : Tree)
    (more : List (Nat × Tree)) :
    picked picks ((depth, t) :: more) =
      (if picks t.kind then [t] else []) ++ picked picks more := by
  by_cases h : picks t.kind = true <;> simp [picked, h]

namespace Walk

variable {μ : Type} {methods : Kind → μ} {ε α β : Type} {tooDeep : DepthExceeded → ε}
  {limit : Int} {depth : Nat} {nodes more : List (Nat × Tree)} {noted noted' : List Tree}

/-- How a step ends that goes through the given nodes under a depth limit. If none of them lies
deeper than the limit, the step notes what it is to note and gives its value; otherwise it fails for
the limit. -/
inductive Recorded (tooDeep : DepthExceeded → ε) (limit : Int) (nodes : List (Nat × Tree))
    (noted : List Tree) (value : α) : List Tree → Except ε α → Prop
  | all (h : ∀ node ∈ nodes, (node.1 : Int) ≤ limit) :
      Recorded tooDeep limit nodes noted value noted (.ok value)
  | stopped {seen : List Tree} (h : ∃ node ∈ nodes, limit < node.1) :
      Recorded tooDeep limit nodes noted value seen (.error (tooDeep ⟨limit⟩))

theorem Recorded.eq_ok_iff {value a : α} {result : Except ε α}
    (h : Recorded tooDeep limit nodes noted value noted' result) :
    result = .ok a ↔ a = value ∧ ∀ node ∈ nodes, (node.1 : Int) ≤ limit := by
  cases h with
  | all hnodes => simpa [eq_comm] using fun _ => hnodes
  | stopped hnodes =>
      obtain ⟨node, hnode, hdeep⟩ := hnodes
      exact ⟨nofun, fun ⟨_, hall⟩ => absurd (hall node hnode) (Int.not_le.mpr hdeep)⟩

theorem Recorded.eq_error_iff {value : α} {e : ε} {result : Except ε α}
    (h : Recorded tooDeep limit nodes noted value noted' result) :
    result = .error e ↔ e = tooDeep ⟨limit⟩ ∧ ∃ node ∈ nodes, limit < node.1 := by
  cases h with
  | all hnodes =>
      refine ⟨nofun, fun ⟨_, node, hnode, hdeep⟩ => ?_⟩
      exact absurd (hnodes node hnode) (Int.not_le.mpr hdeep)
  | stopped hnodes => simpa [eq_comm] using fun _ => hnodes

theorem Recorded.eq_of_shallow {value : α} {result : Except ε α}
    (h : Recorded tooDeep limit nodes noted value noted' result)
    (hnodes : ∀ node ∈ nodes, (node.1 : Int) ≤ limit) : result = .ok value ∧ noted' = noted := by
  cases h with
  | all _ => exact ⟨rfl, rfl⟩
  | stopped hdeep =>
      obtain ⟨node, hnode, hlimit⟩ := hdeep
      exact absurd (hnodes node hnode) (Int.not_le.mpr hlimit)

theorem Recorded.shallow_of_ne {value : α} {result : Except ε α}
    (h : Recorded tooDeep limit nodes noted value noted' result)
    (hne : ∀ e, result ≠ .error (tooDeep e)) : ∀ node ∈ nodes, (node.1 : Int) ≤ limit := by
  cases h with
  | all hnodes => exact hnodes
  | stopped _ => exact absurd rfl (hne _)

/-- A step that starts at the given depth and ends so from wherever it starts. -/
def Records (tooDeep : DepthExceeded → ε) (limit : Int) (depth : Nat) (nodes : List (Nat × Tree))
    (noted : List Tree) (value : α) (step : Walk methods ε α) : Prop :=
  ∀ trail : Trail methods, trail.guard = ⟨limit, depth⟩ →
    ∃ seen, (step.run trail).2.noted = seen.reverse ++ trail.noted ∧
      Recorded tooDeep limit nodes noted value seen (step.run trail).1

namespace Records

theorem pure (a : α) : Records tooDeep limit depth [] [] a (pure a : Walk methods ε α) :=
  fun _ _ => ⟨[], rfl, .all nofun⟩

theorem method (kind : Kind) :
    Records tooDeep limit depth [] [] (methods kind) (method kind : Walk methods ε μ) := by
  intro trail _
  rw [run_method]
  exact ⟨[], rfl, .all nofun⟩

theorem note (t : Tree) :
    Records tooDeep limit depth [] [t] () (note t : Walk methods ε Unit) :=
  fun _ _ => ⟨[t], rfl, .all nofun⟩

theorem bind {a : α} {b : β} {step : Walk methods ε α} {next : α → Walk methods ε β}
    (hstep : Records tooDeep limit depth nodes noted a step) (hbalanced : step.Balanced)
    (hnext : Records tooDeep limit depth more noted' b (next a)) :
    Records tooDeep limit depth (nodes ++ more) (noted ++ noted') b (step >>= next) := by
  intro trail hguard
  obtain ⟨seen, hseen, hrecorded⟩ := hstep trail hguard
  rcases hrun : step.run trail with ⟨result, after⟩
  have hafter : after.guard = ⟨limit, depth⟩ := by
    rw [← hguard, ← hbalanced trail, hrun]
  rw [hrun] at hseen hrecorded
  cases hrecorded with
  | all hfirst =>
      obtain ⟨seen', hseen', hrecorded'⟩ := hnext after hafter
      rw [run_bind_of_ok hrun]
      refine ⟨noted ++ seen', ?_, ?_⟩
      · rw [hseen', hseen, List.reverse_append, List.append_assoc]
      · generalize (next a).run after = outcome at hrecorded' ⊢
        obtain ⟨result', after'⟩ := outcome
        cases hrecorded' with
        | all hsecond => exact .all (List.forall_mem_append.mpr ⟨hfirst, hsecond⟩)
        | stopped hsecond =>
            obtain ⟨node, hnode, hdeep⟩ := hsecond
            exact .stopped ⟨node, List.mem_append_right nodes hnode, hdeep⟩
  | stopped hfirst =>
      obtain ⟨node, hnode, hdeep⟩ := hfirst
      rw [run_bind_of_error hrun]
      exact ⟨seen, hseen, .stopped ⟨node, List.mem_append_left more hnode, hdeep⟩⟩

theorem within {a : α} {step : Walk methods ε α} (t : Tree)
    (hstep : Records tooDeep limit (depth + 1) nodes noted a step) :
    Records tooDeep limit depth ((depth + 1, t) :: nodes) noted a (within tooDeep step) := by
  intro trail hguard
  obtain hlimit | hlimit := Int.lt_or_le trail.guard.depth trail.guard.limit
  · rw [run_within_of_lt tooDeep step hlimit]
    have hroom : (depth : Int) + 1 ≤ limit := by
      rw [hguard] at hlimit
      exact Int.add_one_le_of_lt hlimit
    obtain ⟨seen, hseen, hrecorded⟩ :=
      hstep { trail with guard.depth := trail.guard.depth + 1 } (by simp [hguard])
    refine ⟨seen, hseen, ?_⟩
    generalize (step.run _).1 = result at hrecorded ⊢
    cases hrecorded with
    | all h => exact .all (List.forall_mem_cons.mpr ⟨by exact_mod_cast hroom, h⟩)
    | stopped h =>
        obtain ⟨node, hnode, hdeep⟩ := h
        exact .stopped ⟨node, List.mem_cons_of_mem _ hnode, hdeep⟩
  · rw [run_within_of_le tooDeep step hlimit]
    rw [hguard] at hlimit ⊢
    exact ⟨[], rfl, .stopped ⟨_, List.mem_cons_self, by simpa using Int.lt_add_one_of_le hlimit⟩⟩

theorem map {a : α} {step : Walk methods ε α}
    (hstep : Records tooDeep limit depth nodes noted a step) (hbalanced : step.Balanced)
    (f : α → β) :
    Records tooDeep limit depth nodes noted (f a) (step >>= fun a => Pure.pure (f a)) := by
  have h : Records tooDeep limit depth (nodes ++ []) (noted ++ []) (f a)
      (step >>= fun a => Pure.pure (f a)) := hstep.bind hbalanced (.pure (f a))
  rwa [List.append_nil, List.append_nil] at h

end Records

end Walk

namespace Visitor

open Walk

variable {v : Visitor} {limit : Int}

mutual

theorem visit_records (hstops : ∀ kind, v.stops kind = false) (depth : Nat) :
    (t : Tree) → Records id limit depth (t.levels (depth + 1))
      (Tree.picked v.notes (t.levels (depth + 1))) t (v.visit t)
  | .node kind attributes slots => by
    have hinside : Records id limit depth (Tree.levels (depth + 1) (.node kind attributes slots))
        (Tree.picked v.notes (Slot.levels (depth + 2) slots)) (Tree.node kind attributes slots)
        (Walk.within id (v.visitSlots slots) >>= fun _ => Pure.pure _) :=
      ((visitSlots_records hstops (depth + 1) slots).within (.node kind attributes slots)).map
        (.within id (visitSlots_balanced v slots)) _
    have hmethod : v.method kind = ⟨v.notes kind, false⟩ := by rw [Visitor.method, hstops]
    rw [visit, Tree.levels, Tree.picked_cons, Tree.kind]
    refine Records.bind (.method kind) (.method kind) ?_
    rw [hmethod]
    cases v.notes kind with
    | true => exact (Records.note _).bind (.note _) hinside
    | false => exact hinside

theorem visitSlots_records (hstops : ∀ kind, v.stops kind = false) (depth : Nat) :
    (slots : List Slot) → Records id limit depth (Slot.levels (depth + 1) slots)
      (Tree.picked v.notes (Slot.levels (depth + 1) slots)) () (v.visitSlots slots)
  | [] => .pure ()
  | .one _ child :: rest => by
    have hchild : (v.visit child).Balanced := visit_balanced v child
    rw [Slot.levels, Tree.picked_append]
    exact ((visit_records hstops depth child).map hchild _).bind (hchild.bind fun _ => .pure ())
      (visitSlots_records hstops depth rest)
  | .many _ children :: rest => by
    rw [Slot.levels, Tree.picked_append]
    exact (visitAll_records hstops depth children).bind (visitAll_balanced v children)
      (visitSlots_records hstops depth rest)

theorem visitAll_records (hstops : ∀ kind, v.stops kind = false) (depth : Nat) :
    (ts : List Tree) → Records id limit depth (Tree.levelsAll (depth + 1) ts)
      (Tree.picked v.notes (Tree.levelsAll (depth + 1) ts)) () (v.visitAll ts)
  | [] => .pure ()
  | t :: rest => by
    have ht : (v.visit t).Balanced := visit_balanced v t
    rw [Tree.levelsAll, Tree.picked_append]
    exact ((visit_records hstops depth t).map ht _).bind (ht.bind fun _ => .pure ())
      (visitAll_records hstops depth rest)

end

theorem session_recorded (hstops : ∀ kind, v.stops kind = false) (t : Tree)
    (maxDepth : Option Int) :
    ∃ visit : Visit, v.session (.ofRequest maxDepth) [t] = [visit] ∧
      Recorded id (DepthGuard.ofRequest maxDepth).limit (t.levels 1)
        (Tree.picked v.notes (t.levels 1)) t visit.noted visit.result := by
  obtain ⟨seen, hseen, hrecorded⟩ := visit_records hstops 0 t
    { guard := .ofRequest maxDepth } rfl
  refine ⟨⟨seen, _⟩, ?_, hrecorded⟩
  have hnoted : ((v.visit t).run { guard := .ofRequest maxDepth }).2.noted.reverse = seen := by
    rw [hseen, List.append_nil, List.reverse_reverse]
  rw [← hnoted]
  rfl

end Visitor

section Edits

open Walk

variable {edits : Edits} {limit : Int}

namespace Edits

/-- The edits leave every node in its place. -/
def InPlace (edits : Edits) : Prop :=
  ∀ kind edit, edits kind = some edit → edit = .note ∨ ∃ old new, edit = .rename old new

/-- The kinds of node that are noted. -/
def notes (edits : Edits) (kind : Kind) : Bool :=
  match edits kind with
  | some .note => true
  | _ => false

/-- What an edit in place makes of the attributes of a node. -/
def relabel (edits : Edits) (kind : Kind) (attributes : List (String × Attribute)) :
    List (String × Attribute) :=
  match edits kind with
  | some (.rename old new) => Edit.replaceText "name" old new attributes
  | _ => attributes

end Edits

mutual

/-- The tree with the names that edits in place give. -/
def Tree.relabelled (edits : Edits) : Tree → Tree
  | .node kind attributes slots =>
    .node kind (edits.relabel kind attributes)
      (if kind.isLeaf then slots else Slot.relabelledAll edits slots)

@[simp]
def Slot.relabelledAll (edits : Edits) : List Slot → List Slot
  | [] => []
  | .one label child :: rest => .one label (child.relabelled edits) :: Slot.relabelledAll edits rest
  | .many label children :: rest =>
    .many label (Tree.relabelledAll edits children) :: Slot.relabelledAll edits rest

@[simp]
def Tree.relabelledAll (edits : Edits) : List Tree → List Tree
  | [] => []
  | t :: rest => t.relabelled edits :: Tree.relabelledAll edits rest

end

theorem Walk.Balanced.map {μ ε α β : Type} {methods : Kind → μ} {step : Walk methods ε α}
    (h : step.Balanced) (f : α → β) : (f <$> step).Balanced := by
  rw [map_eq_pure_bind]
  exact h.bind fun _ => .pure _

/-- Goes into a node that is to have the given attributes. -/
def Tree.editInside (edits : Edits) (kind : Kind) (attributes : List (String × Attribute))
    (slots : List Slot) : Walk edits EditFault Tree :=
  Walk.within .tooDeep do
    if kind.isLeaf then return .node kind attributes slots
    return .node kind attributes (← Slot.editAll edits slots)

section Inside

variable {kind : Kind} {attributes attributes' : List (String × Attribute)} {slots : List Slot}

theorem Tree.editInside_balanced (h : (Slot.editAll edits slots).Balanced) :
    (Tree.editInside edits kind attributes slots).Balanced := by
  refine .within _ ?_
  split
  · exact .pure _
  · exact h.bind fun _ => .pure _

variable (kind attributes attributes') in
theorem Tree.editInside_records {depth : Nat} {nodes : List (Nat × Tree)} {noted : List Tree}
    {slots' : List Slot}
    (h : Records .tooDeep limit (depth + 1) nodes noted slots' (Slot.editAll edits slots))
    (hbalanced : (Slot.editAll edits slots).Balanced) :
    Records .tooDeep limit depth
      ((depth + 1, .node kind attributes slots) :: if kind.isLeaf then [] else nodes)
      (if kind.isLeaf then [] else noted)
      (Tree.node kind attributes' (if kind.isLeaf then slots else slots'))
      (Tree.editInside edits kind attributes' slots) := by
  refine Records.within (.node kind attributes slots) ?_
  by_cases hleaf : kind.isLeaf = true
  · rw [if_pos hleaf, if_pos hleaf, if_pos hleaf, if_pos hleaf]
    exact .pure _
  · rw [if_neg hleaf, if_neg hleaf, if_neg hleaf, if_neg hleaf]
    exact h.map hbalanced _

end Inside

mutual

theorem Tree.edit_balanced (edits : Edits) : (t : Tree) → (t.edit edits).Balanced
  | .node kind attributes slots => by
    have hinside : ∀ as, (Tree.editInside edits kind as slots).Balanced :=
      fun _ => Tree.editInside_balanced (Slot.editAll_balanced edits slots)
    rw [Tree.edit]
    refine .bind (.method kind) fun method => ?_
    rcases method with _ | edit
    · exact (hinside _).map _
    · cases edit with
      | rename old new => exact (hinside _).map _
      | note => exact .bind (.note _) fun _ => (hinside _).map _
      | duplicateInside | unwrap | dropZero => exact .bind (hinside _) fun _ => .pure _
      | _ => exact .pure _

theorem Slot.editAll_balanced (edits : Edits) :
    (slots : List Slot) → (Slot.editAll edits slots).Balanced
  | [] => .pure _
  | .one _ child :: rest => by
    rw [Slot.editAll]
    refine .bind (Tree.edit_balanced edits child) fun replacement => ?_
    cases replacement with
    | single t => exact .bind (Slot.editAll_balanced edits rest) fun _ => .pure _
    | _ => exact fun _ => rfl
  | .many _ children :: rest =>
    .bind (Tree.editAll_balanced edits children) fun _ =>
      .bind (Slot.editAll_balanced edits rest) fun _ => .pure _

theorem Tree.editAll_balanced (edits : Edits) :
    (ts : List Tree) → (Tree.editAll edits ts).Balanced
  | [] => .pure _
  | t :: rest =>
    .bind (Tree.edit_balanced edits t) fun _ =>
      .bind (Tree.editAll_balanced edits rest) fun _ => .pure _

end

mutual

/-- An edit in place goes through the nodes that it reaches, notes some of them and gives the others
their names. -/
theorem Tree.edit_records (h : edits.InPlace) (depth : Nat) :
    (t : Tree) → Records .tooDeep limit depth (t.reached (depth + 1))
      (Tree.picked edits.notes (t.reached (depth + 1))) (.single (t.relabelled edits))
      (t.edit edits)
  | .node kind attributes slots => by
    have hbalanced := Slot.editAll_balanced edits slots
    have hinside : ∀ as, Records .tooDeep limit depth
        (Tree.reached (depth + 1) (.node kind attributes slots))
        (if kind.isLeaf then [] else Tree.picked edits.notes (Slot.reached (depth + 2) slots)) _
        (Replacement.single <$> Tree.editInside edits kind as slots) := fun as => by
      rw [map_eq_pure_bind, Tree.reached]
      have hparts := Slot.editAll_records h (depth + 1) slots
      exact (Tree.editInside_records kind attributes as hparts hbalanced).map
        (Tree.editInside_balanced hbalanced) _
    -- a node that is noted comes before those that are noted inside it
    have hpicked :
        Tree.picked edits.notes (Tree.reached (depth + 1) (.node kind attributes slots)) =
          (if edits.notes kind then [.node kind attributes slots] else []) ++
            if kind.isLeaf then [] else Tree.picked edits.notes (Slot.reached (depth + 2) slots) := by
      rw [Tree.reached, Tree.picked_cons, Tree.kind, apply_ite (Tree.picked edits.notes)]
      rfl
    rw [Tree.edit, Tree.relabelled, hpicked]
    refine Records.bind (.method kind) (.method kind) ?_
    cases hedit : edits kind with
    | none =>
        simp only [Edits.notes, Edits.relabel, hedit]
        exact hinside _
    | some edit =>
        rcases h kind edit hedit with rfl | ⟨old, new, rfl⟩
        · simp only [Edits.notes, Edits.relabel, hedit]
          exact (Records.note _).bind (.note _) (hinside _)
        · simp only [Edits.notes, Edits.relabel, hedit]
          exact hinside _

theorem Slot.editAll_records (h : edits.InPlace) (depth : Nat) :
    (slots : List Slot) → Records .tooDeep limit depth (Slot.reached (depth + 1) slots)
      (Tree.picked edits.notes (Slot.reached (depth + 1) slots)) (Slot.relabelledAll edits slots)
      (Slot.editAll edits slots)
  | [] => .pure _
  | .one _ child :: rest => by
    rw [Slot.editAll, Slot.reached, Tree.picked_append, Slot.relabelledAll]
    exact (Tree.edit_records h depth child).bind (Tree.edit_balanced edits child)
      ((Slot.editAll_records h depth rest).map (Slot.editAll_balanced edits rest) _)
  | .many _ children :: rest => by
    rw [Slot.editAll, Slot.reached, Tree.picked_append, Slot.relabelledAll]
    exact (Tree.editAll_records h depth children).bind (Tree.editAll_balanced edits children)
      ((Slot.editAll_records h depth rest).map (Slot.editAll_balanced edits rest) _)

theorem Tree.editAll_records (h : edits.InPlace) (depth : Nat) :
    (ts : List Tree) → Records .tooDeep limit depth (Tree.reachedAll (depth + 1) ts)
      (Tree.picked edits.notes (Tree.reachedAll (depth + 1) ts)) (Tree.relabelledAll edits ts)
      (Tree.editAll edits ts)
  | [] => .pure _
  | t :: rest => by
    rw [Tree.editAll, Tree.reachedAll, Tree.picked_append, Tree.relabelledAll]
    exact (Tree.edit_records h depth t).bind (Tree.edit_balanced edits t)
      ((Tree.editAll_records h depth rest).map (Tree.editAll_balanced edits rest) _)

end

theorem Tree.recorded_of_records {nodes : List (Nat × Tree)} {noted : List Tree}
    {value : Replacement} {t : Tree} {maxDepth : Option Int}
    (h : Records .tooDeep (DepthGuard.ofRequest maxDepth).limit 0 nodes noted value
      (t.edit edits)) :
    Recorded .tooDeep (DepthGuard.ofRequest maxDepth).limit nodes noted value
      (t.transform edits maxDepth).2 (t.transform edits maxDepth).1 := by
  obtain ⟨seen, hseen, hrecorded⟩ := h { guard := .ofRequest maxDepth } rfl
  have hnoted : (t.transform edits maxDepth).2 = seen := by
    change ((t.edit edits).run { guard := .ofRequest maxDepth }).2.noted.reverse = seen
    rw [hseen, List.append_nil, List.reverse_reverse]
  rw [hnoted]
  exact hrecorded

theorem Tree.transform_recorded (h : edits.InPlace) (t : Tree) (maxDepth : Option Int) :
    Recorded .tooDeep (DepthGuard.ofRequest maxDepth).limit (t.reached 1)
      (Tree.picked edits.notes (t.reached 1)) (.single (t.relabelled edits))
      (t.transform edits maxDepth).2 (t.transform edits maxDepth).1 :=
  Tree.recorded_of_records (Tree.edit_records h 0 t)

mutual

theorem Tree.relabelled_eq_self (depth : Nat) :
    (t : Tree) → (∀ node ∈ t.reached depth,
      edits.relabel node.2.kind node.2.attributes = node.2.attributes) → t.relabelled edits = t
  | .node kind attributes slots => by
    intro h
    rw [Tree.reached] at h
    obtain ⟨hself, hinside⟩ := List.forall_mem_cons.mp h
    have hattributes : edits.relabel kind attributes = attributes := hself
    rw [Tree.relabelled, hattributes]
    by_cases hleaf : kind.isLeaf = true
    · rw [if_pos hleaf]
    · rw [if_neg hleaf] at hinside ⊢
      rw [Slot.relabelledAll_eq_self (depth + 1) slots hinside]

theorem Slot.relabelledAll_eq_self (depth : Nat) :
    (slots : List Slot) → (∀ node ∈ Slot.reached depth slots,
      edits.relabel node.2.kind node.2.attributes = node.2.attributes) →
      Slot.relabelledAll edits slots = slots
  | [] => fun _ => rfl
  | .one _ child :: rest => by
    intro h
    obtain ⟨hchild, hrest⟩ := List.forall_mem_append.mp h
    rw [Slot.relabelledAll, Tree.relabelled_eq_self depth child hchild,
      Slot.relabelledAll_eq_self depth rest hrest]
  | .many _ children :: rest => by
    intro h
    obtain ⟨hchildren, hrest⟩ := List.forall_mem_append.mp h
    rw [Slot.relabelledAll, Tree.relabelledAll_eq_self depth children hchildren,
      Slot.relabelledAll_eq_self depth rest hrest]

theorem Tree.relabelledAll_eq_self (depth : Nat) :
    (ts : List Tree) → (∀ node ∈ Tree.reachedAll depth ts,
      edits.relabel node.2.kind node.2.attributes = node.2.attributes) →
      Tree.relabelledAll edits ts = ts
  | [] => fun _ => rfl
  | t :: rest => by
    intro h
    obtain ⟨ht, hrest⟩ := List.forall_mem_append.mp h
    rw [Tree.relabelledAll, Tree.relabelled_eq_self depth t ht,
      Tree.relabelledAll_eq_self depth rest hrest]

end

mutual

/-- Every node that is reached in the outcome has the attributes that the edits gave to a node of
its kind. -/
theorem Tree.exists_of_mem_reached_relabelled {depth : Nat} {node : Nat × Tree} :
    (t : Tree) → node ∈ (t.relabelled edits).reached depth →
      ∃ attributes, node.2.attributes = edits.relabel node.2.kind attributes
  | .node kind attributes slots => by
    intro h
    rw [Tree.relabelled, Tree.reached] at h
    obtain rfl | hinside := List.mem_cons.mp h
    · exact ⟨attributes, rfl⟩
    · by_cases hleaf : kind.isLeaf = true
      · rw [if_pos hleaf] at hinside
        exact absurd hinside List.not_mem_nil
      · rw [if_neg hleaf, if_neg hleaf] at hinside
        exact Slot.exists_of_mem_reached_relabelled slots hinside

theorem Slot.exists_of_mem_reached_relabelled {depth : Nat} {node : Nat × Tree} :
    (slots : List Slot) → node ∈ Slot.reached depth (Slot.relabelledAll edits slots) →
      ∃ attributes, node.2.attributes = edits.relabel node.2.kind attributes
  | [] => fun h => absurd h List.not_mem_nil
  | .one _ child :: rest => by
    intro h
    obtain hchild | hrest := List.mem_append.mp h
    · exact Tree.exists_of_mem_reached_relabelled child hchild
    · exact Slot.exists_of_mem_reached_relabelled rest hrest
  | .many _ children :: rest => by
    intro h
    obtain hchildren | hrest := List.mem_append.mp h
    · exact Tree.exists_of_mem_reachedAll_relabelled children hchildren
    · exact Slot.exists_of_mem_reached_relabelled rest hrest

theorem Tree.exists_of_mem_reachedAll_relabelled {depth : Nat} {node : Nat × Tree} :
    (ts : List Tree) → node ∈ Tree.reachedAll depth (Tree.relabelledAll edits ts) →
      ∃ attributes, node.2.attributes = edits.relabel node.2.kind attributes
  | [] => fun h => absurd h List.not_mem_nil
  | t :: rest => by
    intro h
    obtain ht | hrest := List.mem_append.mp h
    · exact Tree.exists_of_mem_reached_relabelled t ht
    · exact Tree.exists_of_mem_reachedAll_relabelled rest hrest

end

end Edits

deriving instance DecidableEq for Visitor.Visit, Replacement

/-- Notes the nodes of one kind and goes into all nodes. -/
def Visitor.noting (kind : Kind) : Visitor where
  notes k := k == kind
  stops _ := false
  label t := t.kind.name

namespace Edits

/-- Notes the nodes of one kind and leaves the tree as it is. -/
def noting (kind : Kind) : Edits := fun k =>
  if k = kind then some .note else none

/-- Gives the nodes of one kind a new name if they have the old one. -/
def renames (kind : Kind) (old new : String) : Edits := fun k =>
  if k = kind then some (.rename old new) else none

variable {kind : Kind} {old new : String}

theorem noting_inPlace (kind : Kind) : (noting kind).InPlace := by
  intro k edit h
  obtain ⟨-, h⟩ := Option.ite_none_right_eq_some.mp h
  exact .inl (Option.some.inj h).symm

theorem renames_inPlace (kind : Kind) (old new : String) : (renames kind old new).InPlace := by
  intro k edit h
  obtain ⟨-, h⟩ := Option.ite_none_right_eq_some.mp h
  exact .inr ⟨old, new, (Option.some.inj h).symm⟩

theorem noting_notes (kind : Kind) : (noting kind).notes = (Visitor.noting kind).notes := by
  funext k
  by_cases h : k = kind <;> simp [notes, noting, Visitor.noting, h]

theorem noting_relabel (kind k : Kind) (attributes : List (String × Attribute)) :
    (noting kind).relabel k attributes = attributes := by
  by_cases h : k = kind <;> simp [relabel, noting, h]

theorem renames_relabel_self (attributes : List (String × Attribute)) :
    (renames kind old new).relabel kind attributes =
      Edit.replaceText "name" old new attributes := by
  simp [relabel, renames]

theorem renames_relabel_of_ne {k : Kind} (h : k ≠ kind)
    (attributes : List (String × Attribute)) :
    (renames kind old new).relabel k attributes = attributes := by
  simp [relabel, renames, h]

end Edits

theorem Visitor.noted_of_noting {kind : Kind} {t t' : Tree} {maxDepth : Option Int}
    {noted : List Tree}
    (h : (noting kind).session (.ofRequest maxDepth) [t] = [⟨noted, .ok t'⟩]) :
    noted = Tree.picked (· == kind) (t.levels 1) := by
  obtain ⟨visit, hvisit, hrecorded⟩ :=
    session_recorded (v := noting kind) (fun _ => rfl) t maxDepth
  rw [h] at hvisit
  obtain rfl := List.singleton_inj.mp hvisit
  cases hrecorded
  rfl

theorem Tree.transform_of_reached {edits : Edits} (h : edits.InPlace) {t : Tree}
    {maxDepth : Option Int}
    (hdepth : ∀ node ∈ t.reached 1, (node.1 : Int) ≤ (DepthGuard.ofRequest maxDepth).limit) :
    t.transform edits maxDepth =
      (.ok (.single (t.relabelled edits)), Tree.picked edits.notes (t.reached 1)) :=
  Prod.ext_iff.mpr ((Tree.transform_recorded h t maxDepth).eq_of_shallow hdepth)

theorem Tree.reached_le_of_noting {kind : Kind} {t : Tree} {maxDepth : Option Int}
    (h : ∀ e, (t.transform (.noting kind) maxDepth).1 ≠ .error (.tooDeep e)) :
    ∀ node ∈ t.reached 1, (node.1 : Int) ≤ (DepthGuard.ofRequest maxDepth).limit :=
  (Tree.transform_recorded (Edits.noting_inPlace kind) t maxDepth).shallow_of_ne h

theorem Edit.lookup_replaceText_ne {label old new : String} (h : old ≠ new)
    (attributes : List (String × Attribute)) :
    (replaceText label old new attributes).lookup label ≠ some (.text old) := by
  induction attributes with
  | nil => exact nofun
  | cons entry rest ih =>
      obtain ⟨key, value⟩ := entry
      rw [replaceText, List.map_cons]
      by_cases hkey : key = label
      · subst hkey
        by_cases hvalue : value = .text old
        · simpa [hvalue] using h.symm
        · simp [hvalue]
      · have hskip : (label == key) = false := by simpa using Ne.symm hkey
        simpa [hkey, List.lookup_cons, hskip, replaceText] using ih

theorem Tree.text?_ne_of_renames {kind : Kind} {old new : String} {t : Tree} {depth : Nat}
    {node : Nat × Tree} (h : old ≠ new)
    (hnode : node ∈ (t.relabelled (.renames kind old new)).reached depth)
    (hkind : node.2.kind = kind) : node.2.text? "name" ≠ some old := by
  obtain ⟨attributes, hattributes⟩ := Tree.exists_of_mem_reached_relabelled t hnode
  rw [hkind, Edits.renames_relabel_self] at hattributes
  have hlookup : (Edit.replaceText "name" old new attributes).lookup "name" ≠ some (.text old) :=
    Edit.lookup_replaceText_ne h attributes
  rw [← hattributes] at hlookup
  intro htext
  rw [Tree.text?] at htext
  split at htext
  · rename_i value hvalue
    rw [Option.some.inj htext] at hvalue
    exact hlookup hvalue
  · cases htext

end FuzzFrontend
