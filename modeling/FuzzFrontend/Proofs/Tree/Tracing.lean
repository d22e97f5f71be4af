import FuzzFrontend.Program.Outline
import FuzzFrontend.Proofs.Tree.Walk
import Mathlib.Data.List.Forall2
import Mathlib.Data.List.TakeWhile

namespace FuzzFrontend

mutual

/-- The nodes of a tree, each before its children, and the depth at which each lies when the root
lies at the given one. -/
def Tree.levels (depth : Nat) : Tree → List (Nat × Tree)
  | .node kind attributes slots =>
    (depth, .node kind attributes slots) :: Slot.levels (depth + 1) slots

def Slot.levels (depth : Nat) : List Slot → List (Nat × Tree)
  | [] => []
  | .one _ child :: rest => child.levels depth ++ Slot.levels depth rest
  | .many _ children :: rest => Tree.levelsAll depth children ++ Slot.levels depth rest

def Tree.levelsAll (depth : Nat) : List Tree → List (Nat × Tree)
  | [] => []
  | t :: rest => t.levels depth ++ Tree.levelsAll depth rest

end

theorem Tree.levelsAll_eq_flatMap (depth : Nat) (ts : List Tree) :
    Tree.levelsAll depth ts = ts.flatMap (Tree.levels depth) := by
  induction ts with
  | nil => rfl
  | cons t rest ih => rw [Tree.levelsAll, ih, List.flatMap_cons]

theorem Slot.levels_eq_flatMap (depth : Nat) (slots : List Slot) :
    Slot.levels depth slots = (slots.flatMap Slot.children).flatMap (Tree.levels depth) := by
  induction slots with
  | nil => rfl
  | cons slot rest ih =>
      cases slot with
      | one _ child => simp [Slot.levels, Slot.children, ih]
      | many _ children => simp [Slot.levels, Slot.children, Tree.levelsAll_eq_flatMap, ih]

theorem Tree.levels_eq (depth : Nat) (t : Tree) :
    t.levels depth = (depth, t) :: t.children.flatMap (Tree.levels (depth + 1)) := by
  cases t
  rw [Tree.levels, Slot.levels_eq_flatMap]
  rfl

/-- The kind of every node of the tree meets the condition. -/
def Tree.EveryKind (P : Kind → Prop) (t : Tree) : Prop :=
  ∀ depth, ∀ node ∈ t.levels depth, P node.2.kind

theorem Tree.EveryKind.imp {P Q : Kind → Prop} {t : Tree} (h : t.EveryKind P)
    (hPQ : ∀ kind, P kind → Q kind) : t.EveryKind Q :=
  fun depth node hnode => hPQ _ (h depth node hnode)

theorem Tree.everyKind_of_children {P : Kind → Prop} {kind : Kind}
    {attributes : List (String × Attribute)} {slots : List Slot} (hkind : P kind)
    (h : ∀ child ∈ (node kind attributes slots).children, child.EveryKind P) :
    (node kind attributes slots).EveryKind P := by
  intro depth n hn
  rw [levels_eq] at hn
  obtain rfl | hn := List.mem_cons.mp hn
  · exact hkind
  · obtain ⟨child, hchild, hn⟩ := List.mem_flatMap.mp hn
    exact h child hchild (depth + 1) n hn

variable {α β : Type} {limit : Nat} {nodes more : List (Nat × Tree)} {seen : List Tree}

/-- How far a step gets that is to note nodes one after another under a depth limit. Either none of
them lies deeper than the limit, all are noted and the step gives its value, or they are noted up to
the first that lies below the limit. -/
inductive Reach (limit : Nat) (value : α) :
    List (Nat × Tree) → List Tree → Except DepthExceeded α → Prop
  | all {nodes : List (Nat × Tree)} (h : ∀ node ∈ nodes, node.1 ≤ limit) :
    Reach limit value nodes (nodes.map Prod.snd) (.ok value)
  | upTo {before after : List (Nat × Tree)} {late : Tree} (h : ∀ node ∈ before, node.1 ≤ limit) :
    Reach limit value (before ++ (limit + 1, late) :: after) (before.map Prod.snd ++ [late])
      (.error ⟨limit⟩)

namespace Reach

theorem append {a : α} {b : β} {seen' : List Tree} {result : Except DepthExceeded β}
    (h : Reach limit a nodes seen (.ok a)) (h' : Reach limit b more seen' result) :
    Reach limit b (nodes ++ more) (seen ++ seen') result := by
  cases h with
  | all h =>
      cases h' with
      | all h' =>
          rw [← List.map_append]
          exact .all fun node hnode => (List.mem_append.mp hnode).elim (h node) (h' node)
      | upTo h' =>
          rw [← List.append_assoc, ← List.append_assoc, ← List.map_append]
          exact .upTo fun node hnode => (List.mem_append.mp hnode).elim (h node) (h' node)

theorem append_of_error {a : α} {b : β} {e : DepthExceeded}
    (h : Reach limit a nodes seen (.error e)) (more : List (Nat × Tree)) :
    Reach limit b (nodes ++ more) seen (.error e) := by
  cases h with
  | upTo h =>
      rw [List.append_assoc, List.cons_append]
      exact .upTo h

/-- What is noted and how the step ends, computed from the nodes and the limit. -/
theorem eq_takeWhile {a : α} {result : Except DepthExceeded α} (h : Reach limit a nodes seen result) :
    let shallow : Nat × Tree → Bool := fun node => node.1 ≤ limit
    seen = (nodes.takeWhile shallow ++ (nodes.dropWhile shallow).take 1).map Prod.snd ∧
      result = if nodes.dropWhile shallow = [] then .ok a else .error ⟨limit⟩ := by
  cases h with
  | all h =>
      have hshallow : ∀ node ∈ nodes, decide (node.1 ≤ limit) = true :=
        fun node hnode => decide_eq_true (h node hnode)
      simp [List.takeWhile_eq_self_iff.mpr hshallow, List.dropWhile_eq_nil_iff.mpr hshallow]
  | @upTo before after late h =>
      have hshallow : ∀ node ∈ before, decide (node.1 ≤ limit) = true :=
        fun node hnode => decide_eq_true (h node hnode)
      simp [List.takeWhile_append_of_pos hshallow, List.dropWhile_append_of_pos hshallow]

theorem unique {a : α} {seen' : List Tree} {result result' : Except DepthExceeded α}
    (h : Reach limit a nodes seen result) (h' : Reach limit a nodes seen' result') :
    seen = seen' ∧ result = result' := by
  rw [h.eq_takeWhile.1, h.eq_takeWhile.2, h'.eq_takeWhile.1, h'.eq_takeWhile.2]
  exact ⟨rfl, rfl⟩

theorem eq_of_ok {a b : α} (h : Reach limit a nodes seen (.ok b)) : b = a := by
  cases h
  rfl

end Reach

namespace Walk

variable {μ : Type} {methods : Kind → μ} {depth : Nat}

/-- A step that starts at the given depth, notes the given nodes as far as the limit allows, and
gives the value if it notes all. -/
def Notes (limit depth : Nat) (nodes : List (Nat × Tree)) (value : α)
    (step : Walk methods DepthExceeded α) : Prop :=
  ∀ trail : Trail methods, trail.guard = ⟨limit, depth⟩ →
    ∃ seen, (step.run trail).2.noted = seen.reverse ++ trail.noted ∧
      Reach limit value nodes seen (step.run trail).1

namespace Notes

theorem pure (a : α) : Notes limit depth [] a (pure a : Walk methods DepthExceeded α) :=
  fun _ _ => ⟨[], rfl, .all nofun⟩

theorem method (kind : Kind) :
    Notes limit depth [] (methods kind) (method kind : Walk methods DepthExceeded μ) := by
  intro trail _
  rw [run_method]
  exact ⟨[], rfl, .all nofun⟩

theorem bind {a : α} {b : β} {step : Walk methods DepthExceeded α}
    {next : α → Walk methods DepthExceeded β} (hstep : Notes limit depth nodes a step)
    (hbalanced : step.Balanced) (hnext : Notes limit depth more b (next a)) :
    Notes limit depth (nodes ++ more) b (step >>= next) := by
  intro trail hguard
  obtain ⟨seen, hnoted, hreach⟩ := hstep trail hguard
  rcases hrun : step.run trail with ⟨e | a', after⟩
  · rw [hrun] at hnoted hreach
    rw [run_bind_of_error hrun]
    exact ⟨seen, hnoted, hreach.append_of_error more⟩
  · have hafter : after.guard = ⟨limit, depth⟩ := by
      rw [← hguard, ← hbalanced trail, hrun]
    rw [hrun] at hnoted hreach
    obtain rfl := hreach.eq_of_ok
    obtain ⟨seen', hnoted', hreach'⟩ := hnext after hafter
    rw [run_bind_of_ok hrun]
    refine ⟨seen ++ seen', ?_, hreach.append hreach'⟩
    rw [hnoted', hnoted, List.reverse_append, List.append_assoc]

theorem replace {a : α} {step : Walk methods DepthExceeded α}
    (hstep : Notes limit depth nodes a step) (hbalanced : step.Balanced) (b : β) :
    Notes limit depth nodes b (step >>= fun _ => Pure.pure b) := by
  have h : Notes limit depth (nodes ++ []) b (step >>= fun _ => Pure.pure b) :=
    hstep.bind hbalanced (.pure b)
  rwa [List.append_nil] at h

/-- A node is noted before the guard is entered, so the first node that lies too deep is noted
too. -/
theorem node (t : Tree) {step : Walk methods DepthExceeded Unit} (hdepth : depth ≤ limit)
    (hstep : depth < limit → Notes limit (depth + 1) nodes () step) :
    Notes limit depth ((depth + 1, t) :: nodes) () (note t >>= fun _ => within id step) := by
  intro trail hguard
  rw [run_bind_of_ok (run_note t trail)]
  obtain hlimit | rfl := Nat.lt_or_eq_of_le hdepth
  · have hself : Reach limit () [(depth + 1, t)] [t] (.ok ()) := .all fun node hnode => by
      rw [List.mem_singleton.mp hnode]
      exact hlimit
    rw [run_within_of_lt id step (by simpa [hguard] using hlimit)]
    obtain ⟨seen, hnoted, hreach⟩ :=
      hstep hlimit { trail with guard.depth := trail.guard.depth + 1, noted := t :: trail.noted }
        (by simp [hguard])
    refine ⟨t :: seen, ?_, hself.append hreach⟩
    simp only [hnoted, List.reverse_cons, List.append_assoc, List.singleton_append]
  · rw [run_within_of_le id step (by simp [hguard])]
    refine ⟨[t], rfl, ?_⟩
    have hcut : Reach depth () ([] ++ (depth + 1, t) :: nodes) ([].map Prod.snd ++ [t])
        (.error ⟨depth⟩) := .upTo nofun
    rw [hguard]
    exact hcut

end Notes

end Walk

namespace Visitor

open Walk

mutual

theorem visit_notes {depth : Nat} (hdepth : depth ≤ limit) :
    (t : Tree) → Notes limit depth (t.levels (depth + 1)) t (trace.visit t)
  | .node kind attributes slots => by
    have hinside : depth < limit →
        Notes limit (depth + 1) (Slot.levels (depth + 2) slots) () (trace.visitSlots slots) :=
      fun hlimit => visitSlots_notes hlimit slots
    have hbalanced : (note (.node kind attributes slots) >>= fun _ =>
        within id (trace.visitSlots slots)).Balanced :=
      .bind (.note _) fun _ => .within id (visitSlots_balanced trace slots)
    -- the method of every kind is to note the node and to go on inside
    exact Notes.bind (.method kind) (.method kind) ((Notes.node _ hdepth hinside).replace hbalanced _)

theorem visitSlots_notes {depth : Nat} (hdepth : depth ≤ limit) :
    (slots : List Slot) →
      Notes limit depth (Slot.levels (depth + 1) slots) () (trace.visitSlots slots)
  | [] => .pure ()
  | .one _ child :: rest =>
    have hchild : (trace.visit child).Balanced := visit_balanced trace child
    ((visit_notes hdepth child).replace hchild ()).bind (hchild.bind fun _ => .pure ())
      (visitSlots_notes hdepth rest)
  | .many _ children :: rest =>
    (visitAll_notes hdepth children).bind (visitAll_balanced trace children)
      (visitSlots_notes hdepth rest)

theorem visitAll_notes {depth : Nat} (hdepth : depth ≤ limit) :
    (ts : List Tree) →
      Notes limit depth (Tree.levelsAll (depth + 1) ts) () (trace.visitAll ts)
  | [] => .pure ()
  | t :: rest =>
    have ht : (trace.visit t).Balanced := visit_balanced trace t
    ((visit_notes hdepth t).replace ht ()).bind (ht.bind fun _ => .pure ())
      (visitAll_notes hdepth rest)

end

/-- Where a visitor stands after it has looked at some trees. -/
def after (v : Visitor) (before : Trail v.method) : List Tree → Trail v.method
  | [] => before
  | t :: rest => v.after ((v.visit t).run { before with noted := [] }).2 rest

theorem sessionFrom_append (v : Visitor) (before : Trail v.method) (ts us : List Tree) :
    v.sessionFrom before (ts ++ us) =
      v.sessionFrom before ts ++ v.sessionFrom (v.after before ts) us := by
  induction ts generalizing before with
  | nil => rfl
  | cons t rest ih =>
      simp only [List.cons_append, sessionFrom, ih]
      rfl

theorem guard_after (v : Visitor) (before : Trail v.method) (ts : List Tree) :
    (v.after before ts).guard = before.guard := by
  induction ts generalizing before with
  | nil => rfl
  | cons t rest ih => rw [after, ih, visit_balanced v t]

/-- Each visit of a session notes its tree as far as the limit allows, whatever was visited
before. -/
theorem sessionFrom_reach {before : Trail trace.method} (h : before.guard = ⟨limit, 0⟩)
    (ts : List Tree) :
    List.Forall₂ (fun t visit => Reach limit t (t.levels 1) visit.noted visit.result) ts
      (trace.sessionFrom before ts) := by
  induction ts generalizing before with
  | nil => exact .nil
  | cons t rest ih =>
      have hguard := visit_balanced trace t { before with noted := [] }
      refine .cons ?_ (ih (hguard.trans h))
      obtain ⟨seen, hnoted, hreach⟩ :=
        visit_notes limit.zero_le t { before with noted := [] } h
      have hseen : ((trace.visit t).run { before with noted := [] }).2.noted.reverse = seen := by
        rw [hnoted, List.append_nil, List.reverse_reverse]
      rw [← hseen] at hreach
      exact hreach

theorem ofRequest_natCast (maxDepth : Nat) :
    DepthGuard.ofRequest (some maxDepth) = ⟨(min maxDepth 950 : Nat), 0⟩ := by
  have hclamp : clampDepth maxDepth = (min maxDepth 950 : Nat) := by
    have hsafe : (stackFrames - 50).fdiv 1 = 950 := rfl
    simp only [clampDepth, hsafe]
    split <;> omega
  rw [DepthGuard.ofRequest, Option.getD_some, hclamp]

theorem trace_session_eq_flatMap {guard : DepthGuard} (h : guard = ⟨limit, 0⟩) (ts : List Tree) :
    trace.session guard ts = ts.flatMap fun t => trace.session guard [t] := by
  have halone : List.Forall₂ (fun t visit => Reach limit t (t.levels 1) visit.noted visit.result) ts
      (ts.flatMap fun t => trace.session guard [t]) := by
    induction ts with
    | nil => exact .nil
    | cons t rest ih =>
        rw [List.flatMap_cons]
        exact List.rel_append (sessionFrom_reach h [t]) ih
  refine List.right_unique_forall₂' ?_ (sessionFrom_reach h ts) halone
  rintro t ⟨noted, result⟩ ⟨noted', result'⟩ hreach hreach'
  obtain ⟨rfl, rfl⟩ := hreach.unique hreach'
  rfl

/-- A visitor that notes every node may look at any programs in turn: each visit notes the nodes of
its program, a node before its parts, as far as the first below the limit. It makes no difference
what was visited before, and the guard is at depth zero between visits. -/
theorem trace_session (programs : List Program) (maxDepth : Nat) :
    let limit := min maxDepth 950
    let guard := DepthGuard.ofRequest (some maxDepth)
    let trees := programs.map Program.toTree
    List.Forall₂ (fun t visit => Reach limit t (t.levels 1) visit.noted visit.result) trees
        (trace.session guard trees) ∧
      trace.session guard trees = trees.flatMap (fun t => trace.session guard [t]) ∧
      ∀ done rest, trees = done ++ rest →
        let between := trace.after { guard := guard } done
        trace.session guard trees = trace.session guard done ++ trace.sessionFrom between rest ∧
          between.guard.depth = 0 := by
  intro limit guard trees
  have hguard : guard = ⟨limit, 0⟩ := ofRequest_natCast maxDepth
  refine ⟨sessionFrom_reach hguard trees, trace_session_eq_flatMap hguard trees, ?_⟩
  intro done rest htrees between
  refine ⟨?_, ?_⟩
  · rw [htrees]
    exact sessionFrom_append trace { guard := guard } done rest
  · rw [guard_after, hguard]

example :
    let p : Program :=
      ⟨[.constrained "x" (.known (.pointer (.scalar .u8)))], [.verify (.var .plain "x")]⟩
    let visits := trace.session (.ofRequest (some 3)) [p.toTree, (⟨[], []⟩ : Program).toTree]
    visits.map (fun visit => visit.noted.map trace.label) =
      [["Program", "Constrained", "BasicType", "Pointer"], ["Program"]] := by
  decide +kernel

end Visitor

end FuzzFrontend
