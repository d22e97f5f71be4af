import FuzzFrontend.Tree.Visit

namespace FuzzFrontend

namespace DepthGuard

theorem enter_of_lt {g : DepthGuard} (h : g.depth < g.limit) :
    g.enter = .ok { g with depth := g.depth + 1 } := by
  rw [enter, isExceeded, if_neg (by simpa using h)]

theorem enter_of_le {g : DepthGuard} (h : g.limit ≤ g.depth) : g.enter = .error ⟨g.limit⟩ := by
  rw [enter, isExceeded, if_pos (by simpa using h)]

end DepthGuard

section Methods

variable {μ : Type} {methods : Kind → μ}

theorem Dispatch.find_fst (dispatch : Dispatch methods) (kind : Kind) :
    (dispatch.find kind).1 = methods kind := by
  unfold Dispatch.find
  split
  · next method hfound =>
    -- what is remembered for a kind is the method of that kind
    obtain ⟨before, after, hentries, -⟩ := List.lookup_eq_some_iff.mp hfound
    exact dispatch.sound (kind, method) (by simp [hentries])
  · rfl

namespace Walk

variable {ε α β : Type}

theorem run_bind (step : Walk methods ε α) (next : α → Walk methods ε β) (trail : Trail methods) :
    (step >>= next).run trail =
      match step.run trail with
      | (.ok a, after) => (next a).run after
      | (.error e, after) => (.error e, after) := by
  change (ExceptT.bindCont next (step.run trail).1).run (step.run trail).2 = _
  rcases step.run trail with ⟨_ | _, after⟩ <;> rfl

theorem run_bind_of_ok {step : Walk methods ε α} {next : α → Walk methods ε β}
    {trail after : Trail methods} {a : α} (h : step.run trail = (.ok a, after)) :
    (step >>= next).run trail = (next a).run after := by
  rw [run_bind, h]

theorem run_bind_of_error {step : Walk methods ε α} {next : α → Walk methods ε β}
    {trail after : Trail methods} {e : ε} (h : step.run trail = (.error e, after)) :
    (step >>= next).run trail = (.error e, after) := by
  rw [run_bind, h]

theorem run_note (t : Tree) (trail : Trail methods) :
    (note t : Walk methods ε Unit).run trail =
      (.ok (), { trail with noted := t :: trail.noted }) :=
  rfl

theorem run_method (kind : Kind) (trail : Trail methods) :
    (method kind : Walk methods ε μ).run trail =
      (.ok (methods kind), { trail with dispatch := (trail.dispatch.find kind).2 }) := by
  rw [← Dispatch.find_fst trail.dispatch kind]
  rfl

theorem run_within_of_lt (tooDeep : DepthExceeded → ε) (step : Walk methods ε α)
    {trail : Trail methods} (h : trail.guard.depth < trail.guard.limit) :
    let inner := { trail with guard.depth := trail.guard.depth + 1 }
    (within tooDeep step).run trail =
      ((step.run inner).1,
        { (step.run inner).2 with guard := (step.run inner).2.guard.exit }) := by
  unfold within
  rw [ExceptT.run_mk, DepthGuard.enter_of_lt h]
  rfl

theorem run_within_of_le (tooDeep : DepthExceeded → ε) (step : Walk methods ε α)
    {trail : Trail methods} (h : trail.guard.limit ≤ trail.guard.depth) :
    (within tooDeep step).run trail = (.error (tooDeep ⟨trail.guard.limit⟩), trail) := by
  unfold within
  rw [ExceptT.run_mk, DepthGuard.enter_of_le h]

/-- A step that gives the guard back as it found it, however it comes out. -/
def Balanced (step : Walk methods ε α) : Prop :=
  ∀ trail : Trail methods, (step.run trail).2.guard = trail.guard

namespace Balanced

theorem pure (a : α) : (pure a : Walk methods ε α).Balanced :=
  fun _ => rfl

theorem note (t : Tree) : (note t : Walk methods ε Unit).Balanced :=
  fun _ => rfl

theorem method (kind : Kind) : (method kind : Walk methods ε μ).Balanced :=
  fun _ => rfl

theorem bind {step : Walk methods ε α} {next : α → Walk methods ε β} (hstep : step.Balanced)
    (hnext : ∀ a, (next a).Balanced) : (step >>= next).Balanced := by
  intro trail
  rcases hrun : step.run trail with ⟨e | a, after⟩
  · rw [run_bind_of_error hrun, ← hstep trail, hrun]
  · rw [run_bind_of_ok hrun, hnext a after, ← hstep trail, hrun]

theorem within {step : Walk methods ε α} (tooDeep : DepthExceeded → ε) (hstep : step.Balanced) :
    (within tooDeep step).Balanced := by
  intro trail
  obtain hdepth | hdepth := Int.lt_or_le trail.guard.depth trail.guard.limit
  · rw [run_within_of_lt tooDeep step hdepth]
    simp only [hstep _, DepthGuard.exit, Int.add_sub_cancel]
  · rw [run_within_of_le tooDeep step hdepth]

end Balanced

end Walk

end Methods

namespace Visitor

open Walk

mutual

/-- However a visit ends, the guard stands where it stood before. -/
theorem visit_balanced (v : Visitor) : (t : Tree) → (v.visit t).Balanced
  | .node kind attributes slots => by
    have hinside : (Walk.within id (v.visitSlots slots)).Balanced :=
      .within id (visitSlots_balanced v slots)
    rw [visit]
    refine .bind (.method kind) fun method => ?_
    rcases method with ⟨_ | _, _ | _⟩
    · exact .bind hinside fun _ => .pure _
    · exact .pure _
    · exact .bind (.note _) fun _ => .bind hinside fun _ => .pure _
    · exact .bind (.note _) fun _ => .pure _

theorem visitSlots_balanced (v : Visitor) : (slots : List Slot) → (v.visitSlots slots).Balanced
  | [] => .pure ()
  | .one _ child :: rest =>
    .bind (.bind (visit_balanced v child) fun _ => .pure _) fun _ => visitSlots_balanced v rest
  | .many _ children :: rest =>
    .bind (visitAll_balanced v children) fun _ => visitSlots_balanced v rest

theorem visitAll_balanced (v : Visitor) : (ts : List Tree) → (v.visitAll ts).Balanced
  | [] => .pure ()
  | t :: rest =>
    .bind (.bind (visit_balanced v t) fun _ => .pure _) fun _ => visitAll_balanced v rest

end

end Visitor

end FuzzFrontend
