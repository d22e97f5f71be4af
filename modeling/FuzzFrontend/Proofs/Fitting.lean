import FuzzFrontend.Proofs.Writing

/-!
Writers under a guard. What stops a writer that refuses nothing is the limit of its guard, and it is
stopped exactly where there is no room for what is to be written. Every step gives its levels back,
so that steps one after another need no more room than the most demanding of them.
-/
namespace FuzzFrontend

variable {α β : Type} {g : DepthGuard} {room room' : Prop}

/-- A writer gives a text if there is room for it, and is stopped at the limit if there is not. -/
inductive Fits (g : DepthGuard) (room : Prop) : Except WriteError α → Prop
  | written {a : α} (h : room) : Fits g room (.ok a)
  | stopped (h : ¬ room) : Fits g room (.error (.tooDeep ⟨g.limit⟩))

namespace Fits

theorem ok (a : α) : Fits g True (.ok a : Except WriteError α) :=
  .written trivial

theorem congr {x : Except WriteError α} (h : Fits g room x) (hroom : room ↔ room') :
    Fits g room' x := by
  cases h with
  | written h => exact .written (hroom.mp h)
  | stopped h => exact .stopped (mt hroom.mpr h)

theorem bind {x : Except WriteError α} {f : α → Except WriteError β} (hx : Fits g room x)
    (hf : ∀ a, Fits g room' (f a)) : Fits g (room ∧ room') (x >>= f) := by
  cases hx with
  | @written a h => exact (hf a).congr (and_iff_right h).symm
  | stopped h => exact .stopped fun hboth => h hboth.1

theorem map {x : Except WriteError α} (hx : Fits g room x) (f : α → β) :
    Fits g room (x >>= fun a => .ok (f a)) :=
  (hx.bind fun a => ok (f a)).congr (and_iff_left trivial)

theorem both {x : Except WriteError α} {y : Except WriteError β} {γ : Type} {costx costy : Nat}
    (hx : Fits g (costx ≤ g.room) x) (hy : Fits g (costy ≤ g.room) y) (join : α → β → γ) :
    Fits g (max costx costy ≤ g.room) (do
      let a ← x
      let b ← y
      return join a b) :=
  (hx.bind fun a => hy.map (join a)).congr Nat.max_le.symm

theorem mapM {f : α → Except WriteError β} {xs : List α} {room : α → Prop}
    (h : ∀ x ∈ xs, Fits g (room x) (f x)) : Fits g (∀ x ∈ xs, room x) (xs.mapM f) := by
  induction xs with
  | nil => exact (ok []).congr (by simp)
  | cons x xs ih =>
      rw [List.mapM_cons]
      have hrest := ih fun y hy => h y (List.mem_cons_of_mem _ hy)
      have hall := (h x List.mem_cons_self).bind fun y => hrest.map fun ys => y :: ys
      exact hall.congr List.forall_mem_cons.symm

theorem enter {f : DepthGuard → Except WriteError α} {cost : Nat}
    (hf : ∀ inner, Fits inner (cost ≤ inner.room) (f inner)) :
    Fits g (cost + 1 ≤ g.room) (g.enterToWrite >>= f) := by
  obtain ⟨limit, depth⟩ := g
  by_cases hfull : limit ≤ depth
  · have hroom : (⟨limit, depth⟩ : DepthGuard).room = 0 := by
      simp only [DepthGuard.room]
      omega
    have henter : (⟨limit, depth⟩ : DepthGuard).enterToWrite = .error (.tooDeep ⟨limit⟩) := by
      simp [DepthGuard.enterToWrite, DepthGuard.enter, DepthGuard.isExceeded, hfull,
        Except.mapError]
    rw [henter, hroom]
    exact .stopped (Nat.not_succ_le_zero cost)
  · have hroom :
        (⟨limit, depth⟩ : DepthGuard).room = (⟨limit, depth + 1⟩ : DepthGuard).room + 1 := by
      simp only [DepthGuard.room]
      omega
    have henter : (⟨limit, depth⟩ : DepthGuard).enterToWrite = .ok ⟨limit, depth + 1⟩ := by
      simp [DepthGuard.enterToWrite, DepthGuard.enter, DepthGuard.isExceeded, hfull,
        Except.mapError]
    have hinner := hf ⟨limit, depth + 1⟩
    rw [henter, hroom]
    change Fits _ _ (f ⟨limit, depth + 1⟩)
    -- the guard inside has the same limit, at which it would stop
    cases hwrite : f ⟨limit, depth + 1⟩ with
    | ok a =>
        rw [hwrite] at hinner
        cases hinner with
        | written h => exact .written (Nat.succ_le_succ h)
    | error e =>
        rw [hwrite] at hinner
        cases hinner with
        | stopped h => exact .stopped (mt Nat.le_of_succ_le_succ h)

/-- A chain enters its guard at the root, and both its sides are written inside. -/
theorem chain {left right : DepthGuard → Except WriteError String} {costl costr : Nat}
    (hl : ∀ inner, Fits inner (costl ≤ inner.room) (left inner))
    (hr : ∀ inner, Fits inner (costr ≤ inner.room) (right inner))
    (join : String → String → String) (inChain : Bool) :
    Fits g ((max costl costr + if inChain then 0 else 1) ≤ g.room) (do
      let inner ← g.enterChain inChain none
      let tl ← left inner
      let tr ← right inner
      return join tl tr) := by
  have hsides := fun inner => (hl inner).both (hr inner) join
  cases inChain with
  | true => exact hsides g
  | false => exact enter hsides

theorem error_iff {x : Except WriteError α} (h : Fits g room x) :
    x = .error (.tooDeep ⟨g.limit⟩) ↔ ¬ room := by
  cases h with
  | written h => exact ⟨nofun, fun hnot => absurd h hnot⟩
  | stopped h => exact ⟨fun _ => h, fun _ => rfl⟩

theorem ok_iff {x : Except WriteError α} (h : Fits g room x) : (∃ a, x = .ok a) ↔ room := by
  cases h with
  | written h => exact ⟨fun _ => h, fun _ => ⟨_, rfl⟩⟩
  | stopped h => exact ⟨nofun, fun hroom => absurd hroom h⟩

end Fits

end FuzzFrontend
