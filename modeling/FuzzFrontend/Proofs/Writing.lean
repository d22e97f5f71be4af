import Mathlib.Data.List.Forall2
import FuzzFrontend.Unspellable

namespace FuzzFrontend

section Success

variable {ε α β : Type}

theorem bind_eq_ok {x : Except ε α} {f : α → Except ε β} {b : β} :
    (x >>= f) = .ok b ↔ ∃ a, x = .ok a ∧ f a = .ok b := by
  cases x with
  | error e => simp [bind, Except.bind]
  | ok a => simp [bind, Except.bind]

theorem check_bind_eq_ok {x : Except ε Unit} {f : Unit → Except ε β} {b : β} :
    (x >>= f) = .ok b ↔ x = .ok () ∧ f () = .ok b := by
  rw [bind_eq_ok]
  constructor
  · rintro ⟨_, hx, hf⟩
    exact ⟨hx, hf⟩
  · rintro ⟨hx, hf⟩
    exact ⟨(), hx, hf⟩

theorem exists_bind_eq_ok {x : Except ε α} {f : α → Except ε β} (hf : ∀ a, ∃ b, f a = .ok b) :
    (∃ b, (x >>= f) = .ok b) ↔ ∃ a, x = .ok a := by
  simp only [bind_eq_ok]
  constructor
  · rintro ⟨_, a, ha, -⟩
    exact ⟨a, ha⟩
  · rintro ⟨a, ha⟩
    obtain ⟨b, hb⟩ := hf a
    exact ⟨b, a, ha, hb⟩

theorem map_eq_ok {x : Except ε α} {f : α → β} {b : β} :
    (f <$> x) = .ok b ↔ ∃ a, x = .ok a ∧ f a = b := by
  cases x with
  | error e => simp [Functor.map, Except.map]
  | ok a => simp [Functor.map, Except.map]

theorem mapM_eq_ok {f : α → Except ε β} {xs : List α} {ys : List β} :
    xs.mapM f = .ok ys ↔ List.Forall₂ (fun x y => f x = .ok y) xs ys := by
  induction xs generalizing ys with
  | nil => simp [pure, Except.pure, eq_comm]
  | cons x xs ih =>
      simp only [List.mapM_cons, bind_eq_ok, pure, Except.pure, Except.ok.injEq]
      constructor
      · rintro ⟨y, hy, zs, hzs, rfl⟩
        exact .cons hy (ih.mp hzs)
      · intro h
        cases h with
        | cons hy hzs => exact ⟨_, hy, _, ih.mpr hzs, rfl⟩

theorem exists_mapM_eq_ok {f : α → Except ε β} {xs : List α} :
    (∃ ys, xs.mapM f = .ok ys) ↔ ∀ x ∈ xs, ∃ y, f x = .ok y := by
  induction xs with
  | nil => simp [pure, Except.pure]
  | cons x xs ih =>
      simp only [List.mapM_cons, bind_eq_ok, pure, Except.pure, List.forall_mem_cons, ← ih]
      constructor
      · rintro ⟨_, y, hy, ys, hys, -⟩
        exact ⟨⟨y, hy⟩, ys, hys⟩
      · rintro ⟨⟨y, hy⟩, ys, hys⟩
        exact ⟨_, y, hy, ys, hys, rfl⟩

theorem forM_eq_ok {f : α → Except ε Unit} {xs : List α} :
    xs.forM f = .ok () ↔ ∀ x ∈ xs, f x = .ok () := by
  induction xs with
  | nil => simp [pure, Except.pure]
  | cons x xs ih =>
      change (f x >>= fun _ => xs.forM f) = .ok () ↔ _
      rw [check_bind_eq_ok, List.forall_mem_cons, ← ih]

theorem mapError_eq_ok {δ : Type} {x : Except ε α} {f : ε → δ} {a : α} :
    x.mapError f = .ok a ↔ x = .ok a := by
  cases x with
  | error e => simp [Except.mapError]
  | ok a => simp [Except.mapError]

theorem mapError_eq_error {δ : Type} {x : Except ε α} {f : ε → δ} {d : δ} :
    x.mapError f = .error d ↔ ∃ e, x = .error e ∧ f e = d := by
  cases x with
  | error e => simp [Except.mapError]
  | ok a => simp [Except.mapError]

end Success

section Refusal

variable {α β : Type}

/-- Whatever stops the writer, it is not that something has no spelling. -/
def Unrefused (x : Except WriteError α) : Prop :=
  ∀ reason, x ≠ .error (.unspellable reason)

theorem unrefused_ok (a : α) : Unrefused (.ok a : Except WriteError α) := by
  intro reason h
  cases h

theorem Unrefused.bind {x : Except WriteError α} {f : α → Except WriteError β} (hx : Unrefused x)
    (hf : ∀ a, x = .ok a → Unrefused (f a)) : Unrefused (x >>= f) := by
  cases x with
  | error e =>
      intro reason h
      apply hx reason
      cases h
      rfl
  | ok a => exact hf a rfl

theorem unrefused_mapM {f : α → Except WriteError β} {xs : List α}
    (h : ∀ x ∈ xs, Unrefused (f x)) : Unrefused (xs.mapM f) := by
  induction xs with
  | nil => exact unrefused_ok []
  | cons x xs ih =>
      rw [List.mapM_cons]
      refine (h x List.mem_cons_self).bind fun y _ => ?_
      refine (ih fun z hz => h z (List.mem_cons_of_mem _ hz)).bind fun ys _ => ?_
      exact unrefused_ok _

theorem unrefused_enterToWrite (g : DepthGuard) : Unrefused g.enterToWrite := by
  intro reason h
  unfold DepthGuard.enterToWrite DepthGuard.enter at h
  split at h
  · cases h
  · cases h

theorem Unrefused.cases {x : Except WriteError α} (h : Unrefused x) :
    (∃ e, x = .error (.tooDeep e)) ∨ ∃ a, x = .ok a := by
  match x, h with
  | .ok a, _ => exact Or.inr ⟨a, rfl⟩
  | .error (.tooDeep e), _ => exact Or.inl ⟨e, rfl⟩
  | .error (.unspellable reason), h => exact absurd rfl (h reason)

end Refusal

section Depth

/-- How many more levels a guard lets a writer enter. -/
def DepthGuard.room (g : DepthGuard) : Nat :=
  (g.limit - g.depth).toNat

theorem DepthGuard.room_of_enterToWrite {g inner : DepthGuard} (h : g.enterToWrite = .ok inner) :
    inner.room + 1 ≤ g.room := by
  obtain ⟨limit, depth⟩ := g
  simp only [enterToWrite, mapError_eq_ok, enter, isExceeded, decide_eq_true_eq] at h
  split at h
  · cases h
  · cases h
    simp only [room]
    omega

/-- The guard under which the operands of a chain are written. The root of a chain enters its guard,
unless the chain has a fault. -/
def DepthGuard.enterChain (g : DepthGuard) (inChain : Bool) (fault : Option Unspellable) :
    Except WriteError DepthGuard :=
  if inChain then .ok g
  else
    match fault with
    | some reason => .error (.unspellable reason)
    | none => g.enterToWrite

theorem unrefused_enterChain (g : DepthGuard) (inChain : Bool) :
    Unrefused (g.enterChain inChain none) := by
  cases inChain with
  | true => exact unrefused_ok g
  | false => exact unrefused_enterToWrite g

theorem DepthGuard.fault_of_enterChain {g inner : DepthGuard} {inChain : Bool}
    {fault : Option Unspellable} (hchain : inChain = true → fault = none)
    (h : g.enterChain inChain fault = .ok inner) : fault = none := by
  cases inChain with
  | true => exact hchain rfl
  | false =>
      cases fault with
      | none => rfl
      | some reason => cases h

theorem DepthGuard.room_of_enterChain {g inner : DepthGuard} {inChain : Bool}
    {fault : Option Unspellable} (h : g.enterChain inChain fault = .ok inner) :
    inner.room ≤ g.room := by
  cases inChain with
  | true =>
      cases h
      exact Nat.le_refl _
  | false =>
      cases fault with
      | some reason => cases h
      | none => exact Nat.le_of_succ_le (room_of_enterToWrite h)

theorem DepthGuard.room_ofRequest_le (requested : Int) :
    (ofRequest (some requested)).room ≤ requested.toNat := by
  have hclamp : clampDepth requested ≤ requested := by
    unfold clampDepth
    dsimp only
    split <;> omega
  have hroom : (ofRequest (some requested)).room = (clampDepth requested).toNat := by
    simp [room, ofRequest]
  omega

end Depth

end FuzzFrontend
