import FuzzFrontend.Proofs.Scan.Correspondence
import FuzzFrontend.Proofs.Scan.Limits
import FuzzFrontend.Proofs.Writing

/-!
One reading under two limits. What the first limit lets through, the second one either lets through
unchanged or stops. The value that was read tells which of the two happens, because a value that
does not fit still does not fit when it has become part of a larger one.
-/
namespace FuzzFrontend.Scan

variable {α β : Type} {m n : Nat} {limit : Int} {fits : α → Prop}

/-- What a second limit makes of an outcome. A value that fits is kept. In the place of any other
value there is the problem that the limit is reached. -/
inductive Limited (limit : Int) (fits : α → Prop) : Except Fault α → Except Fault α → Prop
  | failed {e : Fault} {y : Except Fault α} : Limited limit fits (.error e) y
  | kept {a : α} (h : fits a) : Limited limit fits (.ok a) (.ok a)
  | stopped {a : α} {rest : Input} (h : ¬ fits a) :
      Limited limit fits (.ok a) (.error (.problem rest (.nestingTooDeep limit) []))

/-- Two readings of the same input, of values of which the fitting ones are kept. -/
abbrev LimitedParse (limit : Int) (fits : α → Prop) (x y : Except Fault (Parsed α n)) : Prop :=
  Limited limit (fun p => fits p.value) x y

namespace Limited

variable {x y : Except Fault α} {fits' : β → Prop}

theorem cases (h : Limited limit fits x y) :
    (∃ e, x = .error e) ∨ (∃ a, fits a ∧ x = .ok a ∧ y = .ok a) ∨
      ∃ a rest, ¬ fits a ∧ x = .ok a ∧
        y = .error (.problem rest (.nestingTooDeep limit) []) := by
  cases h with
  | failed => exact Or.inl ⟨_, rfl⟩
  | kept h => exact Or.inr (Or.inl ⟨_, h, rfl, rfl⟩)
  | stopped h => exact Or.inr (Or.inr ⟨_, _, h, rfl, rfl⟩)

theorem of_ok {a : α} (h : Limited limit fits x y) (hx : x = .ok a) :
    fits a ∧ y = .ok a ∨
      ¬ fits a ∧ ∃ rest, y = .error (.problem rest (.nestingTooDeep limit) []) := by
  subst hx
  cases h with
  | kept h => exact Or.inl ⟨h, rfl⟩
  | stopped h => exact Or.inr ⟨h, _, rfl⟩

theorem refl (h : ∀ a, x = .ok a → fits a) : Limited limit fits x x := by
  cases x with
  | error e => exact .failed
  | ok a => exact .kept (h a rfl)

theorem stop {rest : Input} (h : ∀ a, x = .ok a → ¬ fits a) :
    Limited limit fits x (.error (.problem rest (.nestingTooDeep limit) [])) := by
  cases x with
  | error e => exact .failed
  | ok a => exact .stopped (h a rfl)

theorem map {f : α → β} (h : Limited limit fits x y) (hf : ∀ a, fits' (f a) ↔ fits a) :
    Limited limit fits' (x.map f) (y.map f) := by
  cases h with
  | failed => exact .failed
  | kept h => exact .kept ((hf _).mpr h)
  | stopped h => exact .stopped (mt (hf _).mp h)

theorem bind {f g : α → Except Fault β} (h : Limited limit fits x y)
    (hkept : ∀ a, fits a → Limited limit fits' (f a) (g a))
    (hstopped : ∀ a, ¬ fits a → ∀ b, f a = .ok b → ¬ fits' b) :
    Limited limit fits' (x >>= f) (y >>= g) := by
  cases h with
  | failed => exact .failed
  | kept h => exact hkept _ h
  | stopped h => exact stop (hstopped _ h)

theorem bind_left {f g : α → Except Fault β} (h : ∀ a, Limited limit fits' (f a) (g a)) :
    Limited limit fits' (x >>= f) (x >>= g) := by
  cases x with
  | error e => exact .failed
  | ok a => exact h a

end Limited

section Rules

variable {fits' : β → Prop} {s : Input}

theorem LimitedParse.congr {x y : Except Fault (Parsed α n)} {fits' : α → Prop}
    (h : LimitedParse limit fits x y) (hfits : ∀ a, fits' a ↔ fits a) :
    LimitedParse limit fits' x y := by
  cases h with
  | failed => exact .failed
  | kept h => exact .kept ((hfits _).mpr h)
  | stopped h => exact .stopped (mt (hfits _).mp h)

theorem LimitedParse.map {x y : Except Fault (Parsed α n)} {f : α → β}
    (h : LimitedParse limit fits x y) (hf : ∀ a, fits' (f a) ↔ fits a) :
    LimitedParse limit fits' (x.map fun p => p.map f) (y.map fun p => p.map f) :=
  Limited.map h fun p => hf p.value

theorem LimitedParse.relax {x y : Except Fault (Parsed α m)} (h : LimitedParse limit fits x y)
    (hmn : m ≤ n) :
    LimitedParse limit fits (x.map fun p => p.relax hmn) (y.map fun p => p.relax hmn) :=
  Limited.map h fun _ => Iff.rfl

theorem LimitedParse.mapRelax {x y : Except Fault (Parsed α m)} {f : α → β}
    (h : LimitedParse limit fits x y) (hf : ∀ a, fits' (f a) ↔ fits a) (hmn : m ≤ n) :
    LimitedParse limit fits' (x.map fun p => (p.map f).relax hmn)
      (y.map fun p => (p.map f).relax hmn) :=
  Limited.map h fun p => hf p.value

theorem LimitedParse.andThen {p p' : Rule α} {f f' : α → Rule β}
    (h : LimitedParse limit fits (p s) (p' s))
    (hkept : ∀ a t, fits a → LimitedParse limit fits' (f a t) (f' a t))
    (hstopped : ∀ a t b, ¬ fits a → f a t = .ok b → ¬ fits' b.value) :
    LimitedParse limit fits' (p.andThen f s) (p'.andThen f' s) := by
  unfold Rule.andThen
  rcases h.cases with ⟨e, he⟩ | ⟨a, ha, hp, hp'⟩ | ⟨a, rest, ha, hp, hp'⟩
  · simp only [he]
    exact .failed
  · simp only [hp, hp']
    rcases (hkept a.value a.rest ha).cases with
      ⟨e, he⟩ | ⟨b, hb, hf, hf'⟩ | ⟨b, rest, hb, hf, hf'⟩
    · simp only [he]
      exact .failed
    · simp only [hf, hf']
      exact .kept hb
    · simp only [hf, hf']
      exact .stopped hb
  · simp only [hp, hp']
    refine .stop fun q hq => ?_
    split at hq
    · cases hq
    · rename_i b hb
      cases hq
      exact hstopped a.value a.rest b ha hb

theorem LimitedParse.followedBy {p p' : Rule α} (h : LimitedParse limit fits (p s) (p' s))
    (q : Rule Unit) : LimitedParse limit fits (p.followedBy q s) (p'.followedBy q s) := by
  apply h.andThen
  · rintro a t ha
    refine Limited.refl fun b hb => ?_
    obtain ⟨r, -, rfl⟩ := map_eq_ok.mp hb
    exact ha
  · rintro a t b ha hb
    obtain ⟨r, -, rfl⟩ := map_eq_ok.mp hb
    exact ha

theorem LimitedParse.after (p : Rule α) {f f' : α → Rule β}
    (h : ∀ a t, LimitedParse limit fits' (f a t) (f' a t)) (s : Input) :
    LimitedParse limit fits' (p.andThen f s) (p.andThen f' s) := by
  have hfirst : LimitedParse limit (fun _ : α => True) (p s) (p s) := .refl fun _ _ => trivial
  apply hfirst.andThen
  · intro a t ha
    exact h a t
  · intro a t b ha
    exact absurd trivial ha

theorem LimitedParse.ifKeyword {p p' : Rule α} (text : String)
    (h : ∀ t, LimitedParse limit fits (p t) (p' t)) (s : Input) :
    Option.Rel (LimitedParse limit fits) (Rule.ifKeyword text p s)
      (Rule.ifKeyword text p' s) := by
  unfold Rule.ifKeyword
  cases keyword? text s with
  | none => exact .none
  | some k => exact .some ((h k.rest).relax k.rest_le)

end Rules

section Repetitions

variable {s : Input}

theorem found_subset_itemsUntilBrace
    {item : (s : Input) → s.length < n → Except Fault (Parsed α s.length)} {found : List α}
    {h : s.length < n} {p : Parsed (List α) n} (hp : itemsUntilBrace item found s h = .ok p) :
    found ⊆ p.value := by
  fun_induction itemsUntilBrace item found s h with
  | case1 found s h q hq =>
      cases hp
      exact fun x hx => List.mem_reverse.mpr hx
  | case2 found s h hbrace e he => cases hp
  | case3 found s h hbrace q hq ih => exact fun x hx => ih hp (List.mem_cons_of_mem _ hx)

theorem itemsUntilBrace_limited
    {item item' : (s : Input) → s.length < n → Except Fault (Parsed α s.length)}
    (hitem : ∀ s h, LimitedParse limit fits (item s h) (item' s h)) {found : List α}
    (hfound : ∀ x ∈ found, fits x) (s : Input) (h : s.length < n) :
    LimitedParse limit (fun xs => ∀ x ∈ xs, fits x) (itemsUntilBrace item found s h)
      (itemsUntilBrace item' found s h) := by
  fun_induction itemsUntilBrace item found s h with
  | case1 found s h p hp =>
      rw [itemsUntilBrace, hp]
      exact .kept (by simpa using hfound)
  | case2 found s h hbrace e he => exact .failed
  | case3 found s h hbrace p hp ih =>
      rw [itemsUntilBrace.eq_def item', hbrace]
      rcases (hitem s h).of_ok hp with ⟨hvalue, hcut⟩ | ⟨hvalue, rest, hcut⟩
      · simp only [hcut]
        exact ih (List.forall_mem_cons.mpr ⟨hvalue, hfound⟩)
      · simp only [hcut]
        refine .stop fun q hq hall => hvalue (hall _ ?_)
        exact found_subset_itemsUntilBrace hq List.mem_cons_self

theorem found_subset_many {item : OptionalRule α} {found : List α} {h : s.length < n}
    {p : Parsed (List α) n} (hp : many item found s h = .ok p) : found ⊆ p.value := by
  fun_induction many item found s h with
  | case1 found s h hnone =>
      cases hp
      exact fun x hx => List.mem_reverse.mpr hx
  | case2 found s h e he => cases hp
  | case3 found s h q hq ih => exact fun x hx => ih hp (List.mem_cons_of_mem _ hx)

theorem many_limited {item item' : OptionalRule α}
    (hitem : ∀ s, Option.Rel (LimitedParse limit fits) (item s) (item' s)) {found : List α}
    (hfound : ∀ x ∈ found, fits x) (s : Input) (h : s.length < n) :
    LimitedParse limit (fun xs => ∀ x ∈ xs, fits x) (many item found s h)
      (many item' found s h) := by
  fun_induction many item found s h with
  | case1 found s h hnone =>
      rw [many, (hitem s).of_none hnone]
      exact .kept (by simpa using hfound)
  | case2 found s h e he => exact .failed
  | case3 found s h p hp ih =>
      obtain ⟨r, hr, hlimited⟩ := (hitem s).of_some hp
      rw [many.eq_def item', hr]
      rcases hlimited.of_ok rfl with ⟨hvalue, rfl⟩ | ⟨hvalue, rest, rfl⟩
      · exact ih (List.forall_mem_cons.mpr ⟨hvalue, hfound⟩)
      · refine .stop fun q hq hall => hvalue (hall _ ?_)
        exact found_subset_many hq List.mem_cons_self

end Repetitions

end FuzzFrontend.Scan
