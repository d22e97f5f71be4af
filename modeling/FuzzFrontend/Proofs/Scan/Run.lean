import FuzzFrontend.Proofs.Scan.Remainder
import FuzzFrontend.Proofs.Scan.Yields
import FuzzFrontend.Scan.Run

namespace FuzzFrontend

open Scan

section Offsets

variable {source taken rest : List Char} {pos : Nat}

theorem Cursor.input_ofNat : (⟨source, pos⟩ : Cursor).input = .ok (.ofList (source.drop pos)) := by
  simp [Cursor.input]

theorem Cursor.reaching_ofList (h : source.drop pos = taken ++ rest) :
    (⟨source, pos⟩ : Cursor).reaching (.ofList rest) = ⟨source, (pos + taken.length : Nat)⟩ := by
  have hlength := congrArg List.length h
  rw [List.length_drop, List.length_append] at hlength
  simp only [Cursor.reaching, Input.length, Input.chars_ofList, Cursor.mk.injEq, true_and]
  omega

theorem drop_add_of_drop_eq (h : source.drop pos = taken ++ rest) :
    source.drop (pos + taken.length) = rest := by
  rw [← List.drop_drop, h, List.drop_left]

theorem Scan.runAt_of_yields {α : Type} {bound : Input → Nat} {value : α}
    {rule : (s : Input) → Except Fault (Parsed α (bound s))}
    (h : Yields (rule (.ofList (source.drop pos))) value rest)
    (hsplit : source.drop pos = taken ++ rest) :
    runAt rule ⟨source, pos⟩ = .ok (value, ⟨source, (pos + taken.length : Nat)⟩) := by
  obtain ⟨hlt, e⟩ := h
  simp only [runAt, Cursor.input_ofNat, e, Cursor.reaching_ofList hsplit]

end Offsets

namespace Scan

section Advances

variable {α : Type} {bound : Input → Nat} {source : List Char} {pos : Nat}

/-- What comes of a rule at an offset of a source: it fails, or it gives a value and stands at a
later offset, still in the source, with the source from there on left. -/
inductive Advances (source : List Char) (pos : Nat)
    (rule : (s : Input) → Except Fault (Parsed α (bound s))) : Prop
  | fails (e : ReadError) (run : runAt rule ⟨source, pos⟩ = .error (.unread e))
  | reads (value : α) (stop : Nat) (run : runAt rule ⟨source, pos⟩ = .ok (value, ⟨source, stop⟩))
      (left : Yields (rule (.ofList (source.drop pos))) value (source.drop stop))
      (later : pos < stop) (inside : stop ≤ source.length)

/-- The same for a rule that may decline. Where it declines nothing is read: its repetition has no
values there, and leaves the source from the same offset on. -/
inductive MayAdvance (source : List Char) (pos : Nat) (rule : OptionalRule α) : Prop
  | declines (run : runOptionalAt rule ⟨source, pos⟩ = .ok none)
      (left : Yields (many rule [] (.ofList (source.drop pos)) (Nat.lt_succ_self _)) []
        (source.drop pos))
  | fails (e : ReadError) (run : runOptionalAt rule ⟨source, pos⟩ = .error (.unread e))
  | reads (value : α) (stop : Nat)
      (run : runOptionalAt rule ⟨source, pos⟩ = .ok (some (value, ⟨source, stop⟩)))
      (left : Offers (rule (.ofList (source.drop pos))) value (source.drop stop))
      (later : pos < stop) (inside : stop ≤ source.length)

theorem endOf_drop (source : List Char) (pos : Nat) :
    (Input.ofList (source.drop pos)).EndOf source :=
  ⟨rfl, List.drop_suffix pos source⟩

theorem length_ofList_drop (source : List Char) (pos : Nat) :
    (Input.ofList (source.drop pos)).length = source.length - pos :=
  List.length_drop

theorem Input.EndOf.exists_later {rest : Input} (h : rest.EndOf source)
    (hlt : rest.length < source.length - pos) :
    ∃ stop : Nat, pos < stop ∧ stop ≤ source.length ∧ rest = .ofList (source.drop stop) ∧
      (⟨source, pos⟩ : Cursor).reaching rest = ⟨source, stop⟩ := by
  have hle := h.suffix.length_le
  have hchars := List.suffix_iff_eq_drop.mp h.suffix
  have hlength : rest.length = rest.chars.length := rfl
  refine ⟨source.length - rest.length, by omega, by omega, ?_, ?_⟩
  · rw [hlength, ← hchars]
    exact eq_ofList_of_plain h.plain
  · simp only [Cursor.reaching, Cursor.mk.injEq, true_and]
    omega

theorem Advances.of_endOf {rule : (s : Input) → Except Fault (Parsed α (bound s))}
    (h : ∀ p, rule (.ofList (source.drop pos)) = .ok p →
      p.rest.EndOf source ∧ p.rest.length < source.length - pos) : Advances source pos rule := by
  cases hrule : rule (.ofList (source.drop pos)) with
  | error e =>
      refine .fails (e.locate ⟨source, pos⟩) ?_
      simp only [runAt, Cursor.input_ofNat, hrule]
  | ok p =>
      obtain ⟨hend, hlt⟩ := h p hrule
      obtain ⟨stop, hlater, hinside, hrest, hreaching⟩ := hend.exists_later hlt
      refine .reads p.value stop ?_ ⟨hrest ▸ p.shorter, ?_⟩ hlater hinside
      · simp only [runAt, Cursor.input_ofNat, hrule, hreaching]
      · rw [hrule]
        exact congrArg Except.ok (Parsed.ext rfl hrest)

theorem MayAdvance.of_endOf {rule : OptionalRule α}
    (h : ∀ p, rule (.ofList (source.drop pos)) = some (.ok p) → p.rest.EndOf source) :
    MayAdvance source pos rule := by
  cases hrule : rule (.ofList (source.drop pos)) with
  | none =>
      refine .declines ?_ ⟨Nat.lt_succ_self _, ?_⟩
      · simp only [runOptionalAt, Cursor.input_ofNat, hrule]
      · rw [many.eq_def, hrule]
        rfl
  | some r =>
      cases r with
      | error e =>
          refine .fails (e.locate ⟨source, pos⟩) ?_
          simp only [runOptionalAt, Cursor.input_ofNat, hrule]
      | ok p =>
          have hlt : p.rest.length < source.length - pos :=
            length_ofList_drop source pos ▸ p.shorter
          obtain ⟨stop, hlater, hinside, hrest, hreaching⟩ := (h p hrule).exists_later hlt
          refine .reads p.value stop ?_ ⟨hrest ▸ p.shorter, ?_⟩ hlater hinside
          · simp only [runOptionalAt, Cursor.input_ofNat, hrule, hreaching]
          · rw [hrule]
            exact congrArg (some ∘ Except.ok) (Parsed.ext rfl hrest)

variable {families : List Problem.Category} {broken : Problem → Prop}

theorem endOf_of_ends {β : Type} {m n : Nat} {R : α → β → Prop} {r : Except Fault (Parsed α m)}
    {r' : Except Fault (Parsed β n)}
    (h : (Correspondence.within source families broken).Ends R r r') {p : Parsed α m}
    (hp : r = .ok p) : p.rest.EndOf source := by
  obtain ⟨_, -, -, hrest⟩ := h.of_ok hp
  exact hrest.2

theorem Advances.of_ends {rule : Rule α} {R : α → α → Prop}
    (h : ∀ s, s.EndOf source →
      (Correspondence.within source families broken).Ends R (rule s) (rule s)) (pos : Nat) :
    Advances source pos rule :=
  .of_endOf fun p hp =>
    ⟨endOf_of_ends (h _ (endOf_drop source pos)) hp, length_ofList_drop source pos ▸ p.shorter⟩

theorem Advances.of_keeps {rule : Rule α}
    (h : (Correspondence.within source families broken).Keeps rule) (pos : Nat) :
    Advances source pos rule :=
  .of_ends (fun _ hs => h ⟨rfl, hs⟩) pos

theorem MayAdvance.of_offers {rule : OptionalRule α}
    (h : ∀ s, s.EndOf source →
      (Correspondence.within source families broken).Offers Eq (rule s) (rule s)) (pos : Nat) :
    MayAdvance source pos rule :=
  .of_endOf fun p hp => by
    obtain ⟨_, hr, hends⟩ := (h _ (endOf_drop source pos)).of_some hp
    rw [hp] at hr
    cases hr
    exact endOf_of_ends hends rfl

end Advances

end Scan

end FuzzFrontend
