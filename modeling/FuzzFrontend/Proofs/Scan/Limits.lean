import FuzzFrontend.Scan.Limits
import FuzzFrontend.Scan.Nesting

namespace FuzzFrontend.Scan

/-- How many more levels may be entered. -/
def room (nesting : Nesting) : Nat :=
  (nesting.limit - nesting.depth).toNat

theorem room_of_limit (limit : Int) : room { limit := limit } = limit.toNat := by
  simp [room]

theorem enter_of_room {nesting : Nesting} {n : Nat} (h : n + 1 ≤ room nesting) (s : Input) :
    ∃ nested, nesting.enter s = .ok nested ∧ n ≤ room nested := by
  have hdeep : ¬ nesting.limit ≤ nesting.depth := by
    intro hle
    rw [room] at h
    omega
  refine ⟨_, if_neg hdeep, ?_⟩
  simp only [room] at h ⊢
  omega

theorem room_of_enter {nesting nested : Nesting} {s : Input} (h : nesting.enter s = .ok nested) :
    room nested + 1 ≤ room nesting := by
  unfold Nesting.enter at h
  split at h
  · cases h
  · rename_i hdeep
    cases h
    simp only [room]
    omega

theorem enter_cases (nesting : Nesting) (s : Input) :
    (∃ nested, nesting.enter s = .ok nested ∧ nested.limit = nesting.limit ∧
        room nested + 1 = room nesting) ∨
      room nesting = 0 ∧
        nesting.enter s = .error (.problem s.skipBlanks (.nestingTooDeep nesting.limit) []) := by
  by_cases hdeep : nesting.limit ≤ nesting.depth
  · refine Or.inr ⟨?_, if_pos hdeep⟩
    rw [room]
    omega
  · refine Or.inl ⟨_, if_neg hdeep, rfl, ?_⟩
    simp only [room]
    omega

theorem sizeError?_eq_none {limits : Limits} (h : limits.sourceSize ≤ 0) (reader source : String) :
    limits.sizeError? reader source = none := by
  rw [Limits.sizeError?, if_neg]
  omega

end FuzzFrontend.Scan
