import FuzzFrontend.Diagnostic.Problem
import FuzzFrontend.Proofs.Text.OneLine

namespace FuzzFrontend.Problem

/-- The texts that the message, the choices or the hint of a problem repeat as they are. -/
def repeated : Problem → List String
  | unexpectedEnd expected => expected
  | unexpectedToken _ expected hint => expected ++ hint.toList
  | reservedWord word => [word]
  | emptyGenerator name => [name]
  | nestingTooDeep _ => []
  | outOfOrder keyword phase reached => [keyword, phase, reached]
  | unknownType name => [name]
  | constantOutOfRange text => [text]
  | constantMalformed text => [text]
  | unsupportedConstantType typeName => [typeName]
  | unresolvedStruct name => [name]
  | unresolvedEnum name => [name]
  | duplicateType name => [name]
  | traversalTooDeep _ => []

/-- None of the texts that are repeated has a line break. -/
def OnOneLine (p : Problem) : Prop :=
  ∀ text ∈ p.repeated, OneLine text.toList

instance (p : Problem) : Decidable p.OnOneLine :=
  inferInstanceAs (Decidable (∀ text ∈ p.repeated, OneLine text.toList))

variable {p : Problem}

theorem oneLine_choice {expected : List String} {otherwise : String}
    (h : ∀ text ∈ expected, OneLine text.toList) (hotherwise : OneLine otherwise.toList) :
    OneLine (choice expected otherwise).toList := by
  unfold choice
  split
  · exact hotherwise
  · exact oneLine_intercalate (by decide) h

theorem oneLine_shown (found : String) : OneLine (shown found).toList := by
  unfold shown
  split
  · decide
  · exact Text.oneLine_quoted found

theorem OnOneLine.message (h : p.OnOneLine) : OneLine p.message.toList := by
  cases p with
  | unexpectedEnd expected =>
      exact oneLine_toList_append.mpr ⟨oneLine_ofList rfl, oneLine_choice h (oneLine_ofList rfl)⟩
  | unexpectedToken found expected hint =>
      have hexpected := oneLine_choice (List.forall_mem_append.mp h).1
        (oneLine_ofList rfl : OneLine "a different token".toList)
      exact oneLine_toList_append.mpr
        ⟨oneLine_around (oneLine_ofList rfl) hexpected (oneLine_ofList rfl), oneLine_shown found⟩
  | nestingTooDeep limit =>
      exact oneLine_around (oneLine_ofList rfl) (Text.oneLine_integer limit) (oneLine_ofList rfl)
  | traversalTooDeep limit =>
      exact oneLine_around (oneLine_ofList rfl) (Text.oneLine_integer limit) (oneLine_ofList rfl)
  | outOfOrder keyword phase reached =>
      have hkeyword := oneLine_around (oneLine_ofList rfl : OneLine "'".toList)
        (h keyword (by simp [repeated])) (oneLine_ofList rfl : OneLine "' starts a ".toList)
      have hphase := oneLine_around hkeyword (h phase (by simp [repeated]))
        (oneLine_ofList rfl : OneLine " but ".toList)
      exact oneLine_around hphase (h reached (by simp [repeated])) (oneLine_ofList rfl)
  | _ => exact oneLine_around (oneLine_ofList rfl) (h _ List.mem_cons_self) (oneLine_ofList rfl)

theorem onOneLine_iff_message (hcategory : p.category = .constantValue) :
    p.OnOneLine ↔ OneLine p.message.toList := by
  refine ⟨OnOneLine.message, fun h => ?_⟩
  cases p with
  | constantOutOfRange text =>
      exact List.forall_mem_singleton.mpr
        (oneLine_toList_append.mp (oneLine_toList_append.mp h).1).2
  | constantMalformed text =>
      exact List.forall_mem_singleton.mpr
        (oneLine_toList_append.mp (oneLine_toList_append.mp h).1).2
  | _ => cases hcategory

theorem OnOneLine.expected (h : p.OnOneLine) : ∀ text ∈ p.expected, OneLine text.toList := by
  cases p with
  | unexpectedEnd expected => exact h
  | unexpectedToken found expected hint => exact (List.forall_mem_append.mp h).1
  | reservedWord word => exact List.forall_mem_singleton.mpr (oneLine_ofList rfl)
  | emptyGenerator name => exact List.forall_mem_singleton.mpr (oneLine_ofList rfl)
  | constantMalformed text => exact List.forall_mem_singleton.mpr (oneLine_ofList rfl)
  | _ => exact List.forall_mem_nil _

theorem OnOneLine.hint (h : p.OnOneLine) : ∀ text ∈ p.hint, OneLine text.toList := by
  intro text htext
  cases p with
  | unexpectedToken found expected hint =>
      exact (List.forall_mem_append.mp h).2 text (Option.mem_toList.mpr htext)
  | unresolvedStruct name =>
      cases htext
      exact oneLine_around (oneLine_ofList rfl) (h name List.mem_cons_self) (oneLine_ofList rfl)
  | unresolvedEnum name =>
      cases htext
      exact oneLine_around (oneLine_ofList rfl) (h name List.mem_cons_self) (oneLine_ofList rfl)
  | constantMalformed text => cases htext
  | duplicateType name => cases htext
  | _ =>
      cases htext
      exact oneLine_ofList rfl

end FuzzFrontend.Problem
