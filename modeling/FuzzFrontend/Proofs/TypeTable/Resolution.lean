import FuzzFrontend.TypeTable

namespace FuzzFrontend.TypeTable

/-- What a table is told in one call. -/
inductive Entry
  | definition (definition : Definition)
  | typedef (name : String) (source : TypeExpr)

/-- The entry is found under its name. -/
def Holds (t : TypeTable) : Entry → Prop
  | .definition (.struct name fields) => t.structs.lookup name = some fields
  | .definition (.enum name values) => t.enums.lookup name = some values
  | .typedef name source => t.typedefs.lookup name = some source

/-- The second table holds what the first one holds. -/
def Extends (t t' : TypeTable) : Prop :=
  ∀ entry, t.Holds entry → t'.Holds entry

/-- The fault is about a name that only the second table defines. -/
def Fault.Settled (t t' : TypeTable) : Fault → Prop
  | .duplicate _ => False
  | .noStruct name => t.structs.lookup name = none ∧ t'.structs.lookup name ≠ none
  | .noEnum name => t.enums.lookup name = none ∧ t'.enums.lookup name ≠ none
  | .noTypedef name => t.typedefs.lookup name = none ∧ t'.typedefs.lookup name ≠ none

/-- The results in the two tables are the same, or the fault in the first one is settled in the
second. -/
def Improves {α : Type} (t t' : TypeTable) (r r' : Except Fault α) : Prop :=
  r = r' ∨ ∃ fault, r = .error fault ∧ fault.Settled t t'

variable {t t' : TypeTable}

section Improves

variable {α β : Type} {r r' : Except Fault α}

theorem Improves.refl (r : Except Fault α) : Improves t t' r r :=
  Or.inl rfl

theorem Improves.bind {f f' : α → Except Fault β} (h : Improves t t' r r')
    (hf : ∀ a, Improves t t' (f a) (f' a)) : Improves t t' (r >>= f) (r' >>= f') := by
  rcases h with rfl | ⟨fault, rfl, hsettled⟩
  · cases r with
    | error fault => exact .refl _
    | ok a => exact hf a
  · exact Or.inr ⟨fault, rfl, hsettled⟩

theorem Improves.eq_ok {a : α} (h : Improves t t' r r') (hr : r = .ok a) : r' = .ok a := by
  rcases h with rfl | ⟨fault, rfl, -⟩
  · exact hr
  · cases hr

theorem Improves.eq_of_extends (h : Improves t t' r r') (hback : t'.Extends t) : r = r' := by
  rcases h with rfl | ⟨fault, rfl, hsettled⟩
  · rfl
  · exfalso
    cases fault with
    | duplicate name => exact hsettled
    | noStruct name =>
        obtain ⟨hnone, hsome⟩ := hsettled
        obtain ⟨fields, hfields⟩ := Option.ne_none_iff_exists'.mp hsome
        have hfound := hback (.definition (.struct name fields)) hfields
        rw [Holds, hnone] at hfound
        cases hfound
    | noEnum name =>
        obtain ⟨hnone, hsome⟩ := hsettled
        obtain ⟨values, hvalues⟩ := Option.ne_none_iff_exists'.mp hsome
        have hfound := hback (.definition (.enum name values)) hvalues
        rw [Holds, hnone] at hfound
        cases hfound
    | noTypedef name =>
        obtain ⟨hnone, hsome⟩ := hsettled
        obtain ⟨source, hsource⟩ := Option.ne_none_iff_exists'.mp hsome
        have hfound := hback (.typedef name source) hsource
        rw [Holds, hnone] at hfound
        cases hfound

end Improves

section Resolution

theorem resolveStruct_of_mem {opened : List String} {name : String} (h : name ∈ opened) :
    t.resolveStruct opened name = .ok (.struct name [] true) := by
  rw [resolveStruct, dif_pos h]

theorem resolveStruct_of_none {opened : List String} {name : String} (h : name ∉ opened)
    (hnone : t.structs.lookup name = none) :
    t.resolveStruct opened name = .error (.noStruct name) := by
  rw [resolveStruct, dif_neg h]
  split
  · rfl
  · rename_i fields hsome
    rw [hnone] at hsome
    cases hsome

theorem resolveStruct_of_some {opened : List String} {name : String} {fields : List Field}
    (h : name ∉ opened) (hsome : t.structs.lookup name = some fields) :
    t.resolveStruct opened name = do
      let members ← t.resolveFields (name :: opened) fields
      return .struct name members false := by
  rw [resolveStruct, dif_neg h]
  split
  · rename_i hnone
    rw [hnone] at hsome
    cases hsome
  · rename_i found hfound
    rw [hfound] at hsome
    cases hsome
    rfl

theorem resolveEnum_improves (h : t.Extends t') (name : String) :
    Improves t t' (t.resolveEnum name) (t'.resolveEnum name) := by
  unfold resolveEnum
  cases hfound : t.enums.lookup name with
  | some values =>
      have hvalues : t'.enums.lookup name = some values :=
        h (.definition (.enum name values)) hfound
      simp only [hvalues]
      exact .refl _
  | none =>
      cases hlater : t'.enums.lookup name with
      | none => exact .refl _
      | some values => exact Or.inr ⟨_, rfl, hfound, by simp [hlater]⟩

mutual

theorem resolveStruct_improves (h : t.Extends t') (opened : List String) (name : String) :
    Improves t t' (t.resolveStruct opened name) (t'.resolveStruct opened name) := by
  by_cases hopened : name ∈ opened
  · rw [resolveStruct_of_mem hopened, resolveStruct_of_mem hopened]
    exact .refl _
  · cases hfound : t.structs.lookup name with
    | some fields =>
        have hfields : t'.structs.lookup name = some fields :=
          h (.definition (.struct name fields)) hfound
        have := unopened_cons_lt t hfound hopened
        rw [resolveStruct_of_some hopened hfound, resolveStruct_of_some hopened hfields]
        exact (resolveFields_improves h (name :: opened) fields).bind fun members => .refl _
    | none =>
        rw [resolveStruct_of_none hopened hfound]
        cases hlater : t'.structs.lookup name with
        | none =>
            rw [resolveStruct_of_none hopened hlater]
            exact .refl _
        | some fields => exact Or.inr ⟨_, rfl, hfound, by simp [hlater]⟩
termination_by (t.unopened opened, 0)

theorem resolveIn_improves (h : t.Extends t') (opened : List String) (e : TypeExpr) :
    Improves t t' (t.resolveIn opened e) (t'.resolveIn opened e) := by
  match e with
  | .known ty =>
      simp only [resolveIn]
      exact .refl _
  | .inline (.struct name fields) =>
      simp only [resolveIn]
      exact (resolveFields_improves h (name :: opened) fields).bind fun members => .refl _
  | .inline (.enum name values) =>
      simp only [resolveIn]
      exact .refl _
  | .structNamed name =>
      simp only [resolveIn]
      exact resolveStruct_improves h opened name
  | .enumNamed name =>
      simp only [resolveIn]
      exact resolveEnum_improves h name
termination_by (t.unopened opened, sizeOf e)
decreasing_by
  · exact Prod.Lex.right' _ (unopened_cons_le t name opened) (by decreasing_tactic)
  · decreasing_tactic

theorem resolveMember_improves (h : t.Extends t') (opened : List String) (field : Field) :
    Improves t t' (t.resolveMember opened field) (t'.resolveMember opened field) := by
  match field with
  | .mk name (.structNamed own) =>
      simp only [resolveMember]
      exact (resolveStruct_improves h opened name).bind fun ty => .refl _
  | .mk name (.enumNamed own) =>
      simp only [resolveMember]
      exact (resolveEnum_improves h name).bind fun ty => .refl _
  | .mk name (.known ty) =>
      simp only [resolveMember]
      exact (resolveIn_improves h opened (.known ty)).bind fun ty => .refl _
  | .mk name (.inline definition) =>
      simp only [resolveMember]
      exact (resolveIn_improves h opened (.inline definition)).bind fun ty => .refl _
termination_by (t.unopened opened, sizeOf field)

theorem resolveFields_improves (h : t.Extends t') (opened : List String) (fields : List Field) :
    Improves t t' (t.resolveFields opened fields) (t'.resolveFields opened fields) := by
  match fields with
  | [] =>
      simp only [resolveFields]
      exact .refl _
  | field :: rest =>
      simp only [resolveFields]
      refine (resolveMember_improves h opened field).bind fun member => ?_
      exact (resolveFields_improves h opened rest).bind fun members => .refl _
termination_by (t.unopened opened, sizeOf fields)

end

/-- In a larger table a reference stands for the same type, or a missing name is there. -/
theorem resolve_improves (h : t.Extends t') (e : TypeExpr) :
    Improves t t' (t.resolve e) (t'.resolve e) :=
  resolveIn_improves h [] e

theorem resolveTypedef_improves (h : t.Extends t') (name : String) :
    Improves t t' (t.resolveTypedef name) (t'.resolveTypedef name) := by
  unfold resolveTypedef
  cases hfound : t.typedefs.lookup name with
  | some source =>
      have hsource : t'.typedefs.lookup name = some source := h (.typedef name source) hfound
      simp only [hsource]
      exact resolve_improves h source
  | none =>
      cases hlater : t'.typedefs.lookup name with
      | none => exact .refl _
      | some source => exact Or.inr ⟨_, rfl, hfound, by simp [hlater]⟩

end Resolution

end FuzzFrontend.TypeTable
