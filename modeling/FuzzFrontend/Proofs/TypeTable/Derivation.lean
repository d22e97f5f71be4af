import Mathlib.Data.List.Forall2
import FuzzFrontend.Proofs.TypeTable.Resolution
import FuzzFrontend.Proofs.Writing

/-!
Resolution as a derivation system. The rules carry no measure that would make them end, and still
every reference has a derivation in every table, also where structs contain each other. What the
resolver does is told here once: by the rules, by one equation for fields, and by one induction on
the structs that are not yet being unfolded.
-/
namespace FuzzFrontend

/-- The name of the member that a field stands for. -/
def Field.label : Field → String
  | .mk _ (.structNamed own) => own
  | .mk _ (.enumNamed own) => own
  | .mk name _ => name

/-- The type that the member is declared with: of a named type, the name of the type. -/
def Field.reference : Field → TypeExpr
  | .mk name (.structNamed _) => .structNamed name
  | .mk name (.enumNamed _) => .enumNamed name
  | .mk _ ty => ty

theorem Field.sizeOf_reference_lt (field : Field) : sizeOf field.reference < sizeOf field := by
  obtain ⟨name, ty⟩ := field
  cases ty with
  | structNamed own =>
      simp only [Field.reference, Field.mk.sizeOf_spec, TypeExpr.structNamed.sizeOf_spec]
      omega
  | enumNamed own =>
      simp only [Field.reference, Field.mk.sizeOf_spec, TypeExpr.enumNamed.sizeOf_spec]
      omega
  | known ty =>
      simp only [Field.reference, Field.mk.sizeOf_spec]
      omega
  | inline definition =>
      simp only [Field.reference, Field.mk.sizeOf_spec]
      omega

namespace TypeTable

variable {t : TypeTable} {opened : List String}

mutual

/-- What a reference stands for, or why for nothing, while some structs are being unfolded. -/
inductive Derives (t : TypeTable) : List String → TypeExpr → Except Fault Ty → Prop
  | known (opened : List String) (ty : Ty) : Derives t opened (.known ty) (.ok ty)
  | inlineEnum (opened : List String) (name : String) (values : List EnumValue) :
      Derives t opened (.inline (.enum name values)) (.ok (.enum name values false))
  | inlineStruct {opened : List String} {name : String} {fields : List Field}
      {r : Except Fault (List Member)} (h : DerivesFields t (name :: opened) fields r) :
      Derives t opened (.inline (.struct name fields)) (r.map (Ty.struct name · false))
  | enumFound {opened : List String} {name : String} {values : List EnumValue}
      (h : t.enums.lookup name = some values) :
      Derives t opened (.enumNamed name) (.ok (.enum name values false))
  | enumMissing {opened : List String} {name : String} (h : t.enums.lookup name = none) :
      Derives t opened (.enumNamed name) (.error (.noEnum name))
  | cut {opened : List String} {name : String} (h : name ∈ opened) :
      Derives t opened (.structNamed name) (.ok (.struct name [] true))
  | structMissing {opened : List String} {name : String} (hopened : name ∉ opened)
      (h : t.structs.lookup name = none) :
      Derives t opened (.structNamed name) (.error (.noStruct name))
  | unfold {opened : List String} {name : String} {fields : List Field}
      {r : Except Fault (List Member)} (hopened : name ∉ opened)
      (hfound : t.structs.lookup name = some fields)
      (h : DerivesFields t (name :: opened) fields r) :
      Derives t opened (.structNamed name) (r.map (Ty.struct name · false))

/-- The members that fields stand for, or the fault of the first field that stands for none. -/
inductive DerivesFields (t : TypeTable) :
    List String → List Field → Except Fault (List Member) → Prop
  | nil (opened : List String) : DerivesFields t opened [] (.ok [])
  | fault {opened : List String} {field : Field} {rest : List Field} {fault : Fault}
      (h : Derives t opened field.reference (.error fault)) :
      DerivesFields t opened (field :: rest) (.error fault)
  | cons {opened : List String} {field : Field} {rest : List Field} {ty : Ty}
      {r : Except Fault (List Member)} (h : Derives t opened field.reference (.ok ty))
      (hrest : DerivesFields t opened rest r) :
      DerivesFields t opened (field :: rest) (r.map (.mk field.label ty :: ·))

end

section Equations

theorem resolveMember_eq (field : Field) :
    t.resolveMember opened field =
      (t.resolveIn opened field.reference).map (Member.mk field.label) := by
  obtain ⟨name, ty⟩ := field
  cases ty with
  | structNamed own =>
      simp only [resolveMember, Field.reference, Field.label, resolveIn]
      cases t.resolveStruct opened name <;> rfl
  | enumNamed own =>
      simp only [resolveMember, Field.reference, Field.label, resolveIn]
      cases t.resolveEnum name <;> rfl
  | known ty =>
      simp only [resolveMember, Field.reference, Field.label]
      cases t.resolveIn opened (.known ty) <;> rfl
  | inline definition =>
      simp only [resolveMember, Field.reference, Field.label]
      cases t.resolveIn opened (.inline definition) <;> rfl

theorem resolveFields_cons (field : Field) (rest : List Field) :
    t.resolveFields opened (field :: rest) =
      (t.resolveIn opened field.reference).bind fun ty =>
        (t.resolveFields opened rest).map (.mk field.label ty :: ·) := by
  simp only [resolveFields, resolveMember_eq]
  cases t.resolveIn opened field.reference with
  | error fault => rfl
  | ok ty => cases t.resolveFields opened rest <;> rfl

theorem resolveStruct_eq_map {name : String} {fields : List Field} (h : name ∉ opened)
    (hfound : t.structs.lookup name = some fields) :
    t.resolveStruct opened name =
      (t.resolveFields (name :: opened) fields).map (Ty.struct name · false) := by
  rw [resolveStruct_of_some h hfound]
  cases t.resolveFields (name :: opened) fields <;> rfl

theorem resolveIn_inlineStruct (name : String) (fields : List Field) :
    t.resolveIn opened (.inline (.struct name fields)) =
      (t.resolveFields (name :: opened) fields).map (Ty.struct name · false) := by
  simp only [resolveIn]
  cases t.resolveFields (name :: opened) fields <;> rfl

theorem resolveFields_eq_ok_iff {fields : List Field} {members : List Member} :
    t.resolveFields opened fields = .ok members ↔
      List.Forall₂ (fun field member => ∃ ty, t.resolveIn opened field.reference = .ok ty ∧
        member = .mk field.label ty) fields members := by
  induction fields generalizing members with
  | nil =>
      rw [resolveFields, List.forall₂_nil_left_iff]
      constructor
      · rintro ⟨⟩
        rfl
      · rintro rfl
        rfl
  | cons field rest ih =>
      rw [resolveFields_cons, List.forall₂_cons_left_iff]
      constructor
      · intro h
        cases hfield : t.resolveIn opened field.reference with
        | error fault =>
            rw [hfield] at h
            cases h
        | ok ty =>
            rw [hfield] at h
            obtain ⟨tail, htail, rfl⟩ := map_eq_ok.mp h
            exact ⟨_, tail, ⟨ty, rfl, rfl⟩, ih.mp htail, rfl⟩
      · rintro ⟨_, tail, ⟨ty, hty, rfl⟩, htail, rfl⟩
        rw [hty, ih.mpr htail]
        rfl

theorem exists_member {fields : List Field} {members : List Member} {R : Field → Member → Prop}
    (h : List.Forall₂ R fields members) {i : Nat} {field : Field}
    (hfield : fields[i]? = some field) :
    ∃ member, members[i]? = some member ∧ R field member := by
  induction h generalizing i with
  | nil => simp at hfield
  | cons hhead _ ih =>
      cases i with
      | zero =>
          cases hfield
          exact ⟨_, rfl, hhead⟩
      | succ i => exact ih hfield

theorem exists_of_resolveFields_error {fields : List Field} {fault : Fault}
    (h : t.resolveFields opened fields = .error fault) :
    ∃ field ∈ fields, t.resolveIn opened field.reference = .error fault := by
  induction fields with
  | nil =>
      rw [resolveFields] at h
      cases h
  | cons field rest ih =>
      rw [resolveFields_cons] at h
      cases hfield : t.resolveIn opened field.reference with
      | error other =>
          rw [hfield] at h
          cases h
          exact ⟨field, List.mem_cons_self, hfield⟩
      | ok ty =>
          rw [hfield] at h
          cases hrest : t.resolveFields opened rest with
          | error other =>
              rw [hrest] at h
              cases h
              obtain ⟨found, hmem, hfound⟩ := ih hrest
              exact ⟨found, List.mem_cons_of_mem _ hmem, hfound⟩
          | ok members =>
              rw [hrest] at h
              cases h

theorem exists_of_resolveStruct_error {name : String} {fields : List Field} {fault : Fault}
    (hopened : name ∉ opened) (hfound : t.structs.lookup name = some fields)
    (h : t.resolveStruct opened name = .error fault) :
    ∃ field ∈ fields, t.resolveIn (name :: opened) field.reference = .error fault := by
  rw [resolveStruct_eq_map hopened hfound] at h
  cases hfields : t.resolveFields (name :: opened) fields with
  | error other =>
      rw [hfields] at h
      cases h
      exact exists_of_resolveFields_error hfields
  | ok members =>
      rw [hfields] at h
      cases h

theorem exists_of_resolveStruct_ok {name : String} {fields : List Field} {ty : Ty}
    (hopened : name ∉ opened) (hfound : t.structs.lookup name = some fields)
    (h : t.resolveStruct opened name = .ok ty) {field : Field} (hfield : field ∈ fields) :
    ∃ inner, t.resolveIn (name :: opened) field.reference = .ok inner := by
  rw [resolveStruct_eq_map hopened hfound] at h
  obtain ⟨members, hmembers, -⟩ := map_eq_ok.mp h
  obtain ⟨i, hi⟩ := List.mem_iff_getElem?.mp hfield
  obtain ⟨-, -, inner, hinner, -⟩ := exists_member (resolveFields_eq_ok_iff.mp hmembers) hi
  exact ⟨inner, hinner⟩

/-- What holds of a struct if it holds of all structs inside it, once it is being unfolded, holds of
every struct. -/
theorem unfolding_induction (t : TypeTable) {P : List String → String → Prop}
    (h : ∀ opened name, (∀ fields, name ∉ opened → t.structs.lookup name = some fields →
      ∀ inner, P (name :: opened) inner) → P opened name)
    (opened : List String) (name : String) : P opened name := by
  apply h
  intro fields hopened hfound inner
  have := unopened_cons_lt t hfound hopened
  exact unfolding_induction t h (name :: opened) inner
termination_by t.unopened opened

end Equations

section Derivations

mutual

theorem derives_resolveIn (t : TypeTable) (opened : List String) (e : TypeExpr) :
    t.Derives opened e (t.resolveIn opened e) := by
  match e with
  | .known ty =>
      rw [resolveIn]
      exact .known opened ty
  | .inline (.enum name values) =>
      rw [resolveIn]
      exact .inlineEnum opened name values
  | .inline (.struct name fields) =>
      rw [resolveIn_inlineStruct]
      exact .inlineStruct (derivesFields_resolveFields t (name :: opened) fields)
  | .enumNamed name =>
      rw [resolveIn, resolveEnum]
      cases h : t.enums.lookup name with
      | some values => exact .enumFound h
      | none => exact .enumMissing h
  | .structNamed name =>
      rw [resolveIn]
      by_cases hopened : name ∈ opened
      · rw [resolveStruct_of_mem hopened]
        exact .cut hopened
      · cases h : t.structs.lookup name with
        | none =>
            rw [resolveStruct_of_none hopened h]
            exact .structMissing hopened h
        | some fields =>
            have := unopened_cons_lt t h hopened
            rw [resolveStruct_eq_map hopened h]
            exact .unfold hopened h (derivesFields_resolveFields t (name :: opened) fields)
termination_by (t.unopened opened, sizeOf e)
decreasing_by
  · exact Prod.Lex.right' _ (unopened_cons_le t name opened) (by decreasing_tactic)
  · decreasing_tactic

theorem derivesFields_resolveFields (t : TypeTable) (opened : List String) (fields : List Field) :
    t.DerivesFields opened fields (t.resolveFields opened fields) := by
  match fields with
  | [] =>
      rw [resolveFields]
      exact .nil opened
  | field :: rest =>
      have := field.sizeOf_reference_lt
      have hfield := derives_resolveIn t opened field.reference
      rw [resolveFields_cons]
      cases h : t.resolveIn opened field.reference with
      | error fault => exact .fault (h ▸ hfield)
      | ok ty => exact .cons (h ▸ hfield) (derivesFields_resolveFields t opened rest)
termination_by (t.unopened opened, sizeOf fields)

end

mutual

theorem Derives.eq {opened : List String} {e : TypeExpr} {r : Except Fault Ty}
    (h : t.Derives opened e r) : t.resolveIn opened e = r := by
  match h with
  | .known opened ty => rw [resolveIn]
  | .inlineEnum opened name values => rw [resolveIn]
  | .inlineStruct hfields => rw [resolveIn_inlineStruct, hfields.eq]
  | .enumFound hfound => rw [resolveIn, resolveEnum, hfound]
  | .enumMissing hnone => rw [resolveIn, resolveEnum, hnone]
  | .cut hopened => rw [resolveIn, resolveStruct_of_mem hopened]
  | .structMissing hopened hnone => rw [resolveIn, resolveStruct_of_none hopened hnone]
  | .unfold hopened hfound hfields =>
      rw [resolveIn, resolveStruct_eq_map hopened hfound, hfields.eq]

theorem DerivesFields.eq {opened : List String} {fields : List Field}
    {r : Except Fault (List Member)} (h : t.DerivesFields opened fields r) :
    t.resolveFields opened fields = r := by
  match h with
  | .nil opened => rw [resolveFields]
  | .fault hfault =>
      rw [resolveFields_cons, hfault.eq]
      rfl
  | .cons hfield hrest =>
      rw [resolveFields_cons, hfield.eq, hrest.eq]
      rfl

end

/-- A reference has one derivation's result, and it is what the resolver gives. -/
theorem derives_iff {e : TypeExpr} {r : Except Fault Ty} :
    t.Derives opened e r ↔ t.resolveIn opened e = r := by
  constructor
  · exact Derives.eq
  · rintro rfl
    exact derives_resolveIn t opened e

end Derivations

end TypeTable

end FuzzFrontend
