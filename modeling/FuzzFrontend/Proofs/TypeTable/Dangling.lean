import Mathlib.Logic.Relation
import FuzzFrontend.Proofs.TypeTable.Unfolding

/-!
When resolution fails. Struct definitions embed other types by value, and so make a graph of names.
A struct resolves exactly when every name that it reaches in this graph is defined. The resolver
goes only along ways that pass no struct twice; a way that comes back to a struct can be entered at
its last visit there, so nothing that is reached is missed.
-/
namespace FuzzFrontend.TypeTable

/-- The name of a struct or of an enum, each in a namespace of its own. -/
inductive Tag
  | struct (name : String)
  | enum (name : String)

namespace Tag

/-- The reference to the type by its name. -/
def reference : Tag → TypeExpr
  | struct name => .structNamed name
  | enum name => .enumNamed name

/-- The fault of a name that is not defined. -/
def fault : Tag → Fault
  | struct name => .noStruct name
  | enum name => .noEnum name

theorem category_fault (tag : Tag) : tag.fault.category = .unresolvedType := by
  cases tag with
  | struct name => rfl
  | enum name => rfl

end Tag

/-- The name has a definition in its namespace. -/
def Defines (t : TypeTable) : Tag → Prop
  | .struct name => name ∈ t.structNames
  | .enum name => name ∈ t.enumNames

/-- The definition of the first has a field of the second type, not of a pointer to it. -/
def Embeds (t : TypeTable) (a b : Tag) : Prop :=
  ∃ name fields, a = .struct name ∧ t.structs.lookup name = some fields ∧
    ∃ field ∈ fields, field.reference = b.reference

/-- The same, but the second is none of some structs. -/
def EmbedsOutside (t : TypeTable) (opened : List String) (a b : Tag) : Prop :=
  t.Embeds a b ∧ ∀ name ∈ opened, b ≠ .struct name

variable {t : TypeTable} {opened : List String} {name : String} {tag : Tag}

section Graph

theorem mem_names_iff {β : Type} {entries : List (String × β)} {key : String} :
    key ∈ entries.map Prod.fst ↔ ∃ value, entries.lookup key = some value := by
  rw [← Option.ne_none_iff_exists', Ne, List.lookup_eq_none_iff]
  simp

theorem defines_struct_iff :
    t.Defines (.struct name) ↔ ∃ fields, t.structs.lookup name = some fields :=
  mem_names_iff

theorem defines_enum_iff :
    t.Defines (.enum name) ↔ ∃ values, t.enums.lookup name = some values :=
  mem_names_iff

theorem not_embeds_enum (b : Tag) : ¬ t.Embeds (.enum name) b := by
  rintro ⟨_, _, h, -⟩
  cases h

/-- A way from a struct ends there, or leaves it for good by one of its fields. -/
theorem leaves_struct
    (h : Relation.ReflTransGen (t.EmbedsOutside opened) (.struct name) tag) :
    tag = .struct name ∨ ∃ next, t.EmbedsOutside (name :: opened) (.struct name) next ∧
      Relation.ReflTransGen (t.EmbedsOutside (name :: opened)) next tag := by
  induction h with
  | refl => exact Or.inl rfl
  | @tail middle last _ hstep ih =>
      by_cases hlast : last = .struct name
      · exact Or.inl hlast
      · have houtside : t.EmbedsOutside (name :: opened) middle last :=
          ⟨hstep.1, List.forall_mem_cons.mpr ⟨hlast, hstep.2⟩⟩
        rcases ih with rfl | ⟨next, hnext, hway⟩
        · exact Or.inr ⟨last, houtside, .refl⟩
        · exact Or.inr ⟨next, hnext, hway.tail houtside⟩

end Graph

section Resolution

theorem reference_cases {field : Field} (h : field.Flat) :
    (∃ ty, field.reference = .known ty) ∨ ∃ tag : Tag, field.reference = tag.reference := by
  match field with
  | .mk inner (.structNamed own) => exact Or.inr ⟨.struct inner, rfl⟩
  | .mk inner (.enumNamed own) => exact Or.inr ⟨.enum inner, rfl⟩
  | .mk own (.known ty) => exact Or.inl ⟨ty, rfl⟩
  | .mk own (.inline definition) => exact absurd h id

theorem resolveIn_struct : t.resolveIn opened (Tag.struct name).reference =
    t.resolveStruct opened name := by
  rw [Tag.reference, resolveIn]

theorem resolveIn_enum (t : TypeTable) (opened : List String) (name : String) :
    (t.Defines (.enum name) ∧
        ∃ ty, t.resolveIn opened (Tag.enum name).reference = .ok ty) ∨
      (¬ t.Defines (.enum name) ∧
        t.resolveIn opened (Tag.enum name).reference = .error (.noEnum name)) := by
  rw [Tag.reference, resolveIn, resolveEnum, defines_enum_iff]
  cases t.enums.lookup name with
  | some values => exact Or.inl ⟨⟨values, rfl⟩, _, rfl⟩
  | none => exact Or.inr ⟨nofun, rfl⟩

/-- A fault of resolution is that of a name that is reached and not defined. -/
theorem exists_dangling (hflat : t.Flat) {fault : Fault}
    (h : t.resolveStruct opened name = .error fault) :
    ∃ tag, Relation.ReflTransGen t.Embeds (.struct name) tag ∧ ¬ t.Defines tag ∧
      fault = tag.fault := by
  induction opened, name using unfolding_induction t with
  | h opened name ih =>
    by_cases hmem : name ∈ opened
    · rw [resolveStruct_of_mem hmem] at h
      cases h
    · cases hfound : t.structs.lookup name with
      | none =>
          rw [resolveStruct_of_none hmem hfound] at h
          cases h
          refine ⟨.struct name, .refl, ?_, rfl⟩
          rw [defines_struct_iff, hfound]
          exact nofun
      | some fields =>
          obtain ⟨field, hfield, hfault⟩ := exists_of_resolveStruct_error hmem hfound h
          rcases reference_cases (hflat name fields hfound field hfield) with
            ⟨ty, hty⟩ | ⟨next, hnext⟩
          · rw [hty, resolveIn] at hfault
            cases hfault
          · have hstep : t.Embeds (.struct name) next :=
              ⟨name, fields, rfl, hfound, field, hfield, hnext⟩
            rw [hnext] at hfault
            cases next with
            | struct inner =>
                rw [resolveIn_struct] at hfault
                obtain ⟨tag, hway, hdangling, htag⟩ := ih fields hmem hfound inner hfault
                exact ⟨tag, .head hstep hway, hdangling, htag⟩
            | enum inner =>
                rcases resolveIn_enum t (name :: opened) inner with
                  ⟨-, ty, hty⟩ | ⟨hdangling, hnone⟩
                · rw [hty] at hfault
                  cases hfault
                · rw [hnone] at hfault
                  cases hfault
                  exact ⟨.enum inner, .single hstep, hdangling, rfl⟩

theorem defines_of_resolveStruct {ty : Ty} (hopened : name ∉ opened)
    (h : t.resolveStruct opened name = .ok ty)
    (hway : Relation.ReflTransGen (t.EmbedsOutside opened) (.struct name) tag) :
    t.Defines tag := by
  induction opened, name using unfolding_induction t generalizing ty tag with
  | h opened name ih =>
    cases hfound : t.structs.lookup name with
    | none =>
        rw [resolveStruct_of_none hopened hfound] at h
        cases h
    | some fields =>
        rcases leaves_struct hway with
          rfl | ⟨next, ⟨⟨_, _, hname, hfound', hfield⟩, houtside⟩, hway⟩
        · exact defines_struct_iff.mpr ⟨fields, hfound⟩
        · cases hname
          cases hfound.symm.trans hfound'
          obtain ⟨field, hfield, hnext⟩ := hfield
          obtain ⟨inner, hinner⟩ := exists_of_resolveStruct_ok hopened hfound h hfield
          rw [hnext] at hinner
          cases next with
          | struct next =>
              rw [resolveIn_struct] at hinner
              have hnext : next ∉ name :: opened := fun hmem => houtside next hmem rfl
              exact ih fields hopened hfound next hnext hinner hway
          | enum next =>
              obtain rfl : tag = .enum next := by
                rcases hway.cases_head with rfl | ⟨_, ⟨hstep, -⟩, -⟩
                · rfl
                · exact absurd hstep (not_embeds_enum _)
              rcases resolveIn_enum t (name :: opened) next with
                ⟨hdefined, -⟩ | ⟨-, hnone⟩
              · exact hdefined
              · rw [hnone] at hinner
                cases hinner

end Resolution

/-- In a table in which no definition holds another one, a struct is refused exactly when it reaches
a name that is not defined, and then for such a name; otherwise it is resolved to a type. -/
theorem resolve_fails_iff (hflat : t.Flat) (name : String) :
    ((∃ fault, t.resolve (.structNamed name) = .error fault ∧ fault.category = .unresolvedType) ↔
      ∃ tag, Relation.ReflTransGen t.Embeds (.struct name) tag ∧ ¬ t.Defines tag) ∧
    ((∃ ty, t.resolve (.structNamed name) = .ok ty) ↔
      ∀ tag, Relation.ReflTransGen t.Embeds (.struct name) tag → t.Defines tag) ∧
    ∀ fault, t.resolve (.structNamed name) = .error fault →
      ∃ tag, Relation.ReflTransGen t.Embeds (.struct name) tag ∧ ¬ t.Defines tag ∧
        fault = tag.fault := by
  have hall : t.EmbedsOutside [] = t.Embeds := by
    funext a b
    simp [EmbedsOutside]
  have hdefined : ∀ ty, t.resolve (.structNamed name) = .ok ty →
      ∀ tag, Relation.ReflTransGen t.Embeds (.struct name) tag → t.Defines tag := by
    intro ty h tag hway
    rw [resolve, resolveIn] at h
    rw [← hall] at hway
    exact defines_of_resolveStruct List.not_mem_nil h hway
  have hdangling : ∀ fault, t.resolve (.structNamed name) = .error fault →
      ∃ tag, Relation.ReflTransGen t.Embeds (.struct name) tag ∧ ¬ t.Defines tag ∧
        fault = tag.fault := by
    intro fault h
    rw [resolve, resolveIn] at h
    exact exists_dangling hflat h
  refine ⟨⟨?_, ?_⟩, ⟨?_, ?_⟩, hdangling⟩
  · rintro ⟨fault, h, -⟩
    obtain ⟨tag, hway, htag, -⟩ := hdangling fault h
    exact ⟨tag, hway, htag⟩
  · rintro ⟨tag, hway, htag⟩
    cases h : t.resolve (.structNamed name) with
    | ok ty => exact absurd (hdefined ty h tag hway) htag
    | error fault =>
        obtain ⟨other, -, -, rfl⟩ := hdangling fault h
        exact ⟨_, rfl, other.category_fault⟩
  · rintro ⟨ty, h⟩
    exact hdefined ty h
  · intro hreached
    cases h : t.resolve (.structNamed name) with
    | ok ty => exact ⟨ty, rfl⟩
    | error fault =>
        obtain ⟨tag, hway, htag, -⟩ := hdangling fault h
        exact absurd (hreached tag hway) htag

/-- The struct that holds a missing enum is reached only through a struct that holds itself. -/
theorem resolve_fails_cycle :
    let t : TypeTable := ⟨[("A", [.mk "A" (.structNamed "self"), .mk "B" (.structNamed "b")]),
      ("B", [.mk "A" (.structNamed "back"), .mk "C" (.enumNamed "c")])], [], []⟩
    t.Flat ∧ t.resolve (.structNamed "A") = .error (.noEnum "C") ∧
      ∃ tag, Relation.ReflTransGen t.Embeds (.struct "A") tag ∧ ¬ t.Defines tag := by
  intro t
  have hflat : t.Flat := flat_of_structs (by simp [t, Field.Flat])
  have hinner : t.resolveStruct ["A"] "B" = .error (.noEnum "C") := by
    rw [resolveStruct_eq_map (by decide) rfl]
    simp only [resolveFields_cons, Field.reference, resolveIn,
      resolveStruct_of_mem (List.mem_cons_of_mem "B" List.mem_cons_self)]
    rfl
  have hresolve : t.resolve (.structNamed "A") = .error (.noEnum "C") := by
    rw [resolve, resolveIn, resolveStruct_eq_map (by decide) rfl]
    simp only [resolveFields_cons, Field.reference, resolveIn, hinner,
      resolveStruct_of_mem List.mem_cons_self]
    rfl
  exact ⟨hflat, hresolve, (resolve_fails_iff hflat "A").1.mp ⟨_, hresolve, rfl⟩⟩

end FuzzFrontend.TypeTable
