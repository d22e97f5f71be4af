import FuzzFrontend.Proofs.Program.RoundTrip
import FuzzFrontend.Proofs.TypeTable.Derivation

namespace FuzzFrontend

/-- The type at the end of a way through members, each told by its place. -/
def Ty.at? : Ty → List Nat → Option Ty
  | ty, [] => some ty
  | .struct _ members _, i :: places =>
    match members[i]? with
    | some (.mk _ ty) => ty.at? places
    | none => none
  | _, _ :: _ => none

theorem Ty.at?_struct {name label : String} {members : List Member} {forward : Bool} {i : Nat}
    {ty : Ty} (h : members[i]? = some (.mk label ty)) (places : List Nat) :
    (Ty.struct name members forward).at? (i :: places) = ty.at? places := by
  rw [Ty.at?, h]

/-- The field does not define its type in place. -/
def Field.Flat : Field → Prop
  | .mk _ (.inline _) => False
  | _ => True

namespace TypeTable

variable {t : TypeTable} {opened : List String} {name : String}

/-- No definition of the table holds another definition. -/
def Flat (t : TypeTable) : Prop :=
  ∀ name fields, t.structs.lookup name = some fields → ∀ field ∈ fields, field.Flat

/-- A way through the definitions, from a struct through fields of struct type: the places of the
fields, the structs that are passed, outermost first, and the struct at the end. -/
inductive Leads (t : TypeTable) : String → List Nat → List String → String → Prop
  | here (name : String) : Leads t name [] [] name
  | through {name inner own target : String} {fields : List Field} {i : Nat} {places : List Nat}
      {outer : List String} (hfound : t.structs.lookup name = some fields)
      (hfield : fields[i]? = some (.mk inner (.structNamed own)))
      (h : Leads t inner places outer target) : Leads t name (i :: places) (name :: outer) target

/-- The member is as its field declares it: under the field's own name, with the enum that is
defined or the type that is written. Of a member of struct type another way tells. -/
def Declares (t : TypeTable) : Field → Member → Prop
  | .mk _ (.structNamed own), .mk label _ => label = own
  | .mk name (.enumNamed own), .mk label ty =>
    label = own ∧ ∃ values, t.enums.lookup name = some values ∧ ty = .enum name values false
  | .mk own (.known known), .mk label ty => label = own ∧ ty = known
  | .mk _ (.inline _), _ => False

/-- The type is the unfolding of a struct inside some others. On every way that passes no struct
twice, the end is a placeholder if it encloses itself, and otherwise has all its members. -/
def Unfolds (t : TypeTable) (opened : List String) (name : String) (ty : Ty) : Prop :=
  ∀ places outer target, t.Leads name places outer target → (outer ++ opened).Nodup →
    (target ∈ outer ++ opened → ty.at? places = some (.struct target [] true)) ∧
    (target ∉ outer ++ opened → ∃ fields members, t.structs.lookup target = some fields ∧
      ty.at? places = some (.struct target members false) ∧
      List.Forall₂ t.Declares fields members)

section Ways

theorem Unfolds.inner {fields : List Field} {members : List Member} {i : Nat} {inner own : String}
    {ty : Ty} (h : t.Unfolds opened name (.struct name members false))
    (hfound : t.structs.lookup name = some fields)
    (hfield : fields[i]? = some (.mk inner (.structNamed own)))
    (hmember : members[i]? = some (.mk own ty)) : t.Unfolds (name :: opened) inner ty := by
  intro places outer target hleads hnodup
  have hway := h (i :: places) (name :: outer) target (.through hfound hfield hleads)
    ((List.perm_middle).nodup_iff.mp hnodup)
  simpa [Ty.at?_struct hmember, or_left_comm] using hway

theorem Unfolds.of_inner {fields : List Field} {members : List Member} (hopened : name ∉ opened)
    (hfound : t.structs.lookup name = some fields)
    (hmembers : List.Forall₂ t.Declares fields members)
    (h : ∀ (i : Nat) inner own ty, fields[i]? = some (Field.mk inner (.structNamed own)) →
      members[i]? = some (Member.mk own ty) → t.Unfolds (name :: opened) inner ty) :
    t.Unfolds opened name (.struct name members false) := by
  intro places outer target hleads hnodup
  cases hleads with
  | here =>
      refine ⟨fun hmem => absurd hmem hopened, fun _ => ?_⟩
      exact ⟨fields, members, hfound, rfl, hmembers⟩
  | @through _ inner own _ fields' i places outer hfound' hfield hleads =>
      obtain rfl : fields = fields' := Option.some.inj (hfound.symm.trans hfound')
      obtain ⟨⟨label, ty⟩, hmember, hdeclares⟩ := exists_member hmembers hfield
      obtain rfl : label = own := hdeclares
      have hway := h i inner label ty hfield hmember places outer target hleads
        ((List.perm_middle).nodup_iff.mpr hnodup)
      simpa [Ty.at?_struct hmember, or_left_comm] using hway

end Ways

section Structs

theorem declares_of_resolveIn {field : Field} {ty : Ty} (hflat : field.Flat)
    (h : t.resolveIn opened field.reference = .ok ty) :
    t.Declares field (.mk field.label ty) := by
  match field with
  | .mk name (.structNamed own) => exact rfl
  | .mk name (.enumNamed own) =>
      simp only [Field.reference, resolveIn, resolveEnum] at h
      split at h
      · rename_i values hfound
        cases h
        exact ⟨rfl, values, hfound, rfl⟩
      · cases h
  | .mk name (.known known) =>
      simp only [Field.reference, resolveIn] at h
      cases h
      exact ⟨rfl, rfl⟩
  | .mk name (.inline definition) => exact absurd hflat id

theorem resolveIn_of_declares {field : Field} {label : String} {ty : Ty}
    (h : t.Declares field (.mk label ty))
    (hstruct : ∀ inner own, field = .mk inner (.structNamed own) →
      t.resolveStruct opened inner = .ok ty) :
    t.resolveIn opened field.reference = .ok ty ∧ label = field.label := by
  match field with
  | .mk name (.structNamed own) =>
      simp only [Field.reference, resolveIn]
      exact ⟨hstruct name own rfl, h⟩
  | .mk name (.enumNamed own) =>
      obtain ⟨hlabel, values, hfound, rfl⟩ := h
      simp only [Field.reference, resolveIn, resolveEnum, hfound, true_and]
      exact hlabel
  | .mk name (.known known) =>
      obtain ⟨hlabel, rfl⟩ := h
      simp only [Field.reference, resolveIn, true_and]
      exact hlabel
  | .mk name (.inline definition) => exact absurd h id

/-- In a flat table fields stand for the members that they declare, and those of struct type for
what their structs resolve to. -/
theorem resolveFields_iff_declares {fields : List Field} (hflat : ∀ field ∈ fields, field.Flat)
    {members : List Member} :
    t.resolveFields opened fields = .ok members ↔
      List.Forall₂ t.Declares fields members ∧
        ∀ (i : Nat) inner own ty, fields[i]? = some (Field.mk inner (.structNamed own)) →
          members[i]? = some (Member.mk own ty) → t.resolveStruct opened inner = .ok ty := by
  rw [resolveFields_eq_ok_iff]
  constructor
  · intro h
    constructor
    · refine ((List.forall₂_and_left _ _).mpr ⟨hflat, h⟩).imp ?_
      rintro field _ ⟨hfield, ty, hty, rfl⟩
      exact declares_of_resolveIn hfield hty
    · intro i inner own ty hfield hmember
      obtain ⟨_, hmember', ty', hty, rfl⟩ := exists_member h hfield
      rw [hmember] at hmember'
      cases hmember'
      rwa [Field.reference, resolveIn] at hty
  · rintro ⟨h, hstruct⟩
    rw [List.forall₂_iff_get] at h ⊢
    refine ⟨h.1, fun i hi hi' => ?_⟩
    have hdeclares := h.2 i hi hi'
    have hfield : fields[i]? = some (fields.get ⟨i, hi⟩) := List.getElem?_eq_getElem hi
    have hmember : members[i]? = some (members.get ⟨i, hi'⟩) := List.getElem?_eq_getElem hi'
    generalize fields.get ⟨i, hi⟩ = field at hdeclares hfield ⊢
    generalize members.get ⟨i, hi'⟩ = member at hdeclares hmember ⊢
    obtain ⟨label, ty⟩ := member
    have hinner : ∀ inner own, field = .mk inner (.structNamed own) →
        t.resolveStruct opened inner = .ok ty := by
      rintro inner own rfl
      obtain rfl : label = own := hdeclares
      exact hstruct i inner label ty hfield hmember
    obtain ⟨hty, rfl⟩ := resolveIn_of_declares hdeclares hinner
    exact ⟨ty, hty, rfl⟩

theorem unfolds_iff_of_mem (h : name ∈ opened) (hopened : opened.Nodup) (ty : Ty) :
    t.Unfolds opened name ty ↔ ty = .struct name [] true := by
  constructor
  · intro hunfolds
    have hhere := (hunfolds [] [] name (.here name) hopened).1 h
    exact Option.some.inj hhere
  · rintro rfl places outer target hleads hnodup
    cases hleads with
    | here => exact ⟨fun _ => rfl, fun hmem => absurd h hmem⟩
    | through hfound hfield hleads =>
        rw [List.cons_append, List.nodup_cons] at hnodup
        exact absurd (List.mem_append_right _ h) hnodup.1

/-- In a flat table a struct resolves to its unfolding and to nothing else. -/
theorem resolveStruct_iff_unfolds (hflat : t.Flat) (hopened : opened.Nodup) {ty : Ty} :
    t.resolveStruct opened name = .ok ty ↔ t.Unfolds opened name ty := by
  induction opened, name using unfolding_induction t generalizing ty with
  | h opened name ih =>
    by_cases hmem : name ∈ opened
    · rw [resolveStruct_of_mem hmem, unfolds_iff_of_mem hmem hopened, Except.ok.injEq, eq_comm]
    · have hinner : (name :: opened).Nodup := List.nodup_cons.mpr ⟨hmem, hopened⟩
      constructor
      · intro h
        cases hfound : t.structs.lookup name with
        | none =>
            rw [resolveStruct_of_none hmem hfound] at h
            cases h
        | some fields =>
            rw [resolveStruct_eq_map hmem hfound] at h
            obtain ⟨members, hfields, rfl⟩ := map_eq_ok.mp h
            obtain ⟨hmembers, hstruct⟩ :=
              (resolveFields_iff_declares (hflat name fields hfound)).mp hfields
            refine .of_inner hmem hfound hmembers fun i inner own ty hfield hmember => ?_
            exact (ih fields hmem hfound inner hinner).mp (hstruct i inner own ty hfield hmember)
      · intro h
        obtain ⟨fields, members, hfound, hty, hmembers⟩ :=
          (h [] [] name (.here name) hopened).2 hmem
        obtain rfl := Option.some.inj hty
        rw [resolveStruct_eq_map hmem hfound]
        refine map_eq_ok.mpr ⟨members, ?_, rfl⟩
        refine (resolveFields_iff_declares (hflat name fields hfound)).mpr ⟨hmembers, ?_⟩
        intro i inner own ty hfield hmember
        exact (ih fields hmem hfound inner hinner).mpr (h.inner hfound hfield hmember)

end Structs

section Programs

theorem flat_of_structs (h : ∀ entry ∈ t.structs, ∀ field ∈ entry.2, field.Flat) : t.Flat := by
  intro name fields hfound
  obtain ⟨before, after, hentries, -⟩ := List.lookup_eq_some_iff.mp hfound
  exact h (name, fields) (by simp [hentries])

theorem flat_of_spellable {field : Field} (h : field.Spellable) : field.Flat := by
  match field with
  | .mk name (.structNamed own) => exact trivial
  | .mk name (.enumNamed own) => exact trivial
  | .mk name (.known ty) => exact trivial
  | .mk name (.inline definition) => exact absurd h id

theorem Flat.declare {t' : TypeTable} {d : Declaration} (ht : t.Flat) (hd : d.Spellable)
    (h : t.declare d = .ok t') : t'.Flat := by
  match d with
  | .define (.struct name fields) =>
      simp only [TypeTable.declare, define] at h
      split at h
      · cases h
      · cases h
        intro other found hfound field hfield
        rw [List.lookup_append, Option.or_eq_some_iff] at hfound
        rcases hfound with hfound | ⟨-, hfound⟩
        · exact ht other found hfound field hfield
        · rw [List.lookup_cons] at hfound
          split at hfound
          · cases hfound
            exact flat_of_spellable (hd.2 field hfield)
          · cases hfound
  | .define (.enum name values) =>
      simp only [TypeTable.declare, define] at h
      split at h
      · cases h
      · cases h
        exact ht
  | .typedef source name =>
      simp only [TypeTable.declare, defineTypedef] at h
      split at h
      · cases h
      · cases h
        exact ht
  | .header path style =>
      cases h
      exact ht
  | .free decl =>
      cases h
      exact ht
  | .constrained name ty =>
      cases h
      exact ht
  | .function signature =>
      cases h
      exact ht

theorem flat_ofProgram {p : Program} (hp : p.Spellable) (h : ofProgram p = .ok t) : t.Flat := by
  have hrun : ∀ (ds : List Declaration) (t t' : TypeTable), t.Flat → (∀ d ∈ ds, d.Spellable) →
      ds.foldlM TypeTable.declare t = .ok t' → t'.Flat := by
    intro ds
    induction ds with
    | nil =>
        intro t t' ht _ h
        cases h
        exact ht
    | cons d ds ih =>
        intro t t' ht hds h
        rw [List.foldlM_cons] at h
        obtain ⟨next, hnext, h⟩ := bind_eq_ok.mp h
        obtain ⟨hd, hds⟩ := List.forall_mem_cons.mp hds
        exact ih next t' (ht.declare hd hnext) hds h
  exact hrun p.declarations {} t nofun hp.declarations h

end Programs

/-- Every reference has a finite derivation, of what it is resolved to and of nothing else, also
where structs contain each other. If no definition holds another one, as in the table of any program
that is read, a struct resolves exactly to its unfolding. -/
theorem resolve_unfolds (t : TypeTable) :
    (∀ e r, t.Derives [] e r ↔ t.resolve e = r) ∧
    (∀ name source, t.typedefs.lookup name = some source →
      t.Derives [] source (t.resolveTypedef name)) ∧
    (t.Flat → ∀ name ty, t.resolve (.structNamed name) = .ok ty ↔ t.Unfolds [] name ty) ∧
    ∀ source limits p, Program.read source limits = .ok p → ofProgram p = .ok t → t.Flat := by
  refine ⟨fun e r => derives_iff, fun name source hsource => ?_, fun hflat name ty => ?_, ?_⟩
  · rw [resolveTypedef, hsource]
    exact derives_resolveIn t [] source
  · rw [resolve, resolveIn]
    exact resolveStruct_iff_unfolds hflat List.nodup_nil
  · intro source limits p hread htable
    have hprogram := Program.program_of_read hread
    exact flat_ofProgram (Program.Grammar.spellable_of_program rfl hprogram).1 htable

/-- Two structs that hold each other: each is opened once on a way, and is a placeholder after
that. -/
theorem resolve_unfolds_mutual :
    let outer : List Field := [.mk "B" (.structNamed "x"), .mk "A" (.structNamed "self")]
    let inner : List Field := [.mk "A" (.structNamed "back"), .mk "C" (.enumNamed "c")]
    let p : Program := ⟨[.define (.struct "A" outer), .define (.struct "B" inner),
      .define (.enum "C" [⟨"K", 1⟩])], []⟩
    let source := "struct A \x7b\n    struct B x;\n    struct A self;\n\x7d\n" ++
      "struct B \x7b\n    struct A back;\n    enum C c;\n\x7d\n" ++ "enum C \x7b K = 1, \x7d\n"
    let t : TypeTable := ⟨[("A", outer), ("B", inner)], [("C", [⟨"K", 1⟩])], []⟩
    let again : Ty := .struct "A" [] true
    let ty : Ty := .struct "A" [.mk "x" (.struct "B"
      [.mk "back" again, .mk "c" (.enum "C" [⟨"K", 1⟩] false)] false), .mk "self" again] false
    Program.read source { sourceSize := 0 } = .ok p ∧ ofProgram p = .ok t ∧ t.Flat ∧
      t.resolve (.structNamed "A") = .ok ty ∧ t.Unfolds [] "A" ty := by
  intro outer inner p source t again ty
  have hwrite : p.write true none = .ok source := by with_unfolding_all rfl
  have hp : p.Spellable := by
    refine ⟨by simp [p, Declaration.phase], fun d hd => ?_, by simp [p]⟩
    simp only [p, List.mem_cons, List.not_mem_nil, or_false] at hd
    rcases hd with rfl | rfl | rfl
    · simp [Declaration.Spellable, Definition.Spellable, outer, Field.Spellable]
      decide
    · simp [Declaration.Spellable, Definition.Spellable, inner, Field.Spellable]
      decide
    · simp [Declaration.Spellable, Definition.Spellable, EnumValue.Spellable]
      decide
  have hread : Program.read source { sourceSize := 0 } = .ok p := by
    rw [Program.read_eq_ok_iff (Scan.sizeError?_eq_none (by decide) _ _)]
    exact (Program.program_of_write hp hwrite _).mpr (by decide)
  have htable : ofProgram p = .ok t := rfl
  have hself : t.resolveStruct ["A"] "A" = .ok again := resolveStruct_of_mem (by decide)
  have hback : t.resolveStruct ["B", "A"] "A" = .ok again := resolveStruct_of_mem (by decide)
  have hinner : t.resolveStruct ["A"] "B" = .ok (.struct "B"
      [.mk "back" again, .mk "c" (.enum "C" [⟨"K", 1⟩] false)] false) := by
    rw [resolveStruct_eq_map (by decide) rfl]
    simp only [inner, resolveFields_cons, Field.reference, resolveIn, hback, resolveFields]
    rfl
  have hresolve : t.resolve (.structNamed "A") = .ok ty := by
    rw [resolve, resolveIn, resolveStruct_eq_map (by decide) rfl]
    simp only [outer, resolveFields_cons, Field.reference, resolveIn, hinner, hself, resolveFields]
    rfl
  have hflat : t.Flat := (resolve_unfolds t).2.2.2 source _ p hread htable
  exact ⟨hread, htable, hflat, hresolve, ((resolve_unfolds t).2.2.1 hflat "A" ty).mp hresolve⟩

end TypeTable

end FuzzFrontend
