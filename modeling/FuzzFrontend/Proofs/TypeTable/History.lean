import Mathlib.Data.List.Nodup
import FuzzFrontend.Proofs.TypeTable.Resolution

namespace FuzzFrontend.TypeTable

/-- Where names must differ. -/
inductive Scope
  | structs
  | enums
  | typedefs
  deriving DecidableEq

namespace Entry

def scope : Entry → Scope
  | definition (.struct _ _) => .structs
  | definition (.enum _ _) => .enums
  | typedef _ _ => .typedefs

def name : Entry → String
  | definition d => d.name
  | typedef name _ => name

end Entry

/-- The names of one scope, in order of definition. -/
def names (t : TypeTable) : Scope → List String
  | .structs => t.structNames
  | .enums => t.enumNames
  | .typedefs => t.typedefNames

/-- The table with an entry added, if its name is free in its scope. -/
def add (t : TypeTable) : Entry → Except Fault TypeTable
  | .definition d => t.define d
  | .typedef name source => t.defineTypedef name source

/-- The table after calls, each of which adds its entry or is refused. -/
def run (t : TypeTable) : List Entry → TypeTable
  | [] => t
  | entry :: rest =>
    match t.add entry with
    | .ok t' => t'.run rest
    | .error _ => t.run rest

/-- The entries of the calls that are not refused, in their order. -/
def accepted (t : TypeTable) : List Entry → List Entry
  | [] => []
  | entry :: rest =>
    match t.add entry with
    | .ok t' => entry :: t'.accepted rest
    | .error _ => t.accepted rest

variable {t : TypeTable} {entry : Entry}

section Calls

/-- The table with an entry at the end of its scope, whatever is there. -/
def push (t : TypeTable) : Entry → TypeTable
  | .definition (.struct name fields) => { t with structs := t.structs ++ [(name, fields)] }
  | .definition (.enum name values) => { t with enums := t.enums ++ [(name, values)] }
  | .typedef name source => { t with typedefs := t.typedefs ++ [(name, source)] }

theorem add_of_mem (h : entry.name ∈ t.names entry.scope) :
    t.add entry = .error (.duplicate entry.name) := by
  match entry, h with
  | .definition (.struct name fields), h => exact if_pos h
  | .definition (.enum name values), h => exact if_pos h
  | .typedef name source, h => exact if_pos h

theorem add_of_not_mem (h : entry.name ∉ t.names entry.scope) :
    t.add entry = .ok (t.push entry) := by
  match entry, h with
  | .definition (.struct name fields), h => exact if_neg h
  | .definition (.enum name values), h => exact if_neg h
  | .typedef name source, h => exact if_neg h

theorem names_push (t : TypeTable) (entry : Entry) (scope : Scope) :
    (t.push entry).names scope =
      t.names scope ++ if entry.scope = scope then [entry.name] else [] := by
  match entry with
  | .definition (.struct name fields) =>
      cases scope <;> simp [push, names, structNames, enumNames, typedefNames, Entry.scope,
        Entry.name, Definition.name]
  | .definition (.enum name values) =>
      cases scope <;> simp [push, names, structNames, enumNames, typedefNames, Entry.scope,
        Entry.name, Definition.name]
  | .typedef name source =>
      cases scope <;> simp [push, names, structNames, enumNames, typedefNames, Entry.scope,
        Entry.name]

theorem lookup_concat {β : Type} {entries : List (String × β)} {key : String} {value : β}
    (h : key ∉ entries.map Prod.fst) (k : String) (v : β) :
    (entries ++ [(key, value)]).lookup k = some v ↔
      entries.lookup k = some v ∨ k = key ∧ v = value := by
  rw [List.lookup_append]
  by_cases hk : k = key
  · subst hk
    have hnone : entries.lookup k = none := by
      rw [List.lookup_eq_none_iff]
      rintro ⟨name, found⟩ hmem
      have hne : k ≠ name := by
        rintro rfl
        exact h (List.mem_map_of_mem hmem)
      simpa using hne
    rw [hnone, Option.none_or, List.lookup_cons_self]
    simp [eq_comm]
  · have hother : [(key, value)].lookup k = none := by
      rw [List.lookup_eq_none_iff]
      simpa using hk
    rw [hother, Option.or_none]
    simp [hk]

theorem holds_push (h : entry.name ∉ t.names entry.scope) (e : Entry) :
    (t.push entry).Holds e ↔ t.Holds e ∨ e = entry := by
  match entry, h with
  | .definition (.struct name fields), h =>
      match e with
      | .definition (.struct n fs) =>
          simpa [Holds, push, Entry.name, Definition.name] using lookup_concat h n fs
      | .definition (.enum n vs) => simp [Holds, push]
      | .typedef n source => simp [Holds, push]
  | .definition (.enum name values), h =>
      match e with
      | .definition (.struct n fs) => simp [Holds, push]
      | .definition (.enum n vs) =>
          simpa [Holds, push, Entry.name, Definition.name] using lookup_concat h n vs
      | .typedef n source => simp [Holds, push]
  | .typedef name source, h =>
      match e with
      | .definition (.struct n fs) => simp [Holds, push]
      | .definition (.enum n vs) => simp [Holds, push]
      | .typedef n source' =>
          simpa [Holds, push, Entry.name] using lookup_concat h n source'

theorem not_holds_empty (e : Entry) : ¬ Holds {} e := by
  match e with
  | .definition (.struct n fs) => simp [Holds]
  | .definition (.enum n vs) => simp [Holds]
  | .typedef n source => simp [Holds]

end Calls

section Runs

theorem run_cons_of_mem (h : entry.name ∈ t.names entry.scope) (rest : List Entry) :
    t.run (entry :: rest) = t.run rest ∧ t.accepted (entry :: rest) = t.accepted rest := by
  simp only [run, accepted, add_of_mem h, and_self]

theorem run_cons_of_not_mem (h : entry.name ∉ t.names entry.scope) (rest : List Entry) :
    t.run (entry :: rest) = (t.push entry).run rest ∧
      t.accepted (entry :: rest) = entry :: (t.push entry).accepted rest := by
  simp only [run, accepted, add_of_not_mem h, and_self]

theorem run_append (entries later : List Entry) :
    t.run (entries ++ later) = (t.run entries).run later := by
  induction entries generalizing t with
  | nil => rfl
  | cons entry rest ih =>
      by_cases h : entry.name ∈ t.names entry.scope
      · rw [List.cons_append, (run_cons_of_mem h _).1, (run_cons_of_mem h _).1, ih]
      · rw [List.cons_append, (run_cons_of_not_mem h _).1, (run_cons_of_not_mem h _).1, ih]

theorem names_run (entries : List Entry) (scope : Scope) :
    (t.run entries).names scope = t.names scope ++
      ((t.accepted entries).filter fun e => e.scope = scope).map Entry.name := by
  induction entries generalizing t with
  | nil => simp [run, accepted]
  | cons entry rest ih =>
      by_cases h : entry.name ∈ t.names entry.scope
      · rw [(run_cons_of_mem h _).1, (run_cons_of_mem h _).2, ih]
      · rw [(run_cons_of_not_mem h _).1, (run_cons_of_not_mem h _).2, ih, names_push]
        by_cases hscope : entry.scope = scope <;> simp [hscope]

theorem nodup_names_run (entries : List Entry) {scope : Scope} (h : (t.names scope).Nodup) :
    ((t.run entries).names scope).Nodup := by
  induction entries generalizing t with
  | nil => exact h
  | cons entry rest ih =>
      by_cases hmem : entry.name ∈ t.names entry.scope
      · rw [(run_cons_of_mem hmem _).1]
        exact ih h
      · rw [(run_cons_of_not_mem hmem _).1]
        apply ih
        rw [names_push]
        split
        · rename_i hscope
          subst hscope
          simpa using List.Nodup.concat hmem h
        · simpa using h

theorem holds_run (entries : List Entry) (e : Entry) :
    (t.run entries).Holds e ↔ t.Holds e ∨ e ∈ t.accepted entries := by
  induction entries generalizing t with
  | nil => simp [run, accepted]
  | cons entry rest ih =>
      by_cases h : entry.name ∈ t.names entry.scope
      · rw [(run_cons_of_mem h _).1, (run_cons_of_mem h _).2, ih]
      · rw [(run_cons_of_not_mem h _).1, (run_cons_of_not_mem h _).2, ih, holds_push h,
          List.mem_cons, or_assoc]

theorem extends_run (t : TypeTable) (entries : List Entry) : t.Extends (t.run entries) :=
  fun e he => (holds_run entries e).mpr (Or.inl he)

theorem extends_of_accepted {entries entries' : List Entry}
    (h : ∀ e ∈ accepted {} entries, e ∈ accepted {} entries') :
    (run {} entries).Extends (run {} entries') := by
  intro e he
  rcases (holds_run entries e).mp he with hempty | hmem
  · exact absurd hempty (not_holds_empty e)
  · exact (holds_run entries' e).mpr (Or.inr (h e hmem))

end Runs

/-- Along any calls on an empty table: a call is refused exactly when its name is there in its
scope, and then as a duplicate that changes nothing; the names of each scope are those of the
accepted calls, each once; whatever resolves goes on to resolve to the same type; and the order in
which the same entries were accepted makes no difference to what any reference resolves to. -/
theorem run_append_only (entries : List Entry) :
    (∀ entry, (entry.name ∈ (run {} entries).names entry.scope ∧
        (run {} entries).add entry = .error (.duplicate entry.name) ∧
        run {} (entries ++ [entry]) = run {} entries) ∨
      (entry.name ∉ (run {} entries).names entry.scope ∧
        (run {} entries).add entry = .ok (run {} (entries ++ [entry])))) ∧
    (∀ scope, (run {} entries).names scope =
        ((accepted {} entries).filter fun e => e.scope = scope).map Entry.name ∧
      ((run {} entries).names scope).Nodup) ∧
    (∀ later : List Entry,
      (∀ e ty, (run {} entries).resolve e = .ok ty →
        (run {} (entries ++ later)).resolve e = .ok ty) ∧
      ∀ name ty, (run {} entries).resolveTypedef name = .ok ty →
        (run {} (entries ++ later)).resolveTypedef name = .ok ty) ∧
    ∀ entries' : List Entry, (∀ e, e ∈ accepted {} entries ↔ e ∈ accepted {} entries') →
      (∀ e, (run {} entries).resolve e = (run {} entries').resolve e) ∧
      ∀ name, (run {} entries).resolveTypedef name = (run {} entries').resolveTypedef name := by
  refine ⟨fun entry => ?_, fun scope => ⟨?_, ?_⟩, fun later => ?_, fun entries' hsame => ?_⟩
  · rw [run_append]
    by_cases h : entry.name ∈ (run {} entries).names entry.scope
    · exact Or.inl ⟨h, add_of_mem h, (run_cons_of_mem h []).1⟩
    · refine Or.inr ⟨h, ?_⟩
      rw [add_of_not_mem h, (run_cons_of_not_mem h []).1]
      rfl
  · have hnone : names {} scope = [] := by cases scope <;> rfl
    rw [names_run, hnone, List.nil_append]
  · have hnone : (names {} scope).Nodup := by cases scope <;> exact List.nodup_nil
    exact nodup_names_run entries hnone
  · rw [run_append]
    have hgrown := extends_run (run {} entries) later
    exact ⟨fun e ty h => (resolve_improves hgrown e).eq_ok h,
      fun name ty h => (resolveTypedef_improves hgrown name).eq_ok h⟩
  · have hforth : (run {} entries).Extends (run {} entries') :=
      extends_of_accepted fun e he => (hsame e).mp he
    have hback : (run {} entries').Extends (run {} entries) :=
      extends_of_accepted fun e he => (hsame e).mpr he
    exact ⟨fun e => (resolve_improves hforth e).eq_of_extends hback,
      fun name => (resolveTypedef_improves hforth name).eq_of_extends hback⟩

end FuzzFrontend.TypeTable
