import FuzzFrontend.Diagnostic.Style
import FuzzFrontend.Proofs.Json
import FuzzFrontend.Proofs.Text.OneLine

namespace FuzzFrontend.Diagnostic

open Json (joined memberText Reads)

section Records

/-- The members for the fields that are there. -/
def present (fields : List (String × Option Json)) : List (String × Json) :=
  fields.filterMap fun field => field.2.map fun v => (field.1, v)

theorem present_append (fs gs : List (String × Option Json)) :
    present (fs ++ gs) = present fs ++ present gs :=
  List.filterMap_append

theorem mem_keys_of_mem_present {fs : List (String × Option Json)} {m : String × Json}
    (h : m ∈ present fs) : m.1 ∈ fs.map Prod.fst := by
  obtain ⟨f, hf, hm⟩ := List.mem_filterMap.mp h
  obtain ⟨v, -, rfl⟩ := Option.map_eq_some_iff.mp hm
  exact List.mem_map_of_mem hf

theorem present_injective {fs gs : List (String × Option Json)}
    (hkeys : fs.map Prod.fst = gs.map Prod.fst) (hnodup : (fs.map Prod.fst).Nodup)
    (h : present fs = present gs) : fs = gs := by
  induction fs generalizing gs with
  | nil => exact (List.map_eq_nil_iff.mp hkeys.symm).symm
  | cons f fs ih =>
      obtain ⟨k, v⟩ := f
      obtain ⟨g, gs, rfl⟩ := List.exists_cons_of_ne_nil (l := gs) (by rintro rfl; simp at hkeys)
      obtain ⟨k', v'⟩ := g
      obtain ⟨rfl, hrest⟩ := List.cons.inj hkeys
      obtain ⟨hk, hdistinct⟩ := List.nodup_cons.mp hnodup
      cases v with
      | none =>
          cases v' with
          | none => rw [ih hrest hdistinct h]
          | some b =>
              have hmem : (k, b) ∈ present fs := h ▸ List.mem_cons_self
              exact absurd (mem_keys_of_mem_present hmem) hk
      | some a =>
          cases v' with
          | none =>
              have hmem : (k, a) ∈ present gs := h ▸ List.mem_cons_self
              exact absurd (hrest ▸ mem_keys_of_mem_present hmem) hk
          | some b =>
              obtain ⟨hhead, htail⟩ := List.cons.inj h
              rw [ih hrest hdistinct htail, (Prod.mk.inj hhead).2]

/-- The fields of a diagnostic by their keys. A diagnostic without expected texts has no such
field. -/
def fields (d : Diagnostic) : List (String × Option Json) :=
  [("code", some (.string d.code.name)), ("code_value", some (.integer d.code.number)),
    ("message", some (.string d.message)), ("severity", some (.string d.severity.name))] ++
  [("line", d.span.map fun span => .integer span.line),
    ("column", d.span.map fun span => .integer span.column),
    ("start", d.span.map fun span => .integer span.start),
    ("end", d.span.map fun span => .integer span.stop)] ++
  [("found", d.found.map .string)] ++
  [("expected", if d.expected = [] then none else some (.array (d.expected.map .string)))] ++
  [("hint", d.hint.map .string)]

def record (d : Diagnostic) : Json :=
  .object (present d.fields)

theorem Code.name_injective {c c' : Code} (h : c.name = c'.name) : c = c' := by
  have hofName : ∀ c : Code, Code.ofName? c.name = some c := by
    intro c
    cases c <;> rfl
  have heq := hofName c
  rw [h, hofName c'] at heq
  exact (Option.some.inj heq).symm

theorem span_eq_of_fields {span span' : Option Span}
    (hline : span.map (fun s => Json.integer s.line) = span'.map fun s => .integer s.line)
    (hcolumn : span.map (fun s => Json.integer s.column) = span'.map fun s => .integer s.column)
    (hstart : span.map (fun s => Json.integer s.start) = span'.map fun s => .integer s.start)
    (hstop : span.map (fun s => Json.integer s.stop) = span'.map fun s => .integer s.stop) :
    span = span' := by
  cases span with
  | none =>
      cases span' with
      | none => rfl
      | some s' => cases hline
  | some s =>
      cases span' with
      | none => cases hline
      | some s' =>
          obtain ⟨start, stop, line, column⟩ := s
          obtain ⟨start', stop', line', column'⟩ := s'
          simp only [Option.map_some, Option.some.injEq, Json.integer.injEq, Int.natCast_inj] at *
          subst hline hcolumn hstart hstop
          rfl

theorem expected_eq_of_fields {expected expected' : List String}
    (h : (if expected = [] then none else some (Json.array (expected.map .string))) =
      if expected' = [] then none else some (Json.array (expected'.map .string))) :
    expected = expected' := by
  have hstring : Function.Injective Json.string := fun _ _ => Json.string.inj
  by_cases hnil : expected = []
  · by_cases hnil' : expected' = []
    · rw [hnil, hnil']
    · simp [hnil, hnil'] at h
  · by_cases hnil' : expected' = []
    · simp [hnil, hnil'] at h
    · rw [if_neg hnil, if_neg hnil'] at h
      exact List.map_injective_iff.mpr hstring (Json.array.inj (Option.some.inj h))

theorem eq_of_fields {d d' : Diagnostic} (h : d.fields = d'.fields) : d = d' := by
  have hstring : Function.Injective Json.string := fun _ _ => Json.string.inj
  simp only [fields, List.cons_append, List.nil_append, List.cons.injEq, Prod.mk.injEq, true_and,
    and_true, Option.some.injEq, Json.string.injEq] at h
  obtain ⟨hcode, -, hmessage, hseverity, hline, hcolumn, hstart, hstop, hfound, hexpected, hhint⟩ :=
    h
  obtain ⟨code, message, span, hint, found, expected, severity⟩ := d
  obtain ⟨code', message', span', hint', found', expected', severity'⟩ := d'
  obtain rfl := Code.name_injective hcode
  obtain rfl := hmessage
  obtain rfl : severity = severity' := congrArg Severity.mk hseverity
  obtain rfl := span_eq_of_fields hline hcolumn hstart hstop
  obtain rfl := Option.map_injective hstring hfound
  obtain rfl := expected_eq_of_fields hexpected
  obtain rfl := Option.map_injective hstring hhint
  rfl

theorem record_injective {d d' : Diagnostic} (h : d.record = d'.record) : d = d' := by
  have hkeys : d.fields.map Prod.fst = d'.fields.map Prod.fst := rfl
  have hnodup : (d.fields.map Prod.fst).Nodup := by
    simp [fields]
  exact eq_of_fields (present_injective hkeys hnodup (Json.object.inj h))

end Records

section Writing

variable {w : Writer} {d d' : Diagnostic}

theorem Writer.fit_eq_self (h : w.truncate = false) (text : String) : w.fit text = text := by
  simp [fit, h]

/-- The written member stands for the member. -/
def Writes (written : String × String) (member : String × Json) : Prop :=
  written.1 = member.1 ∧ Reads 2 written.2.toList member.2

theorem writes_string (key text : String) :
    Writes (key, Text.jsonString text) (key, .string text) :=
  ⟨rfl, (Json.reads_string text).mono (by decide)⟩

theorem writes_natural (key : String) (n : Nat) :
    Writes (key, Text.natural n) (key, .integer n) :=
  ⟨rfl, (Json.reads_natural n).mono (by decide)⟩

theorem toList_enclosed (opening closing : Char) (texts : List String) :
    (String.singleton opening ++ ", ".intercalate texts ++ String.singleton closing).toList =
      opening :: (joined (texts.map String.toList) ++ [closing]) := by
  rw [String.toList_append, String.toList_append, String.toList_intercalate]
  simp [joined]

theorem writes_strings (key : String) (texts : List String) :
    Writes (key, "[" ++ ", ".intercalate (texts.map Text.jsonString) ++ "]")
      (key, .array (texts.map .string)) := by
  have hitems : List.Forall₂ (Reads 1) ((texts.map Text.jsonString).map String.toList)
      (texts.map .string) := by
    rw [List.map_map, List.forall₂_map_left_iff, List.forall₂_map_right_iff, List.forall₂_same]
    exact fun text _ => Json.reads_string text
  have hread := Json.reads_array hitems
  rw [← toList_enclosed] at hread
  exact ⟨rfl, hread⟩

theorem writes_jsonMembers (hwhole : w.truncate = false) (hd : d.hint ≠ some "") :
    List.Forall₂ Writes (w.jsonMembers d) (present d.fields) := by
  unfold Writer.jsonMembers fields
  simp only [Writer.fit_eq_self hwhole, present_append]
  refine List.rel_append (List.rel_append (List.rel_append (List.rel_append ?_ ?_) ?_) ?_) ?_
  · exact .cons (writes_string _ _) (.cons (writes_natural _ _) (.cons (writes_string _ _)
      (.cons (writes_string _ _) .nil)))
  · cases d.span with
    | none => exact .nil
    | some span =>
        exact .cons (writes_natural _ _) (.cons (writes_natural _ _) (.cons (writes_natural _ _)
          (.cons (writes_natural _ _) .nil)))
  · cases d.found with
    | none => exact .nil
    | some found => exact .cons (writes_string _ _) .nil
  · cases d.expected with
    | nil => exact .nil
    | cons text texts => exact .cons (writes_strings _ _) .nil
  · cases hhint : d.hint with
    | none => simp [Writer.shownHint, hhint, present]
    | some hint =>
        have hne : hint ≠ "" := fun heq => hd (by rw [hhint, heq])
        have hshown : Writer.shownHint d = some hint := by
          simpa [Writer.shownHint, hhint, Option.filter_eq_some_iff] using hne
        rw [hshown]
        exact .cons (writes_string _ _) .nil

theorem toList_json (w : Writer) (d : Diagnostic) :
    (w.json d).toList =
      '{' :: (joined ((w.jsonMembers d).map fun m => memberText m.1 m.2.toList) ++ ['}']) := by
  have hmember : String.toList ∘ (fun m : String × String => Text.jsonString m.1 ++ ": " ++ m.2) =
      fun m => memberText m.1 m.2.toList := by
    funext m
    simp [memberText]
  have htext := toList_enclosed '{' '}'
    ((w.jsonMembers d).map fun m => Text.jsonString m.1 ++ ": " ++ m.2)
  rw [List.map_map, hmember] at htext
  exact htext

theorem length_json (w : Writer) (d : Diagnostic) : 3 ≤ (w.json d).length := by
  obtain ⟨m, ms, hcons⟩ : ∃ m ms, w.jsonMembers d = m :: ms := ⟨_, _, rfl⟩
  have hopens : Json.opens (joined ((w.jsonMembers d).map fun m => memberText m.1 m.2.toList)) =
      true := by
    rw [hcons, List.map_cons]
    exact Json.opens_joined (Json.opens_memberText m.1 m.2.toList)
  have hpos := Json.length_pos_of_opens hopens
  rw [← String.length_toList, toList_json, List.length_cons, List.length_append,
    List.length_singleton]
  omega

theorem read?_json (hwhole : w.truncate = false) (hd : d.hint ≠ some "") :
    Json.read? (w.json d) = some d.record := by
  have hmembers : List.Forall₂ (fun t m => t.1 = m.1 ∧ Reads 2 t.2 m.2)
      ((w.jsonMembers d).map fun m => (m.1, m.2.toList)) (present d.fields) := by
    rw [List.forall₂_map_left_iff]
    exact writes_jsonMembers hwhole hd
  have hread := Json.reads_object hmembers
  rw [List.map_map, Function.comp_def, ← toList_json] at hread
  exact Json.read?_of_reads hread (length_json w d)

end Writing

section Lines

variable {w : Writer} {d : Diagnostic}

theorem oneLine_enclosed {opening closing : Char} (hopening : opening ≠ '\n' ∧ opening ≠ '\r')
    (hclosing : closing ≠ '\n' ∧ closing ≠ '\r') {ts : List (List Char)}
    (h : ∀ t ∈ ts, OneLine t) : OneLine (opening :: (joined ts ++ [closing])) := by
  have hjoined : OneLine (joined ts) :=
    OneLine.intercalate (by decide : OneLine [',', ' ']) h
  exact oneLine_cons.mpr ⟨hopening, oneLine_append.mpr ⟨hjoined, oneLine_cons.mpr
    ⟨hclosing, oneLine_nil⟩⟩⟩

theorem oneLine_strings (texts : List String) :
    OneLine ("[" ++ ", ".intercalate (texts.map Text.jsonString) ++ "]").toList := by
  have htext := toList_enclosed '[' ']' (texts.map Text.jsonString)
  rw [List.map_map] at htext
  refine htext ▸ oneLine_enclosed (by decide) (by decide) fun t ht => ?_
  obtain ⟨text, -, rfl⟩ := List.mem_map.mp ht
  exact Text.oneLine_jsonString text

theorem oneLine_jsonMembers (w : Writer) (d : Diagnostic) :
    ∀ m ∈ w.jsonMembers d, OneLine m.2.toList := by
  unfold Writer.jsonMembers
  simp only [List.forall_mem_append]
  refine ⟨⟨⟨⟨?_, ?_⟩, ?_⟩, ?_⟩, ?_⟩
  · simp [Text.oneLine_jsonString, Text.oneLine_natural]
  · cases d.span <;> simp [Text.oneLine_natural]
  · cases d.found <;> simp [Text.oneLine_jsonString]
  · cases d.expected with
    | nil => exact List.forall_mem_nil _
    | cons text texts => exact List.forall_mem_singleton.mpr (oneLine_strings (text :: texts))
  · cases Writer.shownHint d <;> simp [Text.oneLine_jsonString]

theorem oneLine_json (w : Writer) (d : Diagnostic) : OneLine (w.json d).toList := by
  rw [toList_json]
  refine oneLine_enclosed (by decide) (by decide) fun t ht => ?_
  obtain ⟨m, hm, rfl⟩ := List.mem_map.mp ht
  exact oneLine_append.mpr ⟨Text.oneLine_jsonString m.1, oneLine_cons.mpr ⟨by decide,
    oneLine_cons.mpr ⟨by decide, oneLine_jsonMembers w d m hm⟩⟩⟩

end Lines

/-- The JSON text of a diagnostic, nothing cut, is one line that stands for its record, and no other
diagnostic has that text. Empty hints are not written, so none is asked for. -/
theorem json_faithful {w w' : Writer} (hstyle : w.style = .json) (hstyle' : w'.style = .json)
    (hwhole : w.truncate = false) (hwhole' : w'.truncate = false) {d d' : Diagnostic}
    (hd : d.hint ≠ some "") (hd' : d'.hint ≠ some "") :
    Json.read? (w.write d) = some d.record ∧ OneLine (w.write d).toList ∧
      (w.write d = w'.write d' → d = d') := by
  have hwrite : w.write d = w.json d := by rw [Writer.write, hstyle]
  have hwrite' : w'.write d' = w'.json d' := by rw [Writer.write, hstyle']
  have hread := read?_json hwhole hd
  have hread' := read?_json hwhole' hd'
  rw [hwrite, hwrite']
  refine ⟨hread, oneLine_json w d, fun heq => ?_⟩
  rw [heq, hread'] at hread
  exact (record_injective (Option.some.inj hread)).symm

/-- An empty found text is not the same as none. -/
theorem json_faithful_found :
    let w : Writer := { style := .json }
    let d : Diagnostic :=
      { code := .unexpectedEnd, message := "no \"\x7d\"\n\\ here",
        span := some ⟨7, 7, 2, 3, by decide, by decide, by decide⟩, found := some "",
        expected := ["'\x7d'", "ident"] }
    Json.read? (w.write d) = some (.object
        [("code", .string "UNEXPECTED_EOF"), ("code_value", .integer 3001),
          ("message", .string "no \"\x7d\"\n\\ here"), ("severity", .string "error"),
          ("line", .integer 2), ("column", .integer 3), ("start", .integer 7),
          ("end", .integer 7), ("found", .string ""),
          ("expected", .array [.string "'\x7d'", .string "ident"])]) ∧
      OneLine (w.write d).toList ∧ w.write d ≠ w.write { d with found := none } := by
  intro w d
  obtain ⟨hread, hline, hinjective⟩ :=
    @json_faithful w w rfl rfl rfl rfl d { d with found := none } (by decide) (by decide)
  exact ⟨hread, hline, fun heq => absurd (congrArg found (hinjective heq)) (by decide)⟩

end FuzzFrontend.Diagnostic
