import FuzzFrontend.Diagnostic.Style
import FuzzFrontend.Proofs.Diagnostic.Wording

namespace FuzzFrontend.Diagnostic.Writer

/-- The lines of a block: a header, and one each for the place, what was expected and the hint. -/
def rows (w : Writer) (d : Diagnostic) : List String :=
  (w.severity d.severity ++ "[" ++ d.code.name ++ "]: " ++ w.fit d.message) ::
    ((d.span.map fun span => "  --> line " ++ Text.natural span.line ++ ", column " ++
        Text.natural span.column).toList ++
      (if d.expected = [] then [] else ["  = expected: " ++ ", ".intercalate d.expected]) ++
      ((shownHint d).map fun hint => "  = help: " ++ w.fit hint).toList)

theorem block_eq (w : Writer) (d : Diagnostic) : w.block d = "\n".intercalate (w.rows d) := by
  unfold block rows
  cases d.span <;> cases d.expected <;> cases shownHint d <;> rfl

theorem length_rows (w : Writer) (d : Diagnostic) :
    (w.rows d).length = 1 + d.span.toList.length + (if d.expected = [] then 0 else 1) +
      (shownHint d).toList.length := by
  unfold rows
  cases d.span <;> cases d.expected <;> cases shownHint d <;> rfl

/-- The single line is one, and the block has exactly its rows as lines: the header, and one line
each for the place, what was expected and the hint, if they are there. -/
structure KeepsLines (w : Writer) (d : Diagnostic) : Prop where
  line : OneLine (w.line d).toList
  rows : ∀ row ∈ w.rows d, OneLine row.toList
  block : (w.block d).toList.splitOn '\n' = (w.rows d).map String.toList
  count : ((w.block d).toList.splitOn '\n').length =
    1 + d.span.toList.length + (if d.expected = [] then 0 else 1) + (shownHint d).toList.length

variable {w : Writer} {d : Diagnostic}

theorem oneLine_fit {text : String} (h : OneLine text.toList) : OneLine (w.fit text).toList := by
  unfold fit
  split
  · rw [oneLine_toList_append, String.toList_ofList]
    exact ⟨h.slice _ _, oneLine_ofList rfl⟩
  · exact h

theorem oneLine_name (c : Code) : OneLine c.name.toList := by
  cases c <;> exact oneLine_ofList rfl

theorem oneLine_severity (w : Writer) (s : Severity) : OneLine (w.severity s).toList := by
  unfold severity shownSeverity
  by_cases hwarning : s = .warning
  · cases w.color <;> simp only [hwarning] <;> decide
  · cases w.color <;> simp only [hwarning] <;> decide

theorem oneLine_line_iff : OneLine (w.line d).toList ↔ OneLine (w.fit d.message).toList := by
  have hcolon : OneLine ": ".toList := oneLine_ofList rfl
  have hopen : OneLine " (line ".toList := oneLine_ofList rfl
  have hcolumn : OneLine ", column ".toList := oneLine_ofList rfl
  have hclose : OneLine ")".toList := oneLine_ofList rfl
  unfold line
  cases d.span with
  | none => simp only [oneLine_toList_append, oneLine_name, hcolon, true_and]
  | some span =>
      simp only [oneLine_toList_append, oneLine_name, Text.oneLine_natural, hcolon, hopen, hcolumn,
        hclose, true_and, and_true]

theorem oneLine_rows (hmessage : OneLine d.message.toList)
    (hexpected : ∀ text ∈ d.expected, OneLine text.toList)
    (hhint : ∀ text ∈ d.hint, OneLine text.toList) : ∀ row ∈ w.rows d, OneLine row.toList := by
  have hcolumn : OneLine ", column ".toList := oneLine_ofList rfl
  refine List.forall_mem_cons.mpr ⟨?_, List.forall_mem_append.mpr
    ⟨List.forall_mem_append.mpr ⟨?_, ?_⟩, ?_⟩⟩
  · simp only [oneLine_toList_append]
    exact ⟨⟨⟨⟨oneLine_severity w _, oneLine_ofList rfl⟩, oneLine_name _⟩, oneLine_ofList rfl⟩,
      oneLine_fit hmessage⟩
  · cases d.span with
    | none => exact List.forall_mem_nil _
    | some span =>
        refine List.forall_mem_singleton.mpr ?_
        simp only [oneLine_toList_append]
        exact ⟨⟨⟨oneLine_ofList rfl, Text.oneLine_natural _⟩, hcolumn⟩, Text.oneLine_natural _⟩
  · split
    · exact List.forall_mem_nil _
    · exact List.forall_mem_singleton.mpr (oneLine_toList_append.mpr
        ⟨oneLine_ofList rfl, oneLine_intercalate (oneLine_ofList rfl) hexpected⟩)
  · intro row hrow
    obtain ⟨hint, hshown, rfl⟩ := Option.map_eq_some_iff.mp (Option.mem_toList.mp hrow)
    have hhinted : d.hint = some hint := (Option.filter_eq_some_iff.mp hshown).1
    exact oneLine_toList_append.mpr ⟨oneLine_ofList rfl, oneLine_fit (hhint hint hhinted)⟩

theorem keepsLines (hmessage : OneLine d.message.toList)
    (hexpected : ∀ text ∈ d.expected, OneLine text.toList)
    (hhint : ∀ text ∈ d.hint, OneLine text.toList) : w.KeepsLines d := by
  have hrows := oneLine_rows (w := w) hmessage hexpected hhint
  have hblock : (w.block d).toList.splitOn '\n' = (w.rows d).map String.toList := by
    rw [block_eq, String.toList_intercalate]
    refine List.splitOn_intercalate '\n' (fun row hrow => ?_) (by simp [rows])
    obtain ⟨text, htext, rfl⟩ := List.mem_map.mp hrow
    exact (hrows text htext).newline_not_mem
  refine ⟨oneLine_line_iff.mpr (oneLine_fit hmessage), hrows, hblock, ?_⟩
  rw [hblock, List.length_map, length_rows]

theorem not_oneLine_line (hwhole : w.truncate = false) (h : ¬ OneLine d.message.toList) :
    ¬ OneLine (w.line d).toList := by
  have hfit : w.fit d.message = d.message := by simp [fit, hwhole]
  rwa [oneLine_line_iff, hfit]

end FuzzFrontend.Diagnostic.Writer
