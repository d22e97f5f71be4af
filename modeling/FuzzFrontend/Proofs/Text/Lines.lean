import Mathlib.Data.List.Sort

namespace FuzzFrontend

variable {c : Char} {line : List Char} {lines : List (List Char)}

theorem splitOn_cons (c : Char) (text : List Char) :
    (c :: text).splitOn '\n' =
      if c = '\n' then [] :: text.splitOn '\n' else (text.splitOn '\n').modifyHead (c :: ·) := by
  simpa [List.splitOn] using
    List.splitOnP_cons_eq_if_modifyHead (p := (· == '\n')) c text

theorem exists_firstLine (text : List Char) :
    ∃ first later, text.splitOn '\n' = first :: later :=
  List.exists_cons_of_ne_nil (List.splitOn_ne_nil '\n' text)

theorem length_splitOn (text : List Char) :
    (text.splitOn '\n').length = text.count '\n' + 1 := by
  induction text with
  | nil => rfl
  | cons c text ih =>
      rw [splitOn_cons]
      by_cases hc : c = '\n'
      · simp [hc, ih]
      · simp [hc, ih]

/-- Text without a line break stands before the first line of what follows it. -/
theorem splitOn_append (h : '\n' ∉ line) (t : List Char) :
    (line ++ t).splitOn '\n' = (t.splitOn '\n').modifyHead (line ++ ·) := by
  induction line with
  | nil =>
      obtain ⟨first, later, hsplit⟩ := exists_firstLine t
      rw [List.nil_append, hsplit, List.modifyHead_cons, List.nil_append]
  | cons c line ih =>
      obtain ⟨first, later, hsplit⟩ := exists_firstLine t
      have hc : c ≠ '\n' := fun hc => h (hc ▸ List.mem_cons_self)
      rw [List.cons_append, splitOn_cons, if_neg hc, ih (List.not_mem_of_not_mem_cons h), hsplit,
        List.modifyHead_cons, List.modifyHead_cons, List.modifyHead_cons, List.cons_append]

theorem newline_not_mem_of_mem_splitOn {text : List Char} (h : line ∈ text.splitOn '\n') :
    '\n' ∉ line := by
  induction text generalizing line with
  | nil =>
      obtain rfl := List.mem_singleton.mp h
      exact List.not_mem_nil
  | cons c text ih =>
      obtain ⟨first, later, hsplit⟩ := exists_firstLine text
      rw [splitOn_cons, hsplit] at h
      rw [hsplit] at ih
      split at h
      · rcases List.mem_cons.mp h with rfl | h
        · exact List.not_mem_nil
        · exact ih h
      · rename_i hc
        rcases List.mem_cons.mp h with rfl | h
        · rw [List.mem_cons, not_or]
          exact ⟨Ne.symm hc, ih List.mem_cons_self⟩
        · exact ih (List.mem_cons_of_mem first h)

theorem splitOn_append_newline (s t : List Char) :
    (s ++ '\n' :: t).splitOn '\n' = s.splitOn '\n' ++ t.splitOn '\n' := by
  have hsplit : List.splitOnP (· == '\n') (s ++ '\n' :: t) =
      List.splitOnP (· == '\n') s ++ List.splitOnP (· == '\n') t :=
    List.splitOnP_append_cons s t rfl
  simpa [List.splitOn] using hsplit

theorem splitOn_join_cons (s : List Char) (hne : lines ≠ [])
    (h : ∀ line ∈ lines, '\n' ∉ line) :
    (['\n'].intercalate (s :: lines)).splitOn '\n' = s.splitOn '\n' ++ lines := by
  rw [List.intercalate_cons_of_ne_nil hne, List.append_assoc, List.singleton_append,
    splitOn_append_newline, List.splitOn_intercalate '\n' h hne]

theorem mem_intercalate {separator : List Char} (hc : c ∉ separator) :
    c ∈ separator.intercalate lines ↔ ∃ line ∈ lines, c ∈ line := by
  induction lines with
  | nil => simp
  | cons line lines ih =>
      cases lines with
      | nil => simp
      | cons next lines =>
          rw [List.intercalate_cons_cons, List.mem_append, List.mem_append, ih]
          simp [hc]

end FuzzFrontend
