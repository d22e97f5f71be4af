import Mathlib.Algebra.GroupWithZero.Nat
import FuzzFrontend.Proofs.Scan.Place
import FuzzFrontend.Proofs.Text.OneLine

namespace FuzzFrontend

section Lines

theorem lines_eq_splitOn (text : List Char) : SourceError.lines text = text.splitOn '\n' := by
  induction text with
  | nil => rfl
  | cons c text ih =>
      obtain ⟨first, later, hsplit⟩ := exists_firstLine text
      unfold SourceError.lines at ih ⊢
      rw [List.foldr_cons, ih, splitOn_cons, hsplit, List.modifyHead_cons]

theorem sum_length_splitOn (text : List Char) :
    ((text.splitOn '\n').map fun line => line.length + 1).sum = text.length + 1 := by
  induction text with
  | nil => rfl
  | cons c text ih =>
      obtain ⟨first, later, hsplit⟩ := exists_firstLine text
      rw [splitOn_cons, hsplit]
      rw [hsplit, List.map_cons, List.sum_cons] at ih
      split
      · rw [List.map_cons, List.sum_cons, List.map_cons, List.sum_cons, ih, List.length_nil,
          List.length_cons]
        omega
      · rw [List.modifyHead_cons, List.map_cons, List.sum_cons, List.length_cons, List.length_cons]
        omega

/-- Some lines end before the last line of a text starts, whatever follows the text. -/
theorem exists_linesAbove (before : List Char) :
    ∃ above : List (List Char), above.length = before.count '\n' ∧
      (above.map fun line => line.length + 1).sum + (lastLine before).length = before.length ∧
        ∀ after, (before ++ after).splitOn '\n' =
          above ++ (after.splitOn '\n').modifyHead (lastLine before ++ ·) := by
  obtain ⟨text, htext, hbreak⟩ := exists_lines_above before
  have hline := newline_not_mem_lastLine before
  generalize lastLine before = line at htext hline
  subst htext
  rcases List.eq_nil_or_concat text with rfl | ⟨lines, c, rfl⟩
  · refine ⟨[], ?_, by simp, fun after => ?_⟩
    · simpa using (List.count_eq_zero.mpr hline).symm
    · simpa using splitOn_append hline after
  · obtain rfl : c = '\n' := hbreak c (by simp)
    refine ⟨lines.splitOn '\n', ?_, ?_, fun after => ?_⟩
    · simp [length_splitOn, List.count_eq_zero.mpr hline]
    · rw [List.concat_eq_append, List.length_append, List.length_append, sum_length_splitOn]
      rfl
    · rw [← splitOn_append hline, ← splitOn_append_newline]
      simp

end Lines

section Places

/-- The offset is that of a character of the line, or of the end of the line. -/
structure IsPlace (source : List Char) (pos line column : Nat) : Prop where
  line_pos : 1 ≤ line
  column_pos : 1 ≤ column
  onLine : ∃ text, (source.splitOn '\n')[line - 1]? = some text ∧ column ≤ text.length + 1
  offset : pos =
    (((source.splitOn '\n').take (line - 1)).map fun text => text.length + 1).sum + (column - 1)

theorem Cursor.isPlace_append (before after : List Char) :
    IsPlace (before ++ after) before.length (⟨before ++ after, before.length⟩ : Cursor).line
      ((lastLine before).length + 1) := by
  obtain ⟨above, hlength, hsum, hsplit⟩ := exists_linesAbove before
  obtain ⟨first, later, hfirst⟩ := exists_firstLine after
  rw [Cursor.line_append, ← hlength]
  constructor
  case line_pos => omega
  case column_pos => omega
  case onLine =>
    refine ⟨lastLine before ++ first, ?_, ?_⟩
    · simp [hsplit, hfirst]
    · rw [List.length_append]
      omega
  case offset =>
    rw [hsplit, Nat.add_sub_cancel, List.take_left]
    omega

theorem Cursor.isPlace {source : List Char} {pos : Nat} (h : pos ≤ source.length) :
    ∃ column : Nat, (⟨source, pos⟩ : Cursor).column = column ∧
      IsPlace source pos (⟨source, pos⟩ : Cursor).line column := by
  have hlength : (source.take pos).length = pos := List.length_take_of_le h
  have hplace := Cursor.isPlace_append (source.take pos) (source.drop pos)
  have hcolumn := @Cursor.column_append (source.take pos) (source.drop pos)
  rw [List.take_append_drop, hlength] at hplace hcolumn
  exact ⟨_, hcolumn, hplace⟩

end Places

section Rows

/-- A line of the source behind its number, which ends in the fourth column or later. -/
def numberedRow (n : Nat) (text : List Char) : List Char :=
  (Text.decimalDigits n).leftpad 4 ' ' ++ ' ' :: '|' :: ' ' :: text

/-- Blanks where the number of the line would stand, and a caret in the given column. -/
def caretRow (n column : Nat) : List Char :=
  List.replicate (max 4 (Text.decimalDigits n).length) ' ' ++
    ' ' :: '|' :: ' ' :: (List.replicate (column - 1) ' ' ++ ['^'])

/-- The rows for the lines of the source at most so many lines away. -/
def excerptRows (source : List Char) (line column context : Nat) : List (List Char) :=
  let lines := source.splitOn '\n'
  let first := max 1 (line - context)
  let last := min lines.length (line + context)
  (List.range' first (last + 1 - first)).flatMap fun n =>
    numberedRow n (lines[n - 1]?.getD []) :: if n = line then [caretRow n column] else []

theorem SourceError.rows_eq {e : SourceError} {column : Nat} (hcolumn : e.cursor.column = column)
    (n : Nat) (text : List Char) :
    e.rows n text =
      numberedRow n text :: if n = e.cursor.line then [caretRow n column] else [] := by
  have hlength : (lineLabel n).length = max 4 (Text.decimalDigits n).length :=
    List.length_leftpad
  have hindent : (e.cursor.column - 1).toNat = column - 1 := by omega
  have hshown : lineLabel n ++ ' ' :: '|' :: ' ' :: text = numberedRow n text := rfl
  unfold rows
  dsimp only
  rw [hlength, hindent, hshown]
  split
  · simp [caretRow, List.replicate_succ']
  · rfl

theorem zipIdx_eq_map (lines : List (List Char)) :
    lines.zipIdx 1 = (List.range' 1 lines.length).map fun n => (lines[n - 1]?.getD [], n) := by
  apply List.ext_getElem
  · simp
  · intro i h₁ h₂
    have hi : i < lines.length := by simpa using h₁
    simp [hi, Nat.add_comm]

theorem filter_range' (length line context : Nat) :
    ((List.range' 1 length).filter fun n : Nat =>
        decide ((line : Int) - context ≤ n) && decide ((n : Int) ≤ line + context)) =
      List.range' (max 1 (line - context))
        (min length (line + context) + 1 - max 1 (line - context)) := by
  have hsorted := List.pairwise_lt_range' (s := 1) (n := length)
  refine List.Pairwise.eq_of_mem_iff (r := (· < ·)) (hsorted.filter _) List.pairwise_lt_range' ?_
  intro n
  simp only [List.mem_filter, List.mem_range'_1, Bool.and_eq_true, decide_eq_true_eq]
  omega

theorem SourceError.excerpt_eq {e : SourceError} {column : Nat} (hcolumn : e.cursor.column = column)
    (context : Nat) :
    e.excerpt context = "\n".intercalate (e.headline :: "" ::
      (excerptRows e.cursor.source e.cursor.line column context).map String.ofList) := by
  have hrows : (fun n : Nat => e.rows n ((e.cursor.source.splitOn '\n')[n - 1]?.getD [])) =
      fun n => numberedRow n ((e.cursor.source.splitOn '\n')[n - 1]?.getD []) ::
        if n = e.cursor.line then [caretRow n column] else [] :=
    funext fun n => rows_eq hcolumn n _
  unfold excerpt excerptRows
  dsimp only
  rw [lines_eq_splitOn, zipIdx_eq_map, List.filter_map, List.flatMap_map]
  simp only [Function.comp_def]
  rw [filter_range', hrows]

theorem newline_not_mem_of_mem_excerptRows {source row : List Char} {line column context : Nat}
    (h : row ∈ excerptRows source line column context) : '\n' ∉ row := by
  obtain ⟨n, -, hrow⟩ := List.mem_flatMap.mp h
  rcases List.mem_cons.mp hrow with rfl | hrow
  · have htext : '\n' ∉ (source.splitOn '\n')[n - 1]?.getD [] := by
      cases hget : (source.splitOn '\n')[n - 1]? with
      | none => exact List.not_mem_nil
      | some text => exact newline_not_mem_of_mem_splitOn (List.mem_of_getElem? hget)
    simp [numberedRow, List.leftpad, (Text.oneLine_decimalDigits n).newline_not_mem, htext]
  · split at hrow
    · obtain rfl := List.mem_singleton.mp hrow
      simp [caretRow]
    · cases hrow

theorem newline_mem_headline (e : SourceError) :
    '\n' ∈ e.headline.toList ↔
      '\n' ∈ e.message.toList ∨ ∃ text ∈ e.expected, '\n' ∈ text.toList := by
  have hline := (Text.oneLine_natural e.cursor.line).newline_not_mem
  have hcolumn := (Text.oneLine_integer e.cursor.column).newline_not_mem
  have hexpected : '\n' ∈ [',', ' '].intercalate (e.expected.map String.toList) ↔
      ∃ text ∈ e.expected, '\n' ∈ text.toList := by
    rw [mem_intercalate (by decide)]
    simp
  unfold SourceError.headline
  dsimp only
  cases he : e.expected with
  | nil => simp [hline, hcolumn]
  | cons text later =>
      rw [he] at hexpected
      simp only [List.map_cons] at hexpected
      simp [hline, hcolumn, hexpected]

theorem getElem?_append_singleton_iff {a : Char} {s : List Char} (h : a ∉ s) (i : Nat) :
    (s ++ [a])[i]? = some a ↔ i = s.length := by
  constructor
  · intro hget
    rcases Nat.lt_or_ge i s.length with hlt | hge
    · rw [List.getElem?_append_left hlt] at hget
      exact absurd (List.mem_of_getElem? hget) h
    · have hi := (List.getElem?_eq_some_iff.mp hget).1
      rw [List.length_append, List.length_singleton] at hi
      omega
  · rintro rfl
    simp

/-- How many characters stand before the first one of a line. -/
def margin (n : Nat) : Nat :=
  max 4 (Text.decimalDigits n).length + 3

theorem numberedRow_getElem? (n i : Nat) (text : List Char) :
    (numberedRow n text)[margin n + i]? = text[i]? := by
  have hmargin : ((Text.decimalDigits n).leftpad 4 ' ' ++ [' ', '|', ' ']).length = margin n := by
    rw [List.length_append, List.length_leftpad]
    rfl
  have hrow : numberedRow n text =
      ((Text.decimalDigits n).leftpad 4 ' ' ++ [' ', '|', ' ']) ++ text := by simp [numberedRow]
  rw [hrow, List.getElem?_append_right (by omega), hmargin, Nat.add_sub_cancel_left]

theorem caretRow_getElem?_eq_caret_iff (n column i : Nat) :
    (caretRow n column)[i]? = some '^' ↔ i = margin n + (column - 1) := by
  have hrow : caretRow n column = (List.replicate (max 4 (Text.decimalDigits n).length) ' ' ++
      ' ' :: '|' :: ' ' :: List.replicate (column - 1) ' ') ++ ['^'] := by simp [caretRow]
  rw [hrow, getElem?_append_singleton_iff (by simp)]
  simp [margin]
  omega

end Rows

/-- The excerpt tells the place of an offset and shows it. -/
structure SourceError.ShowsPlace (e : SourceError) (pos column context : Nat) : Prop where
  cursorColumn : e.cursor.column = column
  place : IsPlace e.cursor.source pos e.cursor.line column
  headline : e.headline =
    Text.natural e.cursor.line ++ ":" ++ Text.natural column ++ ": " ++ e.message ++
      if e.expected = [] then "" else " (expected: " ++ ", ".intercalate e.expected ++ ")"
  headlineBreaks : '\n' ∈ e.headline.toList ↔
    '\n' ∈ e.message.toList ∨ ∃ text ∈ e.expected, '\n' ∈ text.toList
  joined : e.excerpt context = "\n".intercalate (e.headline :: "" ::
    (excerptRows e.cursor.source e.cursor.line column context).map String.ofList)
  rows : (e.excerpt context).toList.splitOn '\n' = e.headline.toList.splitOn '\n' ++
    [] :: excerptRows e.cursor.source e.cursor.line column context
  shown : ∀ (text : List Char) (i : Nat),
    (numberedRow e.cursor.line text)[margin e.cursor.line + i]? = text[i]?
  caret : ∀ i : Nat, (caretRow e.cursor.line column)[i]? = some '^' ↔
    i = margin e.cursor.line + (column - 1)

theorem SourceError.showsPlace_of_isPlace {e : SourceError} {pos column : Nat}
    (hcolumn : e.cursor.column = column) (hplace : IsPlace e.cursor.source pos e.cursor.line column)
    (context : Nat) : e.ShowsPlace pos column context := by
  constructor
  case cursorColumn => exact hcolumn
  case place => exact hplace
  case headline =>
    have hinteger : Text.integer e.cursor.column = Text.natural column := by
      rw [hcolumn]
      rfl
    unfold headline
    simp only [hinteger, List.isEmpty_iff, String.append_assoc]
  case headlineBreaks => exact newline_mem_headline e
  case joined => exact excerpt_eq hcolumn context
  case rows =>
    rw [excerpt_eq hcolumn, String.toList_intercalate, List.map_cons, List.map_cons,
      List.map_map]
    have hnone : ∀ row ∈ [] :: excerptRows e.cursor.source e.cursor.line column context,
        '\n' ∉ row :=
      List.forall_mem_cons.mpr
        ⟨List.not_mem_nil, fun row hrow => newline_not_mem_of_mem_excerptRows hrow⟩
    simpa using splitOn_join_cons e.headline.toList (List.cons_ne_nil _ _) hnone
  case shown => exact fun text i => numberedRow_getElem? _ i text
  case caret => exact caretRow_getElem?_eq_caret_iff _ column

/-- An excerpt shows the place of every offset, and places tell offsets apart. -/
theorem excerpt_shows_place {source : List Char} {pos : Nat} (h : pos ≤ source.length)
    (message : String) (expected : List String) (context : Nat) :
    (∃ column : Nat,
      SourceError.ShowsPlace ⟨message, ⟨source, pos⟩, expected⟩ pos column context) ∧
      ∀ pos' : Nat, pos' ≤ source.length →
        (⟨source, pos'⟩ : Cursor).line = (⟨source, pos⟩ : Cursor).line →
        (⟨source, pos'⟩ : Cursor).column = (⟨source, pos⟩ : Cursor).column → pos' = pos := by
  obtain ⟨column, hcolumn, hplace⟩ := Cursor.isPlace h
  refine ⟨⟨column, SourceError.showsPlace_of_isPlace hcolumn hplace context⟩, ?_⟩
  intro pos' h' hline hsame
  obtain ⟨column', hcolumn', hplace'⟩ := Cursor.isPlace h'
  have heq : column' = column := by
    rw [hcolumn, hcolumn'] at hsame
    exact Int.ofNat.inj hsame
  rw [hplace'.offset, hplace.offset, hline, heq]

/-- The caret stands in the second of two lines, behind the word that a name should follow. -/
theorem excerpt_shows_place_name :
    let source := "struct A \x7b \x7d\nstruct \x7b \x7d".toList
    let e : SourceError := ⟨"Expected identifier", ⟨source, (20 : Nat)⟩, []⟩
    20 ≤ source.length ∧ e.ShowsPlace 20 8 2 ∧ e.excerpt 2 =
      "2:8: Expected identifier\n\n" ++
        "   1 | struct A \x7b \x7d\n   2 | struct \x7b \x7d\n     |        ^" := by
  dsimp only
  have hlength : 20 ≤ "struct A \x7b \x7d\nstruct \x7b \x7d".toList.length := by decide
  refine ⟨hlength, ?_, by with_unfolding_all rfl⟩
  obtain ⟨⟨column, hshows⟩, -⟩ := excerpt_shows_place hlength "Expected identifier" [] 2
  have heq : (column : Int) = (8 : Nat) := hshows.cursorColumn.symm.trans (by decide)
  obtain rfl : column = 8 := Int.ofNat.inj heq
  exact hshows

end FuzzFrontend
