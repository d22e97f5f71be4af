import FuzzFrontend.Proofs.Scan.Remainder

namespace FuzzFrontend

open Scan

/-- The part of a text after its last line break. -/
def lastLine (text : List Char) : List Char :=
  (text.reverse.takeWhile (· != '\n')).reverse

theorem exists_lines_above (text : List Char) :
    ∃ above, text = above ++ lastLine text ∧ ∀ c ∈ above.getLast?, c = '\n' := by
  refine ⟨(text.reverse.dropWhile (· != '\n')).reverse, ?_, ?_⟩
  · rw [lastLine, ← List.reverse_append, List.takeWhile_append_dropWhile, List.reverse_reverse]
  · intro c hc
    rw [List.getLast?_reverse] at hc
    have hhead := List.head?_dropWhile_not (· != '\n') text.reverse
    rw [Option.mem_def.mp hc] at hhead
    simpa using hhead

theorem newline_not_mem_lastLine (text : List Char) : '\n' ∉ lastLine text := by
  intro h
  have hline := List.all_eq_true.mp List.all_takeWhile '\n' (List.mem_reverse.mp h)
  simp at hline

variable {before after : List Char}

theorem Cursor.before_append : (⟨before ++ after, before.length⟩ : Cursor).before = before := by
  have hpos : ¬ (before.length : Int) < 0 := by omega
  simp [Cursor.before, Text.slice, Text.boundIndex, hpos]

theorem Cursor.line_append :
    (⟨before ++ after, before.length⟩ : Cursor).line = before.count '\n' + 1 := by
  rw [Cursor.line, Cursor.before_append]

theorem Cursor.column_append :
    (⟨before ++ after, before.length⟩ : Cursor).column = (lastLine before).length + 1 := by
  simp only [Cursor.column, Cursor.before_append, lastLine, List.length_reverse]
  omega

theorem Cursor.reaching_append {rest : Input} :
    (⟨before ++ rest.chars, 0⟩ : Cursor).reaching rest = ⟨before ++ rest.chars, before.length⟩ := by
  simp only [Cursor.reaching, Input.length, Cursor.mk.injEq, true_and, List.length_append]
  omega

theorem Cursor.spanTo_append (before after : List Char) (width : Nat) :
    ∃ span, (⟨before ++ after, before.length⟩ : Cursor).spanTo (before.length + width) = .ok span ∧
      span.start = before.length ∧ span.stop = before.length + width ∧
        span.line = before.count '\n' + 1 ∧ span.column = (lastLine before).length + 1 := by
  unfold Cursor.spanTo Span.ofInts
  rw [Cursor.line_append, Cursor.column_append]
  dsimp only
  rw [dif_neg (by omega), dif_neg (by omega), dif_neg (by omega), dif_neg (by omega)]
  refine ⟨_, rfl, ?_⟩
  dsimp only
  refine ⟨by omega, by omega, by omega, by omega⟩

/-- The problem is told with the place of what it is about: the span lies in the source, and its
line and column are those of its start. The text that is shown is the text of the span; nothing is
left at a span where the source is said to have ended; and the message with an excerpt, which goes
with a problem of the grammar, says the same of the same place. -/
structure Scan.Located.PointsInto (source : List Char) (l : Located) : Prop where
  span : l.diagnostic.span = some l.span
  start_le_stop : l.span.start ≤ l.span.stop
  stop_le_length : l.span.stop ≤ source.length
  line : l.span.line = (source.take l.span.start).count '\n' + 1
  column : ∃ above onLine, source.take l.span.start = above ++ onLine ∧
    (∀ c ∈ above.getLast?, c = '\n') ∧ '\n' ∉ onLine ∧ l.span.column = onLine.length + 1
  found : ∀ text ∈ l.diagnostic.found,
    (source.take l.span.stop).drop l.span.start = text.toList
  unexpectedToken : l.diagnostic.code = .unexpectedToken →
    l.span.start < source.length ∧ ∃ text ∈ l.diagnostic.found, text ≠ ""
  unexpectedEnd : l.diagnostic.code = .unexpectedEnd →
    l.span.start = source.length ∧ l.span.stop = source.length
  grammar : l.what.category = .grammar →
    l.sourceError.message = l.diagnostic.message ∧ l.sourceError.cursor = ⟨source, l.span.start⟩

theorem Scan.Located.pointsInto_of_fits {rest : Input} {what : Problem} {span : Span}
    (wanted : List String) (hfits : what.Fits rest) (hstart : span.start = before.length)
    (hstop : span.stop = before.length + (what.found.getD "").length)
    (hline : span.line = before.count '\n' + 1)
    (hcolumn : span.column = (lastLine before).length + 1) :
    Located.PointsInto (before ++ rest.chars)
      ⟨what, span, ⟨before ++ rest.chars, before.length⟩, wanted⟩ := by
  have hbefore : (before ++ rest.chars).take span.start = before := by
    rw [hstart, List.take_left]
  have hwidth : (what.found.getD "").length ≤ rest.chars.length := by
    cases hfound : what.found with
    | none => exact Nat.zero_le _
    | some text => exact (hfits.found text hfound).length_le
  constructor
  case span => rfl
  case start_le_stop => exact span.start_le_stop
  case stop_le_length =>
    rw [List.length_append, hstop]
    omega
  case line => rw [hbefore, hline]
  case column =>
    obtain ⟨above, habove, hbreak⟩ := exists_lines_above before
    rw [hbefore]
    exact ⟨above, _, habove, hbreak, newline_not_mem_lastLine before, hcolumn⟩
  case found =>
    intro text htext
    obtain ⟨t, ht⟩ := hfits.found text htext
    have hfound : what.found = some text := htext
    have hlength : (what.found.getD "").length = text.toList.length := by
      rw [hfound]
      rfl
    rw [hstart, hstop, hlength, ← ht, ← List.append_assoc, ← List.length_append, List.take_left,
      List.drop_left]
  case unexpectedToken =>
    intro hcode
    obtain ⟨text, htext, hne⟩ := hfits.token hcode
    have hpos : text.toList.length ≠ 0 := by simpa using hne
    have hlength := (hfits.found text htext).length_le
    refine ⟨?_, text, htext, hne⟩
    rw [hstart, List.length_append]
    omega
  case unexpectedEnd =>
    intro hcode
    rw [hfits.atEnd hcode] at hwidth ⊢
    rw [hstart, hstop, List.append_nil]
    exact ⟨rfl, by simpa using hwidth⟩
  case grammar =>
    intro _
    rw [hstart]
    exact ⟨rfl, rfl⟩

theorem Scan.exists_located {source : List Char} {rest : Input} {what : Problem}
    (wanted : List String) (hrest : rest.EndOf source) (hfits : what.Fits rest) :
    ∃ l : Located, (Fault.problem rest what wanted).locate ⟨source, 0⟩ = .located l ∧
      l.what = what ∧ l.PointsInto source := by
  obtain ⟨before, rfl⟩ := hrest.suffix
  obtain ⟨span, hspan, hstart, hstop, hline, hcolumn⟩ :=
    Cursor.spanTo_append before rest.chars (what.found.getD "").length
  refine ⟨⟨what, span, ⟨before ++ rest.chars, before.length⟩, wanted⟩, ?_, rfl, ?_⟩
  · simp only [Fault.locate, Cursor.reaching_append, hspan]
  · exact Located.pointsInto_of_fits wanted hfits hstart hstop hline hcolumn

/-- A fault about the source is located as a problem at its place, or it is a numeral of too many
digits. -/
theorem Scan.Fault.locate_of_about {source : List Char} {families : List Problem.Category}
    {broken : Problem → Prop} {e : Fault} (h : e.About source families broken) :
    (∃ l : Located, e.locate ⟨source, 0⟩ = .located l ∧ l.what.category ∈ families ∧
      (l.what.OnOneLine ∨ broken l.what) ∧ l.PointsInto source) ∨
    ∃ digits, digits <:+: source ∧ isDigits digits = true ∧
      Text.maxNumeralDigits < digits.length ∧
        e.locate ⟨source, 0⟩ = .numeral (.tooLong digits.length) := by
  cases e with
  | problem rest what wanted =>
      obtain ⟨hrest, hfits, hfamily, hline⟩ := h
      obtain ⟨l, hl, rfl, hpoints⟩ := exists_located wanted hrest hfits
      exact Or.inl ⟨l, hl, hfamily, hline, hpoints⟩
  | numeral fault =>
      obtain ⟨digits, hwithin, hdigits, hlong, rfl⟩ := h
      exact Or.inr ⟨digits, hwithin, hdigits, hlong, rfl⟩
  | constant fault => exact absurd h id

end FuzzFrontend
