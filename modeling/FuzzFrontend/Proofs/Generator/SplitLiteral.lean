import FuzzFrontend.Proofs.Diagnostic.Wording
import FuzzFrontend.Proofs.Generator.Shape

namespace FuzzFrontend

open Scan

/-- A sign, blanks with a line break among them, and digits with what they run into. -/
def SplitLiteral (text : List Char) : Prop :=
  ∃ blanks digits, text = '-' :: (blanks ++ digits) ∧ (∀ c ∈ blanks, isBlank c = true) ∧
    ¬ OneLine blanks ∧ digits.head?.any Char.isDigit = true ∧
      ∀ c ∈ digits, Generator.Grammar.runsOn c = true

theorem SplitLiteral.not_oneLine {text : List Char} (h : SplitLiteral text) : ¬ OneLine text := by
  obtain ⟨blanks, digits, rfl, -, hbreak, -⟩ := h
  exact fun hline => hbreak (oneLine_append.mp (oneLine_cons.mp hline).2).1

/-- The problem is that of a literal that is split into lines. -/
def Problem.SplitsLiteral (what : Problem) : Prop :=
  what.category = .constantValue ∧ ∃ text ∈ what.found, SplitLiteral text.toList

theorem Problem.SplitsLiteral.not_onOneLine {what : Problem} (h : what.SplitsLiteral) :
    ¬ what.OnOneLine := by
  obtain ⟨hcategory, text, hfound, hsplit⟩ := h
  intro hline
  cases what with
  | constantOutOfRange literal =>
      cases hfound
      exact hsplit.not_oneLine (hline _ List.mem_cons_self)
  | constantMalformed literal =>
      cases hfound
      exact hsplit.not_oneLine (hline _ List.mem_cons_self)
  | _ => cases hcategory

theorem Problem.onOneLine_or_split {what : Problem} {text : String}
    (hcategory : what.category = .constantValue) (hfound : what.found = some text)
    (hrepeated : what.repeated = [text]) (h : OneLine text.toList ∨ SplitLiteral text.toList) :
    what.OnOneLine ∨ what.SplitsLiteral := by
  refine h.imp (fun hline => ?_) fun hsplit => ⟨hcategory, text, hfound, hsplit⟩
  rw [OnOneLine, hrepeated]
  exact List.forall_mem_singleton.mpr hline

namespace Generator.Grammar

theorem oneLine_of_runsOn {t : List Char} (h : ∀ c ∈ t, runsOn c = true) : OneLine t := by
  intro c hc
  constructor <;> rintro rfl <;> exact absurd (h _ hc) (by decide)

theorem oneLine_or_split {s rest : Input} (hs : Plain s) {digits : List Char}
    (h : (sign s).2.chars = digits ++ rest.chars) (hdigit : digits.head?.any Char.isDigit = true)
    (hdigits : ∀ c ∈ digits, runsOn c = true) :
    OneLine (upTo s rest).toList ∨ SplitLiteral (upTo s rest).toList := by
  have hline := oneLine_of_runsOn hdigits
  unfold sign at h
  split at h
  · rename_i hhead
    obtain ⟨t, ht⟩ := List.head?_eq_some_iff.mp hhead
    have hafter : t.dropWhile isBlank = digits ++ rest.chars := by
      have hchars : (s.chars.drop 1).dropWhile isBlank = digits ++ rest.chars := h
      rwa [ht] at hchars
    have hsplit : (t.takeWhile isBlank ++ digits) ++ rest.chars = t := by
      rw [List.append_assoc, ← hafter, List.takeWhile_append_dropWhile]
    have htext : upTo s rest = String.ofList ('-' :: (t.takeWhile isBlank ++ digits)) :=
      upTo_of_append hs (ht.trans (congrArg ('-' :: ·) hsplit.symm))
    rw [htext, String.toList_ofList]
    by_cases hblanks : OneLine (t.takeWhile isBlank)
    · exact Or.inl (oneLine_cons.mpr ⟨by decide, oneLine_append.mpr ⟨hblanks, hline⟩⟩)
    · exact Or.inr ⟨_, digits, rfl, List.all_eq_true.mp List.all_takeWhile, hblanks, hdigit,
        hdigits⟩
  · rw [upTo_of_append hs h, String.toList_ofList]
    exact Or.inl hline

theorem literal_oneLine_or_split {s rest : Input} (hs : Plain s)
    (hdigits : isDigits ((sign s).2.chars.takeWhile Char.isDigit) = true) {runs : List Char}
    (h : ((sign s).2.dropWhile Char.isDigit).chars = runs ++ rest.chars)
    (hruns : ∀ c ∈ runs, runsOn c = true) :
    OneLine (upTo s rest).toList ∨ SplitLiteral (upTo s rest).toList := by
  have hsplit := List.takeWhile_append_dropWhile (p := Char.isDigit) (l := (sign s).2.chars)
  have hchars : (sign s).2.chars =
      ((sign s).2.chars.takeWhile Char.isDigit ++ runs) ++ rest.chars := by
    rw [List.append_assoc, ← h]
    exact hsplit.symm
  refine oneLine_or_split hs hchars ?_ fun c hc => ?_
  · obtain ⟨d, ds, hcons, hd⟩ := isDigit_head_of_isDigits hdigits
    rw [hcons]
    exact hd
  · rcases List.mem_append.mp hc with hc | hc
    · have hdigit := (isDigits_iff.mp hdigits).2 c hc
      simp [runsOn, isWordChar_of_isDigit hdigit]
    · exact hruns c hc

end Generator.Grammar

end FuzzFrontend
