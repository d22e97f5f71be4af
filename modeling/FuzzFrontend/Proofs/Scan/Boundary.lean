import FuzzFrontend.Scan.Rule

/-!
Where lexemes start and end. A lexeme is read whole when the text after it cannot run on; the
conditions on that text are stated here once, and every rule of the grammars refers to them.
-/
namespace FuzzFrontend.Scan

/-- Nothing but blanks. -/
abbrev Blank (s : List Char) : Prop :=
  ∀ c ∈ s, isBlank c = true

structure Gap (s : List Char) : Prop where
  blank : Blank s
  ne_nil : s ≠ []

/-- The text starts with a character that is not a blank. -/
def solid : List Char → Bool
  | [] => false
  | c :: _ => !isBlank c

/-- The text does not run on a word that stands before it, and makes no keyword of it. -/
def apart : List Char → Bool
  | [] => true
  | c :: _ => !isWordChar c && c != ':'

theorem blank_nil : Blank [] := by
  intro c hc
  cases hc

theorem blank_of_all {s : List Char} (h : s.all isBlank = true) : Blank s :=
  List.all_eq_true.mp h

theorem blank_append {s t : List Char} (hs : Blank s) (ht : Blank t) : Blank (s ++ t) := by
  intro c hc
  rcases List.mem_append.mp hc with hc | hc
  · exact hs c hc
  · exact ht c hc

theorem gap_space : Gap [' '] :=
  ⟨by intro c hc; rw [List.mem_singleton.mp hc]; rfl, by simp⟩

theorem gap_newline : Gap ['\n'] :=
  ⟨by intro c hc; rw [List.mem_singleton.mp hc]; rfl, by simp⟩

theorem eq_of_isBlank {c : Char} (h : isBlank c = true) :
    c = ' ' ∨ c = '\t' ∨ c = '\n' ∨ c = '\r' := by
  simpa [isBlank, or_assoc] using h

theorem isWordChar_of_isBlank {c : Char} (h : isBlank c = true) : isWordChar c = false := by
  rcases eq_of_isBlank h with rfl | rfl | rfl | rfl <;> rfl

theorem isWordChar_of_isWordStart {c : Char} (h : isWordStart c = true) :
    isWordChar c = true := by
  simp only [isWordStart] at h
  simp [isWordChar, Char.isAlphanum, h]

theorem isWordChar_of_isDigit {c : Char} (h : c.isDigit = true) : isWordChar c = true := by
  simp [isWordChar, Char.isAlphanum, h]

theorem isBlank_of_isWordChar {c : Char} (h : isWordChar c = true) : isBlank c = false := by
  cases hb : isBlank c with
  | false => rfl
  | true =>
      rw [isWordChar_of_isBlank hb] at h
      exact absurd h Bool.false_ne_true

theorem le_toNat_of_isWordStart {c : Char} (h : isWordStart c = true) : 65 ≤ c.toNat := by
  rcases Bool.or_eq_true_iff.mp h with hupper | hlower
  · have hge : 'A'.val ≤ c.val := (of_decide_eq_true hupper).1
    exact hge
  · have hge : 'a'.val ≤ c.val := of_decide_eq_true (Bool.and_eq_true_iff.mp hlower).1
    have hge : 97 ≤ c.toNat := hge
    omega

theorem isDigit_of_isWordStart {c : Char} (h : isWordStart c = true) : c.isDigit = false := by
  refine Bool.eq_false_iff.mpr fun hdigit => ?_
  have hge := le_toNat_of_isWordStart h
  have hle : c.toNat ≤ 57 := (Char.isDigit_iff_toNat.mp hdigit).2
  omega

theorem dropWhile_blank_append {b : List Char} (hb : Blank b) (cs : List Char) :
    (b ++ cs).dropWhile isBlank = cs.dropWhile isBlank :=
  List.dropWhile_append_of_pos hb

theorem dropWhile_of_solid {cs : List Char} (h : solid cs = true) : cs.dropWhile isBlank = cs := by
  cases cs with
  | nil => rfl
  | cons c cs =>
      have hc : isBlank c = false := by simpa [solid] using h
      simp [hc]

theorem solid_append {s : List Char} (h : solid s = true) (t : List Char) :
    solid (s ++ t) = true := by
  cases s with
  | nil => simp [solid] at h
  | cons c s => exact h

theorem dropWhile_solid_append {s : List Char} (h : solid s = true) (t : List Char) :
    (s ++ t).dropWhile isBlank = s ++ t :=
  dropWhile_of_solid (solid_append h t)

theorem apart_of_gap {g : List Char} (hg : Gap g) (r : List Char) : apart (g ++ r) = true := by
  cases g with
  | nil => exact absurd rfl hg.ne_nil
  | cons c g =>
      have hc : isBlank c = true := hg.blank c List.mem_cons_self
      rcases eq_of_isBlank hc with rfl | rfl | rfl | rfl <;> rfl

theorem apart_blank_append {b r : List Char} (hb : Blank b) (hr : apart r = true) :
    apart (b ++ r) = true := by
  cases b with
  | nil => exact hr
  | cons c b => exact apart_of_gap ⟨hb, List.cons_ne_nil c b⟩ r

theorem head?_of_apart {r : List Char} (h : apart r = true) :
    r.head?.any isWordChar = false := by
  cases r with
  | nil => rfl
  | cons c r => simpa using (Bool.and_eq_true_iff.mp h).1

theorem length_lt_of_dropWhile {cs t r : List Char} (hcs : cs.dropWhile isBlank = t ++ r)
    (ht : t ≠ []) : r.length < cs.length := by
  have hle : (cs.dropWhile isBlank).length ≤ cs.length := (List.dropWhile_suffix isBlank).length_le
  have hpos := List.length_pos_iff.mpr ht
  rw [hcs, List.length_append] at hle
  omega

theorem prefix_of_prefix_append {k w r : List Char} {c : Char} (hk : c ∉ k)
    (h : k <+: w ++ c :: r) : k <+: w := by
  rcases List.prefix_or_prefix_of_prefix h (List.prefix_append w (c :: r)) with hkw | ⟨m, rfl⟩
  · exact hkw
  · cases m with
    | nil => simp
    | cons d m =>
        have hd : d = c := by
          have := List.prefix_append_right_inj w |>.mp h
          exact (List.cons_prefix_cons.mp this).1
        exact absurd (by simp [hd]) hk

theorem findSome?_eq_of_unique {α β : Type} {f : α → Option β} {xs : List α} {x : α} {b : β}
    (hx : x ∈ xs) (hb : f x = some b) (hother : ∀ y ∈ xs, y ≠ x → f y = none) :
    xs.findSome? f = some b := by
  induction xs with
  | nil => cases hx
  | cons y ys ih =>
      by_cases hy : y = x
      · rw [List.findSome?_cons, hy, hb]
      · rw [List.findSome?_cons, hother y List.mem_cons_self hy]
        apply ih
        · exact (List.mem_cons.mp hx).resolve_left (Ne.symm hy)
        · exact fun z hz => hother z (List.mem_cons_of_mem _ hz)

section Words

theorem solid_of_isWord {w : List Char} (h : isWord w = true) : solid w = true := by
  cases w with
  | nil => simp [isWord] at h
  | cons c w =>
      have hc := (Bool.and_eq_true_iff.mp h).1
      simp [solid, isBlank_of_isWordChar (isWordChar_of_isWordStart hc)]

theorem ne_nil_of_isWord {w : List Char} (h : isWord w = true) : w ≠ [] := by
  rintro rfl
  exact absurd h Bool.false_ne_true

theorem isWordChar_of_isWord {w : List Char} (h : isWord w = true) :
    ∀ c ∈ w, isWordChar c = true := by
  cases w with
  | nil => simp [isWord] at h
  | cons c w =>
      obtain ⟨hc, hw⟩ := Bool.and_eq_true_iff.mp h
      intro d hd
      rcases List.mem_cons.mp hd with rfl | hd
      · exact isWordChar_of_isWordStart hc
      · exact List.all_eq_true.mp hw d hd

theorem takeWhile_eq_nil_of_head? {p : Char → Bool} {r : List Char}
    (h : r.head?.any p = false) : r.takeWhile p = [] := by
  cases r with
  | nil => rfl
  | cons c r =>
      have hc : p c = false := by simpa using h
      simp [hc]

theorem takeWhile_append_of_head? {p : Char → Bool} {w r : List Char}
    (hw : ∀ c ∈ w, p c = true) (hr : r.head?.any p = false) : (w ++ r).takeWhile p = w := by
  rw [List.takeWhile_append_of_pos hw, takeWhile_eq_nil_of_head? hr, List.append_nil]

theorem dropWhile_append_of_head? {p : Char → Bool} {w r : List Char}
    (hw : ∀ c ∈ w, p c = true) (hr : r.head?.any p = false) : (w ++ r).dropWhile p = r := by
  rw [List.dropWhile_append_of_pos hw]
  cases r with
  | nil => rfl
  | cons c r =>
      have hc : p c = false := by simpa using hr
      simp [hc]

theorem drop_length_takeWhile (p : Char → Bool) (s : List Char) :
    s.drop (s.takeWhile p).length = s.dropWhile p := by
  calc s.drop (s.takeWhile p).length
      = (s.takeWhile p ++ s.dropWhile p).drop (s.takeWhile p).length := by
        rw [List.takeWhile_append_dropWhile]
    _ = s.dropWhile p := List.drop_left

theorem head?_dropWhile_any (p : Char → Bool) (s : List Char) :
    (s.dropWhile p).head?.any p = false := by
  rw [Option.any_eq_false]
  intro c hc
  have hhead := List.head?_dropWhile_not p s
  rw [hc] at hhead
  simpa using hhead

theorem word_append {w r : List Char} (hw : isWord w = true)
    (hr : r.head?.any isWordChar = false) : word (w ++ r) = w := by
  cases w with
  | nil => simp [isWord] at hw
  | cons c w =>
      obtain ⟨hc, hrest⟩ := Bool.and_eq_true_iff.mp hw
      rw [List.cons_append, word_cons_of_start hc,
        takeWhile_append_of_head? (List.all_eq_true.mp hrest) hr]

theorem isWord_word {s : List Char} (h : word s ≠ []) : isWord (word s) = true := by
  cases s with
  | nil => exact absurd rfl h
  | cons c s =>
      by_cases hc : isWordStart c = true
      · rw [word_cons_of_start hc]
        simp [isWord, hc]
      · simp [word, hc] at h

theorem prefix_word {k s : List Char} (hk : isWord k = true) (hs : k <+: s) : k <+: word s := by
  obtain ⟨r, rfl⟩ := hs
  cases k with
  | nil => exact List.nil_prefix
  | cons c k =>
      obtain ⟨hc, hk⟩ := Bool.and_eq_true_iff.mp hk
      rw [List.cons_append, word_cons_of_start hc,
        List.takeWhile_append_of_pos (List.all_eq_true.mp hk)]
      exact List.cons_prefix_cons.mpr ⟨rfl, List.prefix_append k _⟩

theorem word_eq_iff {k s : List Char} (hk : isWord k = true) :
    word s = k ↔ k <+: s ∧ (s.drop k.length).head?.any isWordChar = false := by
  constructor
  · rintro rfl
    refine ⟨word_prefix_self s, ?_⟩
    cases s with
    | nil => rfl
    | cons c s =>
        cases hc : isWordStart c with
        | false => simp [word, hc, isWord] at hk
        | true =>
            rw [word_cons_of_start hc, List.length_cons, List.drop_succ_cons, drop_length_takeWhile]
            exact head?_dropWhile_any isWordChar s
  · rintro ⟨⟨r, rfl⟩, hr⟩
    rw [List.drop_left] at hr
    exact word_append hk hr

end Words

end FuzzFrontend.Scan
