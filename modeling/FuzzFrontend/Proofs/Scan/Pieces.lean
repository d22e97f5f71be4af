import Mathlib.Data.List.Forall2
import FuzzFrontend.Proofs.Scan.Yields

namespace FuzzFrontend.Scan

variable {α : Type} {n : Nat}

/-- An item starts here: a word, a number, a header or a variable whose address is taken. -/
def opens : List Char → Bool
  | [] => false
  | '-' :: d :: _ => d.isDigit
  | '&' :: c :: _ => c != '&'
  | c :: _ => isWordStart c || c.isDigit || c == '#'

/-- The text ends here, or a bracket that is open. -/
def closes : List Char → Bool
  | [] => true
  | c :: _ => c == '}' || c == ')'

/-- A gap, and after it a text that meets the condition. -/
def Follows (B : List Char → Prop) (r : List Char) : Prop :=
  ∃ g s, Gap g ∧ B s ∧ r = g ++ s

/-- After a gap an item starts, or the list of items ends. -/
abbrev Fresh : List Char → Prop :=
  Follows fun s => opens s = true ∨ closes s = true

/-- Texts of items, each with a gap after it. -/
inductive Pieces (R : α → List Char → Prop) : List α → List Char → Prop
  | nil {b : List Char} (hb : Blank b) : Pieces R [] b
  | cons {x : α} {xs : List α} {b t g ts : List Char} (hb : Blank b) (ht : R x t) (hg : Gap g)
      (hts : Pieces R xs ts) : Pieces R (x :: xs) (b ++ (t ++ (g ++ ts)))

theorem opens_cases {s : List Char} (h : opens s = true) :
    (∃ d r, d.isDigit = true ∧ s = '-' :: d :: r) ∨ (∃ c r, c ≠ '&' ∧ s = '&' :: c :: r) ∨
      ∃ c r, (isWordStart c = true ∨ c.isDigit = true ∨ c = '#') ∧ s = c :: r := by
  unfold opens at h
  split at h
  · exact absurd h Bool.false_ne_true
  · exact Or.inl ⟨_, _, h, rfl⟩
  · exact Or.inr (Or.inl ⟨_, _, by simpa using h, rfl⟩)
  · exact Or.inr (Or.inr ⟨_, _, by simpa [or_assoc] using h, rfl⟩)

theorem opens_of_isWordStart {c : Char} (h : isWordStart c = true) (r : List Char) :
    opens (c :: r) = true := by
  unfold opens
  split
  · rename_i heq
    exact absurd heq (by simp)
  · rename_i heq
    rw [(List.cons.inj heq).1] at h
    exact absurd h (by decide)
  · rename_i heq
    rw [(List.cons.inj heq).1] at h
    exact absurd h (by decide)
  · rename_i heq
    simp [← (List.cons.inj heq).1, h]

theorem opens_of_isWord {w : List Char} (hw : isWord w = true) (r : List Char) :
    opens (w ++ r) = true := by
  cases w with
  | nil => simp [isWord] at hw
  | cons c w => exact opens_of_isWordStart (Bool.and_eq_true_iff.mp hw).1 (w ++ r)

theorem opens_of_isNumber {w : List Char} (hw : isInteger w = true ∨ isDecimal w = true)
    (r : List Char) : opens (w ++ r) = true := by
  obtain ⟨d, rest, hd, -, rfl | rfl⟩ := dropSign_cases hw
  · exact hd
  · have hminus : d ≠ '-' := by
      rintro rfl
      exact absurd hd (by decide)
    have hand : d ≠ '&' := by
      rintro rfl
      exact absurd hd (by decide)
    unfold opens
    split
    · rename_i heq
      exact absurd heq (by simp)
    · rename_i heq
      exact absurd (List.cons.inj heq).1 hminus
    · rename_i heq
      exact absurd (List.cons.inj heq).1 hand
    · rename_i heq
      simp [← (List.cons.inj heq).1, hd]

theorem isWordStart_ne_brace {c : Char} (h : isWordStart c = true ∨ c.isDigit = true ∨ c = '#') :
    isBlank c = false ∧ c ≠ '}' := by
  rcases h with h | h | rfl
  · refine ⟨isBlank_of_isWordChar (isWordChar_of_isWordStart h), ?_⟩
    rintro rfl
    exact absurd h (by decide)
  · refine ⟨isBlank_of_isWordChar (isWordChar_of_isDigit h), ?_⟩
    rintro rfl
    exact absurd h (by decide)
  · decide

theorem solid_of_opens {s : List Char} (h : opens s = true) : solid s = true := by
  rcases opens_cases h with ⟨d, r, -, rfl⟩ | ⟨c, r, -, rfl⟩ | ⟨c, r, hc, rfl⟩
  · rfl
  · rfl
  · simp [solid, (isWordStart_ne_brace hc).1]

theorem head?_of_opens {s : List Char} (h : opens s = true) : s.head? ≠ some '}' := by
  rcases opens_cases h with ⟨d, r, -, rfl⟩ | ⟨c, r, -, rfl⟩ | ⟨c, r, hc, rfl⟩
  · simp
  · simp
  · simpa using (isWordStart_ne_brace hc).2

theorem dropWhile_of_opens_or_closes {s : List Char} (h : opens s = true ∨ closes s = true) :
    s.dropWhile isBlank = s := by
  rcases h with h | h
  · exact dropWhile_of_solid (solid_of_opens h)
  · cases s with
    | nil => rfl
    | cons c s =>
        have hc : c = '}' ∨ c = ')' := by simpa [closes] using h
        rcases hc with rfl | rfl <;> rfl

section Follows

variable {B : List Char → Prop} {r : List Char}

theorem Follows.apart (h : Follows B r) : apart r = true := by
  obtain ⟨g, s, hg, -, rfl⟩ := h
  exact apart_of_gap hg s

theorem endsNumber_of_gap {g : List Char} (hg : Gap g) (r : List Char) : endsNumber (g ++ r) := by
  cases g with
  | nil => exact absurd rfl hg.ne_nil
  | cons c g =>
      rcases eq_of_isBlank (hg.blank c List.mem_cons_self) with rfl | rfl | rfl | rfl <;>
        exact ⟨rfl, by simp⟩

theorem endsNumber_blank_append {b : List Char} (hb : Blank b) (hr : endsNumber r) :
    endsNumber (b ++ r) := by
  cases b with
  | nil => exact hr
  | cons c b => exact endsNumber_of_gap ⟨hb, List.cons_ne_nil c b⟩ r

theorem Follows.endsNumber (h : Follows B r) : endsNumber r := by
  obtain ⟨g, s, hg, -, rfl⟩ := h
  exact endsNumber_of_gap hg s

theorem Follows.dropWhile (h : Follows B r) (hB : ∀ s, B s → s.dropWhile isBlank = s) :
    B (r.dropWhile isBlank) := by
  obtain ⟨g, s, hg, hs, rfl⟩ := h
  rwa [dropWhile_blank_append hg.blank, hB s hs]

theorem Fresh.dropWhile (h : Fresh r) :
    opens (r.dropWhile isBlank) = true ∨ closes (r.dropWhile isBlank) = true :=
  Follows.dropWhile h fun _ => dropWhile_of_opens_or_closes

end Follows

namespace Pieces

variable {R : α → List Char → Prop} {B : List Char → Prop} {xs : List α} {ts : List Char}

theorem blank_append (h : Pieces R xs ts) {b : List Char} (hb : Blank b) :
    Pieces R xs (b ++ ts) := by
  cases h with
  | nil hb' => exact nil (Scan.blank_append hb hb')
  | cons hb' ht hg hts =>
      rw [← List.append_assoc]
      exact cons (Scan.blank_append hb hb') ht hg hts

theorem append {ys : List α} {us : List Char} (h : Pieces R xs ts) (h' : Pieces R ys us) :
    Pieces R (xs ++ ys) (ts ++ us) := by
  induction h with
  | nil hb => exact h'.blank_append hb
  | cons hb ht hg hts ih =>
      simp only [List.append_assoc, List.cons_append]
      exact cons hb ht hg ih

theorem append_blank (h : Pieces R xs ts) {b : List Char} (hb : Blank b) :
    Pieces R xs (ts ++ b) := by
  simpa using h.append (nil hb)

theorem split {ys : List α} (h : Pieces R (xs ++ ys) ts) :
    ∃ us vs, Pieces R xs us ∧ Pieces R ys vs ∧ ts = us ++ vs := by
  induction xs generalizing ts with
  | nil => exact ⟨[], ts, nil blank_nil, h, rfl⟩
  | cons x xs ih =>
      cases h with
      | @cons _ _ b t g ts hb ht hg hts =>
          obtain ⟨us, vs, hus, hvs, rfl⟩ := ih hts
          exact ⟨b ++ (t ++ (g ++ us)), vs, cons hb ht hg hus, hvs, by simp⟩

theorem of_spaced {texts : List (List Char)} (h : List.Forall₂ R xs texts) :
    Pieces R xs ((texts.flatMap fun t => ' ' :: t) ++ [' ']) := by
  have key : ∃ us, (texts.flatMap fun t => ' ' :: t) ++ [' '] = ' ' :: us ∧
      Pieces R xs us := by
    induction h with
    | nil => exact ⟨[], rfl, nil blank_nil⟩
    | @cons x t xs texts ht _ ih =>
        obtain ⟨us, heq, hus⟩ := ih
        refine ⟨t ++ ' ' :: us, ?_, ?_⟩
        · simp [List.flatMap_cons, heq]
        · exact cons blank_nil ht gap_space hus
  obtain ⟨us, heq, hus⟩ := key
  rw [heq]
  exact hus.blank_append gap_space.blank

theorem follows (h : Pieces R xs ts) (hstart : ∀ x ∈ xs, ∀ t, R x t → ∀ r, B (t ++ r))
    {g s : List Char} (hg : Gap g) (hs : B s) : Follows B (g ++ (ts ++ s)) := by
  cases h with
  | nil hb =>
      refine ⟨g ++ ts, s, ⟨Scan.blank_append hg.blank hb, by simp [hg.ne_nil]⟩, hs, ?_⟩
      rw [List.append_assoc]
  | @cons x xs b t g' ts hb ht _ _ =>
      refine ⟨g ++ b, t ++ (g' ++ ts ++ s), ⟨Scan.blank_append hg.blank hb, by simp [hg.ne_nil]⟩,
        hstart x List.mem_cons_self t ht _, ?_⟩
      simp only [List.append_assoc]

theorem fresh (h : Pieces R xs ts) (hopens : ∀ x ∈ xs, ∀ t, R x t → ∀ r, opens (t ++ r) = true)
    {g s : List Char} (hg : Gap g) (hs : opens s = true ∨ closes s = true) :
    Fresh (g ++ (ts ++ s)) :=
  h.follows (fun x hx t ht r => Or.inl (hopens x hx t ht r)) hg hs

end Pieces

section Repetitions

variable {R : α → List Char → Prop} {xs : List α} {ts : List Char}

/-- Items are read one by one, up to a text that starts another item or ends them. -/
theorem itemsUntilBrace_skips (hp : Pieces R xs ts)
    {item : (s : Input) → s.length < n → Except Fault (Parsed α s.length)}
    (hopens : ∀ x ∈ xs, ∀ t, R x t → ∀ r, opens (t ++ r) = true)
    (hitem : ∀ x ∈ xs, ∀ t, R x t → ∀ cs r, cs.dropWhile isBlank = t ++ r → Fresh r →
      ∀ h, Yields (item (.ofList cs) h) x r)
    {s : List Char} (hs : opens s = true ∨ closes s = true) (found : List α) {cs : List Char}
    (h : (Input.ofList cs).length < n)
    (hcs : cs.dropWhile isBlank = (ts ++ s).dropWhile isBlank) :
    ∃ cs' h', cs'.dropWhile isBlank = s ∧
      itemsUntilBrace item found (.ofList cs) h =
        itemsUntilBrace item (xs.reverse ++ found) (.ofList cs') h' := by
  -- An item leaves the gap after it, so that what is read next is known up to blanks only.
  induction hp generalizing found cs with
  | nil hb =>
      rw [dropWhile_blank_append hb, dropWhile_of_opens_or_closes hs] at hcs
      exact ⟨cs, h, hcs, rfl⟩
  | @cons x xs b t g ts hb ht hg hts ih =>
      have hopen := hopens x List.mem_cons_self t ht
      have htext : cs.dropWhile isBlank = t ++ (g ++ (ts ++ s)) := by
        rw [hcs, List.append_assoc, dropWhile_blank_append hb]
        simpa only [List.append_assoc] using dropWhile_of_solid (solid_of_opens (hopen _))
      have hlater : ∀ y ∈ xs, ∀ u, R y u → ∀ r, opens (u ++ r) = true :=
        fun y hy => hopens y (List.mem_cons_of_mem _ hy)
      have hbrace : symbol? '}' (.ofList cs) = none := by
        apply symbol?_eq_none
        rw [htext]
        exact head?_of_opens (hopen _)
      obtain ⟨hlt, e⟩ := hitem x List.mem_cons_self t ht cs _ htext (hts.fresh hlater hg hs) h
      obtain ⟨cs', h', hcs', hrest⟩ := ih hlater
        (fun y hy => hitem y (List.mem_cons_of_mem _ hy)) (x :: found) (Nat.lt_trans hlt h)
        (dropWhile_blank_append hg.blank _)
      refine ⟨cs', h', hcs', ?_⟩
      rw [itemsUntilBrace]
      simp only [hbrace, e]
      simpa using hrest

theorem itemsUntilBrace_yields (hp : Pieces R xs ts)
    {item : (s : Input) → s.length < n → Except Fault (Parsed α s.length)}
    (hopens : ∀ x ∈ xs, ∀ t, R x t → ∀ r, opens (t ++ r) = true)
    (hitem : ∀ x ∈ xs, ∀ t, R x t → ∀ cs r, cs.dropWhile isBlank = t ++ r → Fresh r →
      ∀ h, Yields (item (.ofList cs) h) x r)
    (found : List α) {cs r : List Char} (h : (Input.ofList cs).length < n)
    (hcs : cs.dropWhile isBlank = (ts ++ '}' :: r).dropWhile isBlank) :
    Yields (itemsUntilBrace item found (.ofList cs) h) (found.reverse ++ xs) r := by
  obtain ⟨cs', h', hcs', hread⟩ := itemsUntilBrace_skips hp hopens hitem (Or.inr rfl) found h hcs
  obtain ⟨hlt, e⟩ := symbol?_finds hcs'
  rw [hread, itemsUntilBrace]
  simp only [e, List.reverse_append, List.reverse_reverse]
  exact ⟨_, rfl⟩

theorem braced_yields (hp : Pieces R xs ts) {item : Rule α}
    (hopens : ∀ x ∈ xs, ∀ t, R x t → ∀ r, opens (t ++ r) = true)
    (hitem : ∀ x ∈ xs, ∀ t, R x t → ∀ cs r, cs.dropWhile isBlank = t ++ r → Fresh r →
      Yields (item (.ofList cs)) x r)
    {cs r : List Char} (hcs : cs.dropWhile isBlank = '{' :: (ts ++ '}' :: r)) :
    Yields (braced item (.ofList cs)) xs r := by
  have hopening : Yields (symbol '{' none (.ofList cs)) () (ts ++ '}' :: r) := symbol_yields hcs
  obtain ⟨hlt, e⟩ := hopening
  simp only [braced, e]
  exact itemsUntilBrace_yields hp hopens
    (fun x hx t ht cs r hcs hr _ => hitem x hx t ht cs r hcs hr) [] _ rfl

theorem many_skips {B : List Char → Prop} (hB : ∀ s, B s → s.dropWhile isBlank = s)
    (hp : Pieces R xs ts) {item : OptionalRule α}
    (hstart : ∀ x ∈ xs, ∀ t, R x t → ∀ r, B (t ++ r))
    (hitem : ∀ x ∈ xs, ∀ t, R x t → ∀ cs r, cs.dropWhile isBlank = t ++ r → Follows B r →
      Offers (item (.ofList cs)) x r)
    {s : List Char} (hs : B s) (found : List α) {cs : List Char}
    (h : (Input.ofList cs).length < n)
    (hcs : cs.dropWhile isBlank = (ts ++ s).dropWhile isBlank) :
    ∃ cs' h', cs'.dropWhile isBlank = s ∧
      many item found (.ofList cs) h = many item (xs.reverse ++ found) (.ofList cs') h' := by
  induction hp generalizing found cs with
  | nil hb =>
      rw [dropWhile_blank_append hb, hB s hs] at hcs
      exact ⟨cs, h, hcs, rfl⟩
  | @cons x xs b t g ts hb ht hg hts ih =>
      have htext : cs.dropWhile isBlank = t ++ (g ++ (ts ++ s)) := by
        rw [hcs, List.append_assoc, dropWhile_blank_append hb]
        simpa only [List.append_assoc] using hB _ (hstart x List.mem_cons_self t ht _)
      have hlater : ∀ y ∈ xs, ∀ u, R y u → ∀ r, B (u ++ r) :=
        fun y hy => hstart y (List.mem_cons_of_mem _ hy)
      obtain ⟨hlt, e⟩ := hitem x List.mem_cons_self t ht cs _ htext (hts.follows hlater hg hs)
      obtain ⟨cs', h', hcs', hrest⟩ := ih hlater
        (fun y hy => hitem y (List.mem_cons_of_mem _ hy)) (x :: found) (Nat.lt_trans hlt h)
        (dropWhile_blank_append hg.blank _)
      refine ⟨cs', h', hcs', ?_⟩
      rw [many]
      simp only [e]
      simpa using hrest

/-- Items are read for as long as they are offered, and blanks before the first text that is none
are left. -/
theorem many_yields {B : List Char → Prop} (hB : ∀ s, B s → s.dropWhile isBlank = s)
    (hp : Pieces R xs ts) {item : OptionalRule α}
    (hstart : ∀ x ∈ xs, ∀ t, R x t → ∀ r, B (t ++ r))
    (hitem : ∀ x ∈ xs, ∀ t, R x t → ∀ cs r, cs.dropWhile isBlank = t ++ r → Follows B r →
      Offers (item (.ofList cs)) x r)
    {r : List Char} (hr : B r) (hstop : ∀ cs, cs.dropWhile isBlank = r → item (.ofList cs) = none)
    (found : List α) {cs : List Char} (h : (Input.ofList cs).length < n)
    (hcs : cs.dropWhile isBlank = (ts ++ r).dropWhile isBlank) :
    ∃ r', r'.dropWhile isBlank = r ∧
      Yields (many item found (.ofList cs) h) (found.reverse ++ xs) r' := by
  obtain ⟨cs', h', hcs', hread⟩ := many_skips hB hp hstart hitem hr found h hcs
  refine ⟨cs', hcs', h', ?_⟩
  rw [hread, many, hstop cs' hcs', List.reverse_append, List.reverse_reverse]

end Repetitions

end FuzzFrontend.Scan
