import FuzzFrontend.Proofs.Scan.Correspondence

/-!
Texts that differ in blanks only. They have the same chunks, which are the longest pieces without a
blank. No lexeme has a blank inside, so of two such texts the scanners read the same lexeme, and
what they leave has the same chunks again.
-/
namespace FuzzFrontend.Scan

/-- The longest pieces of a text without a blank, in order. -/
def chunks (s : List Char) : List (List Char) :=
  (s.splitOnP isBlank).filter (· ≠ [])

/-- The character is none of the four that separate lexemes. -/
def isSolid (c : Char) : Bool :=
  !isBlank c

/-- A piece without blanks, in which every lexeme lies. -/
abbrev Unbroken (w : List Char) : Prop :=
  ∀ c ∈ w, isBlank c = false

/-- The text does not run on a piece that stands before it. -/
abbrev Breaks (r : List Char) : Prop :=
  ∀ c ∈ r.head?, isBlank c = true

variable {s s' w r : List Char}

theorem unbroken_of_any (h : w.any isBlank = false) : Unbroken w := by
  simpa [Unbroken] using h

section Chunks

theorem chunks_cons_blank {c : Char} (hc : isBlank c = true) (s : List Char) :
    chunks (c :: s) = chunks s := by
  simp [chunks, List.splitOnP_cons_eq_if_modifyHead, hc]

theorem chunks_dropWhile (s : List Char) : chunks (s.dropWhile isBlank) = chunks s := by
  induction s with
  | nil => rfl
  | cons c s ih =>
      by_cases hc : isBlank c = true
      · rw [List.dropWhile_cons_of_pos hc, chunks_cons_blank hc, ih]
      · rw [List.dropWhile_cons_of_neg hc]

theorem chunks_append (hw : Unbroken w) (hne : w ≠ []) (hr : Breaks r) :
    chunks (w ++ r) = w :: chunks r := by
  cases r with
  | nil => simp [chunks, List.splitOnP_eq_singleton hw, hne]
  | cons c r =>
      have hc : isBlank c = true := hr c rfl
      rw [chunks_cons_blank hc]
      simp [chunks, List.splitOnP_append_cons _ _ hc, List.splitOnP_eq_singleton hw, hne]

theorem exists_chunk (s : List Char) :
    (s.dropWhile isBlank = [] ∧ chunks s = []) ∨
      ∃ w r, s.dropWhile isBlank = w ++ r ∧ Unbroken w ∧ w ≠ [] ∧ Breaks r ∧
        chunks s = w :: chunks r := by
  rw [← chunks_dropWhile s]
  cases hs : s.dropWhile isBlank with
  | nil => exact Or.inl ⟨rfl, rfl⟩
  | cons c t =>
      right
      have hhead := List.head?_dropWhile_not isBlank s
      have hc : isSolid c = true := by simpa [hs, isSolid] using hhead
      have hsplit : (c :: t).takeWhile isSolid ++ (c :: t).dropWhile isSolid = c :: t :=
        List.takeWhile_append_dropWhile
      have hw : Unbroken ((c :: t).takeWhile isSolid) := by
        intro d hd
        simpa [isSolid] using List.all_eq_true.mp List.all_takeWhile d hd
      have hne : (c :: t).takeWhile isSolid ≠ [] := by simp [hc]
      have hr : Breaks ((c :: t).dropWhile isSolid) := by
        intro d hd
        have hstop := List.head?_dropWhile_not isSolid (c :: t)
        rw [Option.mem_def.mp hd] at hstop
        simpa [isSolid] using hstop
      refine ⟨_, _, hsplit.symm, hw, hne, hr, ?_⟩
      rw [← chunks_append hw hne hr, hsplit]

theorem dropWhile_eq_nil_iff_chunks : s.dropWhile isBlank = [] ↔ chunks s = [] := by
  rcases exists_chunk s with ⟨hs, hnil⟩ | ⟨w, r, hs, -, hne, -, hchunks⟩
  · simp only [hs, hnil]
  · simp [hs, hne, hchunks]

theorem flatten_chunks (s : List Char) : (chunks s).flatten = s.filter isSolid := by
  rw [chunks, List.flatten_filter_ne_nil]
  induction s with
  | nil => rfl
  | cons c s ih =>
      obtain ⟨w, ws, hsplit⟩ := List.exists_cons_of_ne_nil (List.splitOnP_ne_nil isBlank s)
      rw [hsplit] at ih
      rw [List.splitOnP_cons_eq_if_modifyHead, hsplit]
      by_cases hc : isBlank c = true
      · simpa [hc, isSolid] using ih
      · simpa [hc, isSolid] using ih

theorem mem_iff_of_chunks_eq (h : chunks s = chunks s') {c : Char} (hc : isBlank c = false) :
    c ∈ s ↔ c ∈ s' := by
  have hfilter := congrArg List.flatten h
  rw [flatten_chunks, flatten_chunks] at hfilter
  have hmem : ∀ t : List Char, c ∈ t ↔ c ∈ t.filter isSolid := by
    simp [List.mem_filter, isSolid, hc]
  rw [hmem s, hmem s', hfilter]

end Chunks

section Aligned

/-- Texts that start with the same piece, after which both break, and have the same chunks then. -/
inductive Aligned : List Char → List Char → Prop
  | intro {w r r' : List Char} (hw : Unbroken w) (hr : Breaks r) (hr' : Breaks r')
      (h : chunks r = chunks r') : Aligned (w ++ r) (w ++ r')

theorem chunks_eq_of_aligned (h : Aligned s s') : chunks s = chunks s' := by
  obtain @⟨w, r, r', hw, hr, hr', hrest⟩ := h
  by_cases hne : w = []
  · rw [hne]
    exact hrest
  · rw [chunks_append hw hne hr, chunks_append hw hne hr', hrest]

theorem Aligned.of_breaks (hs : Breaks s) (hs' : Breaks s') (h : chunks s = chunks s') :
    Aligned s s' :=
  .intro (w := []) nofun hs hs' h

/-- Texts of the same chunks start alike after their blanks. -/
theorem aligned_of_chunks_eq (h : chunks s = chunks s') :
    Aligned (s.dropWhile isBlank) (s'.dropWhile isBlank) := by
  rcases exists_chunk s with ⟨hs, hnil⟩ | ⟨w, r, hs, hw, hne, hr, hchunks⟩ <;>
    rcases exists_chunk s' with ⟨hs', hnil'⟩ | ⟨w', r', hs', -, -, hr', hchunks'⟩
  · rw [hs, hs']
    exact .of_breaks nofun nofun rfl
  · rw [hnil, hchunks'] at h
    cases h
  · rw [hnil', hchunks] at h
    cases h
  · rw [hchunks, hchunks'] at h
    obtain ⟨rfl, hrest⟩ := List.cons.inj h
    rw [hs, hs']
    exact .intro hw hr hr' hrest

theorem Aligned.cases (h : Aligned s s') :
    (Breaks s ∧ Breaks s') ∨
      ∃ c t t', isBlank c = false ∧ s = c :: t ∧ s' = c :: t' ∧ Aligned t t' := by
  obtain @⟨w, r, r', hw, hr, hr', hrest⟩ := h
  cases w with
  | nil => exact Or.inl ⟨hr, hr'⟩
  | cons c w =>
      obtain ⟨hc, hw⟩ := List.forall_mem_cons.mp hw
      exact Or.inr ⟨c, w ++ r, w ++ r', hc, rfl, rfl, .intro hw hr hr' hrest⟩

theorem Aligned.symm (h : Aligned s s') : Aligned s' s := by
  obtain ⟨hw, hr, hr', hrest⟩ := h
  exact .intro hw hr' hr hrest.symm

theorem Aligned.of_prefix {u : List Char} (hu : Unbroken u) (h : Aligned s s') (hhead : u <+: s) :
    u <+: s' ∧ Aligned (s.drop u.length) (s'.drop u.length) := by
  obtain @⟨w, r, r', hw, hr, hr', hrest⟩ := h
  -- The text breaks after `w`, and `u` has no blank to go on with there.
  have hpiece : u <+: w := by
    cases r with
    | nil => simpa using hhead
    | cons c r =>
        have hc : c ∉ u := fun hmem => by
          have hblank : isBlank c = true := hr c rfl
          rw [hu c hmem] at hblank
          cases hblank
        exact prefix_of_prefix_append hc hhead
  obtain ⟨v, rfl⟩ := hpiece
  have hv : Unbroken v := fun c hc => hw c (List.mem_append_right _ hc)
  refine ⟨⟨v ++ r', by rw [List.append_assoc]⟩, ?_⟩
  rw [List.append_assoc, List.append_assoc, List.drop_left, List.drop_left]
  exact .intro hv hr hr' hrest

theorem Aligned.isPrefixOf_eq {u : List Char} (hu : Unbroken u) (h : Aligned s s') :
    u.isPrefixOf s = u.isPrefixOf s' := by
  rw [Bool.eq_iff_iff, List.isPrefixOf_iff_prefix, List.isPrefixOf_iff_prefix]
  exact ⟨fun hs => (h.of_prefix hu hs).1, fun hs' => (h.symm.of_prefix hu hs').1⟩

variable {p : Char → Bool}

theorem Aligned.head?_any (hp : ∀ c, isBlank c = true → p c = false) (h : Aligned s s') :
    s.head?.any p = s'.head?.any p := by
  have hbreaks : ∀ {t : List Char}, Breaks t → t.head?.any p = false := by
    intro t ht
    cases t with
    | nil => rfl
    | cons c t => exact hp c (ht c rfl)
  rcases h.cases with ⟨hs, hs'⟩ | ⟨c, t, t', -, rfl, rfl, -⟩
  · rw [hbreaks hs, hbreaks hs']
  · rfl

theorem Aligned.takeWhile (hp : ∀ c, isBlank c = true → p c = false) (h : Aligned s s') :
    s.takeWhile p = s'.takeWhile p ∧ Aligned (s.dropWhile p) (s'.dropWhile p) := by
  have hbreaks : ∀ {t : List Char}, Breaks t → t.takeWhile p = [] ∧ t.dropWhile p = t := by
    intro t ht
    cases t with
    | nil => exact ⟨rfl, rfl⟩
    | cons c t =>
        have hc : p c = false := hp c (ht c rfl)
        simp [hc]
  obtain @⟨w, r, r', hw, hr, hr', hrest⟩ := h
  -- The run ends inside the piece that both texts start with, or just where both break.
  induction w with
  | nil =>
      simp only [List.nil_append, hbreaks hr, hbreaks hr', true_and]
      exact .of_breaks hr hr' hrest
  | cons c w ih =>
      obtain ⟨-, hw'⟩ := List.forall_mem_cons.mp hw
      obtain ⟨htake, hdrop⟩ := ih hw'
      by_cases hc : p c = true
      · simpa [hc, htake] using hdrop
      · simp only [List.cons_append, hc, List.takeWhile_cons, List.dropWhile_cons,
          Bool.false_eq_true, if_false, true_and]
        exact .intro (w := c :: w) hw hr hr' hrest

end Aligned

section Lexemes

theorem isDigit_of_isBlank {c : Char} (h : isBlank c = true) : c.isDigit = false := by
  rcases eq_of_isBlank h with rfl | rfl | rfl | rfl <;> rfl

theorem isWordStart_of_isBlank {c : Char} (h : isBlank c = true) : isWordStart c = false := by
  rcases eq_of_isBlank h with rfl | rfl | rfl | rfl <;> rfl

theorem word_of_breaks (h : Breaks s) : word s = [] := by
  cases s with
  | nil => rfl
  | cons c s => simp [word, isWordStart_of_isBlank (h c rfl)]

/-- A point and the digits after it, if there are any. -/
def fraction : List Char → List Char
  | '.' :: s => if s.head?.any Char.isDigit then '.' :: s.takeWhile Char.isDigit else []
  | _ => []

theorem fraction_of_ne {c : Char} (h : c ≠ '.') (s : List Char) : fraction (c :: s) = [] := by
  simp [fraction, h]

theorem unsignedNumber_eq_append (s : List Char) :
    unsignedNumber s = s.takeWhile Char.isDigit ++ fraction (s.dropWhile Char.isDigit) := by
  unfold unsignedNumber
  cases s.dropWhile Char.isDigit with
  | nil => simp [fraction]
  | cons c rest =>
      by_cases hc : c = '.'
      · cases rest with
        | nil => simp [hc, fraction]
        | cons d rest => by_cases hd : d.isDigit = true <;> simp [hc, fraction, hd]
      · simp [fraction_of_ne hc, hc]

theorem ne_of_breaks {c : Char} {t : List Char} (h : Breaks (c :: t)) {d : Char}
    (hd : isBlank d = false) : c ≠ d := by
  rintro rfl
  exact absurd (h c rfl) (Bool.eq_false_iff.mp hd)

theorem startsNumber_minus (s : List Char) :
    startsNumber ('-' :: s) = s.head?.any Char.isDigit := by
  cases s <;> rfl

theorem startsNumber_of_ne {c : Char} (h : c ≠ '-') (s : List Char) :
    startsNumber (c :: s) = c.isDigit := by
  simp [startsNumber, h]

theorem number_of_ne {c : Char} (h : c ≠ '-') (s : List Char) :
    number (c :: s) = unsignedNumber (c :: s) := by
  simp [number, h]

theorem Aligned.word_eq (h : Aligned s s') : word s = word s' := by
  rcases h.cases with ⟨hs, hs'⟩ | ⟨c, t, t', -, rfl, rfl, ht⟩
  · rw [word_of_breaks hs, word_of_breaks hs']
  · simp only [word, (ht.takeWhile fun _ => isWordChar_of_isBlank).1]

theorem startsNumber_of_breaks (h : Breaks s) : startsNumber s = false := by
  cases s with
  | nil => rfl
  | cons c s =>
      rw [startsNumber_of_ne (ne_of_breaks h rfl)]
      exact isDigit_of_isBlank (h c rfl)

theorem Aligned.startsNumber_eq (h : Aligned s s') : startsNumber s = startsNumber s' := by
  rcases h.cases with ⟨hs, hs'⟩ | ⟨c, t, t', -, rfl, rfl, ht⟩
  · rw [startsNumber_of_breaks hs, startsNumber_of_breaks hs']
  · by_cases hc : c = '-'
    · rw [hc, startsNumber_minus, startsNumber_minus, ht.head?_any fun _ => isDigit_of_isBlank]
    · rw [startsNumber_of_ne hc, startsNumber_of_ne hc]

theorem fraction_of_breaks (h : Breaks s) : fraction s = [] := by
  cases s with
  | nil => rfl
  | cons c s => exact fraction_of_ne (ne_of_breaks h rfl) s

theorem Aligned.fraction_eq (h : Aligned s s') : fraction s = fraction s' := by
  rcases h.cases with ⟨hs, hs'⟩ | ⟨c, t, t', -, rfl, rfl, ht⟩
  · rw [fraction_of_breaks hs, fraction_of_breaks hs']
  · by_cases hc : c = '.'
    · simp only [hc, fraction, ht.head?_any fun _ => isDigit_of_isBlank,
        (ht.takeWhile fun _ => isDigit_of_isBlank).1]
    · rw [fraction_of_ne hc, fraction_of_ne hc]

theorem Aligned.unsignedNumber_eq (h : Aligned s s') : unsignedNumber s = unsignedNumber s' := by
  obtain ⟨htake, hdrop⟩ := h.takeWhile fun _ => isDigit_of_isBlank
  rw [unsignedNumber_eq_append, unsignedNumber_eq_append, htake, hdrop.fraction_eq]

theorem number_of_breaks (h : Breaks s) : number s = unsignedNumber s := by
  cases s with
  | nil => rfl
  | cons c s => exact number_of_ne (ne_of_breaks h rfl) s

theorem Aligned.number_eq (h : Aligned s s') : number s = number s' := by
  rcases h.cases with ⟨hs, hs'⟩ | ⟨c, t, t', -, rfl, rfl, ht⟩
  · rw [number_of_breaks hs, number_of_breaks hs', h.unsignedNumber_eq]
  · by_cases hc : c = '-'
    · simp only [hc, number, ht.unsignedNumber_eq]
    · rw [number_of_ne hc, number_of_ne hc, h.unsignedNumber_eq]

theorem unbroken_word (s : List Char) : Unbroken (word s) := by
  intro c hc
  have hword : isWord (word s) = true := isWord_word (List.ne_nil_of_mem hc)
  exact isBlank_of_isWordChar (isWordChar_of_isWord hword c hc)

theorem unbroken_takeWhile_digits (s : List Char) : Unbroken (s.takeWhile Char.isDigit) :=
  fun c hc => isBlank_of_isWordChar
    (isWordChar_of_isDigit (List.all_eq_true.mp List.all_takeWhile c hc))

theorem unbroken_fraction (s : List Char) : Unbroken (fraction s) := by
  unfold fraction
  split
  · split
    · exact List.forall_mem_cons.mpr ⟨rfl, unbroken_takeWhile_digits _⟩
    · exact nofun
  · exact nofun

theorem unbroken_unsignedNumber (s : List Char) : Unbroken (unsignedNumber s) := by
  rw [unsignedNumber_eq_append]
  exact List.forall_mem_append.mpr ⟨unbroken_takeWhile_digits s, unbroken_fraction _⟩

theorem unbroken_number (s : List Char) : Unbroken (number s) := by
  unfold number
  split
  · exact List.forall_mem_cons.mpr ⟨rfl, unbroken_unsignedNumber _⟩
  · exact unbroken_unsignedNumber s

end Lexemes

/-- The family that a fault will be located as, if it will be a coded problem. -/
def Fault.category : Fault → Option Problem.Category
  | .problem _ what _ => some what.category
  | .numeral _ => none
  | .constant (.unsupported _) => some .unsupportedConstant
  | .constant (.build _) => none

/-- Readings of texts that differ in blanks only, which fail in the same way or not at all. -/
def Correspondence.layout : Correspondence where
  input s s' := Plain s ∧ Plain s' ∧ chunks s.chars = chunks s'.chars
  fault e e' := e.category = e'.category

namespace Correspondence

variable {t t' : Input} {α : Type} {m n : Nat}

theorem aligned_of_layout (h : layout.input t t') :
    Aligned t.skipBlanks.chars t'.skipBlanks.chars :=
  aligned_of_chunks_eq h.2.2

theorem category_unexpected (t : Input) (wanted : List String) (hint : Option String) :
    (Fault.unexpected t wanted hint).category = some .grammar := by
  unfold Fault.unexpected
  split <;> rfl

theorem layout_unexpected (t t' : Input) (wanted : List String) (hint : Option String) :
    layout.fault (.unexpected t wanted hint) (.unexpected t' wanted hint) :=
  (category_unexpected t wanted hint).trans (category_unexpected t' wanted hint).symm

theorem layout_of_aligned (ht : Plain t) (ht' : Plain t') (h : Aligned t.chars t'.chars) :
    layout.input t t' :=
  ⟨ht, ht', chunks_eq_of_aligned h⟩

theorem after?_aligned (ht : Plain t) (ht' : Plain t') (h : Aligned t.chars t'.chars)
    {text : List Char} (hu : Unbroken text) :
    Option.Rel (fun r r' => Plain r ∧ Plain r' ∧ Aligned r.chars r'.chars)
      (t.after? text) (t'.after? text) := by
  unfold Input.after?
  rw [ahead_of_plain ht, ahead_of_plain ht', ← h.isPrefixOf_eq hu]
  split
  · rename_i hhead
    exact .some ⟨ht, ht', (h.of_prefix hu (List.isPrefixOf_iff_prefix.mp hhead)).2⟩
  · exact .none

theorem literal?_aligned (h : layout.input t t') {text : List Char} (ht : text ≠ [])
    (hsolid : text.any isBlank = false) :
    Option.Rel (fun p p' => Plain p.rest ∧ Plain p'.rest ∧ Aligned p.rest.chars p'.rest.chars)
      (literal? text ht t) (literal? text ht t') := by
  have hplain : Plain t.skipBlanks := h.1
  have hplain' : Plain t'.skipBlanks := h.2.1
  have hafter := after?_aligned hplain hplain' (aligned_of_layout h) (unbroken_of_any hsolid)
  unfold literal?
  split
  · rename_i hnone
    split
    · exact .none
    · rename_i hsome
      rw [hafter.of_none hnone] at hsome
      cases hsome
  · rename_i r hr
    obtain ⟨r', hr', halike⟩ := hafter.of_some hr
    split
    · rename_i hnone
      rw [hr'] at hnone
      cases hnone
    · rename_i r'' hr''
      obtain rfl := Option.some.inj (hr'.symm.trans hr'')
      exact .some halike

theorem layout_literal? (h : layout.input t t') {text : List Char} (ht : text ≠ [])
    (hsolid : text.any isBlank = false) :
    layout.Finds Eq (literal? text ht t) (literal? text ht t') :=
  (literal?_aligned h ht hsolid).imp fun _ _ hp => ⟨rfl, layout_of_aligned hp.1 hp.2.1 hp.2.2⟩

/-- A keyword runs on in both texts or in none, since a blank never runs on a word. -/
theorem layout_keyword? (h : layout.input t t') {text : String}
    (hsolid : text.toList.any isBlank = false) :
    layout.Finds Eq (keyword? text t) (keyword? text t') := by
  unfold keyword?
  by_cases ht : text.toList = []
  · rw [dif_pos ht, dif_pos ht]
    exact .none
  · rw [dif_neg ht, dif_neg ht]
    refine ((literal?_aligned h ht hsolid).filter fun p p' hp => ?_).imp fun p p' hp => ?_
    · rw [runsOnAsWord, runsOnAsWord, hp.2.2.head?_any fun _ => isWordChar_of_isBlank]
    · exact ⟨rfl, layout_of_aligned hp.1 hp.2.1 hp.2.2⟩

theorem layout_drop (ht : Plain t) (ht' : Plain t') (h : Aligned t.chars t'.chars)
    {u : List Char} (hu : Unbroken u) (hhead : u <+: t.chars) :
    layout.input (t.drop u.length) (t'.drop u.length) :=
  layout_of_aligned ht ht' (h.of_prefix hu hhead).2

theorem layout_identifier : layout.Keeps identifier := by
  intro s s' h
  have hplain : Plain s.skipBlanks := h.1
  have hplain' : Plain s'.skipBlanks := h.2.1
  have haligned := aligned_of_layout h
  have hword : s.skipBlanks.word = s'.skipBlanks.word := by
    rw [word_of_plain hplain, word_of_plain hplain', haligned.word_eq]
  simp only [identifier, Rule.afterBlanks]
  refine Ends.relax ?_ _ _
  by_cases hnil : s.skipBlanks.word = []
  · rw [dif_pos hnil, dif_pos (hword ▸ hnil)]
    exact .error (layout_unexpected _ _ _ _)
  · have hnil' : s'.skipBlanks.word ≠ [] := hword ▸ hnil
    rw [dif_neg hnil, dif_neg hnil']
    refine .ok ⟨congrArg String.ofList hword, ?_⟩
    change layout.input (s.skipBlanks.drop _) (s'.skipBlanks.drop _)
    rw [← hword, word_of_plain hplain]
    exact layout_drop hplain hplain' haligned (unbroken_word _) (word_prefix_self _)

theorem layout_numeral : layout.Keeps numeral := by
  intro s s' h
  have hplain : Plain s.skipBlanks := h.1
  have hplain' : Plain s'.skipBlanks := h.2.1
  have haligned := aligned_of_layout h
  simp only [numeral, Rule.afterBlanks]
  refine Ends.relax ?_ _ _
  by_cases hstarts : startsNumber s.skipBlanks.chars = true
  · have hnumber := number_prefix_self s.skipBlanks.chars
    have hspelled := List.prefix_iff_eq_take.mp hnumber
    have hspelled' := List.prefix_iff_eq_take.mp (number_prefix_self s'.skipBlanks.chars)
    rw [dif_pos hstarts, dif_pos (haligned.startsNumber_eq ▸ hstarts)]
    refine .ok ⟨congrArg String.ofList ?_, ?_⟩
    · rw [spelled_of_plain hplain, spelled_of_plain hplain', ← hspelled, ← hspelled',
        haligned.number_eq]
    · change layout.input (s.skipBlanks.drop _) (s'.skipBlanks.drop _)
      rw [← haligned.number_eq]
      exact layout_drop hplain hplain' haligned (unbroken_number _) hnumber
  · rw [dif_neg hstarts, dif_neg (haligned.startsNumber_eq ▸ hstarts)]
    exact .error (layout_unexpected _ _ _ _)

theorem layout_kept : layout.Kept where
  plain := fun s s' h => ⟨h.1, h.2.1⟩
  literal? := fun ht hsolid s s' h => layout_literal? h ht hsolid
  keyword? := fun text hsolid s s' h => layout_keyword? h hsolid
  identifier := layout_identifier
  numeral := layout_numeral
  startsNumber := fun s s' h => (aligned_of_layout h).startsNumber_eq
  isEmpty := by
    rintro s s' ⟨-, -, h⟩
    rw [Bool.eq_iff_iff, List.isEmpty_iff, List.isEmpty_iff]
    exact dropWhile_eq_nil_iff_chunks.trans (h ▸ dropWhile_eq_nil_iff_chunks.symm)
  unexpected := fun s s' _ wanted hint _ => layout_unexpected _ _ wanted hint
  problem := fun s s' _ what wanted _ _ _ _ => rfl

end Correspondence

end FuzzFrontend.Scan
