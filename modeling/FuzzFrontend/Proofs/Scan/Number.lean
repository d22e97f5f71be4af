import FuzzFrontend.Proofs.Scan.Boundary

namespace FuzzFrontend.Scan

/-- The text does not run on a number that stands before it. -/
def endsNumber (r : List Char) : Prop :=
  r.head?.any Char.isDigit = false ∧ r.head? ≠ some '.'

theorem isDigits_iff {s : List Char} :
    isDigits s = true ↔ s ≠ [] ∧ ∀ c ∈ s, c.isDigit = true := by
  simp [isDigits]

theorem isDecimal_iff {s : List Char} :
    isDecimal s = true ↔
      ∃ ds fs, dropSign s = ds ++ '.' :: fs ∧ isDigits ds = true ∧ isDigits fs = true := by
  constructor
  · intro h
    unfold isDecimal at h
    split at h
    · rename_i fs hfs
      obtain ⟨hds, hf⟩ := Bool.and_eq_true_iff.mp h
      refine ⟨(dropSign s).takeWhile Char.isDigit, fs, ?_, hds, hf⟩
      rw [← hfs, List.takeWhile_append_dropWhile]
    · exact absurd h Bool.false_ne_true
  · rintro ⟨ds, fs, hs, hds, hfs⟩
    have hpoint : ('.' :: fs).head?.any Char.isDigit = false := rfl
    have hd := (isDigits_iff.mp hds).2
    unfold isDecimal
    rw [hs, dropWhile_append_of_head? hd hpoint, takeWhile_append_of_head? hd hpoint]
    simp [hds, hfs]

theorem unsignedNumber_digits {ds r : List Char} (hds : isDigits ds = true)
    (hr : endsNumber r) : unsignedNumber (ds ++ r) = ds := by
  have hd := (isDigits_iff.mp hds).2
  unfold unsignedNumber
  rw [takeWhile_append_of_head? hd hr.1, dropWhile_append_of_head? hd hr.1]
  split
  · exact absurd rfl hr.2
  · rfl

theorem unsignedNumber_decimal {ds fs r : List Char} (hds : isDigits ds = true)
    (hfs : isDigits fs = true) (hr : r.head?.any Char.isDigit = false) :
    unsignedNumber (ds ++ '.' :: fs ++ r) = ds ++ '.' :: fs := by
  have hd := (isDigits_iff.mp hds).2
  obtain ⟨hne, hf⟩ := isDigits_iff.mp hfs
  rw [List.append_assoc, List.cons_append]
  unfold unsignedNumber
  rw [takeWhile_append_of_head? hd rfl, dropWhile_append_of_head? hd rfl]
  cases fs with
  | nil => exact absurd rfl hne
  | cons f fs =>
      have hhead : f.isDigit = true := hf f List.mem_cons_self
      simp only [List.cons_append, hhead, if_true]
      rw [← List.cons_append, takeWhile_append_of_head? hf hr]

theorem unsignedNumber_cases {d : Char} (hd : d.isDigit = true) (s : List Char) :
    isDigits (unsignedNumber (d :: s)) = true ∨
      ∃ ds fs, unsignedNumber (d :: s) = ds ++ '.' :: fs ∧
        isDigits ds = true ∧ isDigits fs = true := by
  have hdigits : isDigits ((d :: s).takeWhile Char.isDigit) = true := by
    refine isDigits_iff.mpr ⟨by simp [hd], ?_⟩
    intro c hc
    exact List.all_eq_true.mp List.all_takeWhile c hc
  unfold unsignedNumber
  dsimp only
  split
  · rename_i f rest _
    split
    · rename_i hf
      refine Or.inr ⟨_, _, rfl, hdigits, isDigits_iff.mpr ⟨by simp [hf], ?_⟩⟩
      intro c hc
      exact List.all_eq_true.mp List.all_takeWhile c hc
    · exact Or.inl hdigits
  · exact Or.inl hdigits

theorem isDigit_head_of_isDigits {s : List Char} (h : isDigits s = true) :
    ∃ d rest, s = d :: rest ∧ d.isDigit = true := by
  obtain ⟨hne, hs⟩ := isDigits_iff.mp h
  cases s with
  | nil => exact absurd rfl hne
  | cons d rest => exact ⟨d, rest, rfl, hs d List.mem_cons_self⟩

theorem dropSign_cases {w : List Char} (hw : isInteger w = true ∨ isDecimal w = true) :
    ∃ d rest, d.isDigit = true ∧ dropSign w = d :: rest ∧
      (w = '-' :: d :: rest ∨ w = d :: rest) := by
  have hstart : ∃ d rest, dropSign w = d :: rest ∧ d.isDigit = true := by
    rcases hw with hw | hw
    · exact isDigit_head_of_isDigits hw
    · obtain ⟨ds, fs, hs, hds, -⟩ := isDecimal_iff.mp hw
      obtain ⟨d, rest, rfl, hd⟩ := isDigit_head_of_isDigits hds
      exact ⟨d, rest ++ '.' :: fs, hs, hd⟩
  obtain ⟨d, rest, hs, hd⟩ := hstart
  refine ⟨d, rest, hd, hs, ?_⟩
  unfold dropSign at hs
  split at hs
  · exact Or.inl (by rw [hs])
  · exact Or.inr hs

theorem exists_sign {w : List Char} (hw : isInteger w = true ∨ isDecimal w = true) :
    ∃ before, w = before ++ dropSign w ∧ (∀ r, startsNumber (w ++ r) = true) ∧
      ∀ r, number (w ++ r) = before ++ unsignedNumber (dropSign w ++ r) := by
  obtain ⟨d, rest, hd, hs, rfl | rfl⟩ := dropSign_cases hw
  · exact ⟨['-'], rfl, fun _ => hd, fun _ => rfl⟩
  · have hminus : d ≠ '-' := by
      rintro rfl
      exact absurd hd (by decide)
    refine ⟨[], hs.symm, fun r => ?_, fun r => ?_⟩
    · simp [startsNumber, hminus, hd]
    · rw [hs]
      simp [number, hminus]

theorem number_append {w r : List Char} (hw : isInteger w = true ∨ isDecimal w = true)
    (hr : endsNumber r) : startsNumber (w ++ r) = true ∧ number (w ++ r) = w := by
  obtain ⟨before, hbefore, hstarts, hnumber⟩ := exists_sign hw
  have hunsigned : unsignedNumber (dropSign w ++ r) = dropSign w := by
    rcases hw with hw | hw
    · exact unsignedNumber_digits hw hr
    · obtain ⟨ds, fs, hs, hds, hfs⟩ := isDecimal_iff.mp hw
      rw [hs]
      exact unsignedNumber_decimal hds hfs hr.1
  exact ⟨hstarts r, by rw [hnumber, hunsigned, ← hbefore]⟩

theorem isNumber_of_dropSign {w : List Char} (h : isDigits (dropSign w) = true ∨
    ∃ ds fs, dropSign w = ds ++ '.' :: fs ∧ isDigits ds = true ∧ isDigits fs = true) :
    isInteger w = true ∨ isDecimal w = true :=
  h.imp id isDecimal_iff.mpr

theorem isNumber_number {s : List Char} (h : startsNumber s = true) :
    isInteger (number s) = true ∨ isDecimal (number s) = true := by
  apply isNumber_of_dropSign
  unfold startsNumber at h
  split at h
  · exact unsignedNumber_cases h _
  · rename_i d rest hminus
    have hs : number (d :: rest) = unsignedNumber (d :: rest) := by
      unfold number
      split
      · rename_i heq
        rw [(List.cons.inj heq).1] at h
        exact absurd h (by decide)
      · rfl
    have hsign : dropSign (unsignedNumber (d :: rest)) = unsignedNumber (d :: rest) := by
      obtain ⟨c, tail, hc, hd⟩ : ∃ c tail, unsignedNumber (d :: rest) = c :: tail ∧
          c.isDigit = true := by
        rcases unsignedNumber_cases h rest with hds | ⟨ds, fs, heq, hds, -⟩
        · exact isDigit_head_of_isDigits hds
        · obtain ⟨c, tail, rfl, hc⟩ := isDigit_head_of_isDigits hds
          exact ⟨c, tail ++ '.' :: fs, heq, hc⟩
      rw [hc]
      unfold dropSign
      split
      · rename_i heq
        rw [(List.cons.inj heq).1] at hd
        exact absurd hd (by decide)
      · rfl
    rw [hs, hsign]
    exact unsignedNumber_cases h rest
  · exact absurd h Bool.false_ne_true

theorem unsignedNumber_prefix_self (s : List Char) : unsignedNumber s <+: s := by
  unfold unsignedNumber
  dsimp only
  split
  · rename_i d rest heq
    split
    · have hs : s.takeWhile Char.isDigit ++ '.' :: d :: rest = s := by
        rw [← heq, List.takeWhile_append_dropWhile]
      have hfraction : (d :: rest).takeWhile Char.isDigit <+: d :: rest :=
        List.takeWhile_prefix Char.isDigit
      calc s.takeWhile Char.isDigit ++ '.' :: (d :: rest).takeWhile Char.isDigit
          <+: s.takeWhile Char.isDigit ++ '.' :: d :: rest := by
            rw [List.prefix_append_right_inj, List.cons_prefix_cons]
            exact ⟨rfl, hfraction⟩
        _ = s := hs
    · exact List.takeWhile_prefix Char.isDigit
  · exact List.takeWhile_prefix Char.isDigit

theorem number_prefix_self (s : List Char) : number s <+: s := by
  unfold number
  split
  · rename_i rest
    exact List.cons_prefix_cons.mpr ⟨rfl, unsignedNumber_prefix_self rest⟩
  · exact unsignedNumber_prefix_self s

theorem takeWhile_prefix_unsignedNumber (s : List Char) :
    s.takeWhile Char.isDigit <+: unsignedNumber s := by
  unfold unsignedNumber
  dsimp only
  split
  · split
    · exact List.prefix_append _ _
    · exact List.prefix_refl _
  · exact List.prefix_refl _

theorem prefix_number {k s : List Char} (hk : isInteger k = true ∨ isDecimal k = true)
    (hs : k <+: s) : startsNumber s = true ∧ k <+: number s := by
  obtain ⟨r, rfl⟩ := hs
  obtain ⟨before, hbefore, hstarts, hnumber⟩ := exists_sign hk
  suffices h : dropSign k <+: unsignedNumber (dropSign k ++ r) by
    have hsigned := (List.prefix_append_right_inj before).mpr h
    rw [← hbefore, ← hnumber] at hsigned
    exact ⟨hstarts r, hsigned⟩
  rcases hk with hk | hk
  · refine List.IsPrefix.trans ?_ (takeWhile_prefix_unsignedNumber _)
    rw [List.takeWhile_append_of_pos (isDigits_iff.mp hk).2]
    exact List.prefix_append _ _
  · obtain ⟨ds, fs, hpoint, hds, hfs⟩ := isDecimal_iff.mp hk
    -- the fraction may go on behind the given one, and is read to its end
    have hlonger : isDigits (fs ++ r.takeWhile Char.isDigit) = true := by
      obtain ⟨hne, hall⟩ := isDigits_iff.mp hfs
      refine isDigits_iff.mpr ⟨by simp [hne], fun c hc => ?_⟩
      rcases List.mem_append.mp hc with hc | hc
      · exact hall c hc
      · exact List.all_eq_true.mp List.all_takeWhile c hc
    have hsplit : ds ++ '.' :: fs ++ r =
        ds ++ '.' :: (fs ++ r.takeWhile Char.isDigit) ++ r.dropWhile Char.isDigit := by simp
    rw [hpoint, hsplit, unsignedNumber_decimal hds hlonger (head?_dropWhile_any Char.isDigit r)]
    simp

theorem point_not_mem_of_isInteger {w : List Char} (h : isInteger w = true) : '.' ∉ w := by
  obtain ⟨d, rest, -, hs, hw⟩ := dropSign_cases (Or.inl h)
  have hdigits : ∀ c ∈ d :: rest, c.isDigit = true := hs ▸ (isDigits_iff.mp h).2
  have hpoint : '.' ∉ d :: rest := fun hmem => absurd (hdigits '.' hmem) (by decide)
  rcases hw with rfl | rfl
  · simpa using hpoint
  · exact hpoint

theorem point_mem_of_isDecimal {w : List Char} (h : isDecimal w = true) : '.' ∈ w := by
  obtain ⟨ds, fs, hs, -, -⟩ := isDecimal_iff.mp h
  have hpoint : '.' ∈ dropSign w := by simp [hs]
  unfold dropSign at hpoint
  split at hpoint
  · exact List.mem_cons_of_mem _ hpoint
  · exact hpoint

theorem solid_of_isNumber {w : List Char} (h : isInteger w = true ∨ isDecimal w = true) :
    solid w = true := by
  obtain ⟨d, rest, hd, -, rfl | rfl⟩ := dropSign_cases h
  · rfl
  · simp [solid, isBlank_of_isWordChar (isWordChar_of_isDigit hd)]

end FuzzFrontend.Scan
