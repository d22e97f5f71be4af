import FuzzFrontend.Proofs.Generator.ReadState

namespace FuzzFrontend.Generator.Grammar

open Scan
open GeneratorName (standard)

variable {cs r t : List Char} {precedence : Precedence} {nesting : Nesting}

section Names

theorem isName_iff {name : String} :
    isName name = true ↔
      (∃ own, name.toList = standard ++ own ∧ own ≠ [] ∧ ∀ c ∈ own, isWordChar c = true) ∨
        (¬ standard <+: name.toList ∧ isWord name.toList = true ∧ name ∉ reservedNames) := by
  unfold isName GeneratorName.ofStandard?
  cases hmark : after? standard name.toList with
  | some own =>
      have heq := after?_eq_some_iff.mp hmark
      constructor
      · intro h
        have hown : own ≠ [] ∧ ∀ c ∈ own, isWordChar c = true := by simpa using h
        exact Or.inl ⟨own, heq, hown⟩
      · rintro (⟨own', heq', hown⟩ | ⟨hnone, -⟩)
        · obtain rfl : own = own' := List.append_cancel_left (heq.symm.trans heq')
          simpa using hown
        · exact absurd ⟨own, heq.symm⟩ hnone
  | none =>
      have hnone : ¬ standard <+: name.toList := by
        rintro ⟨own, heq⟩
        rw [after?_eq_some_iff.mpr heq.symm] at hmark
        cases hmark
      constructor
      · intro h
        have hown : isWord name.toList = true ∧ name ∉ reservedNames := by simpa using h
        exact Or.inr ⟨hnone, hown⟩
      · rintro (⟨own, heq, -⟩ | ⟨-, hown⟩)
        · exact absurd ⟨own, heq.symm⟩ hnone
        · simpa using hown

theorem solid_of_isName {name : String} (h : isName name = true) : solid name.toList = true := by
  rcases isName_iff.mp h with ⟨own, heq, -⟩ | ⟨-, hword, -⟩
  · rw [heq]
    rfl
  · exact solid_of_isWord hword

theorem standardName_yields {own : List Char} (hne : own ≠ [])
    (hown : ∀ c ∈ own, isWordChar c = true) (hr : r.head?.any isWordChar = false) :
    Yields (standardName (.ofList (standard ++ (own ++ r))) (.ofList (own ++ r)))
      (String.ofList (standard ++ own)) r := by
  have hstop : (own ++ r).dropWhile isWordChar = r := dropWhile_append_of_head? hown hr
  have hmoved : Input.ofList r ≠ .ofList (own ++ r) := by
    intro heq
    have hlength := congrArg Input.length heq
    have := List.length_pos_iff.mpr hne
    simp only [Input.length, Input.chars_ofList, List.length_append] at hlength
    omega
  have htext : upTo (.ofList (standard ++ (own ++ r))) (.ofList r) =
      String.ofList (standard ++ own) := by
    have hwidth : (standard ++ (own ++ r)).length - r.length = (standard ++ own).length := by
      simp only [List.length_append]
      omega
    simp only [upTo, Input.length, Input.chars_ofList, hwidth, Input.spelled_ofList]
    rw [← List.append_assoc, List.take_left']
    rfl
  simp only [standardName, Input.dropWhile_ofList, hstop, hmoved, if_false, htext]
  exact ⟨_, rfl⟩

theorem ownName_yields {name : String} (hword : isWord name.toList = true)
    (hfree : name ∉ reservedNames) (hr : r.head?.any isWordChar = false) :
    Yields (ownName (.ofList (name.toList ++ r))) name r := by
  have hread : word (name.toList ++ r) = name.toList := word_append hword hr
  have hne : name.toList.isEmpty = false := by
    cases heq : name.toList with
    | nil => simp [heq, isWord] at hword
    | cons c w => rfl
  simp only [ownName, Input.chars_ofList, Input.word_ofList, hread, hne, String.ofList_toList,
    Bool.false_eq_true, if_false, hfree, Input.drop_ofList, List.drop_left]
  exact ⟨_, rfl⟩

theorem standard_prefix_of_append {w : List Char} (hr : apart r = true)
    (h : standard <+: w ++ r) : standard <+: w := by
  cases r with
  | nil => rwa [List.append_nil] at h
  | cons c r =>
      refine prefix_of_prefix_append (fun hc => ?_) h
      simp only [standard, List.mem_cons, List.not_mem_nil, or_false] at hc
      rcases hc with rfl | rfl | rfl | rfl <;> exact Bool.false_ne_true hr

theorem generatorName_yields {name : String} (hname : isName name = true)
    (hcs : cs.dropWhile isBlank = name.toList ++ r) (hr : apart r = true) :
    Yields (generatorName (.ofList cs)) name r := by
  have hskip : (Input.ofList cs).skipBlanks = .ofList (name.toList ++ r) := by
    rw [Input.skipBlanks_ofList, hcs]
  unfold generatorName
  rcases isName_iff.mp hname with ⟨own, heq, hne, hown⟩ | ⟨hnone, hword, hfree⟩
  · have htext : name.toList ++ r = standard ++ (own ++ r) := by
      rw [heq, List.append_assoc]
    split
    · rename_i rest hrest
      obtain ⟨-, hrest⟩ := Input.after?_eq_some_iff.mp hrest
      have hown' : rest = .ofList (own ++ r) := by
        rw [hrest, hskip, htext, Input.drop_ofList, List.drop_left]
      have hread : Yields (standardName (Input.ofList cs).skipBlanks rest) name r := by
        rw [hskip, htext, hown', ← String.ofList_toList (s := name), heq]
        exact standardName_yields hne hown (head?_of_apart hr)
      exact hread.relax _
    · rename_i hrest
      rw [hskip, htext] at hrest
      have hmark : Input.after? standard (.ofList (standard ++ (own ++ r))) =
          some (.ofList (own ++ r)) :=
        Input.after?_eq_some_iff.mpr ⟨List.prefix_append _ _, by
          rw [Input.drop_ofList, List.drop_left]⟩
      rw [hmark] at hrest
      cases hrest
  · split
    · rename_i rest hrest
      have hmark := (Input.after?_eq_some_iff.mp hrest).1
      rw [hskip, Input.ahead_ofList] at hmark
      exact absurd (standard_prefix_of_append hr hmark) hnone
    · have hread : Yields (ownName (Input.ofList cs).skipBlanks) name r := by
        rw [hskip]
        exact ownName_yields hword hfree (head?_of_apart hr)
      exact hread.relax _

theorem nameAndType_yields {name : String} {kind : Scalar} (hname : isName name = true)
    (hkind : kind ∈ Scalar.sized)
    (hcs : cs.dropWhile isBlank = name.toList ++ ' ' :: (kind.label.toList ++ r))
    (hr : r.head?.any isWordChar = false) : Yields (nameAndType (.ofList cs)) (name, kind) r := by
  have htoken : (' ' :: (kind.label.toList ++ r)).dropWhile isBlank = kind.label.toList ++ r :=
    dropWhile_of_solid (solid_label kind r)
  obtain ⟨hlt, e⟩ := generatorName_yields hname hcs rfl
  simp only [nameAndType, e]
  exact (typeToken_yields (ofToken?_label hkind) htoken hr).mapRelax (fun kind => (name, kind)) _

theorem heading_yields {name : String} {kind : Scalar} (hname : isName name = true)
    (hkind : kind ∈ Scalar.sized)
    (hcs : cs.dropWhile isBlank = "generator ".toList ++
      (name.toList ++ ' ' :: (kind.label.toList ++ r)))
    (hr : r.head?.any isWordChar = false) : Yields (heading (.ofList cs)) (name, kind) r := by
  have hkeyword : Yields (keyword "generator" none (.ofList cs)) ()
      (' ' :: (name.toList ++ ' ' :: (kind.label.toList ++ r))) := by
    apply keyword_yields (by decide)
    · simpa using hcs
    · rfl
  have hrest : (' ' :: (name.toList ++ ' ' :: (kind.label.toList ++ r))).dropWhile isBlank =
      name.toList ++ ' ' :: (kind.label.toList ++ r) :=
    dropWhile_solid_append (solid_of_isName hname) _
  exact hkeyword.andThen (nameAndType_yields hname hkind hrest hr)

end Names

section Generators

/-- No operator starts here, after which a state would go on. -/
def StartsAnew (s : List Char) : Prop :=
  s.dropWhile isBlank = s ∧ s.head?.any (fun c => "+-*/%".toList.contains c) = false

theorem stateEnds_of_follows (h : Follows StartsAnew r) : StateEnds r :=
  arithmeticOp?_eq_none (h.dropWhile fun _ hs => hs.1).2

theorem startsAnew_of_spelledState {e : GenExpr} (h : e.SpelledState t) (r : List Char) :
    StartsAnew (t ++ r) := by
  obtain ⟨u, -, rfl⟩ := h
  exact ⟨rfl, rfl⟩

theorem state_offers {e : GenExpr} (he : e.Spellable precedence) (hroom : e.nesting ≤ room nesting)
    (ht : e.SpelledState t) (hcs : cs.dropWhile isBlank = t ++ r) (hr : Follows StartsAnew r) :
    Offers (Rule.ifKeyword "state" (state precedence nesting) (.ofList cs)) e r := by
  obtain ⟨u, hu, rfl⟩ := ht
  have hkeyword : Finds (keyword? "state" (.ofList cs)) () (' ' :: (u ++ r)) := by
    apply keyword?_finds (by decide)
    · simpa using hcs
    · rfl
  have hrest : (' ' :: (u ++ r)).dropWhile isBlank = u ++ r :=
    dropWhile_solid_append (solid_of_spelled hu) r
  exact Yields.ifKeyword hkeyword (state_yields he hroom hu hrest (stateEnds_of_follows hr))

/-- The text ends here, or a generator starts. -/
def NextGenerator (r : List Char) : Prop :=
  r = [] ∨ ∃ k, r = "generator ".toList ++ k

theorem nextGenerator_of_spelledAll {gs : List Generator} (h : SpelledAll gs t) :
    NextGenerator t := by
  cases h with
  | nil => exact Or.inl rfl
  | cons hg hgs =>
      obtain ⟨kind, -, -, ts, -, rfl⟩ := hg
      exact Or.inr ⟨_, List.append_assoc _ _ _⟩

theorem startsAnew_of_nextGenerator (h : NextGenerator r) : StartsAnew r := by
  rcases h with rfl | ⟨k, rfl⟩
  · exact ⟨rfl, rfl⟩
  · exact ⟨rfl, rfl⟩

theorem state?_declines (h : NextGenerator (cs.dropWhile isBlank)) :
    Rule.ifKeyword "state" (state precedence nesting) (.ofList cs) = none := by
  have hnone : keyword? "state" (.ofList cs) = none := by
    apply keyword?_eq_none_of_head?
    rcases h with heq | ⟨k, heq⟩ <;> simp [heq]
  simp only [Rule.ifKeyword, hnone, Option.map_none]

theorem states_yield {n : Nat} {es : List GenExpr} {ts : List Char}
    (hes : ∀ e ∈ es, e.Spellable precedence ∧ e.nesting ≤ room nesting)
    (hts : Pieces GenExpr.SpelledState es ts) (hr : NextGenerator r) (found : List GenExpr)
    (h : (Input.ofList cs).length < n) (hcs : cs.dropWhile isBlank = (ts ++ r).dropWhile isBlank) :
    ∃ r', r'.dropWhile isBlank = r ∧
      Yields (many (Rule.ifKeyword "state" (state precedence nesting)) found (.ofList cs) h)
        (found.reverse ++ es) r' :=
  many_yields (fun _ hs => hs.1) hts (fun _ _ _ ht r => startsAnew_of_spelledState ht r)
    (fun e he t ht cs r hcs hr => state_offers (hes e he).1 (hes e he).2 ht hcs hr)
    (startsAnew_of_nextGenerator hr) (fun cs hcs => state?_declines (by rwa [hcs])) found h hcs

/-- A generator is read back from each of its spellings where there is room for its states. -/
theorem generator_yields {g : Generator} (hg : g.Spellable precedence)
    (hroom : g.Within (room nesting)) (ht : g.Spelled t) (hcs : cs.dropWhile isBlank = t ++ r)
    (hr : NextGenerator r) :
    ∃ r', r'.dropWhile isBlank = r ∧ Yields (generator precedence nesting (.ofList cs)) g r' := by
  obtain ⟨kind, hkind, htype, ts, hts, rfl⟩ := ht
  obtain ⟨resultType, name, states, hne⟩ := g
  obtain rfl : resultType = .scalar kind := htype
  have hheading : cs.dropWhile isBlank = "generator ".toList ++
      (name.toList ++ ' ' :: (kind.label.toList ++ '\n' :: (ts ++ r))) := by
    simpa using hcs
  have hstates := hts.blank_append gap_newline.blank
  obtain ⟨hlt, e⟩ := heading_yields hg.name hkind hheading rfl
  obtain ⟨r', hr', hlt', e'⟩ := states_yield (fun x hx => ⟨hg.states x hx, hroom x hx⟩) hstates hr
    [] hlt rfl
  refine ⟨r', hr', hlt', ?_⟩
  simp only [generator, e, e']
  exact dif_neg hne

theorem generators_of_yields {g : Generator} {gs : List Generator} {r' : List Char}
    (hg : Yields (generator precedence nesting (.ofList cs)) g r') (hgs : SpelledAll gs r)
    (hr' : r'.dropWhile isBlank = r) (found : List Generator)
    (hrest : gs ≠ [] → generators precedence nesting (g :: found) (.ofList r') =
      .ok ((g :: found).reverse ++ gs)) :
    generators precedence nesting found (.ofList cs) = .ok (found.reverse ++ g :: gs) := by
  obtain ⟨hlt, e⟩ := hg
  rw [generators]
  simp only [e]
  cases hgs with
  | nil => simp [hr']
  | @cons g' gs t' ts hg' hgs' =>
      have hmore : ((Input.ofList r').skipBlanks.chars.isEmpty = true) = False := by
        obtain ⟨kind, -, -, us, -, rfl⟩ := hg'
        simp [hr']
      simpa only [hmore, if_false, List.reverse_cons, List.append_assoc, List.singleton_append]
        using hrest (List.cons_ne_nil _ _)

theorem generators_of_spelledAll {gs : List Generator} (hgs : SpelledAll gs t) (hne : gs ≠ [])
    (hspellable : ∀ g ∈ gs, g.Spellable precedence ∧ g.Within (room nesting))
    (found : List Generator) (hcs : cs.dropWhile isBlank = t) :
    generators precedence nesting found (.ofList cs) = .ok (found.reverse ++ gs) := by
  induction hgs generalizing found cs with
  | nil => exact absurd rfl hne
  | @cons g gs t ts hg hgs ih =>
      obtain ⟨hsp, hroom⟩ := hspellable g List.mem_cons_self
      obtain ⟨r', hr', hyields⟩ :=
        generator_yields hsp hroom hg hcs (nextGenerator_of_spelledAll hgs)
      exact generators_of_yields hyields hgs hr' found fun hne =>
        ih hne (fun g hg => hspellable g (List.mem_cons_of_mem _ hg)) (g :: found) hr'

end Generators

end FuzzFrontend.Generator.Grammar
