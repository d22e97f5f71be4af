import FuzzFrontend.Proofs.Generator.ReadGenerator

namespace FuzzFrontend

section Constants

/-- The constant of a type keeps the integer, or its last 64 bits where the type has no sign. -/
inductive Constant.StandsFor (kind : Scalar) (value : Int) : Constant → Prop
  | signed (hkind : kind.isSigned = true) (h : Word.IsSigned value) :
      StandsFor kind value (.signed value h)
  | unsigned {n : Nat} (hkind : kind.isUnsigned = true) (h : Word.IsUnsigned n)
      (hn : (n : Int) = value % 0x10000000000000000) : StandsFor kind value (.unsigned n h)

theorem Constant.forType_of_standsFor {kind : Scalar} {value : Int} {c : Constant}
    (h : c.StandsFor kind value) : forType (.scalar kind) value = .ok c := by
  cases h with
  | signed hkind h =>
      have hsigned : ofSigned value = .ok (.signed value h) := dif_pos h
      simp [forType, hkind, hsigned, Except.mapError]
  | @unsigned n hkind h hn =>
      have hsigned : kind.isSigned = false := by
        revert hkind
        cases kind <;> decide
      have hwrap : wrap value = .unsigned n h := by
        simp only [wrap, ← hn, Int.toNat_natCast]
      simp [forType, hkind, hsigned, hwrap]

theorem Constant.exists_standsFor {kind : Scalar} (hkind : kind ∈ Scalar.sized) {value : Int}
    (hvalue : Word.IsSigned value) : ∃ c : Constant, c.StandsFor kind value := by
  have hsign : kind.isSigned = true ∨ kind.isUnsigned = true := by
    revert hkind
    cases kind <;> decide
  rcases hsign with hsigned | hunsigned
  · exact ⟨.signed value hvalue, .signed hsigned hvalue⟩
  · exact ⟨.wrap value, .unsigned hunsigned _ (by omega)⟩

end Constants

namespace Generator

/-- The items of a generator source up to a state. -/
structure StateFront where
  generators : List Generator
  kind : Scalar
  name : String
  states : List GenExpr

/-- The items of a generator source behind a state. -/
structure StateBack where
  states : List GenExpr
  generators : List Generator

/-- The generators that have the constant as the state between the two. -/
def StateFront.close (front : StateFront) (c : Constant) (back : StateBack) : List Generator :=
  front.generators ++
    ⟨.scalar front.kind, front.name, front.states ++ .constant c :: back.states, by simp⟩ ::
      back.generators

/-- The text of a constant with a type and the literal. -/
def SpelledConstant (l : Scan.Literal) (token : String) (t : List Char) : Prop :=
  ∃ gap, Scan.Blank gap ∧ t = token.toList ++ ':' :: ("constant".toList ++
    '(' :: (l.spelled gap ++ [')']))

/-- The text up to the end of the constant. -/
def StateFront.Spelled (front : StateFront) (l : Scan.Literal) (token : String) (t : List Char) :
    Prop :=
  ∃ gt ts u, SpelledAll front.generators gt ∧
    Scan.Pieces GenExpr.SpelledState front.states ts ∧ SpelledConstant l token u ∧
      t = gt ++ ("generator ".toList ++ (front.name.toList ++ ' ' ::
        (front.kind.label.toList ++ '\n' :: (ts ++ ("state ".toList ++ u)))))

/-- The text behind the constant. -/
def StateBack.Spelled (back : StateBack) (t : List Char) : Prop :=
  ∃ gap ts gt, Scan.Gap gap ∧ Scan.Pieces GenExpr.SpelledState back.states ts ∧
    SpelledAll back.generators gt ∧ t = gap ++ (ts ++ gt)

end Generator

namespace Generator.Grammar

open Scan

variable {l : Literal} {cs r t rest : List Char} {token : String} {kind : Scalar} {c : Constant}
  {precedence : Precedence} {nesting : Nesting}

theorem term_decides {n : Nat} {inner : Inner n} (h : Scalar.ofToken? token = some kind)
    (hc : Word.IsSigned l.value → c.StandsFor kind l.value) (ht : SpelledConstant l token t)
    (hcs : cs.dropWhile isBlank = t ++ r) (hle : (Input.ofList cs).length ≤ n) :
    l.Decides (fun x => Yields x (.constant c) r) (term inner nesting (.ofList cs) hle) := by
  obtain ⟨gap, hgap, rfl⟩ := ht
  have htext : cs.dropWhile isBlank = token.toList ++ ':' :: ("constant".toList ++
      '(' :: (l.spelled gap ++ ')' :: r)) := by
    simpa using hcs
  obtain ⟨hle', hrest, e⟩ := term_eq_typed h htext hle
  have hread : l.Decides _ (typedTerm inner nesting kind _ hle') :=
    constant_decides hgap (fun hvalue => Constant.forType_of_standsFor (hc hvalue)) hle'
  rw [e]
  exact hread.around (fun error herror => by rw [herror]; rfl) fun _ hyields =>
    hyields.relax hrest

theorem state_decides (h : Scalar.ofToken? token = some kind)
    (hc : Word.IsSigned l.value → c.StandsFor kind l.value) (ht : SpelledConstant l token t)
    (hcs : cs.dropWhile isBlank = t ++ r) :
    l.Decides (fun x => StateEnds r → Yields x (.constant c) r)
      (state precedence nesting (.ofList cs)) := by
  have hterm : l.Decides _ (term (fun nested s (_ : s.length < (Input.ofList cs).length) =>
      state precedence nested s) nesting (.ofList cs) (Nat.le_refl _)) :=
    term_decides h hc ht hcs _
  refine hterm.around (fun error herror => ?_) fun _ hyields hend => ?_
  · rw [state, chain, herror]
    rfl
  · obtain ⟨hlt, e⟩ := hyields
    obtain ⟨hlt', e'⟩ : Yields (terms (fun nested s (_ : s.length < (Input.ofList cs).length) =>
        state precedence nested s) nesting [] (.ofList r) hlt) [] r :=
      terms_yields .nil (List.forall_mem_nil _) hend [] rfl hlt
    have hchain : Yields (chain (.ofList cs) (fun nested s _ => state precedence nested s) nesting)
        (.constant c, []) r := by
      refine ⟨hlt', ?_⟩
      simp only [chain, e, e']
      rfl
    rw [state]
    exact hchain.map (grouped precedence)

section Whole

variable {front : StateFront} {gs : List Generator}

theorem nextGenerator_append {s k : List Char} (hgs : SpelledAll gs t)
    (hs : s = "generator ".toList ++ k) : NextGenerator (t ++ s) := by
  rcases nextGenerator_of_spelledAll hgs with rfl | ⟨k', rfl⟩
  · exact Or.inr ⟨k, hs⟩
  · exact Or.inr ⟨k' ++ s, List.append_assoc _ _ _⟩

theorem generators_skip {s k : List Char} (hgs : SpelledAll gs t)
    (hspellable : ∀ g ∈ gs, g.Spellable precedence ∧ g.Within (room nesting))
    (hs : s = "generator ".toList ++ k) (found : List Generator)
    (hcs : cs.dropWhile isBlank = t ++ s) :
    ∃ cs', cs'.dropWhile isBlank = s ∧ generators precedence nesting found (.ofList cs) =
      generators precedence nesting (gs.reverse ++ found) (.ofList cs') := by
  induction hgs generalizing found cs with
  | nil => exact ⟨cs, hcs, rfl⟩
  | @cons g gs t ts hg hgs ih =>
      obtain ⟨hsp, hroom⟩ := hspellable g List.mem_cons_self
      have hnext := nextGenerator_append hgs hs
      rw [List.append_assoc] at hcs
      obtain ⟨r', hr', hlt, e⟩ := generator_yields hsp hroom hg hcs hnext
      obtain ⟨cs', hcs', hrest⟩ :=
        ih (fun g hg => hspellable g (List.mem_cons_of_mem _ hg)) (g :: found) hr'
      refine ⟨cs', hcs', ?_⟩
      have hmore : ((Input.ofList r').skipBlanks.chars.isEmpty = true) = False := by
        have hne : ts ++ s ≠ [] := by
          rcases hnext with hnil | ⟨k', hk'⟩
          · simp [hs] at hnil
          · simp [hk']
        simpa [hr'] using hne
      rw [generators]
      simp only [e, hmore, if_false]
      simpa using hrest

theorem state?_decides (h : Scalar.ofToken? token = some kind)
    (hc : Word.IsSigned l.value → c.StandsFor kind l.value) (ht : SpelledConstant l token t)
    (hcs : cs.dropWhile isBlank = "state ".toList ++ (t ++ r)) :
    ∃ q, Rule.ifKeyword "state" (state precedence nesting) (.ofList cs) = some q ∧
      l.Decides (fun x => StateEnds r → Yields x (.constant c) r) q := by
  have hkeyword : Finds (keyword? "state" (.ofList cs)) () (' ' :: (t ++ r)) := by
    apply keyword?_finds (by decide)
    · simpa using hcs
    · rfl
  have hsolid : solid t = true := by
    obtain ⟨gap, -, rfl⟩ := ht
    exact solid_append (solid_of_isWord (isWord_token h)) _
  have hstate : l.Decides _ (state precedence nesting (.ofList (' ' :: (t ++ r)))) :=
    state_decides h hc ht (dropWhile_solid_append hsolid r)
  exact hstate.ifKeyword hkeyword fun hle hread hend => (hread hend).relax hle

/-- What is left behind a state: states, and then no more of its generator. -/
def StatesLeft (precedence : Precedence) (nesting : Nesting) (es : List GenExpr)
    (k r : List Char) : Prop :=
  (∀ e ∈ es, e.Spellable precedence ∧ e.nesting ≤ room nesting) ∧ NextGenerator k ∧
    ∃ gap ts, Gap gap ∧ Pieces GenExpr.SpelledState es ts ∧ r = gap ++ (ts ++ k)

theorem generator_decides {es : List GenExpr} {name : String} {home : Scalar} {ts u : List Char}
    (h : Scalar.ofToken? token = some kind) (hc : Word.IsSigned l.value → c.StandsFor kind l.value)
    (hname : isName name = true) (hhome : home ∈ Scalar.sized)
    (hes : ∀ e ∈ es, e.Spellable precedence ∧ e.nesting ≤ room nesting)
    (hts : Pieces GenExpr.SpelledState es ts) (hu : SpelledConstant l token u)
    (hcs : cs.dropWhile isBlank = "generator ".toList ++ (name.toList ++ ' ' ::
      (home.label.toList ++ '\n' :: (ts ++ ("state ".toList ++ (u ++ rest)))))) :
    l.Decides (fun x => ∀ es' k, StatesLeft precedence nesting es' k rest →
        ∃ r', r'.dropWhile isBlank = k ∧
          Yields x ⟨.scalar home, name, es ++ .constant c :: es', by simp⟩ r')
      (generator precedence nesting (.ofList cs)) := by
  obtain ⟨hlt, e⟩ := heading_yields hname hhome hcs rfl
  have hstates := hts.blank_append gap_newline.blank
  have hanew : StartsAnew ("state ".toList ++ (u ++ rest)) := ⟨rfl, rfl⟩
  obtain ⟨cs', hlt', hcs', e'⟩ := many_skips (fun _ hs => hs.1) hstates
    (fun _ _ _ ht r => startsAnew_of_spelledState ht r)
    (fun e he t ht cs r hcs hr => state_offers (hes e he).1 (hes e he).2 ht hcs hr)
    hanew [] hlt rfl
  obtain ⟨q, hq, hdecides⟩ : ∃ q, Rule.ifKeyword "state" (state precedence nesting)
      (.ofList cs') = some q ∧ l.Decides _ q := state?_decides h hc hu hcs'
  refine hdecides.around (fun error herror => ?_) fun _ hread es' k hleft => ?_
  · simp only [generator, e, e']
    rw [many, hq, herror]
  · obtain ⟨hes', hk, gap, us, hgap, hus, rfl⟩ := hleft
    have hend : StateEnds (gap ++ (us ++ k)) := stateEnds_of_follows
      (hus.follows (fun _ _ _ ht r => startsAnew_of_spelledState ht r) hgap
        (startsAnew_of_nextGenerator hk))
    obtain ⟨hlt₁, e₁⟩ := hread hend
    obtain ⟨r', hr', hlt₂, e₂⟩ := states_yield hes' hus hk (.constant c :: (es.reverse ++ []))
      (Nat.lt_trans hlt₁ hlt') (dropWhile_blank_append hgap.blank _)
    have hmany : many (Rule.ifKeyword "state" (state precedence nesting)) [] (.ofList _) hlt =
        .ok ⟨es ++ .constant c :: es', .ofList r', hlt₂⟩ := by
      rw [e', many, hq, e₁]
      simpa using e₂
    refine ⟨r', hr', hlt₂, ?_⟩
    simp only [generator, e, hmany]
    exact dif_neg (by simp)

/-- A literal decides how the reading of its source ends. If it is read, so are the generators, with
what the literal stands for in its place. -/
theorem generators_decide (h : Scalar.ofToken? token = some kind)
    (hc : Word.IsSigned l.value → c.StandsFor kind l.value)
    (hfront : ∀ g ∈ front.close (.wrap 0) ⟨[], []⟩,
      g.Spellable precedence ∧ g.Within (room nesting))
    (ht : front.Spelled l token t) (found : List Generator) :
    l.Decides (fun x => ∀ back : StateBack, (∀ g ∈ front.close (.wrap 0) back,
        g.Spellable precedence ∧ g.Within (room nesting)) → back.Spelled rest →
          x = .ok (found.reverse ++ front.close c back))
      (generators precedence nesting found (.ofList (t ++ rest))) := by
  obtain ⟨gt, ts, u, hgt, hts, hu, rfl⟩ := ht
  obtain ⟨hbefore, hown⟩ := List.forall_mem_append.mp hfront
  obtain ⟨⟨hname, hhome, hstates⟩, hwithin⟩ := hown _ List.mem_cons_self
  have hes : ∀ e ∈ front.states, e.Spellable precedence ∧ e.nesting ≤ room nesting :=
    fun e he => ⟨hstates e (List.mem_append_left _ he), hwithin e (List.mem_append_left _ he)⟩
  obtain ⟨s, hs⟩ : ∃ s, s = "generator ".toList ++ (front.name.toList ++ ' ' ::
      (front.kind.label.toList ++ '\n' :: (ts ++ ("state ".toList ++ (u ++ rest))))) := ⟨_, rfl⟩
  have hsource : gt ++ ("generator ".toList ++ (front.name.toList ++ ' ' ::
      (front.kind.label.toList ++ '\n' :: (ts ++ ("state ".toList ++ u))))) ++ rest = gt ++ s := by
    simp [hs]
  obtain ⟨cs', hcs', e⟩ : ∃ cs', cs'.dropWhile isBlank = s ∧
      generators precedence nesting found (.ofList (gt ++ s)) =
        generators precedence nesting (front.generators.reverse ++ found) (.ofList cs') :=
    generators_skip hgt hbefore hs found
      (startsAnew_of_nextGenerator (nextGenerator_append hgt hs)).1
  rw [hsource, e]
  rw [hs] at hcs'
  have hgenerator : l.Decides _ (generator precedence nesting (.ofList cs')) :=
    generator_decides h hc hname hhome hes hts hu hcs'
  refine hgenerator.around (fun error herror => ?_) fun hvalue hread back hback hrest => ?_
  · rw [generators, herror]
  · obtain ⟨gap, us, gt', hgap, hus, hgt', rfl⟩ := hrest
    obtain ⟨⟨⟨-, -, hstates'⟩, hwithin'⟩, hafter⟩ :=
      List.forall_mem_cons.mp (List.forall_mem_append.mp hback).2
    have hes' : ∀ e ∈ back.states, e.Spellable precedence ∧ e.nesting ≤ room nesting := fun e he =>
      ⟨hstates' e (List.mem_append_right _ (List.mem_cons_of_mem _ he)),
        hwithin' e (List.mem_append_right _ (List.mem_cons_of_mem _ he))⟩
    obtain ⟨r', hr', hyields⟩ := hread back.states gt'
      ⟨hes', nextGenerator_of_spelledAll hgt', gap, us, hgap, hus, rfl⟩
    rw [generators_of_yields hyields hgt' hr' _ fun hne =>
      generators_of_spelledAll hgt' hne hafter _ hr']
    simp [StateFront.close]

end Whole

end Generator.Grammar

end FuzzFrontend
