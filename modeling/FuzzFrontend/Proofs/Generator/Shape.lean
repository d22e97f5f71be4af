import FuzzFrontend.Proofs.Generator.ReadGenerator
import FuzzFrontend.Proofs.Scan.Ensures

namespace FuzzFrontend.Generator.Grammar

open Scan
open GeneratorName (standard)

variable {precedence : Precedence}

section Literals

theorem typeToken_ensures : Ensures typeToken fun kind => kind ∈ Scalar.sized := by
  intro s hs
  unfold typeToken
  split
  · exact .error
  · rename_i p hp
    split
    · rename_i kind hkind
      exact .ok (List.mem_of_find?_eq_some hkind) (identifier_ensures s hs p hp).2
    · exact .error

theorem plain_sign {s : Input} (hs : Plain s) : Plain (sign s).2 := by
  unfold sign
  split
  · exact hs
  · exact hs

theorem isDigits_spelledWhile {s : Input} (hs : Plain s) (h : s.spelledWhile Char.isDigit ≠ []) :
    isDigits (s.spelledWhile Char.isDigit) = true := by
  refine isDigits_iff.mpr ⟨h, ?_⟩
  rw [spelledWhile_of_plain hs]
  exact List.all_eq_true.mp List.all_takeWhile

theorem intLiteral_ensures : Ensures intLiteral fun v => Word.IsSigned v := by
  apply Ensures.afterBlanks
  intro s hs
  dsimp only
  split
  · exact .error
  · split
    · exact .error
    · intro p hp
      obtain ⟨v, hv, rfl⟩ := map_eq_ok.mp hp
      exact ⟨isSigned_of_signedWord hv, plain_sign hs⟩

theorem bracketedLiteral_ensures : Ensures bracketedLiteral fun v => Word.IsSigned v :=
  (symbol_ensures '(' none).andThen fun _ _ =>
    intLiteral_ensures.followedBy (symbol_ensures ')' none)

theorem emptyBrackets_ensures : Ensures emptyBrackets fun _ => True :=
  (symbol_ensures '(' none).andThen fun _ _ => symbol_ensures ')' none

end Literals

section States

/-- The state has a spelling, and there is room for its random values. -/
def StateFits (precedence : Precedence) (nesting : Nesting) (e : GenExpr) : Prop :=
  e.Spellable precedence ∧ e.nesting ≤ room nesting

/-- It is no chain besides. -/
def TermFits (precedence : Precedence) (nesting : Nesting) (e : GenExpr) : Prop :=
  StateFits precedence nesting e ∧ e.root? = none

theorem stateFits_grouped {nesting : Nesting} {first : GenExpr}
    {links : List (ArithmeticOp × GenExpr)} (hfirst : TermFits precedence nesting first)
    (hlinks : ∀ p ∈ links, TermFits precedence nesting p.2) :
    StateFits precedence nesting (grouped precedence (first, links)) := by
  refine Chain.group_meets GenExpr.root? (fun _ _ _ => rfl) ?_ hfirst hlinks
  rintro l op r ⟨hl, hln⟩ ⟨hr, hrn⟩ hleft hright
  exact ⟨.compound hl hr (GenExpr.forall_rootOp?_iff.mpr hleft)
    (GenExpr.forall_rootOp?_iff.mpr hright), Nat.max_le.mpr ⟨hln, hrn⟩⟩

theorem termFits_constant {c : Constant} (h : c.Spellable) (nesting : Nesting) :
    TermFits precedence nesting (.constant c) :=
  ⟨⟨.constant h, Nat.zero_le _⟩, rfl⟩

theorem textConstant_ensures (start : Input) (nesting : Nesting) :
    Ensures (textConstant start) (TermFits precedence nesting) := by
  have htext : (Constant.text textToken).Spellable := rfl
  refine (symbol_ensures ':' none).andThen fun _ _ => Ensures.onKeyword ?_ fun s hs => .error
  exact Ensures.map (bracketedLiteral_ensures.imp fun _ _ => termFits_constant htext nesting)

theorem spellable_of_forType {ty : Ty} {v : Int} {c : Constant}
    (h : Constant.forType ty v = .ok c) : c.Spellable := by
  unfold Constant.forType at h
  split at h
  · split at h
    · rw [mapError_eq_ok, Constant.ofSigned] at h
      split at h
      · cases h
        trivial
      · cases h
    · split at h
      · cases h
        trivial
      · cases h
  · cases h

theorem typedConstant_ensures (kind : Scalar) (nesting : Nesting) :
    Ensures (typedConstant kind) (TermFits precedence nesting) := by
  intro s hs
  unfold typedConstant
  split
  · exact .error
  · rename_i p hp
    split
    · exact .error
    · rename_i c hc
      exact .ok (termFits_constant (spellable_of_forType hc) nesting)
        (bracketedLiteral_ensures s hs p hp).2

variable {n : Nat} {inner : Inner n}

theorem randomRest_meets
    (hinner : ∀ nested t h, Plain t → Meets (inner nested t h) (StateFits precedence nested))
    (nesting : Nesting) {kind : Scalar} (hkind : kind ∈ Scalar.sized) {s : Input} (hs : Plain s)
    (h : s.length ≤ n) :
    Meets (randomRest inner nesting kind s h) (TermFits precedence nesting) := by
  unfold randomRest
  split
  · exact .error
  · rename_i nested henter
    split
    · exact .error
    · rename_i p hp
      split
      · exact .error
      · rename_i low hlow
        split
        · exact .error
        · rename_i q hq
          dsimp only
          split
          · exact .error
          · rename_i high hhigh
            have hp' := (symbol_ensures '(' none s hs p hp).2
            obtain ⟨⟨hl, hln⟩, hlow'⟩ := hinner nested p.rest _ hp' low hlow
            have hq' := (symbol_ensures ',' none low.rest hlow' q hq).2
            obtain ⟨⟨hh, hhn⟩, hhigh'⟩ := hinner nested q.rest _ hq' high hhigh
            have hbounds : max low.value.nesting high.value.nesting ≤ room nested :=
              Nat.max_le.mpr ⟨hln, hhn⟩
            refine Meets.mapRelax ((symbol_ensures ')' none high.rest hhigh').imp fun _ _ => ?_) _
            refine ⟨⟨.random hkind hl hh, ?_⟩, rfl⟩
            exact Nat.le_trans (Nat.succ_le_succ hbounds) (room_of_enter henter)

theorem typedTerm_meets
    (hinner : ∀ nested t h, Plain t → Meets (inner nested t h) (StateFits precedence nested))
    (nesting : Nesting) {kind : Scalar} (hkind : kind ∈ Scalar.sized) {s : Input} (hs : Plain s)
    (h : s.length ≤ n) :
    Meets (typedTerm inner nesting kind s h) (TermFits precedence nesting) := by
  unfold typedTerm
  split
  · exact .error
  · rename_i colon hcolon
    have hrest := (symbol_ensures ':' none s hs colon hcolon).2
    dsimp only
    refine Meets.relax ?_ _
    split
    · rename_i k hk
      exact (typedConstant_ensures kind nesting k.rest (plain_of_keyword? hrest hk)).relax _
    · split
      · rename_i k hk
        refine Meets.mapRelax ((emptyBrackets_ensures k.rest (plain_of_keyword? hrest hk)).imp
          fun _ _ => ?_) _
        exact ⟨⟨.least hkind, Nat.zero_le _⟩, rfl⟩
      · split
        · rename_i k hk
          refine Meets.mapRelax ((emptyBrackets_ensures k.rest (plain_of_keyword? hrest hk)).imp
            fun _ _ => ?_) _
          exact ⟨⟨.greatest hkind, Nat.zero_le _⟩, rfl⟩
        · split
          · rename_i k hk
            exact (randomRest_meets hinner nesting hkind (plain_of_keyword? hrest hk) _).relax _
          · exact .error

theorem term_meets
    (hinner : ∀ nested t h, Plain t → Meets (inner nested t h) (StateFits precedence nested))
    (nesting : Nesting) {s : Input} (hs : Plain s) (h : s.length ≤ n) :
    Meets (term inner nesting s h) (TermFits precedence nesting) := by
  unfold term
  split
  · rename_i k hk
    exact (textConstant_ensures _ nesting k.rest (plain_of_keyword? hs hk)).relax _
  · split
    · exact .error
    · rename_i p hp
      obtain ⟨hkind, hrest⟩ := typeToken_ensures s hs p hp
      exact (typedTerm_meets hinner nesting hkind hrest _).relax _

theorem plain_of_arithmeticOp? {s : Input} (hs : Plain s) {p : Parsed ArithmeticOp s.length}
    (h : arithmeticOp? s = some p) : Plain p.rest := by
  obtain ⟨op, -, hop⟩ := List.exists_of_findSome?_eq_some h
  obtain ⟨q, hq, rfl⟩ := Option.map_eq_some_iff.mp hop
  exact plain_of_literal? hs hq

theorem terms_meets
    (hinner : ∀ nested t h, Plain t → Meets (inner nested t h) (StateFits precedence nested))
    (nesting : Nesting) (found : List (ArithmeticOp × GenExpr))
    (hfound : ∀ p ∈ found, TermFits precedence nesting p.2) (s : Input) (hs : Plain s)
    (h : s.length < n) :
    Meets (terms inner nesting found s h) fun links =>
      ∀ p ∈ links, TermFits precedence nesting p.2 := by
  fun_induction terms inner nesting found s h with
  | case1 found s h hnone => exact .ok (by simpa using hfound) hs
  | case2 found s h op hop e he => exact .error
  | case3 found s h op hop p hp ih =>
      obtain ⟨hvalue, hrest⟩ := term_meets hinner nesting (plain_of_arithmeticOp? hs hop) _ p hp
      exact ih (List.forall_mem_cons.mpr ⟨hvalue, hfound⟩) hrest

theorem chain_meets {s : Input} {inner : Inner s.length}
    (hinner : ∀ nested t h, Plain t → Meets (inner nested t h) (StateFits precedence nested))
    (nesting : Nesting) (hs : Plain s) :
    Meets (chain s inner nesting) fun c =>
      TermFits precedence nesting c.1 ∧ ∀ p ∈ c.2, TermFits precedence nesting p.2 := by
  unfold chain
  split
  · exact .error
  · rename_i first hfirst
    obtain ⟨hvalue, hrest⟩ := term_meets hinner nesting hs (Nat.le_refl _) first hfirst
    have hlinks := terms_meets hinner nesting [] (by simp) first.rest hrest first.shorter
    exact Meets.map (hlinks.imp fun links hlinks => ⟨hvalue, hlinks⟩)

theorem state_ensures (precedence : Precedence) (nesting : Nesting) :
    Ensures (state precedence nesting) (StateFits precedence nesting) := by
  intro s hs
  fun_induction state precedence nesting s with
  | case1 nesting s ih =>
      refine Meets.map ((chain_meets (fun nested t h ht => ih nested t h ht) nesting hs).imp ?_)
      exact fun c hc => stateFits_grouped hc.1 hc.2

end States

section Generators

theorem dropWhile_eq_self_iff {s : Input} {p : Char → Bool} :
    s.dropWhile p = s ↔ s.chars.takeWhile p = [] := by
  have hsplit := List.takeWhile_append_dropWhile (p := p) (l := s.chars)
  constructor
  · intro h
    have hchars : s.chars.dropWhile p = s.chars := congrArg Input.chars h
    rw [hchars] at hsplit
    exact List.append_left_eq_self.mp hsplit
  · intro h
    rw [h, List.nil_append] at hsplit
    unfold Input.dropWhile
    rw [hsplit]

theorem upTo_of_append {s rest : Input} (hs : Plain s) {t : List Char}
    (h : s.chars = t ++ rest.chars) : upTo s rest = String.ofList t := by
  have hwidth : s.length - rest.length = t.length := by
    rw [Input.length, Input.length, h, List.length_append, Nat.add_sub_cancel]
  rw [upTo, spelled_of_plain hs, hwidth, h, List.take_left]

theorem upTo_standard {s rest : Input} (hs : Plain s) (h : s.after? standard = some rest) :
    upTo s (rest.dropWhile isWordChar) =
      String.ofList (standard ++ rest.chars.takeWhile isWordChar) := by
  have hsplit := List.takeWhile_append_dropWhile (p := isWordChar) (l := rest.chars)
  refine upTo_of_append hs ?_
  rw [List.append_assoc, Input.chars_eq_of_after? h]
  exact congrArg (standard ++ ·) hsplit.symm

theorem plain_of_after? {s rest : Input} {text : List Char} (hs : Plain s)
    (h : s.after? text = some rest) : Plain rest := by
  rw [(Input.after?_eq_some_iff.mp h).2]
  exact hs

theorem standardName_meets {s rest : Input} (hs : Plain s)
    (h : s.after? standard = some rest) :
    Meets (standardName s rest) fun name => isName name = true := by
  unfold standardName
  dsimp only
  split
  · exact .error
  · rename_i hmoved
    have hrest : Plain rest := plain_of_after? hs h
    refine .ok (isName_iff.mpr (Or.inl ⟨rest.chars.takeWhile isWordChar, ?_, ?_, ?_⟩)) hrest
    · rw [upTo_standard hs h, String.toList_ofList]
    · exact mt dropWhile_eq_self_iff.mpr hmoved
    · exact List.all_eq_true.mp List.all_takeWhile

theorem ownName_meets {s : Input} (hs : Plain s) :
    Meets (ownName s) fun name => isName name = true := by
  rw [eq_ofList_of_plain hs]
  unfold ownName
  split
  · exact .error
  · rename_i hword
    split
    · exact .error
    · rename_i hfree
      have hne : word s.chars ≠ [] := by simpa using hword
      have hisWord := isWord_word hne
      simp only [Input.word_ofList] at hfree ⊢
      refine .ok (isName_iff.mpr (Or.inr ⟨?_, by simpa using hisWord, hfree⟩)) rfl
      rintro ⟨own, heq⟩
      have hcolon : isWordChar ':' = true := by
        apply isWordChar_of_isWord hisWord
        rw [← String.toList_ofList (l := word s.chars), ← heq]
        simp [standard]
      exact absurd hcolon (by decide)

theorem generatorName_meets {s : Input} (hs : Plain s) :
    Meets (generatorName s) fun name => isName name = true := by
  have hskip : Plain s.skipBlanks := hs
  unfold generatorName
  split
  · rename_i rest hrest
    exact (standardName_meets hskip hrest).relax _
  · exact (ownName_meets hskip).relax _

theorem heading_ensures :
    Ensures heading fun p => isName p.1 = true ∧ p.2 ∈ Scalar.sized := by
  refine (keyword_ensures "generator" none).andThen fun _ _ s hs => ?_
  unfold nameAndType
  split
  · exact .error
  · rename_i p hp
    obtain ⟨hname, hrest⟩ := generatorName_meets hs p hp
    exact Meets.mapRelax ((typeToken_ensures p.rest hrest).imp fun kind hkind => ⟨hname, hkind⟩) _

theorem generator_ensures (precedence : Precedence) (nesting : Nesting) :
    Ensures (generator precedence nesting) fun g =>
      g.Spellable precedence ∧ g.Within (room nesting) := by
  intro s hs
  unfold generator
  split
  · exact .error
  · rename_i p hp
    obtain ⟨⟨hname, hkind⟩, hrest⟩ := heading_ensures s hs p hp
    dsimp only
    split
    · exact .error
    · rename_i q hq
      obtain ⟨hstates, hrest'⟩ :=
        many_meets (fun s hs r => ifKeyword_meets (state_ensures precedence nesting) hs) []
          (by simp) p.rest hrest p.shorter q hq
      split
      · exact .error
      · refine Meets.ok ⟨⟨hname, hkind, fun e he => (hstates e he).1⟩, ?_⟩ hrest'
        exact fun e he => (hstates e he).2

/-- Whatever is read as generators has a spelling, is at least one, and did not go deeper than
allowed. -/
theorem spellable_of_generators {precedence : Precedence} {nesting : Nesting} {s : Input}
    {found gs : List Generator} (hs : Plain s)
    (hfound : ∀ g ∈ found, g.Spellable precedence ∧ g.Within (room nesting))
    (h : generators precedence nesting found s = .ok gs) :
    gs ≠ [] ∧ ∀ g ∈ gs, g.Spellable precedence ∧ g.Within (room nesting) := by
  fun_induction generators precedence nesting found s with
  | case1 found s e he => cases h
  | case2 found s p hp hend =>
      cases h
      obtain ⟨hvalue, -⟩ := generator_ensures precedence nesting s hs p hp
      refine ⟨by simp, fun g hg => ?_⟩
      rcases List.mem_cons.mp (List.mem_reverse.mp hg) with rfl | hg
      · exact hvalue
      · exact hfound g hg
  | case3 found s p hp hend ih =>
      obtain ⟨hvalue, hrest⟩ := generator_ensures precedence nesting s hs p hp
      exact ih hrest (List.forall_mem_cons.mpr ⟨hvalue, hfound⟩) h

end Generators

end FuzzFrontend.Generator.Grammar
