import FuzzFrontend.Proofs.Generator.Shape
import FuzzFrontend.Proofs.Scan.Correspondence

namespace FuzzFrontend

/-- Generators of one name and one type whose states are related one by one. -/
structure Generator.Alike (S : GenExpr → GenExpr → Prop) (g g' : Generator) : Prop where
  name : g.name = g'.name
  resultType : g.resultType = g'.resultType
  states : List.Forall₂ S g.states g'.states

theorem Generator.eq_of_alike {g g' : Generator} (h : g.Alike Eq g') : g = g' := by
  obtain ⟨ty, name, states, hne⟩ := g
  obtain ⟨ty', name', states', hne'⟩ := g'
  obtain ⟨hname, hty, hstates⟩ := h
  rw [List.forall₂_eq_eq_eq] at hstates
  cases hname
  cases hty
  cases hstates
  rfl

theorem Generator.eq_of_forall₂_alike {gs gs' : List Generator}
    (h : List.Forall₂ (Generator.Alike Eq) gs gs') : gs = gs' := by
  rw [← List.forall₂_eq_eq_eq]
  exact h.imp fun _ _ => Generator.eq_of_alike

end FuzzFrontend

namespace FuzzFrontend.Generator.Grammar

open Scan

/-- The same operator, and related terms after it. -/
def LinkAlike (T : GenExpr → GenExpr → Prop) (p q : ArithmeticOp × GenExpr) : Prop :=
  p.1 = q.1 ∧ T p.2 q.2

/-- Relations between the terms and between the states of two readings that pass from the bounds of
a random value to the value, and from a chain to its groupings. -/
structure Carried (T S : GenExpr → GenExpr → Prop) (left right : Precedence) : Prop where
  constant : ∀ value, T (.constant value) (.constant value)
  least : ∀ ty, T (.least ty) (.least ty)
  greatest : ∀ ty, T (.greatest ty) (.greatest ty)
  random : ∀ ty {low low' high high'}, S low low' → S high high' →
    T (.random ty low high) (.random ty low' high')
  grouped : ∀ {a a' links links'}, T a a' → List.Forall₂ (LinkAlike T) links links' →
    S (grouped left (a, links)) (grouped right (a', links'))

theorem carried_eq (precedence : Precedence) : Carried Eq Eq precedence precedence where
  constant _ := rfl
  least _ := rfl
  greatest _ := rfl
  random := by
    rintro _ _ _ _ _ rfl rfl
    rfl
  grouped := by
    rintro a _ links links' rfl hlinks
    have hsame : links = links' := by
      rw [← List.forall₂_eq_eq_eq]
      exact hlinks.imp fun _ _ h => Prod.ext h.1 h.2
    rw [hsame]

theorem exists_forType {kind : Scalar} (hkind : kind ∈ Scalar.sized) {value : Int}
    (hvalue : Word.IsSigned value) : ∃ c, Constant.forType (.scalar kind) value = .ok c := by
  unfold Constant.forType
  dsimp only
  cases hsigned : kind.isSigned with
  | true => exact ⟨.signed value hvalue, by rw [if_pos rfl, Constant.ofSigned, dif_pos hvalue]; rfl⟩
  | false =>
      have hunsigned : kind.isUnsigned = true := by
        revert hkind hsigned
        cases kind <;> decide
      exact ⟨.wrap value, by simp [hunsigned]⟩

theorem oneLine_of_isName {name : String} (h : isName name = true) : OneLine name.toList := by
  rcases isName_iff.mp h with ⟨own, heq, -, hown⟩ | ⟨-, hword, -⟩
  · rw [heq]
    exact oneLine_append.mpr ⟨by decide, oneLine_of_isWordChar hown⟩
  · exact oneLine_of_isWord hword

/-- The scanners of generators keep the correspondence. -/
structure Kept (C : Correspondence) : Prop extends C.Kept where
  intLiteral : C.Keeps intLiteral
  generatorName : ∀ ⦃s s'⦄, C.input s s' → C.Ends Eq (generatorName s) (generatorName s')
  unknownType : ∀ ⦃s s'⦄, C.input s s' → ∀ {text : String}, isWord text.toList = true →
    text.toList <+: s.skipBlanks.chars → text.toList <+: s'.skipBlanks.chars →
      C.fault (.problem s.skipBlanks (.unknownType text) [])
        (.problem s'.skipBlanks (.unknownType text) [])

namespace Kept

variable {C : Correspondence}

section Literals

theorem typeToken (hC : Kept C) : C.Keeps typeToken := by
  intro s s' h
  unfold Grammar.typeToken
  rcases (hC.identifier h).cases with ⟨e, e', he, he', -⟩ | ⟨p, p', hp, hp', hvalue, hrest⟩
  · simp only [he, he']
    exact .error (hC.unexpected h (by decide))
  · have hword := value_prefix_of_identifier (hC.plain h).1 hp
    have hword' := value_prefix_of_identifier (hC.plain h).2 hp'
    have hform := (identifier_ensures s (hC.plain h).1 p hp).1
    simp only [hp, hp', ← hvalue] at hword' ⊢
    cases Scalar.ofToken? p.value with
    | none => exact .error (hC.unknownType h hform hword hword')
    | some kind => exact .ok ⟨rfl, hrest⟩

theorem bracketedLiteral (hC : Kept C) : C.Keeps bracketedLiteral :=
  (hC.symbol rfl asked_none).andThen fun _ => hC.intLiteral.followedBy (hC.symbol rfl asked_none)

theorem emptyBrackets (hC : Kept C) : C.Keeps emptyBrackets :=
  (hC.symbol rfl asked_none).andThen fun _ => hC.symbol rfl asked_none

theorem textConstant (hC : Kept C) {T : GenExpr → GenExpr → Prop}
    (htext : T (.constant (.text textToken)) (.constant (.text textToken))) {start start' : Input}
    (hstart : C.fault (.problem start (.unknownType textToken) [])
      (.problem start' (.unknownType textToken) [])) {s s' : Input} (h : C.input s s') :
    C.Ends T (textConstant start s) (textConstant start' s') := by
  unfold Grammar.textConstant
  refine Correspondence.Ends.andThen (hC.symbol rfl asked_none h) fun _ _ t t' _ htt' => ?_
  refine hC.onKeyword_ends rfl htt' (fun t t' htt' => ?_) (.error hstart)
  exact (hC.bracketedLiteral htt').map fun _ _ _ => htext

theorem typedConstant (hC : Kept C) {T : GenExpr → GenExpr → Prop}
    (hconstant : ∀ value, T (.constant value) (.constant value)) {kind : Scalar}
    (hkind : kind ∈ Scalar.sized) {s s' : Input} (h : C.input s s') :
    C.Ends T (typedConstant kind s) (typedConstant kind s') := by
  unfold Grammar.typedConstant
  rcases (hC.bracketedLiteral h).cases with
    ⟨e, e', he, he', hfault⟩ | ⟨p, p', hp, hp', hvalue, hrest⟩
  · simp only [he, he']
    exact .error hfault
  · have hsigned := (bracketedLiteral_ensures s (hC.plain h).1 p hp).1
    obtain ⟨c, hc⟩ := exists_forType hkind hsigned
    simp only [hp, hp', ← hvalue, hc]
    exact .ok ⟨hconstant c, hrest⟩

end Literals

section Terms

/-- The rules for what stands inside keep the correspondence, up to a relation of states. -/
abbrev Inward {m n : Nat} (C : Correspondence) (S : GenExpr → GenExpr → Prop) (p : Inner m)
    (q : Inner n) : Prop :=
  ∀ nesting ⦃s s'⦄ h h', C.input s s' → C.Ends S (p nesting s h) (q nesting s' h')

variable {T S : GenExpr → GenExpr → Prop} {left right : Precedence} {m n : Nat} {inner : Inner m}
  {inner' : Inner n}

theorem randomRest (hC : Kept C) (hTS : Carried T S left right) (hinner : Inward C S inner inner')
    (nesting : Nesting) (kind : Scalar) {s s' : Input} (hs : C.input s s') (h : s.length ≤ m)
    (h' : s'.length ≤ n) :
    C.Ends T (randomRest inner nesting kind s h) (randomRest inner' nesting kind s' h') := by
  unfold Grammar.randomRest
  rcases (hC.enter hs nesting).cases with
    ⟨e, e', he, he', hfault⟩ | ⟨nested, nested', hn, hn', rfl⟩
  · simp only [he, he']
    exact .error hfault
  simp only [hn, hn']
  rcases (hC.symbol (c := '(') rfl asked_none hs).cases with
    ⟨e, e', he, he', hfault⟩ | ⟨p, p', hp, hp', -, hrest⟩
  · simp only [he, he']
    exact .error hfault
  simp only [hp, hp']
  rcases (hinner nested (p.rest_lt_of_le h) (p'.rest_lt_of_le h') hrest).cases with
    ⟨e, e', he, he', hfault⟩ | ⟨low, low', hlow, hlow', hlows, hrest⟩
  · simp only [he, he']
    exact .error hfault
  simp only [hlow, hlow']
  rcases (hC.symbol (c := ',') rfl asked_none hrest).cases with
    ⟨e, e', he, he', hfault⟩ | ⟨q, q', hq, hq', -, hrest⟩
  · simp only [he, he']
    exact .error hfault
  simp only [hq, hq']
  have hbelow := Nat.lt_trans q.shorter (Nat.lt_trans low.shorter (p.rest_lt_of_le h))
  have hbelow' := Nat.lt_trans q'.shorter (Nat.lt_trans low'.shorter (p'.rest_lt_of_le h'))
  rcases (hinner nested hbelow hbelow' hrest).cases with
    ⟨e, e', he, he', hfault⟩ | ⟨high, high', hhigh, hhigh', hhighs, hrest⟩
  · simp only [he, he']
    exact .error hfault
  simp only [hhigh, hhigh']
  exact (hC.symbol rfl asked_none hrest).mapRelax (fun _ _ _ => hTS.random _ hlows hhighs) _ _

theorem typedTerm (hC : Kept C) (hTS : Carried T S left right) (hinner : Inward C S inner inner')
    (nesting : Nesting) {kind : Scalar} (hkind : kind ∈ Scalar.sized) {s s' : Input}
    (hs : C.input s s') (h : s.length ≤ m) (h' : s'.length ≤ n) :
    C.Ends T (typedTerm inner nesting kind s h) (typedTerm inner' nesting kind s' h') := by
  unfold Grammar.typedTerm
  rcases (hC.symbol (c := ':') rfl asked_none hs).cases with
    ⟨e, e', he, he', hfault⟩ | ⟨colon, colon', hcolon, hcolon', -, hafter⟩
  · simp only [he, he']
    exact .error hfault
  simp only [hcolon, hcolon']
  refine Correspondence.Ends.relax ?_ _ _
  rcases (hC.keyword? "constant" rfl hafter).cases with
    ⟨hk, hk'⟩ | ⟨k, k', hk, hk', -, hrest⟩
  · simp only [hk, hk']
    rcases (hC.keyword? "min" rfl hafter).cases with
      ⟨hk, hk'⟩ | ⟨k, k', hk, hk', -, hrest⟩
    · simp only [hk, hk']
      rcases (hC.keyword? "max" rfl hafter).cases with
        ⟨hk, hk'⟩ | ⟨k, k', hk, hk', -, hrest⟩
      · simp only [hk, hk']
        rcases (hC.keyword? "random" rfl hafter).cases with
          ⟨hk, hk'⟩ | ⟨k, k', hk, hk', -, hrest⟩
        · simp only [hk, hk']
          exact .error (hC.unexpected hafter (by decide))
        · simp only [hk, hk']
          exact (hC.randomRest hTS hinner nesting kind hrest _ _).relax _ _
      · simp only [hk, hk']
        exact (hC.emptyBrackets hrest).mapRelax (fun _ _ _ => hTS.greatest _) _ _
    · simp only [hk, hk']
      exact (hC.emptyBrackets hrest).mapRelax (fun _ _ _ => hTS.least _) _ _
  · simp only [hk, hk']
    exact (hC.typedConstant hTS.constant hkind hrest).relax _ _

theorem term (hC : Kept C) (hTS : Carried T S left right) (hinner : Inward C S inner inner')
    (nesting : Nesting) {s s' : Input} (hs : C.input s s') (h : s.length ≤ m)
    (h' : s'.length ≤ n) :
    C.Ends T (term inner nesting s h) (term inner' nesting s' h') := by
  unfold Grammar.term
  rcases (hC.keyword? textToken rfl hs).cases with
    ⟨hk, hk'⟩ | ⟨k, k', hk, hk', -, hrest⟩
  · simp only [hk, hk']
    rcases (hC.typeToken hs).cases with ⟨e, e', he, he', hfault⟩ | ⟨p, p', hp, hp', hvalue, hrest⟩
    · simp only [he, he']
      exact .error hfault
    · have hkind := (typeToken_ensures s (hC.plain hs).1 p hp).1
      simp only [hp, hp', ← hvalue]
      exact (hC.typedTerm hTS hinner nesting hkind hrest _ _).relax _ _
  · simp only [hk, hk']
    have hstart := hC.unknownType hs rfl (prefix_of_keyword? hk) (prefix_of_keyword? hk')
    exact (hC.textConstant (hTS.constant _) hstart hrest).relax _ _

end Terms

section States

variable {T S : GenExpr → GenExpr → Prop} {left right : Precedence} {m n : Nat} {inner : Inner m}
  {inner' : Inner n}

theorem arithmeticOp? (hC : Kept C) ⦃s s' : Input⦄ (h : C.input s s') :
    C.Finds Eq (arithmeticOp? s) (arithmeticOp? s') := by
  have hsolid : ∀ op ∈ arithmetic, op.val.symbol.toList.any isBlank = false := by decide
  exact Option.Rel.findSome? fun op hop =>
    (hC.literal? op.val.symbol_ne_empty (hsolid op hop) h).mapValue fun _ _ _ => rfl

theorem terms (hC : Kept C) (hTS : Carried T S left right) (hinner : Inward C S inner inner')
    (nesting : Nesting) {found found' : List (ArithmeticOp × GenExpr)}
    (hfound : List.Forall₂ (LinkAlike T) found found') {s s' : Input} (hs : C.input s s')
    (h : s.length < m) (h' : s'.length < n) :
    C.Ends (List.Forall₂ (LinkAlike T)) (terms inner nesting found s h)
      (terms inner' nesting found' s' h') := by
  -- The induction follows the first reading. The second one is of another text, so it is opened by
  -- its equation in each case.
  fun_induction Grammar.terms inner nesting found s h generalizing found' s' with
  | case1 found s h hnone =>
      rw [terms.eq_def inner']
      simp only [(hC.arithmeticOp? hs).of_none hnone]
      exact .ok ⟨List.rel_reverse hfound, hs⟩
  | case2 found s h op hop e he =>
      obtain ⟨op', hop', -, hrest⟩ := (hC.arithmeticOp? hs).of_some hop
      have hbound := Nat.le_of_lt (Nat.lt_trans op'.shorter h')
      obtain ⟨e', he', hfault⟩ := (hC.term hTS hinner nesting hrest _ hbound).of_error he
      rw [terms.eq_def inner']
      simp only [hop', he']
      exact .error hfault
  | case3 found s h op hop p hp ih =>
      obtain ⟨op', hop', hsame, hrest⟩ := (hC.arithmeticOp? hs).of_some hop
      have hbound := Nat.le_of_lt (Nat.lt_trans op'.shorter h')
      obtain ⟨p', hp', hvalue, hleft⟩ := (hC.term hTS hinner nesting hrest _ hbound).of_ok hp
      rw [terms.eq_def inner']
      simp only [hop', hp']
      exact ih (.cons ⟨hsame, hvalue⟩ hfound) hleft _

theorem chain (hC : Kept C) (hTS : Carried T S left right) {s s' : Input} {inner : Inner s.length}
    {inner' : Inner s'.length} (hinner : Inward C S inner inner') (nesting : Nesting)
    (hs : C.input s s') :
    C.Ends (fun c c' => T c.1 c'.1 ∧ List.Forall₂ (LinkAlike T) c.2 c'.2) (chain s inner nesting)
      (chain s' inner' nesting) := by
  unfold Grammar.chain
  rcases (hC.term hTS hinner nesting hs s.length_le_self s'.length_le_self).cases with
    ⟨e, e', he, he', hfault⟩ | ⟨p, p', hp, hp', hvalue, hrest⟩
  · simp only [he, he']
    exact .error hfault
  · simp only [hp, hp']
    exact (hC.terms hTS hinner nesting .nil hrest _ _).map fun _ _ hlinks => ⟨hvalue, hlinks⟩

theorem state (hC : Kept C) (hTS : Carried T S left right) (nesting : Nesting) {s s' : Input}
    (h : C.input s s') : C.Ends S (state left nesting s) (state right nesting s') := by
  fun_induction Grammar.state left nesting s generalizing s' with
  | case1 nesting s ih =>
      rw [state.eq_def right nesting s']
      exact (hC.chain hTS (fun nested t t' ht _ htt' => ih nested t ht htt') nesting h).map
        fun _ _ hc => hTS.grouped hc.1 hc.2

end States

section Generators

variable {T S : GenExpr → GenExpr → Prop} {left right : Precedence}

theorem heading (hC : Kept C) : C.Keeps heading := by
  refine (hC.keyword rfl asked_none).andThen fun _ s s' h => ?_
  unfold nameAndType
  rcases (hC.generatorName h).cases with
    ⟨e, e', he, he', hfault⟩ | ⟨p, p', hp, hp', hvalue, hrest⟩
  · simp only [he, he']
    exact .error hfault
  · simp only [hp, hp', ← hvalue]
    exact (hC.typeToken hrest).mapRelax (fun _ _ => congrArg _) _ _

theorem generator (hC : Kept C) (hTS : Carried T S left right) (nesting : Nesting) {s s' : Input}
    (h : C.input s s') :
    C.Ends (Generator.Alike S) (generator left nesting s) (generator right nesting s') := by
  unfold Grammar.generator
  rcases (hC.heading h).cases with ⟨e, e', he, he', hfault⟩ | ⟨p, p', hp, hp', hvalue, hrest⟩
  · simp only [he, he']
    exact .error hfault
  simp only [hp, hp', ← hvalue]
  have hitem : ∀ ⦃t t'⦄, C.input t t' →
      C.Offers S (Rule.ifKeyword "state" (Grammar.state left nesting) t)
        (Rule.ifKeyword "state" (Grammar.state right nesting) t') :=
    hC.ifKeyword rfl fun t t' htt' => hC.state hTS nesting htt'
  rcases (Correspondence.many_ends hitem .nil hrest p.rest_lt p'.rest_lt).cases with
    ⟨e, e', he, he', hfault⟩ | ⟨q, q', hq, hq', hstates, hleft⟩
  · simp only [he, he']
    exact .error hfault
  simp only [hq, hq']
  have hempty : q.value = [] ↔ q'.value = [] := by
    rw [← List.length_eq_zero_iff, hstates.length_eq, List.length_eq_zero_iff]
  by_cases hnil : q.value = []
  · have hname := (heading_ensures s (hC.plain h).1 p hp).1.1
    rw [dif_pos hnil, dif_pos (hempty.mp hnil)]
    exact .error (hC.problem hleft rfl (List.forall_mem_singleton.mpr (oneLine_of_isName hname))
      (.emptyGenerator _) (.emptyGenerator _))
  · rw [dif_neg hnil, dif_neg (mt hempty.mpr hnil)]
    exact .ok ⟨⟨rfl, rfl, hstates⟩, hleft⟩

theorem generators (hC : Kept C) (hTS : Carried T S left right) (nesting : Nesting)
    {found found' : List Generator} (hfound : List.Forall₂ (Generator.Alike S) found found')
    {s s' : Input} (h : C.input s s') :
    Agree C.fault (List.Forall₂ (Generator.Alike S)) (generators left nesting found s)
      (generators right nesting found' s') := by
  fun_induction Grammar.generators left nesting found s generalizing found' s' with
  | case1 found s e he =>
      obtain ⟨e', he', hfault⟩ := (hC.generator hTS nesting h).of_error he
      rw [generators.eq_def right nesting found' s']
      simp only [he']
      exact .error hfault
  | case2 found s p hp hempty =>
      obtain ⟨p', hp', hvalue, hrest⟩ := (hC.generator hTS nesting h).of_ok hp
      rw [generators.eq_def right nesting found' s']
      simp only [hp', ← hC.isEmpty hrest, if_pos hempty]
      exact .ok (List.rel_reverse (.cons hvalue hfound))
  | case3 found s p hp hempty ih =>
      obtain ⟨p', hp', hvalue, hrest⟩ := (hC.generator hTS nesting h).of_ok hp
      rw [generators.eq_def right nesting found' s']
      simp only [hp', ← hC.isEmpty hrest, if_neg hempty]
      exact ih (.cons hvalue hfound) hrest

end Generators

end Kept

end FuzzFrontend.Generator.Grammar
