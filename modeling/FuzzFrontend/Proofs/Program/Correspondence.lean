import FuzzFrontend.Program.Grammar.Phases
import FuzzFrontend.Proofs.Scan.Correspondence

namespace FuzzFrontend.Program.Grammar

open Scan

/-- The scanners of programs keep the correspondence. -/
structure Kept (C : Correspondence) : Prop extends C.Kept where
  outOfRange : ∀ ⦃s s'⦄, C.input s s' → ∀ {text : String}, isInteger text.toList = true →
    text.toList <+: s.skipBlanks.chars → text.toList <+: s'.skipBlanks.chars →
      C.fault (.problem s.skipBlanks (.constantOutOfRange text) [])
        (.problem s'.skipBlanks (.constantOutOfRange text) [])
  tooLong : ∀ ⦃s s'⦄, C.input s s' → ∀ {digits : List Char}, isDigits digits = true →
    digits <:+: s.skipBlanks.chars → digits <:+: s'.skipBlanks.chars →
      Text.maxNumeralDigits < digits.length →
        C.fault (.numeral (.tooLong digits.length)) (.numeral (.tooLong digits.length))

namespace Kept

variable {C : Correspondence}

section Types

theorem name (hC : Kept C) : C.Keeps name := by
  intro s s' h
  unfold Grammar.name
  rcases (hC.identifier h).cases with ⟨e, e', he, he', hfault⟩ | ⟨p, p', hp, hp', hvalue, hrest⟩
  · simp only [he, he']
    exact .error hfault
  · have hword := value_prefix_of_identifier (hC.plain h).1 hp
    have hword' := value_prefix_of_identifier (hC.plain h).2 hp'
    have hline := oneLine_of_isWord (identifier_ensures s (hC.plain h).1 p hp).1
    simp only [hp, hp', ← hvalue] at hword' ⊢
    split
    · exact .error (hC.problem h rfl (List.forall_mem_singleton.mpr hline)
        (.of_found nofun nofun rfl hword) (.of_found nofun nofun rfl hword'))
    · exact .ok ⟨hvalue, hrest⟩

theorem scalar? (hC : Kept C) ⦃s s' : Input⦄ (h : C.input s s') :
    C.Finds Eq (scalar? s) (scalar? s') := by
  unfold Grammar.scalar?
  rcases (hC.identifier h).cases with ⟨e, e', he, he', -⟩ | ⟨p, p', hp, hp', hvalue, hrest⟩
  · simp only [he, he']
    exact .none
  · simp only [hp, hp', ← hvalue]
    cases Scalar.ofSpelling? p.value with
    | none => exact .none
    | some kind => exact .some ⟨rfl, hrest⟩

theorem scalar (hC : Kept C) : C.Keeps scalar := by
  intro s s' h
  unfold Grammar.scalar
  rcases (hC.scalar? h).cases with ⟨hp, hp'⟩ | ⟨p, p', hp, hp', hleaves⟩
  · simp only [hp, hp']
    exact .error (hC.unexpected h (by decide))
  · simp only [hp, hp']
    exact .ok hleaves

theorem typeExpr (hC : Kept C) : C.Keeps typeExpr := by
  intro s s' h
  -- The induction follows the first reading. The second one is of another text, so it is opened by
  -- its equation in each case.
  fun_induction Grammar.typeExpr s generalizing s' with
  | case1 s k hk =>
      obtain ⟨k', hk', -, hrest⟩ := (hC.keyword? _ rfl h).of_some hk
      rw [typeExpr.eq_def s']
      simp only [hk']
      exact (hC.name hrest).mapRelax (fun _ _ => congrArg _) _ _
  | case2 s hstruct k hk =>
      obtain ⟨k', hk', -, hrest⟩ := (hC.keyword? _ rfl h).of_some hk
      rw [typeExpr.eq_def s']
      simp only [(hC.keyword? _ rfl h).of_none hstruct, hk']
      exact (hC.name hrest).mapRelax (fun _ _ => congrArg _) _ _
  | case3 s hstruct henum k hk e he ih =>
      obtain ⟨k', hk', -, hrest⟩ := (hC.keyword? _ rfl h).of_some hk
      obtain ⟨e', he', hfault⟩ := (ih hrest).of_error he
      rw [typeExpr.eq_def s']
      simp only [(hC.keyword? _ rfl h).of_none hstruct, (hC.keyword? _ rfl h).of_none henum, hk',
        he']
      exact .error hfault
  | case4 s hstruct henum k hk p hp ih =>
      obtain ⟨k', hk', -, hrest⟩ := (hC.keyword? _ rfl h).of_some hk
      obtain ⟨p', hp', hvalue, hleft⟩ := (ih hrest).of_ok hp
      rw [typeExpr.eq_def s']
      simp only [(hC.keyword? _ rfl h).of_none hstruct, (hC.keyword? _ rfl h).of_none henum, hk',
        hp']
      exact .ok ⟨congrArg (fun ty : TypeExpr => TypeExpr.known (.pointer ty.target)) hvalue, hleft⟩
  | case5 s hstruct henum hpointer p hp =>
      obtain ⟨p', hp', hvalue, hrest⟩ := (hC.scalar? h).of_some hp
      rw [typeExpr.eq_def s']
      simp only [(hC.keyword? _ rfl h).of_none hstruct, (hC.keyword? _ rfl h).of_none henum,
        (hC.keyword? _ rfl h).of_none hpointer, hp']
      exact .ok ⟨congrArg (fun kind => TypeExpr.known (.scalar kind)) hvalue, hrest⟩
  | case6 s hstruct henum hpointer hnone =>
      rw [typeExpr.eq_def s']
      simp only [(hC.keyword? _ rfl h).of_none hstruct, (hC.keyword? _ rfl h).of_none henum,
        (hC.keyword? _ rfl h).of_none hpointer, (hC.scalar? h).of_none hnone]
      exact .error (hC.unexpected h (by decide))

theorem typeRef (hC : Kept C) : C.Keeps typeRef :=
  hC.typeExpr

end Types

section Declarations

theorem scalarField (hC : Kept C) (form : Scalar → Ty) : C.Keeps (scalarField form) :=
  hC.scalar.andThen fun _ => hC.name.map _

theorem namedField (hC : Kept C) (form : String → TypeExpr) : C.Keeps (namedField form) :=
  hC.name.andThen fun _ => hC.name.map _

theorem field (hC : Kept C) : C.Keeps field := by
  refine (hC.onKeyword rfl (hC.scalarField _) (hC.onKeyword rfl (hC.namedField _)
    (hC.onKeyword rfl (hC.namedField _) ?_))).followedBy (hC.symbol rfl asked_none)
  intro s s' h
  rcases (hC.scalar? h).cases with ⟨hp, hp'⟩ | ⟨p, p', hp, hp', -⟩
  · simp only [hp, hp']
    exact .error (hC.unexpected h (by decide))
  · simp only [hp, hp']
    exact hC.scalarField _ h

theorem structDefinition (hC : Kept C) : C.Keeps structDefinition :=
  (hC.keyword rfl asked_none).andThen fun _ => hC.name.andThen fun _ => (hC.braced hC.field).map _

theorem enumNumber (hC : Kept C) : C.Keeps enumNumber := by
  intro s s' h
  unfold Grammar.enumNumber
  rcases (hC.numeral h).cases with ⟨e, e', he, he', hfault⟩ | ⟨p, p', hp, hp', hvalue, hrest⟩
  · simp only [he, he']
    exact .error hfault
  have htext := value_prefix_of_numeral (hC.plain h).1 hp
  have htext' := value_prefix_of_numeral (hC.plain h).2 hp'
  have hform := (numeral_ensures s (hC.plain h).1 p hp).1
  simp only [hp, hp', ← hvalue] at htext' ⊢
  split
  · exact .error (hC.unexpected h (by decide))
  · rename_i hpoint
    have hinteger : isInteger p.value.toList = true :=
      hform.resolve_right fun hdecimal => hpoint (point_mem_of_isDecimal hdecimal)
    have hdigits := dropSign_suffix p.value.toList
    refine Agree.map (signedWord_agree hinteger (hC.outOfRange h hinteger htext htext') ?_ _) ?_
    · exact hC.tooLong h hinteger (hdigits.isInfix.trans htext.isInfix)
        (hdigits.isInfix.trans htext'.isInfix)
    · exact fun _ _ hsame => ⟨hsame, hrest⟩

theorem enumEntryValue (hC : Kept C) (name : String) : C.Keeps (enumEntryValue name) := by
  intro s s' h
  unfold Grammar.enumEntryValue
  rcases (hC.symbol? (c := '=') rfl h).cases with ⟨hp, hp'⟩ | ⟨p, p', hp, hp', -, hrest⟩
  · simp only [hp, hp']
    exact (hC.symbol rfl (by decide) h).map fun _ _ _ => rfl
  · simp only [hp, hp']
    exact (hC.enumNumber.followedBy (hC.symbol rfl (by decide)) hrest).mapRelax
      (fun _ _ => congrArg _) _ _

theorem enumDefinition (hC : Kept C) : C.Keeps enumDefinition :=
  (hC.keyword rfl asked_none).andThen fun _ => hC.name.andThen fun _ =>
    (hC.braced (hC.name.andThen hC.enumEntryValue)).map _

theorem typedef (hC : Kept C) : C.Keeps typedef :=
  (hC.keyword rfl asked_none).andThen fun _ => hC.typeRef.andThen fun _ =>
    (hC.name.followedBy (hC.symbol rfl asked_none)).map _

theorem typeDeclaration? (hC : Kept C) ⦃s s' : Input⦄ (h : C.input s s') :
    C.Offers Eq (typeDeclaration? s) (typeDeclaration? s') := by
  unfold Grammar.typeDeclaration?
  rw [← (hC.keyword? "struct" rfl h).isSome_eq,
    ← (hC.keyword? "enum" rfl h).isSome_eq,
    ← (hC.keyword? "typedef" rfl h).isSome_eq]
  split
  · exact .some (hC.structDefinition.map _ h)
  · split
    · exact .some (hC.enumDefinition.map _ h)
    · split
      · exact .some (hC.typedef h)
      · exact .none

theorem generatorName (hC : Kept C) : C.Keeps generatorName :=
  hC.onKeyword rfl (hC.name.map _)
    (hC.onKeyword rfl hC.name fun _ _ h => .error (hC.unexpected h (by decide)))

theorem variableDeclaration? (hC : Kept C) ⦃s s' : Input⦄ (h : C.input s s') :
    C.Offers Eq (variableDeclaration? s) (variableDeclaration? s') := by
  have hconstrained : C.Keeps constrainedVariable := hC.name.andThen fun _ => hC.typeRef.map _
  have hfree : C.Keeps freeVariable :=
    hC.name.andThen fun _ => hC.generatorName.andThen fun _ => hC.typeRef.map _
  exact (hC.ifKeyword rfl hconstrained h).or (hC.ifKeyword rfl hfree h)

theorem functionDeclaration? (hC : Kept C) ⦃s s' : Input⦄ (h : C.input s s') :
    C.Offers Eq (functionDeclaration? s) (functionDeclaration? s') := by
  have hparameter : C.Keeps parameter := hC.typeRef.followedBy (hC.symbol rfl (by decide))
  have hsignature : C.Keeps signature :=
    hC.name.andThen fun _ => hC.typeRef.andThen fun _ => (hC.braced hparameter).map _
  exact hC.ifKeyword rfl hsignature h

end Declarations

section Operators

theorem binaryOp? (hC : Kept C) ⦃s s' : Input⦄ (h : C.input s s') :
    C.Finds Eq (binaryOp? s) (binaryOp? s') := by
  have hfound : C.Finds Eq
      (searchedOperators.findSome? fun op =>
        (literal? op.symbol.toList op.symbol_ne_empty s).map fun p => p.map fun _ => op)
      (searchedOperators.findSome? fun op =>
        (literal? op.symbol.toList op.symbol_ne_empty s').map fun p => p.map fun _ => op) := by
    refine Option.Rel.findSome? fun op _ => ?_
    have hsolid : op.symbol.toList.any isBlank = false := by cases op <;> rfl
    exact (hC.literal? op.symbol_ne_empty hsolid h).mapValue fun _ _ _ => rfl
  unfold Grammar.binaryOp?
  dsimp only
  rcases hfound.cases with ⟨hp, hp'⟩ | ⟨p, p', hp, hp', hvalue, hrest⟩
  · simp only [hp, hp']
    exact .none
  · simp only [hp, hp', Option.filter_some, ← hvalue, ← hC.startsNumber h]
    split
    · exact .some ⟨hvalue, hrest⟩
    · exact .none

theorem unaryKeyword? (hC : Kept C) ⦃s s' : Input⦄ (h : C.input s s') :
    C.Finds Eq
      (unaryKeywords.findSome? fun (text, op) => (keyword? text s).map fun k => k.map fun _ => op)
      (unaryKeywords.findSome? fun (text, op) =>
        (keyword? text s').map fun k => k.map fun _ => op) := by
  have hsolid : ∀ k ∈ unaryKeywords, k.1.toList.any isBlank = false := by decide
  exact Option.Rel.findSome? fun k hk =>
    (hC.keyword? _ (hsolid k hk) h).mapValue fun _ _ _ => rfl

theorem unaryOp? (hC : Kept C) ⦃s s' : Input⦄ (h : C.input s s') :
    C.Finds Eq (unaryOp? s) (unaryOp? s') := by
  unfold Grammar.unaryOp?
  dsimp only
  rcases (hC.unaryKeyword? h).cases with ⟨hp, hp'⟩ | ⟨p, p', hp, hp', hleaves⟩
  · simp only [hp, hp']
    rcases (hC.symbol? (c := '*') rfl h).cases with ⟨hq, hq'⟩ | ⟨q, q', hq, hq', -, hrest⟩
    · simp only [hq, hq', ← hC.isPrefixOf_ahead h (List.cons_ne_nil '&' ['&']) rfl]
      split
      · exact .none
      · exact (hC.symbol? rfl h).mapValue fun _ _ _ => rfl
    · simp only [hq, hq']
      exact .some ⟨rfl, hrest⟩
  · simp only [hp, hp']
    exact .some hleaves

end Operators

section Expressions

/-- The rules for what stands inside keep the correspondence. -/
abbrev Inward {α : Type} {m n : Nat} (C : Correspondence) (p : Inner α m) (q : Inner α n) : Prop :=
  ∀ nesting ⦃s s'⦄ h h', C.input s s' → C.Ends Eq (p nesting s h) (q nesting s' h')

variable {m n : Nat} {inner : Inner Expr m} {inner' : Inner Expr n}

theorem literal (hC : Kept C) : C.Keeps literal :=
  hC.numeral.map _

theorem nameOrField (hC : Kept C) : C.Keeps nameOrField := by
  intro s s' h
  unfold Grammar.nameOrField
  rcases (hC.name h).cases with ⟨e, e', he, he', hfault⟩ | ⟨p, p', hp, hp', hvalue, hrest⟩
  · simp only [he, he']
    exact .error hfault
  · simp only [hp, hp', ← hvalue]
    rcases (hC.symbol? (c := '.') rfl hrest).cases with
      ⟨hdot, hdot'⟩ | ⟨dot, dot', hdot, hdot', -, hmember⟩
    · simp only [hdot, hdot']
      exact .ok ⟨congrArg _ hvalue, hrest⟩
    · simp only [hdot, hdot']
      exact (hC.name hmember).mapRelax (fun _ _ => congrArg _) _ _

theorem callRest (hC : Kept C) (hinner : Inward C inner inner') (nesting : Nesting) {s s' : Input}
    (hs : C.input s s') (h : s.length < m) (h' : s'.length < n) :
    C.Ends Eq (callRest inner nesting s h) (callRest inner' nesting s' h') := by
  unfold Grammar.callRest
  rcases (hC.enter hs nesting).cases with
    ⟨e, e', he, he', hfault⟩ | ⟨nested, nested', hn, hn', rfl⟩
  · simp only [he, he']
    exact .error hfault
  · simp only [hn, hn']
    rcases (hC.name.followedBy (hC.symbol (c := '{') rfl asked_none) hs).cases with
      ⟨e, e', he, he', hfault⟩ | ⟨p, p', hp, hp', hvalue, hrest⟩
    · simp only [he, he']
      exact .error hfault
    · simp only [hp, hp', ← hvalue]
      exact (hC.itemsUntilBrace (fun t t' ht ht' htt' => hinner nested _ _ htt') [] hrest _ _).map
        fun _ _ => congrArg _

theorem operand (hC : Kept C) (hinner : Inward C inner inner') (nesting : Nesting) {s s' : Input}
    (hs : C.input s s') (h : s.length ≤ m) (h' : s'.length ≤ n) :
    C.Ends Eq (operand inner nesting s h) (operand inner' nesting s' h') := by
  unfold Grammar.operand
  rw [← hC.startsNumber hs]
  split
  · exact hC.literal hs
  · rcases (hC.keyword? "function:call" rfl hs).cases with
      ⟨hk, hk'⟩ | ⟨k, k', hk, hk', -, hrest⟩
    · simp only [hk, hk']
      rcases (hC.unaryOp? hs).cases with ⟨hu, hu'⟩ | ⟨u, u', hu, hu', hvalue, hrest⟩
      · simp only [hu, hu', ← hC.isEmpty_word hs]
        split
        · exact .error (hC.unexpected hs (by decide))
        · exact hC.nameOrField hs
      · simp only [hu, hu', ← hvalue]
        exact (hC.name hrest).mapRelax (fun _ _ => congrArg _) _ _
    · simp only [hk, hk']
      exact (hC.callRest hinner nesting hrest _ _).relax _ _

theorem operands (hC : Kept C) (hinner : Inward C inner inner') (nesting : Nesting)
    (found : List (BinaryOp × Expr)) {s s' : Input} (hs : C.input s s') (h : s.length < m)
    (h' : s'.length < n) :
    C.Ends Eq (operands inner nesting found s h) (operands inner' nesting found s' h') := by
  fun_induction Grammar.operands inner nesting found s h generalizing s' with
  | case1 found s h hnone =>
      rw [operands.eq_def inner']
      simp only [(hC.binaryOp? hs).of_none hnone]
      exact .ok ⟨rfl, hs⟩
  | case2 found s h op hop e he =>
      obtain ⟨op', hop', -, hrest⟩ := (hC.binaryOp? hs).of_some hop
      have hbound := Nat.le_of_lt (Nat.lt_trans op'.shorter h')
      obtain ⟨e', he', hfault⟩ := (hC.operand hinner nesting hrest _ hbound).of_error he
      rw [operands.eq_def inner']
      simp only [hop', he']
      exact .error hfault
  | case3 found s h op hop p hp ih =>
      obtain ⟨op', hop', hop'', hrest⟩ := (hC.binaryOp? hs).of_some hop
      have hbound := Nat.le_of_lt (Nat.lt_trans op'.shorter h')
      obtain ⟨p', hp', hvalue, hleft⟩ := (hC.operand hinner nesting hrest _ hbound).of_ok hp
      rw [operands.eq_def inner']
      simp only [hop', hp', ← hop'', ← hvalue]
      exact ih hleft _

theorem chain (hC : Kept C) {s s' : Input} {inner : Inner Expr s.length}
    {inner' : Inner Expr s'.length} (hinner : Inward C inner inner') (nesting : Nesting)
    (hs : C.input s s') : C.Ends Eq (chain s inner nesting) (chain s' inner' nesting) := by
  unfold Grammar.chain
  rcases (hC.operand hinner nesting hs s.length_le_self s'.length_le_self).cases with
    ⟨e, e', he, he', hfault⟩ | ⟨p, p', hp, hp', hvalue, hrest⟩
  · simp only [he, he']
    exact .error hfault
  · simp only [hp, hp', ← hvalue]
    exact (hC.operands hinner nesting [] hrest _ _).map fun _ _ => congrArg _

theorem expr (hC : Kept C) (nesting : Nesting) : C.Keeps (expr nesting) := by
  intro s s' h
  fun_induction Grammar.expr nesting s generalizing s' with
  | case1 nesting s ih =>
      rw [expr.eq_def nesting s']
      exact (hC.chain (fun nested t t' ht _ htt' => ih nested t ht htt') nesting h).map
        fun _ _ => congrArg _

end Expressions

section Statements

variable {m n : Nat} {inner : Inner Stmt m} {inner' : Inner Stmt n}

theorem block (hC : Kept C) (hinner : Inward C inner inner') (nesting : Nesting) {s s' : Input}
    (hs : C.input s s') (h : s.length ≤ m) (h' : s'.length ≤ n) :
    C.Ends Eq (block inner nesting s h) (block inner' nesting s' h') := by
  unfold Grammar.block
  rcases (hC.enter hs nesting).cases with
    ⟨e, e', he, he', hfault⟩ | ⟨nested, nested', hn, hn', rfl⟩
  · simp only [he, he']
    exact .error hfault
  · simp only [hn, hn']
    rcases (hC.symbol (c := '{') rfl asked_none hs).cases with
      ⟨e, e', he, he', hfault⟩ | ⟨p, p', hp, hp', -, hrest⟩
    · simp only [he, he']
      exact .error hfault
    · simp only [hp, hp']
      exact hC.itemsUntilBrace (fun t t' ht ht' htt' => hinner nested _ _ htt') [] hrest _ _

theorem condition (hC : Kept C) (nesting : Nesting) : C.Keeps (condition nesting) :=
  (hC.symbol rfl asked_none).andThen fun _ =>
    (hC.expr nesting).followedBy (hC.symbol rfl asked_none)

theorem conditional (hC : Kept C) (form : Expr → List Stmt → Stmt) (hinner : Inward C inner inner')
    (nesting : Nesting) {s s' : Input} (hs : C.input s s') (h : s.length ≤ m)
    (h' : s'.length ≤ n) :
    C.Ends Eq (conditional form inner nesting s h) (conditional form inner' nesting s' h') := by
  unfold Grammar.conditional
  rcases (hC.condition nesting hs).cases with
    ⟨e, e', he, he', hfault⟩ | ⟨p, p', hp, hp', hvalue, hrest⟩
  · simp only [he, he']
    exact .error hfault
  · simp only [hp, hp', ← hvalue]
    exact (hC.block hinner nesting hrest _ _).mapRelax (fun _ _ => congrArg _) _ _

theorem simple (hC : Kept C) (nesting : Nesting) : C.Keeps (simple nesting) := by
  intro s s' h
  unfold Grammar.simple
  rcases (hC.expr nesting h).cases with
    ⟨e, e', he, he', hfault⟩ | ⟨p, p', hp, hp', hvalue, hrest⟩
  · simp only [he, he']
    exact .error hfault
  · simp only [hp, hp', ← hvalue, ← hC.isPrefixOf_ahead hrest (List.cons_ne_nil '=' ['=']) rfl]
    split
    · exact .ok ⟨congrArg _ hvalue, hrest⟩
    · rcases (hC.symbol? (c := '=') rfl hrest).cases with
        ⟨heq, heq'⟩ | ⟨eq, eq', heq, heq', -, hright⟩
      · simp only [heq, heq']
        exact .ok ⟨congrArg _ hvalue, hrest⟩
      · simp only [heq, heq']
        exact (hC.expr nesting hright).mapRelax (fun _ _ => congrArg _) _ _

theorem stmtWith (hC : Kept C) {s s' : Input} {inner : Inner Stmt s.length}
    {inner' : Inner Stmt s'.length} (hinner : Inward C inner inner') (nesting : Nesting)
    (h : C.input s s') : C.Ends Eq (stmtWith s inner nesting) (stmtWith s' inner' nesting) := by
  unfold Grammar.stmtWith
  rcases (hC.keyword? "verify:new" rfl h).cases with
    ⟨hk, hk'⟩ | ⟨k, k', hk, hk', -, hrest⟩
  · simp only [hk, hk']
    rcases (hC.keyword? "constraint:new" rfl h).cases with
      ⟨hk, hk'⟩ | ⟨k, k', hk, hk', -, hrest⟩
    · simp only [hk, hk']
      rcases (hC.keyword? "if" rfl h).cases with
        ⟨hk, hk'⟩ | ⟨k, k', hk, hk', -, hrest⟩
      · simp only [hk, hk']
        rcases (hC.keyword? "while" rfl h).cases with
          ⟨hk, hk'⟩ | ⟨k, k', hk, hk', -, hrest⟩
        · simp only [hk, hk']
          exact hC.simple nesting h
        · simp only [hk, hk']
          exact (hC.conditional .loop hinner nesting hrest _ _).relax _ _
      · simp only [hk, hk']
        exact (hC.conditional .branch hinner nesting hrest _ _).relax _ _
    · simp only [hk, hk']
      exact (hC.expr nesting hrest).mapRelax (fun _ _ => congrArg _) _ _
  · simp only [hk, hk']
    exact (hC.expr nesting hrest).mapRelax (fun _ _ => congrArg _) _ _

theorem stmt (hC : Kept C) (nesting : Nesting) : C.Keeps (stmt nesting) := by
  intro s s' h
  fun_induction Grammar.stmt nesting s generalizing s' with
  | case1 nesting s ih =>
      rw [stmt.eq_def nesting s']
      exact hC.stmtWith (fun nested t t' ht _ htt' => ih nested t ht htt') nesting h

end Statements

section Programs

theorem onOneLine_outOfOrder {text : String} (htext : text.toList.any isBlank = false)
    (phase reached : Phase) :
    (Problem.outOfOrder text phase.singular reached.plural).OnOneLine := by
  refine List.forall_mem_cons.mpr ⟨oneLine_of_solid htext, List.forall_mem_cons.mpr
    ⟨?_, List.forall_mem_singleton.mpr ?_⟩⟩
  · cases phase <;> decide
  · cases reached <;> decide

theorem lateDeclaration? (hC : Kept C) (reached : Phase) {s s' : Input} (h : C.input s s') :
    Option.Rel C.fault (lateDeclaration? reached s) (lateDeclaration? reached s') := by
  have hsolid : ∀ k ∈ declarationKeywords, k.1.toList.any isBlank = false := by decide
  have hsame : ∀ k ∈ declarationKeywords,
      (Scan.keyword? k.1 s).isSome = (Scan.keyword? k.1 s').isSome :=
    fun k hk => (hC.keyword? _ (hsolid k hk) h).isSome_eq
  refine Option.Rel.find?_map (fun k hk => congrArg (· && _) (hsame k hk)) fun k hk hlate => ?_
  have hthere : (Scan.keyword? k.1 s).isSome = true := (Bool.and_eq_true_iff.mp hlate).1
  obtain ⟨p, hp⟩ := Option.isSome_iff_exists.mp hthere
  obtain ⟨p', hp'⟩ := Option.isSome_iff_exists.mp ((hsame k hk).symm.trans hthere)
  exact hC.problem h rfl (onOneLine_outOfOrder (hsolid k hk) _ _)
    (.of_found nofun nofun rfl (prefix_of_keyword? hp))
    (.of_found nofun nofun rfl (prefix_of_keyword? hp'))

theorem stmts (hC : Kept C) (nesting : Nesting) (reached : Phase) (found : List Stmt)
    {s s' : Input} (h : C.input s s') :
    Agree C.fault Eq (stmts nesting reached found s) (stmts nesting reached found s') := by
  fun_induction Grammar.stmts nesting reached found s generalizing s' with
  | case1 reached found s hempty =>
      rw [stmts.eq_def nesting reached found s', ← hC.isEmpty h, if_pos hempty]
      exact .ok rfl
  | case2 reached found s hempty e he =>
      obtain ⟨e', he', hfault⟩ := (hC.lateDeclaration? reached h).of_some he
      rw [stmts.eq_def nesting reached found s', ← hC.isEmpty h, if_neg hempty]
      simp only [he']
      exact .error hfault
  | case3 reached found s hempty hlate e he =>
      obtain ⟨e', he', hfault⟩ := (hC.stmt nesting h).of_error he
      rw [stmts.eq_def nesting reached found s', ← hC.isEmpty h, if_neg hempty]
      simp only [(hC.lateDeclaration? reached h).of_none hlate, he']
      exact .error hfault
  | case4 reached found s hempty hlate p hp ih =>
      obtain ⟨p', hp', hvalue, hrest⟩ := (hC.stmt nesting h).of_ok hp
      rw [stmts.eq_def nesting reached found s', ← hC.isEmpty h, if_neg hempty]
      simp only [(hC.lateDeclaration? reached h).of_none hlate, hp', ← hvalue]
      exact ih hrest

theorem program (hC : Kept C) {s s' : Input}
    (hheaders : C.Ends Eq (many header? [] s (Nat.lt_succ_self _))
      (many header? [] s' (Nat.lt_succ_self _))) (nesting : Nesting) :
    Agree C.fault Eq (program nesting s) (program nesting s') := by
  refine hheaders.bind fun headers headers' hh => ?_
  refine (Correspondence.many_ends_eq hC.typeDeclaration? hh.2 _ _).bind fun types types' ht => ?_
  refine (Correspondence.many_ends_eq hC.variableDeclaration? ht.2 _ _).bind fun vars vars' hv => ?_
  refine (Correspondence.many_ends_eq hC.functionDeclaration? hv.2 _ _).bind
    fun functions functions' hf => ?_
  dsimp only
  rw [hh.1, ht.1, hv.1, hf.1]
  refine (hC.stmts nesting _ [] hf.2).bind fun statements statements' hs => ?_
  exact .ok (by rw [hs])

end Programs

end Kept

end FuzzFrontend.Program.Grammar
