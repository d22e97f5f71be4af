import FuzzFrontend.Program.Grammar.Phases
import FuzzFrontend.Proofs.Program.ReadExpression
import FuzzFrontend.Proofs.Scan.Ensures
import FuzzFrontend.Proofs.Scan.Integer

namespace FuzzFrontend.Program.Grammar

open Scan

section Declarations

theorem name_ensures : Ensures name fun n => isName n = true := by
  intro s hs
  unfold name
  split
  · exact .error
  · rename_i p hp
    obtain ⟨hword, hrest⟩ := identifier_ensures s hs p hp
    split
    · exact .error
    · rename_i hreserved
      refine .ok ?_ hrest
      simp [isName, hword, hreserved]

theorem plain_of_scalar? {s : Input} (hs : Plain s) {p : Parsed Scalar s.length}
    (h : scalar? s = some p) : Plain p.rest := by
  unfold scalar? at h
  split at h
  · cases h
  · rename_i q hq
    obtain ⟨kind, -, rfl⟩ := Option.map_eq_some_iff.mp h
    exact (identifier_ensures s hs q hq).2

theorem scalar_ensures : Ensures scalar fun _ => True := by
  intro s hs
  unfold scalar
  split
  · rename_i p hp
    exact .ok trivial (plain_of_scalar? hs hp)
  · exact .error

theorem typeRef_ensures : Ensures typeRef TypeExpr.Spellable := by
  intro s hs
  unfold typeRef
  fun_induction typeExpr s with
  | case1 s k hk => exact (name_ensures k.rest (plain_of_keyword? hs hk)).mapRelax _
  | case2 s hstruct k hk => exact (name_ensures k.rest (plain_of_keyword? hs hk)).mapRelax _
  | case3 s hstruct henum k hk e he => exact .error
  | case4 s hstruct henum k hk p hp ih =>
      obtain ⟨hvalue, hrest⟩ := ih (plain_of_keyword? hs hk) p hp
      exact .ok (reference_target hvalue).1 hrest
  | case5 s hstruct henum hpointer p hp => exact .ok trivial (plain_of_scalar? hs hp)
  | case6 => exact .error

theorem headerPath_ensures (style : HeaderStyle) :
    Ensures (headerPath style) fun d => d.Spellable ∧ d.phase = .headers := by
  intro s hs
  rw [eq_ofList_of_plain hs]
  unfold headerPath
  dsimp only
  split
  · refine Meets.relax (.ok ⟨?_, rfl⟩ rfl) _
    have hpath : ∀ c ∈ s.chars.takeWhile (fun c => c != style.closing && c != '\n'),
        (c != style.closing && c != '\n') = true := List.all_eq_true.mp List.all_takeWhile
    have hnone : ∀ c, (c = style.closing ∨ c = '\n') →
        c ∉ s.chars.takeWhile (fun c => c != style.closing && c != '\n') := by
      intro c hc hmem
      have hin := hpath c hmem
      rcases hc with rfl | rfl <;> simp at hin
    simp only [Parsed.taking, Declaration.Spellable, Input.spelledWhile_ofList,
      String.toList_ofList]
    exact ⟨hnone _ (Or.inr rfl), hnone _ (Or.inl rfl)⟩
  · exact .error

theorem header_ensures : Ensures header fun d => d.Spellable ∧ d.phase = .headers := by
  apply (keyword_ensures "#include" none).andThen
  rintro - - s hs
  unfold delimitedPath
  split
  · rename_i p hp
    exact (headerPath_ensures .quoted p.rest (plain_of_symbol? hs hp)).relax _
  · split
    · rename_i p hp
      exact (headerPath_ensures .angled p.rest (plain_of_symbol? hs hp)).relax _
    · exact .error

theorem field_ensures : Ensures field Field.Spellable := by
  have hscalar : ∀ form : Scalar → Ty,
      (form = .scalar ∨ form = fun kind => .pointer (.scalar kind)) →
        Ensures (scalarField form) Field.Spellable := by
    intro form hform
    refine scalar_ensures.andThen fun kind _ => Ensures.map (name_ensures.imp ?_)
    intro n hn
    rcases hform with rfl | rfl
    · exact hn
    · exact hn
  have hnamed : ∀ form : String → TypeExpr, (form = .structNamed ∨ form = .enumNamed) →
      Ensures (namedField form) Field.Spellable := by
    intro form hform
    refine name_ensures.andThen fun typeName htype => Ensures.map (name_ensures.imp ?_)
    intro n hn
    rcases hform with rfl | rfl
    · exact ⟨htype, hn⟩
    · exact ⟨htype, hn⟩
  refine Ensures.followedBy ?_ (symbol_ensures ';' none)
  refine Ensures.onKeyword (hscalar _ (Or.inr rfl)) (Ensures.onKeyword (hnamed _ (Or.inl rfl))
    (Ensures.onKeyword (hnamed _ (Or.inr rfl)) ?_))
  intro s hs
  dsimp only
  split
  · exact hscalar _ (Or.inl rfl) s hs
  · exact .error

theorem enumNumber_ensures : Ensures enumNumber fun v => Word.IsSigned v := by
  intro s hs
  unfold enumNumber
  split
  · exact .error
  · rename_i p hp
    dsimp only
    split
    · exact .error
    · intro q hq
      obtain ⟨v, hv, rfl⟩ := map_eq_ok.mp hq
      exact ⟨isSigned_of_signedWord hv, (numeral_ensures s hs p hp).2⟩

theorem enumEntry_ensures : Ensures enumEntry EnumValue.Spellable := by
  refine name_ensures.andThen fun n hn s hs => ?_
  unfold enumEntryValue
  split
  · rename_i p hp
    have hvalue := enumNumber_ensures.followedBy
      (symbol_ensures ',' (some "Every enum entry ends with ','"))
    exact Meets.mapRelax ((hvalue p.rest (plain_of_symbol? hs hp)).imp fun v hv => ⟨hn, hv⟩) _
  · have hcomma := symbol_ensures ',' (some "Every enum entry ends with ','") s hs
    have hzero : Word.IsSigned 0 := by decide
    exact Meets.map (hcomma.imp fun _ _ => ⟨hn, hzero⟩)

theorem generatorName_ensures : Ensures generatorName GeneratorName.Spellable := by
  refine Ensures.onKeyword (Ensures.map (name_ensures.imp ?_))
    (Ensures.onKeyword (name_ensures.imp fun n hn => Or.inl hn) fun s hs => .error)
  intro n hn
  exact Or.inr ⟨n, hn, rfl⟩

theorem typeDeclaration?_meets {s : Input} (hs : Plain s)
    {r : Except Fault (Parsed Declaration s.length)} (h : typeDeclaration? s = some r) :
    Meets r fun d => d.Spellable ∧ d.phase = .types := by
  have hstruct : Ensures structDefinition fun d => d.Spellable := by
    refine (keyword_ensures "struct" none).andThen fun _ _ => ?_
    refine name_ensures.andThen fun n hn => ?_
    exact Ensures.map ((braced_ensures field_ensures).imp fun fields hfields => ⟨hn, hfields⟩)
  have henum : Ensures enumDefinition fun d => d.Spellable := by
    refine (keyword_ensures "enum" none).andThen fun _ _ => ?_
    refine name_ensures.andThen fun n hn => ?_
    exact Ensures.map ((braced_ensures enumEntry_ensures).imp fun values hvalues => ⟨hn, hvalues⟩)
  have htypedef : Ensures typedef fun d => d.Spellable ∧ d.phase = .types := by
    refine (keyword_ensures "typedef" none).andThen fun _ _ => ?_
    refine typeRef_ensures.andThen fun source hsource => ?_
    exact Ensures.map ((name_ensures.followedBy (symbol_ensures ';' none)).imp
      fun n hn => ⟨⟨hsource, hn⟩, rfl⟩)
  unfold typeDeclaration? at h
  split at h
  · cases h
    exact Meets.map ((hstruct s hs).imp fun d hd => ⟨hd, rfl⟩)
  · split at h
    · cases h
      exact Meets.map ((henum s hs).imp fun d hd => ⟨hd, rfl⟩)
    · split at h
      · cases h
        exact htypedef s hs
      · cases h

theorem variableDeclaration?_meets {s : Input} (hs : Plain s)
    {r : Except Fault (Parsed Declaration s.length)} (h : variableDeclaration? s = some r) :
    Meets r fun d => d.Spellable ∧ d.phase = .vars := by
  have hconstrained : Ensures constrainedVariable fun d => d.Spellable ∧ d.phase = .vars := by
    refine name_ensures.andThen fun n hn => ?_
    exact Ensures.map (typeRef_ensures.imp fun ty hty => ⟨⟨hn, hty⟩, rfl⟩)
  have hfree : Ensures freeVariable fun d => d.Spellable ∧ d.phase = .vars := by
    refine name_ensures.andThen fun n hn => generatorName_ensures.andThen fun generator hg => ?_
    exact Ensures.map (typeRef_ensures.imp fun ty hty => ⟨⟨hn, hg, hty⟩, rfl⟩)
  rcases Option.or_eq_some_iff.mp h with h | ⟨-, h⟩
  · exact ifKeyword_meets hconstrained hs h
  · exact ifKeyword_meets hfree hs h

theorem functionDeclaration?_meets {s : Input} (hs : Plain s)
    {r : Except Fault (Parsed Declaration s.length)} (h : functionDeclaration? s = some r) :
    Meets r fun d => d.Spellable ∧ d.phase = .functions := by
  have hparameter : Ensures parameter TypeExpr.Spellable :=
    typeRef_ensures.followedBy (symbol_ensures ',' (some "Every parameter type ends with ','"))
  have hsignature : Ensures signature fun d => d.Spellable ∧ d.phase = .functions := by
    refine name_ensures.andThen fun n hn => typeRef_ensures.andThen fun result hresult => ?_
    exact Ensures.map ((braced_ensures hparameter).imp
      fun parameters hparameters => ⟨⟨hn, hresult, hparameters⟩, rfl⟩)
  exact ifKeyword_meets hsignature hs h

end Declarations

section Expressions

/-- The expression has a spelling, and there is room for its calls. -/
def ExprFits (nesting : Nesting) (e : Expr) : Prop :=
  e.Spellable ∧ e.nesting ≤ room nesting

/-- It is no chain besides. -/
def OperandFits (nesting : Nesting) (e : Expr) : Prop :=
  ExprFits nesting e ∧ e.rootOp? = none

theorem exprFits_grouped {nesting : Nesting} {first : Expr} {links : List (BinaryOp × Expr)}
    (hfirst : OperandFits nesting first) (hlinks : ∀ p ∈ links, OperandFits nesting p.2) :
    ExprFits nesting (grouped (first, links)) := by
  refine Chain.group_meets Expr.rootOp? (fun _ _ _ => rfl) ?_ hfirst hlinks
  rintro l op r ⟨hl, hln⟩ ⟨hr, hrn⟩ hleft hright
  exact ⟨.compound hl hr hleft hright, Nat.max_le.mpr ⟨hln, hrn⟩⟩

theorem plain_of_binaryOp? {s : Input} (hs : Plain s) {p : Parsed BinaryOp s.length}
    (h : binaryOp? s = some p) : Plain p.rest := by
  obtain ⟨hfound, -⟩ := Option.filter_eq_some_iff.mp h
  obtain ⟨op, -, hop⟩ := List.exists_of_findSome?_eq_some hfound
  obtain ⟨q, hq, rfl⟩ := Option.map_eq_some_iff.mp hop
  exact plain_of_literal? hs hq

theorem plain_of_unaryOp? {s : Input} (hs : Plain s) {p : Parsed UnaryOp s.length}
    (h : unaryOp? s = some p) : Plain p.rest := by
  unfold unaryOp? at h
  dsimp only at h
  split at h
  · rename_i q hq
    cases h
    obtain ⟨⟨text, op⟩, -, hop⟩ := List.exists_of_findSome?_eq_some hq
    obtain ⟨k, hk, rfl⟩ := Option.map_eq_some_iff.mp hop
    exact plain_of_keyword? hs hk
  · split at h
    · rename_i q hq
      cases h
      exact plain_of_symbol? hs hq
    · split at h
      · cases h
      · obtain ⟨q, hq, rfl⟩ := Option.map_eq_some_iff.mp h
        exact plain_of_symbol? hs hq

theorem literal_ensures (nesting : Nesting) : Ensures literal (OperandFits nesting) := by
  refine Ensures.map (numeral_ensures.imp fun text htext => ?_)
  split
  · rename_i hpoint
    have hdecimal := htext.resolve_left fun h => point_not_mem_of_isInteger h hpoint
    exact ⟨⟨.decimal hdecimal, Nat.zero_le _⟩, rfl⟩
  · rename_i hpoint
    have hinteger := htext.resolve_right fun h => hpoint (point_mem_of_isDecimal h)
    exact ⟨⟨.integer hinteger, Nat.zero_le _⟩, rfl⟩

theorem nameOrField_ensures (nesting : Nesting) : Ensures nameOrField (OperandFits nesting) := by
  intro s hs
  unfold nameOrField
  split
  · exact .error
  · rename_i p hp
    obtain ⟨hn, hrest⟩ := name_ensures s hs p hp
    split
    · exact .ok ⟨⟨.var hn, Nat.zero_le _⟩, rfl⟩ hrest
    · rename_i dot hdot
      refine Meets.mapRelax ((name_ensures dot.rest (plain_of_symbol? hrest hdot)).imp ?_) _
      intro member hmember
      exact ⟨⟨.field hn hmember, Nat.zero_le _⟩, rfl⟩

theorem callRest_meets {n : Nat} {inner : Inner Expr n}
    (hinner : ∀ nested t h, Plain t → Meets (inner nested t h) (ExprFits nested))
    (nesting : Nesting) {s : Input} (hs : Plain s) (h : s.length < n) :
    Meets (callRest inner nesting s h) (OperandFits nesting) := by
  unfold callRest
  split
  · exact .error
  · rename_i nested henter
    split
    · exact .error
    · rename_i p hp
      have hheading := name_ensures.followedBy (symbol_ensures '{' none)
      obtain ⟨hn, hrest⟩ := hheading s hs p hp
      have harguments := itemsUntilBrace_meets (P := ExprFits nested)
        (fun t ht hplain => hinner nested t (Nat.lt_trans ht h) hplain) [] (by simp) p.rest hrest
        p.shorter
      refine Meets.map (harguments.imp fun arguments harguments => ?_)
      have hnested : Expr.nestingAll arguments ≤ room nested :=
        Expr.nestingAll_le_iff.mpr fun a ha => (harguments a ha).2
      have hroom : Expr.nestingAll arguments + 1 ≤ room nesting :=
        Nat.le_trans (Nat.succ_le_succ hnested) (room_of_enter henter)
      exact ⟨⟨.call hn fun a ha => (harguments a ha).1, hroom⟩, rfl⟩

theorem operand_meets {n : Nat} {inner : Inner Expr n}
    (hinner : ∀ nested t h, Plain t → Meets (inner nested t h) (ExprFits nested))
    (nesting : Nesting) {s : Input} (hs : Plain s) (h : s.length ≤ n) :
    Meets (operand inner nesting s h) (OperandFits nesting) := by
  unfold operand
  split
  · exact literal_ensures nesting s hs
  · split
    · rename_i k hk
      exact (callRest_meets hinner nesting (plain_of_keyword? hs hk) _).relax _
    · split
      · rename_i u hu
        refine Meets.mapRelax ((name_ensures u.rest (plain_of_unaryOp? hs hu)).imp ?_) _
        exact fun n hn => ⟨⟨.var hn, Nat.zero_le _⟩, rfl⟩
      · split
        · exact .error
        · exact nameOrField_ensures nesting s hs

theorem operands_meets {n : Nat} {inner : Inner Expr n}
    (hinner : ∀ nested t h, Plain t → Meets (inner nested t h) (ExprFits nested))
    (nesting : Nesting) (found : List (BinaryOp × Expr))
    (hfound : ∀ p ∈ found, OperandFits nesting p.2) (s : Input) (hs : Plain s) (h : s.length < n) :
    Meets (operands inner nesting found s h) fun links => ∀ p ∈ links, OperandFits nesting p.2 := by
  fun_induction operands inner nesting found s h with
  | case1 found s h hnone => exact .ok (by simpa using hfound) hs
  | case2 found s h op hop e he => exact .error
  | case3 found s h op hop p hp ih =>
      obtain ⟨hvalue, hrest⟩ := operand_meets hinner nesting (plain_of_binaryOp? hs hop) _ p hp
      exact ih (List.forall_mem_cons.mpr ⟨hvalue, hfound⟩) hrest

theorem chain_meets {s : Input} {inner : Inner Expr s.length}
    (hinner : ∀ nested t h, Plain t → Meets (inner nested t h) (ExprFits nested))
    (nesting : Nesting) (hs : Plain s) :
    Meets (chain s inner nesting) fun c =>
      OperandFits nesting c.1 ∧ ∀ p ∈ c.2, OperandFits nesting p.2 := by
  unfold chain
  split
  · exact .error
  · rename_i first hfirst
    obtain ⟨hvalue, hrest⟩ := operand_meets hinner nesting hs (Nat.le_refl _) first hfirst
    have hlinks := operands_meets hinner nesting [] (by simp) first.rest hrest first.shorter
    exact Meets.map (hlinks.imp fun links hlinks => ⟨hvalue, hlinks⟩)

theorem expr_ensures (nesting : Nesting) : Ensures (expr nesting) (ExprFits nesting) := by
  intro s hs
  fun_induction expr nesting s with
  | case1 nesting s ih =>
      refine Meets.map ((chain_meets (fun nested t h ht => ih nested t h ht) nesting hs).imp ?_)
      exact fun c hc => exprFits_grouped hc.1 hc.2

end Expressions

section Statements

/-- The statement has a spelling, and there is room for its parts. -/
def StmtFits (nesting : Nesting) (s : Stmt) : Prop :=
  s.Spellable ∧ s.nesting ≤ room nesting

theorem block_meets {n : Nat} {inner : Inner Stmt n}
    (hinner : ∀ nested t h, Plain t → Meets (inner nested t h) (StmtFits nested))
    (nesting : Nesting) {s : Input} (hs : Plain s) (h : s.length ≤ n) :
    Meets (block inner nesting s h) fun body =>
      (∀ s ∈ body, s.Spellable) ∧ Stmt.nestingAll body + 1 ≤ room nesting := by
  unfold block
  split
  · exact .error
  · rename_i nested henter
    split
    · exact .error
    · rename_i p hp
      have hrest := (symbol_ensures '{' none s hs p hp).2
      have hbody := itemsUntilBrace_meets (P := StmtFits nested)
        (fun t ht hplain => hinner nested t (Nat.lt_of_lt_of_le ht h) hplain) [] (by simp) p.rest
        hrest p.shorter
      refine hbody.imp fun body hbody => ⟨fun s hs => (hbody s hs).1, ?_⟩
      have hnested : Stmt.nestingAll body ≤ room nested :=
        Stmt.nestingAll_le_iff.mpr fun s hs => (hbody s hs).2
      exact Nat.le_trans (Nat.succ_le_succ hnested) (room_of_enter henter)

theorem condition_ensures (nesting : Nesting) :
    Ensures (condition nesting) (ExprFits nesting) :=
  (symbol_ensures '(' none).andThen fun _ _ =>
    (expr_ensures nesting).followedBy (symbol_ensures ')' none)

theorem conditional_meets {n : Nat} {inner : Inner Stmt n} {form : Expr → List Stmt → Stmt}
    (hinner : ∀ nested t h, Plain t → Meets (inner nested t h) (StmtFits nested))
    (hform : form = .branch ∨ form = .loop) (nesting : Nesting) {s : Input} (hs : Plain s)
    (h : s.length ≤ n) : Meets (conditional form inner nesting s h) (StmtFits nesting) := by
  unfold conditional
  split
  · exact .error
  · rename_i p hp
    obtain ⟨⟨he, hroom⟩, hrest⟩ := condition_ensures nesting s hs p hp
    refine Meets.mapRelax ((block_meets hinner nesting hrest _).imp ?_) _
    rintro body ⟨hbody, hdeep⟩
    rcases hform with rfl | rfl
    · exact ⟨.branch he hbody, Nat.max_le.mpr ⟨hroom, hdeep⟩⟩
    · exact ⟨.loop he hbody, Nat.max_le.mpr ⟨hroom, hdeep⟩⟩

theorem simple_ensures (nesting : Nesting) : Ensures (simple nesting) (StmtFits nesting) := by
  intro s hs
  unfold simple
  split
  · exact .error
  · rename_i p hp
    obtain ⟨⟨he, hroom⟩, hrest⟩ := expr_ensures nesting s hs p hp
    split
    · exact .ok ⟨.bare he, hroom⟩ hrest
    · split
      · exact .ok ⟨.bare he, hroom⟩ hrest
      · rename_i eq heq
        refine Meets.mapRelax ((expr_ensures nesting eq.rest (plain_of_symbol? hrest heq)).imp ?_) _
        exact fun value hvalue => ⟨.assign he hvalue.1, Nat.max_le.mpr ⟨hroom, hvalue.2⟩⟩

theorem stmt_ensures (nesting : Nesting) : Ensures (stmt nesting) (StmtFits nesting) := by
  intro s hs
  fun_induction stmt nesting s with
  | case1 nesting s ih =>
      unfold stmtWith
      split
      · rename_i k hk
        exact Meets.mapRelax ((expr_ensures nesting k.rest (plain_of_keyword? hs hk)).imp
          fun e he => ⟨.verify he.1, he.2⟩) _
      · split
        · rename_i k hk
          exact Meets.mapRelax ((expr_ensures nesting k.rest (plain_of_keyword? hs hk)).imp
            fun e he => ⟨.constrain he.1, he.2⟩) _
        · split
          · rename_i k hk
            exact (conditional_meets (fun nested t h ht => ih nested t h ht) (Or.inl rfl) nesting
              (plain_of_keyword? hs hk) _).relax _
          · split
            · rename_i k hk
              exact (conditional_meets (fun nested t h ht => ih nested t h ht) (Or.inr rfl) nesting
                (plain_of_keyword? hs hk) _).relax _
            · exact simple_ensures nesting s hs

theorem stmts_fit {nesting : Nesting} {reached : Phase} {found ss : List Stmt} {s : Input}
    (hs : Plain s) (hfound : ∀ s ∈ found, StmtFits nesting s)
    (h : stmts nesting reached found s = .ok ss) : ∀ s ∈ ss, StmtFits nesting s := by
  fun_induction stmts nesting reached found s with
  | case1 reached found s hempty =>
      cases h
      simpa using hfound
  | case2 reached found s hempty e he => cases h
  | case3 reached found s hempty hlate e he => cases h
  | case4 reached found s hempty hlate p hp ih =>
      obtain ⟨hvalue, hrest⟩ := stmt_ensures nesting s hs p hp
      exact ih hrest (List.forall_mem_cons.mpr ⟨hvalue, hfound⟩) h

end Statements

section Programs

theorem header?_meets {s : Input} (hs : Plain s)
    {r : Except Fault (Parsed Declaration s.length)} (h : header? s = some r) :
    Meets r fun d => d.Spellable ∧ d.phase = .headers := by
  unfold header? at h
  split at h
  · cases h
    exact header_ensures s hs
  · cases h

/-- The declarations are in order, and none is of a later phase than the one reached. -/
def InOrder (reached : Phase) (ds : List Declaration) : Prop :=
  (ds.Pairwise fun d d' => d.phase.rank ≤ d'.phase.rank) ∧ ∀ d ∈ ds, d.phase.rank ≤ reached.rank

theorem inOrder_of_phase {ds : List Declaration} {phase : Phase} (h : ∀ d ∈ ds, d.phase = phase) :
    InOrder phase ds := by
  constructor
  · rw [List.pairwise_iff_forall_sublist]
    intro d d' hsub
    exact Nat.le_of_eq (by rw [h d (hsub.subset (by simp)), h d' (hsub.subset (by simp))])
  · intro d hd
    exact Nat.le_of_eq (by rw [h d hd])

theorem InOrder.append {ds es : List Declaration} {reached phase : Phase} (hds : InOrder reached ds)
    (hphase : reached.rank ≤ phase.rank) (hes : ∀ d ∈ es, d.phase = phase) :
    InOrder phase (ds ++ es) := by
  have hbefore : ∀ d ∈ ds, d.phase.rank ≤ phase.rank :=
    fun d hd => Nat.le_trans (hds.2 d hd) hphase
  obtain ⟨hsorted, hlast⟩ := inOrder_of_phase hes
  constructor
  · refine List.pairwise_append.mpr ⟨hds.1, hsorted, ?_⟩
    intro d hd e he
    rw [hes e he]
    exact hbefore d hd
  · intro d hd
    rcases List.mem_append.mp hd with hd | hd
    · exact hbefore d hd
    · exact hlast d hd

/-- Whatever is read as a program has a spelling, and did not go deeper than allowed. -/
theorem spellable_of_program {nesting : Nesting} {s : Input} {p : Program} (hs : Plain s)
    (h : program nesting s = .ok p) : p.Spellable ∧ p.nesting ≤ room nesting := by
  simp only [program, bind_eq_ok, pure, Except.pure] at h
  obtain ⟨headers, h₁, types, h₂, vars, h₃, functions, h₄, statements, h₅, hp⟩ := h
  cases hp
  obtain ⟨hheaders, hs⟩ := many_meets (fun _ hs _ h => header?_meets hs h) [] (by simp) s hs
    (Nat.lt_succ_self _) headers h₁
  obtain ⟨htypes, hs⟩ := many_meets (fun _ hs _ h => typeDeclaration?_meets hs h) [] (by simp) _ hs
    (Nat.lt_succ_self _) types h₂
  obtain ⟨hvars, hs⟩ := many_meets (fun _ hs _ h => variableDeclaration?_meets hs h) [] (by simp) _
    hs (Nat.lt_succ_self _) vars h₃
  obtain ⟨hfunctions, hs⟩ := many_meets (fun _ hs _ h => functionDeclaration?_meets hs h) []
    (by simp) _ hs (Nat.lt_succ_self _) functions h₄
  have hstatements := stmts_fit hs (by simp) h₅
  have hordered : InOrder .functions
      (headers.value ++ types.value ++ vars.value ++ functions.value) :=
    (((inOrder_of_phase fun d hd => (hheaders d hd).2).append (by decide)
      fun d hd => (htypes d hd).2).append (by decide) fun d hd => (hvars d hd).2).append (by decide)
      fun d hd => (hfunctions d hd).2
  refine ⟨⟨hordered.1, ?_, fun s hs => (hstatements s hs).1⟩, ?_⟩
  · intro d hd
    rcases List.mem_append.mp hd with hd | hd
    · rcases List.mem_append.mp hd with hd | hd
      · rcases List.mem_append.mp hd with hd | hd
        · exact (hheaders d hd).1
        · exact (htypes d hd).1
      · exact (hvars d hd).1
    · exact (hfunctions d hd).1
  · exact Stmt.nestingAll_le_iff.mpr fun s hs => (hstatements s hs).2

end Programs

end FuzzFrontend.Program.Grammar
