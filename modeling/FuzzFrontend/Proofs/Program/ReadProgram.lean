import FuzzFrontend.Proofs.Program.ReadDeclaration
import FuzzFrontend.Proofs.Program.ReadStatement

namespace FuzzFrontend.Program.Grammar

open Scan

variable {cs r t : List Char} {nesting : Nesting}

/-- What stands behind the items of a program: nothing, or a declaration that comes late. -/
inductive Behind : Option Declaration → List Char → Prop
  | nothing : Behind none []
  | late {d : Declaration} {t k : List Char} (ht : d.Spelled t) : Behind (some d) (t ++ k)

variable {late : Option Declaration} {tail : List Char} {ds : List Declaration} {ss : List Stmt}

theorem Behind.opens_or_closes (h : Behind late tail) :
    opens tail = true ∨ closes tail = true := by
  cases h with
  | nothing => exact Or.inr rfl
  | late ht => exact Or.inl (opens_of_spelled ht _)

/-- What is left of a program: declarations and statements, each with a spelling, and what stands
behind them. -/
structure Remaining (ds : List Declaration) (ss : List Stmt) (late : Option Declaration)
    (tail r : List Char) : Prop where
  declarations : ∀ d ∈ ds, d.Spellable
  statements : ∀ s ∈ ss, s.Spellable
  behind : Behind late tail
  spelled : ∃ dt st, Pieces Declaration.Spelled ds dt ∧ Pieces Stmt.Spelled ss st ∧
    r.dropWhile isBlank = (dt ++ (st ++ tail)).dropWhile isBlank

/-- At the head of what is left a declaration stands, or a statement if there is no declaration, or
what is behind them. -/
theorem Remaining.head (h : Remaining ds ss late tail r) :
    (ds = [] ∧ ss = [] ∧ r.dropWhile isBlank = tail) ∨
      (∃ d ∈ ds, ∃ t k, d.Spelled t ∧ r.dropWhile isBlank = t ++ k) ∨
        ∃ s ∈ ss, ∃ t k, s.Spelled t ∧ apart k = true ∧ r.dropWhile isBlank = t ++ k := by
  obtain ⟨hds, hss, hbehind, dt, st, hdt, hst, hr⟩ := h
  cases hdt with
  | nil hb =>
      rw [dropWhile_blank_append hb] at hr
      cases hst with
      | nil hb' =>
          rw [dropWhile_blank_append hb', dropWhile_of_opens_or_closes hbehind.opens_or_closes] at hr
          exact Or.inl ⟨rfl, rfl, hr⟩
      | @cons s ss b t g ts hb' ht hg hts =>
          have hopens := opens_of_stmt (hss s List.mem_cons_self) ht (g ++ (ts ++ tail))
          refine Or.inr (Or.inr ⟨s, List.mem_cons_self, t, g ++ (ts ++ tail), ht,
            apart_of_gap hg _, ?_⟩)
          rw [hr, List.append_assoc, dropWhile_blank_append hb', List.append_assoc,
            List.append_assoc, dropWhile_of_solid (solid_of_opens hopens)]
  | @cons d ds b t g ts hb ht hg hts =>
      have hopens := opens_of_spelled ht (g ++ ts ++ (st ++ tail))
      refine Or.inr (Or.inl ⟨d, List.mem_cons_self, t, g ++ ts ++ (st ++ tail), ht, ?_⟩)
      rw [hr, List.append_assoc, dropWhile_blank_append hb, List.append_assoc,
        dropWhile_of_solid (solid_of_opens hopens)]

theorem Remaining.opens_or_closes (h : Remaining ds ss late tail r) :
    opens (r.dropWhile isBlank) = true ∨ closes (r.dropWhile isBlank) = true := by
  rcases h.head with ⟨-, -, heq⟩ | ⟨d, -, t, k, ht, heq⟩ | ⟨s, hs, t, k, ht, -, heq⟩
  · rw [heq]
    exact h.behind.opens_or_closes
  · rw [heq]
    exact Or.inl (opens_of_spelled ht k)
  · rw [heq]
    exact Or.inl (opens_of_stmt (h.statements s hs) ht k)

theorem phase_of_declarationKeyword {text : String} {p q : Phase}
    (hp : (text, p) ∈ declarationKeywords) (hq : (text, q) ∈ declarationKeywords) : p = q := by
  have hkeys : ∀ a ∈ declarationKeywords, ∀ b ∈ declarationKeywords, a.1 = b.1 → a.2 = b.2 := by
    decide
  exact hkeys _ hp _ hq rfl

theorem Remaining.declines (h : Remaining ds ss late tail r) {phase : Phase}
    (hphase : ∀ d ∈ ds, d.phase ≠ phase)
    (hlate : ds = [] → ss = [] → ∀ d ∈ late, d.phase ≠ phase) :
    declaration? phase (.ofList r) = none := by
  have hother : ∀ {d : Declaration} {t k : List Char}, d.Spelled t → d.phase ≠ phase →
      r.dropWhile isBlank = t ++ k → ∀ text, (text, phase) ∈ declarationKeywords →
        keyword? text (.ofList r) = none := by
    intro d t k ht hd heq text hmem
    refine keyword?_eq_none_of_spelled ht hmem ?_ heq
    rintro rfl
    exact hd (phase_of_declarationKeyword (opening_mem d) hmem)
  apply declaration?_declines
  intro text hmem
  rcases h.head with ⟨hds, hss, heq⟩ | ⟨d, hd, t, k, ht, heq⟩ | ⟨s, hs, t, k, ht, hk, heq⟩
  · cases h.behind with
    | nothing =>
        have hne : ∀ p ∈ declarationKeywords, p.1.toList.head? ≠ none := by decide
        apply keyword?_eq_none_of_head?
        rw [heq]
        exact hne _ hmem
    | late ht => exact hother ht (hlate hds hss _ rfl) heq text hmem
  · exact hother ht (hphase d hd) heq text hmem
  · exact keyword?_eq_none_of_stmt (h.statements s hs) ht heq hk hmem

theorem declarations_skip {n : Nat} {phase : Phase} {us : List Char}
    (hphase : ∀ d ∈ ds, d.phase = phase) (hds : ∀ d ∈ ds, d.Spellable)
    (hus : Pieces Declaration.Spelled ds us)
    (hr : opens (r.dropWhile isBlank) = true ∨ closes (r.dropWhile isBlank) = true)
    (found : List Declaration) (h : (Input.ofList cs).length < n)
    (hcs : cs.dropWhile isBlank = (us ++ r).dropWhile isBlank) :
    ∃ cs' h', cs'.dropWhile isBlank = r.dropWhile isBlank ∧
      many (declaration? phase) found (.ofList cs) h =
        many (declaration? phase) (ds.reverse ++ found) (.ofList cs') h' := by
  -- The blanks before the rest are counted among those after the last declaration of the phase.
  have hblanks : Blank (r.takeWhile isBlank) := List.all_eq_true.mp List.all_takeWhile
  have htext : us ++ r.takeWhile isBlank ++ r.dropWhile isBlank = us ++ r := by
    rw [List.append_assoc, List.takeWhile_append_dropWhile]
  rw [← htext] at hcs
  refine many_skips (fun _ => dropWhile_of_opens_or_closes) (hus.append_blank hblanks)
    (fun d _ t ht r => Or.inl (opens_of_spelled ht r)) ?_ hr found h hcs
  intro d hd t ht cs r hcs hr
  rw [← hphase d hd]
  exact declaration?_offers (hds d hd) ht hcs hr.apart

theorem Remaining.many {n : Nat} {phase : Phase} {xs ys : List Declaration}
    (h : Remaining (xs ++ ys) ss late tail r) (hxs : ∀ d ∈ xs, d.phase = phase)
    (hys : ∀ d ∈ ys, d.phase ≠ phase)
    (hlate : ys = [] → ss = [] → ∀ d ∈ late, d.phase ≠ phase) (found : List Declaration)
    (hlt : (Input.ofList r).length < n) :
    ∃ r', Remaining ys ss late tail r' ∧
      Yields (many (declaration? phase) found (.ofList r) hlt) (found.reverse ++ xs) r' := by
  obtain ⟨hds, hss, hbehind, dt, st, hdt, hst, hr⟩ := h
  obtain ⟨us, vs, hus, hvs, rfl⟩ := hdt.split
  have hrest : ∀ cs, cs.dropWhile isBlank = (vs ++ (st ++ tail)).dropWhile isBlank →
      Remaining ys ss late tail cs :=
    fun cs hcs =>
      ⟨fun d hd => hds d (List.mem_append_right xs hd), hss, hbehind, vs, st, hvs, hst, hcs⟩
  rw [List.append_assoc] at hr
  obtain ⟨r', hlt', hr', hread⟩ := declarations_skip hxs
    (fun d hd => hds d (List.mem_append_left ys hd)) hus (hrest _ rfl).opens_or_closes found hlt hr
  have hnone := (hrest r' hr').declines hys hlate
  refine ⟨r', hrest r' hr', hlt', ?_⟩
  rw [hread, Scan.many, hnone, List.reverse_append, List.reverse_reverse]

theorem lateDeclaration?_eq_none {reached : Phase}
    (h : ∀ text phase, (text, phase) ∈ declarationKeywords → keyword? text (.ofList cs) = none) :
    lateDeclaration? reached (.ofList cs) = none := by
  rw [lateDeclaration?, Option.map_eq_none_iff, List.find?_eq_none]
  rintro ⟨text, phase⟩ hmem
  simp [h text phase hmem]

/-- The fault of a declaration at the given place, after the phase that was reached. -/
def lateFault (tail : List Char) (d : Declaration) (reached : Phase) : Fault :=
  .problem (.ofList tail) (.outOfOrder (opening d) d.phase.singular reached.plural) []

theorem lateDeclaration?_of_spelled {d : Declaration} {reached : Phase} {k : List Char}
    (ht : d.Spelled t) (hcs : cs.dropWhile isBlank = t ++ k)
    (hlate : d.phase.rank < reached.rank) :
    lateDeclaration? reached (.ofList cs) = some (lateFault (t ++ k) d reached) := by
  have hown := isSome_keyword?_of_spelled ht hcs
  rw [lateDeclaration?]
  dsimp only
  cases hfind : declarationKeywords.find? fun p =>
      (keyword? p.1 (.ofList cs)).isSome && p.2.rank < reached.rank with
  | none =>
      have hnot := List.find?_eq_none.mp hfind _ (opening_mem d)
      simp [hown, hlate] at hnot
  | some p =>
      obtain ⟨text, phase⟩ := p
      have hmem := List.mem_of_find?_eq_some hfind
      -- only its own word is found where a declaration stands
      have htext : text = opening d := by
        by_contra hne
        have hfound := List.find?_some hfind
        simp [keyword?_eq_none_of_spelled ht hmem hne hcs] at hfound
      subst htext
      obtain rfl := phase_of_declarationKeyword (opening_mem d) hmem
      simp [lateFault, Input.skipBlanks_ofList, hcs]

theorem isEmpty_of_opens {s : List Char} (h : opens s = true) : s.isEmpty = false := by
  cases s with
  | nil => exact absurd h Bool.false_ne_true
  | cons => rfl

theorem Remaining.uncons {s : Stmt} (h : Remaining [] (s :: ss) late tail r) :
    ∃ t k, s.Spelled t ∧ r.dropWhile isBlank = t ++ k ∧ Fresh k ∧
      Remaining [] ss late tail k := by
  obtain ⟨hds, hss, hbehind, dt, st, hdt, hst, hr⟩ := h
  have hlater : ∀ s ∈ ss, s.Spellable := fun s hs => hss s (List.mem_cons_of_mem _ hs)
  cases hdt with
  | nil hb =>
      cases hst with
      | @cons _ _ b t g ts hb' ht hg hts =>
          have hopens := opens_of_stmt (hss s List.mem_cons_self) ht (g ++ (ts ++ tail))
          refine ⟨t, g ++ (ts ++ tail), ht, ?_, ?_, ?_⟩
          · rw [hr, dropWhile_blank_append hb, List.append_assoc, dropWhile_blank_append hb',
              List.append_assoc, List.append_assoc, dropWhile_of_solid (solid_of_opens hopens)]
          · exact hts.fresh (fun s hs t ht r => opens_of_stmt (hlater s hs) ht r) hg
              hbehind.opens_or_closes
          · exact ⟨hds, hlater, hbehind, [], ts, .nil blank_nil, hts,
              dropWhile_blank_append hg.blank _⟩

/-- How reading ends: with what was read, or with the declaration behind it refused. -/
def ending {α : Type} (late : Option Declaration) (tail : List Char) (reached : Phase) (a : α) :
    Except Fault α :=
  match late with
  | none => .ok a
  | some d => .error (lateFault tail d reached)

/-- The phase that statements lead to. -/
def reachedByStmts (ss : List Stmt) (otherwise : Phase) : Phase :=
  if ss.isEmpty then otherwise else .statements

theorem Remaining.stmts (h : Remaining [] ss late tail r)
    (hroom : ∀ s ∈ ss, s.nesting ≤ room nesting) (reached : Phase) (found : List Stmt)
    (hlate : ∀ d ∈ late, d.phase.rank < (reachedByStmts ss reached).rank) :
    stmts nesting reached found (.ofList r) =
      ending late tail (reachedByStmts ss reached) (found.reverse ++ ss) := by
  induction ss generalizing r reached found with
  | nil =>
      rcases h.head with ⟨-, -, heq⟩ | ⟨d, hd, -⟩ | ⟨s, hs, -⟩
      · rw [Grammar.stmts]
        cases h.behind with
        | nothing => simp [heq, ending]
        | @late d t k ht =>
            have hnonempty : (r.dropWhile isBlank).isEmpty = false := by
              rw [heq]
              exact isEmpty_of_opens (opens_of_spelled ht k)
            have hfault : lateDeclaration? reached (.ofList r) =
                some (lateFault (t ++ k) d reached) :=
              lateDeclaration?_of_spelled ht heq (hlate d rfl)
            simp only [Input.skipBlanks_ofList, Input.chars_ofList, hnonempty, hfault]
            rfl
      · cases hd
      · cases hs
  | cons s ss ih =>
      have hs := h.statements s List.mem_cons_self
      obtain ⟨t, k, ht, htext, hfresh, hrest⟩ := h.uncons
      have hnonempty : (r.dropWhile isBlank).isEmpty = false := by
        rw [htext]
        exact isEmpty_of_opens (opens_of_stmt hs ht k)
      have hnone : lateDeclaration? reached (.ofList r) = none :=
        lateDeclaration?_eq_none fun text phase hmem =>
          keyword?_eq_none_of_stmt hs ht htext hfresh.apart hmem
      have hreached : reachedByStmts ss .statements = .statements := ite_self _
      obtain ⟨hlt, e⟩ := stmt_yields hs (hroom s List.mem_cons_self) ht htext hfresh
      have htail := ih hrest (fun s hs => hroom s (List.mem_cons_of_mem _ hs)) .statements
        (s :: found) (by rwa [hreached])
      rw [Grammar.stmts]
      simp only [Input.skipBlanks_ofList, Input.chars_ofList, hnonempty, hnone, e,
        Bool.false_eq_true, if_false]
      rw [htail, hreached, List.reverse_cons, List.append_assoc]
      rfl

theorem split_phase {ds : List Declaration}
    (h : ds.Pairwise fun d d' => d.phase.rank ≤ d'.phase.rank) (phase : Phase)
    (hfrom : ∀ d ∈ ds, phase.rank ≤ d.phase.rank) :
    ∃ xs ys, ds = xs ++ ys ∧ (∀ d ∈ xs, d.phase = phase) ∧
      (∀ d ∈ ys, phase.rank + 1 ≤ d.phase.rank) ∧
        ys.Pairwise fun d d' => d.phase.rank ≤ d'.phase.rank := by
  have hrank : ∀ p q : Phase, p.rank = q.rank → p = q := by
    intro p q
    cases p <;> cases q <;> simp [Phase.rank]
  induction ds with
  | nil => exact ⟨[], [], rfl, by simp, by simp, .nil⟩
  | cons d ds ih =>
      obtain ⟨hd, hds⟩ := List.pairwise_cons.mp h
      by_cases hphase : d.phase = phase
      · obtain ⟨xs, ys, rfl, hxs, hys, hsorted⟩ :=
          ih hds fun e he => hfrom e (List.mem_cons_of_mem _ he)
        refine ⟨d :: xs, ys, rfl, ?_, hys, hsorted⟩
        intro e he
        rcases List.mem_cons.mp he with rfl | he
        · exact hphase
        · exact hxs e he
      · have hlater : phase.rank + 1 ≤ d.phase.rank :=
          Nat.lt_of_le_of_ne (hfrom d List.mem_cons_self) fun heq => hphase (hrank _ _ heq.symm)
        refine ⟨[], d :: ds, rfl, by simp, ?_, h⟩
        intro e he
        rcases List.mem_cons.mp he with rfl | he
        · exact hlater
        · exact Nat.le_trans hlater (hd e he)

theorem phase_of_functions {ds : List Declaration}
    (h : ∀ d ∈ ds, Phase.functions.rank ≤ d.phase.rank) : ∀ d ∈ ds, d.phase = .functions := by
  intro d hd
  have hrank := h d hd
  cases d with
  | function signature => rfl
  | _ => simp [Declaration.phase, Phase.rank] at hrank

theorem phase_ne_of_later {phase : Phase} (h : ∀ d ∈ ds, phase.rank + 1 ≤ d.phase.rank) :
    ∀ d ∈ ds, d.phase ≠ phase := by
  rintro d hd rfl
  exact absurd (h d hd) (Nat.not_succ_le_self _)

/-- The phase that declarations lead to: that of the last of them. -/
def lastDeclared (ds : List Declaration) : Phase :=
  ds.getLast?.elim .headers Declaration.phase

/-- The phase that a program leads to: that of its last item. -/
def lastPhase (p : Program) : Phase :=
  reachedByStmts p.statements (lastDeclared p.declarations)

theorem lastDeclared_append {xs ys : List Declaration} {phase : Phase}
    (hys : ∀ d ∈ ys, d.phase = phase) :
    lastDeclared (xs ++ ys) = reachedBy ys phase (lastDeclared xs) := by
  obtain rfl | ⟨ys, d, rfl⟩ := List.eq_nil_or_concat ys
  · rw [List.append_nil]
    rfl
  · have hd : d.phase = phase := hys d (by simp)
    simp [lastDeclared, reachedBy, ← List.append_assoc, hd]

/-- The phase that is reached when all declarations were read is that of the last. -/
theorem reachedBy_eq_lastDeclared {headers types vars functions : List Declaration}
    (hheaders : ∀ d ∈ headers, d.phase = .headers) (htypes : ∀ d ∈ types, d.phase = .types)
    (hvars : ∀ d ∈ vars, d.phase = .vars) (hfunctions : ∀ d ∈ functions, d.phase = .functions) :
    reachedBy functions .functions (reachedBy vars .vars (reachedBy types .types .headers)) =
      lastDeclared (headers ++ (types ++ (vars ++ functions))) := by
  have hlast : lastDeclared ([] ++ headers) = .headers := by
    rw [lastDeclared_append hheaders]
    exact ite_self _
  rw [← List.append_assoc, ← List.append_assoc, lastDeclared_append hfunctions,
    lastDeclared_append hvars, lastDeclared_append htypes, ← List.nil_append headers, hlast]

theorem rank_lastDeclared_le {phase : Phase} (h : ∀ d ∈ ds, d.phase.rank ≤ phase.rank) :
    (lastDeclared ds).rank ≤ phase.rank := by
  obtain rfl | ⟨ds, d, rfl⟩ := List.eq_nil_or_concat ds
  · exact Nat.zero_le _
  · have hd := h d (by simp)
    simpa [lastDeclared] using hd

theorem rank_le_of_append {xs ys : List Declaration} {phase next : Phase}
    (hxs : ∀ d ∈ xs, d.phase.rank ≤ phase.rank) (hys : ∀ d ∈ ys, d.phase = next)
    (hnext : phase.rank ≤ next.rank) : ∀ d ∈ xs ++ ys, d.phase.rank ≤ next.rank := by
  intro d hd
  rcases List.mem_append.mp hd with hd | hd
  · exact Nat.le_trans (hxs d hd) hnext
  · exact Nat.le_of_eq (congrArg Phase.rank (hys d hd))

theorem phase_ne_of_late {xs ys : List Declaration} {phase : Phase}
    (hlate : ∀ d ∈ late, d.phase.rank < (lastPhase ⟨xs ++ ys, ss⟩).rank)
    (hxs : ∀ d ∈ xs, d.phase.rank ≤ phase.rank) (hys : ys = []) (hss : ss = []) :
    ∀ d ∈ late, d.phase ≠ phase := by
  rintro d hd rfl
  subst hys hss
  rw [List.append_nil] at hlate
  exact absurd (hlate d hd) (Nat.not_lt.mpr (rank_lastDeclared_le hxs))

theorem program_of_types {headers types : List Declaration} {k : List Char}
    (hheaders : ∀ d ∈ headers, d.phase = .headers) (htypes : ∀ d ∈ types, d.phase = .types)
    (hreadHeaders : Yields (many header? [] (.ofList cs) (Nat.lt_succ_self _)) headers r)
    (hreadTypes : Yields (many typeDeclaration? [] (.ofList r) (Nat.lt_succ_self _)) types k)
    (h : Remaining ds ss late tail k)
    (hsorted : ds.Pairwise fun d d' => d.phase.rank ≤ d'.phase.rank)
    (hlater : ∀ d ∈ ds, Phase.types.rank + 1 ≤ d.phase.rank)
    (hroom : ∀ s ∈ ss, s.nesting ≤ room nesting)
    (hlate : ∀ d ∈ late, d.phase.rank < (lastPhase ⟨headers ++ (types ++ ds), ss⟩).rank) :
    program nesting (.ofList cs) =
      ending late tail (lastPhase ⟨headers ++ (types ++ ds), ss⟩)
        ⟨headers ++ (types ++ ds), ss⟩ := by
  obtain ⟨hlt₁, e₁⟩ := hreadHeaders
  obtain ⟨hlt₂, e₂⟩ := hreadTypes
  obtain ⟨vars, functions, rfl, hvars, hfunctions, -⟩ := split_phase hsorted .vars hlater
  have hfunctions' := phase_of_functions hfunctions
  have hle₁ : ∀ d ∈ headers, d.phase.rank ≤ Phase.headers.rank :=
    fun d hd => Nat.le_of_eq (congrArg Phase.rank (hheaders d hd))
  have hle₂ := rank_le_of_append hle₁ htypes (Nat.zero_le _)
  have hle₃ := rank_le_of_append hle₂ hvars (by decide)
  have hle₄ := rank_le_of_append hle₃ hfunctions' (by decide)
  have hstart : Remaining (vars ++ (functions ++ [])) ss late tail k := by simpa using h
  obtain ⟨r₃, h₃, hlt₃, e₃⟩ := hstart.many hvars (by simpa using phase_ne_of_later hfunctions)
    (phase_ne_of_late (by simpa using hlate) hle₃) [] (Nat.lt_succ_self _)
  obtain ⟨r₄, h₄, hlt₄, e₄⟩ := h₃.many hfunctions' (by simp)
    (phase_ne_of_late (by simpa using hlate) hle₄) [] (Nat.lt_succ_self _)
  have hreached := reachedBy_eq_lastDeclared hheaders htypes hvars hfunctions'
  have hstmts := h₄.stmts hroom (lastDeclared (headers ++ (types ++ (vars ++ functions)))) [] hlate
  simp only [declaration?, List.reverse_nil, List.nil_append] at e₃ e₄
  simp only [program, e₁, e₂, e₃, e₄, bind, Except.bind, hreached, hstmts]
  cases late with
  | none => simp [ending, pure, Except.pure]
  | some d => rfl

/-- The items of a program are read from each of their spellings where there is room for the
statements, up to a declaration behind them that is late. -/
theorem program_of_items {p : Program} (hp : p.Spellable) (hroom : p.nesting ≤ room nesting)
    {dt st : List Char} (hdt : Pieces Declaration.Spelled p.declarations dt)
    (hst : Pieces Stmt.Spelled p.statements st) (hbehind : Behind late tail)
    (hlate : ∀ d ∈ late, d.phase.rank < (lastPhase p).rank) :
    program nesting (.ofList (dt ++ (st ++ tail))) = ending late tail (lastPhase p) p := by
  obtain ⟨ds, ss⟩ := p
  obtain ⟨hsorted, hds, hss⟩ := hp
  have hroomAll : ∀ s ∈ ss, s.nesting ≤ room nesting := Stmt.nestingAll_le_iff.mp hroom
  obtain ⟨headers, typed, rfl, hheaders, htyped, hsorted⟩ :=
    split_phase hsorted .headers fun d _ => Nat.zero_le _
  obtain ⟨types, later, rfl, htypes, hlater, hsorted⟩ := split_phase hsorted .types htyped
  have hle₁ : ∀ d ∈ headers, d.phase.rank ≤ Phase.headers.rank :=
    fun d hd => Nat.le_of_eq (congrArg Phase.rank (hheaders d hd))
  have hle₂ := rank_le_of_append hle₁ htypes (Nat.zero_le _)
  have hstart : Remaining (headers ++ (types ++ later)) ss late tail (dt ++ (st ++ tail)) :=
    ⟨hds, hss, hbehind, dt, st, hdt, hst, rfl⟩
  obtain ⟨r₁, h₁, hread₁⟩ := hstart.many hheaders (phase_ne_of_later htyped)
    (phase_ne_of_late hlate hle₁) [] (Nat.lt_succ_self _)
  obtain ⟨r₂, h₂, hread₂⟩ := h₁.many htypes (phase_ne_of_later hlater)
    (phase_ne_of_late (by simpa using hlate) hle₂) [] (Nat.lt_succ_self _)
  exact program_of_types hheaders htypes hread₁ hread₂ h₂ hsorted hlater hroomAll hlate

theorem program_of_spelled {p : Program} (hp : p.Spellable) (hroom : p.nesting ≤ room nesting)
    (ht : p.Spelled t) : program nesting (.ofList t) = .ok p := by
  obtain ⟨dt, st, hdt, hst, rfl⟩ := ht
  simpa [ending] using program_of_items hp hroom hdt hst .nothing nofun

end FuzzFrontend.Program.Grammar
