import FuzzFrontend.Program.Read
import FuzzFrontend.Proofs.Grouping
import FuzzFrontend.Proofs.Program.Spellable
import FuzzFrontend.Proofs.Scan.Limited

namespace FuzzFrontend.Program

/-- No more than 237 levels fit on the call stack. -/
theorem clamped_nesting (limits : Scan.Limits) :
    (clamped limits).nesting = min limits.nesting 237 := by
  have hframes : Int.fdiv (stackFrames - 50) framesPerLevel = 237 := by decide
  simp only [clamped, clampDepth, hframes]
  split
  · omega
  · omega

namespace Grammar

open Scan

section Expressions

/-- Of two readings the second one keeps the expressions that it has room for. -/
abbrev ExprLimited {n : Nat} (cut : Nesting) (x y : Except Fault (Parsed Expr n)) : Prop :=
  LimitedParse cut.limit (fun e => e.nesting ≤ room cut) x y

/-- However long a chain is, it nests as deep as its deepest operand. -/
theorem nesting_grouped_le_iff {first : Expr} {links : List (BinaryOp × Expr)} {k : Nat} :
    (grouped (first, links)).nesting ≤ k ↔
      first.nesting ≤ k ∧ ∀ p ∈ links, p.2.nesting ≤ k :=
  Chain.group_iff (P := fun e => e.nesting ≤ k) (fun _ _ _ => Nat.max_le) first links

theorem nesting_of_literal {s : Input} {p : Parsed Expr s.length} (h : literal s = .ok p) :
    p.value.nesting = 0 := by
  obtain ⟨q, -, rfl⟩ := map_eq_ok.mp h
  dsimp only [Parsed.map]
  split <;> rfl

theorem nesting_of_nameOrField {s : Input} {p : Parsed Expr s.length}
    (h : nameOrField s = .ok p) : p.value.nesting = 0 := by
  unfold nameOrField at h
  split at h
  · cases h
  · split at h
    · cases h
      rfl
    · obtain ⟨q, -, rfl⟩ := map_eq_ok.mp h
      rfl

variable {n : Nat} {inner inner' : Inner Expr n}

theorem callRest_limited
    (hinner : ∀ nested cut t h, ExprLimited cut (inner nested t h) (inner' cut t h))
    (nesting cut : Nesting) (s : Input) (h : s.length < n) :
    ExprLimited cut (callRest inner nesting s h) (callRest inner' cut s h) := by
  unfold callRest
  cases nesting.enter s with
  | error e => exact .failed
  | ok nested =>
      rcases enter_cases cut s with ⟨nested', hcut, hlimit, hroom⟩ | ⟨hroom, hcut⟩
      · simp only [hcut]
        split
        · exact .failed
        · rename_i p hp
          have harguments := itemsUntilBrace_limited
            (fun t ht => hinner nested nested' t (Nat.lt_trans ht h)) (List.forall_mem_nil _)
            p.rest p.rest_lt
          rw [hlimit] at harguments
          refine harguments.map fun arguments => ?_
          rw [← hroom, ← Expr.nestingAll_le_iff]
          exact Nat.succ_le_succ_iff
      · simp only [hcut]
        refine .stop fun q hq => ?_
        split at hq
        · cases hq
        · obtain ⟨arguments, -, rfl⟩ := map_eq_ok.mp hq
          rw [hroom]
          exact Nat.not_succ_le_zero _

theorem operand_limited
    (hinner : ∀ nested cut t h, ExprLimited cut (inner nested t h) (inner' cut t h))
    (nesting cut : Nesting) (s : Input) (h : s.length ≤ n) :
    ExprLimited cut (operand inner nesting s h) (operand inner' cut s h) := by
  unfold operand
  split
  · refine .refl fun p hp => ?_
    exact Nat.le_trans (Nat.le_of_eq (nesting_of_literal hp)) (Nat.zero_le _)
  · split
    · rename_i k hk
      exact (callRest_limited hinner nesting cut k.rest _).relax _
    · split
      · rename_i u hu
        refine .refl fun p hp => ?_
        obtain ⟨q, -, rfl⟩ := map_eq_ok.mp hp
        exact Nat.zero_le _
      · split
        · exact .failed
        · refine .refl fun p hp => ?_
          exact Nat.le_trans (Nat.le_of_eq (nesting_of_nameOrField hp)) (Nat.zero_le _)

theorem found_subset_operands {nesting : Nesting} {found : List (BinaryOp × Expr)} {s : Input}
    {h : s.length < n} {p : Parsed (List (BinaryOp × Expr)) n}
    (hp : operands inner nesting found s h = .ok p) : found ⊆ p.value := by
  fun_induction operands inner nesting found s h with
  | case1 found s h hnone =>
      cases hp
      exact fun x hx => List.mem_reverse.mpr hx
  | case2 found s h op hop e he => cases hp
  | case3 found s h op hop q hq ih => exact fun x hx => ih hp (List.mem_cons_of_mem _ hx)

theorem operands_limited
    (hinner : ∀ nested cut t h, ExprLimited cut (inner nested t h) (inner' cut t h))
    (nesting cut : Nesting) {found : List (BinaryOp × Expr)}
    (hfound : ∀ p ∈ found, p.2.nesting ≤ room cut) (s : Input) (h : s.length < n) :
    LimitedParse cut.limit (fun links => ∀ p ∈ links, p.2.nesting ≤ room cut)
      (operands inner nesting found s h) (operands inner' cut found s h) := by
  fun_induction operands inner nesting found s h with
  | case1 found s h hnone =>
      rw [operands.eq_def inner', hnone]
      exact .kept (by simpa using hfound)
  | case2 found s h op hop e he => exact .failed
  | case3 found s h op hop p hp ih =>
      rw [operands.eq_def inner', hop]
      rcases (operand_limited hinner nesting cut op.rest _).of_ok hp with
        ⟨hvalue, hcut⟩ | ⟨hvalue, rest, hcut⟩
      · simp only [hcut]
        exact ih (List.forall_mem_cons.mpr ⟨hvalue, hfound⟩)
      · simp only [hcut]
        refine .stop fun q hq hall => hvalue (hall (op.value, p.value) ?_)
        exact found_subset_operands hq List.mem_cons_self

theorem chain_limited {s : Input} {inner inner' : Inner Expr s.length}
    (hinner : ∀ nested cut t h, ExprLimited cut (inner nested t h) (inner' cut t h))
    (nesting cut : Nesting) :
    LimitedParse cut.limit (fun c => c.1.nesting ≤ room cut ∧ ∀ p ∈ c.2, p.2.nesting ≤ room cut)
      (chain s inner nesting) (chain s inner' cut) := by
  unfold chain
  rcases (operand_limited hinner nesting cut s s.length_le_self).cases with
    ⟨e, he⟩ | ⟨first, hfirst, hfull, hcut⟩ | ⟨first, rest, hfirst, hfull, hcut⟩
  · simp only [he]
    exact .failed
  · simp only [hfull, hcut]
    have hlinks := operands_limited hinner nesting cut (List.forall_mem_nil _) first.rest
      first.rest_lt
    exact hlinks.map fun links => and_iff_right hfirst
  · simp only [hfull, hcut]
    refine .stop fun p hp hfits => ?_
    obtain ⟨links, -, rfl⟩ := map_eq_ok.mp hp
    exact hfirst hfits.1

theorem expr_limited (nesting cut : Nesting) (s : Input) :
    ExprLimited cut (expr nesting s) (expr cut s) := by
  fun_induction expr nesting s generalizing cut with
  | case1 nesting s ih =>
      rw [expr]
      refine (chain_limited (fun nested cut t h => ih nested t h cut) nesting cut).map ?_
      exact fun c => nesting_grouped_le_iff

end Expressions

section Statements

/-- Of two readings the second one keeps the statements that it has room for. -/
abbrev StmtLimited {n : Nat} (cut : Nesting) (x y : Except Fault (Parsed Stmt n)) : Prop :=
  LimitedParse cut.limit (fun s => s.nesting ≤ room cut) x y

variable {n : Nat} {inner inner' : Inner Stmt n}

theorem block_limited
    (hinner : ∀ nested cut t h, StmtLimited cut (inner nested t h) (inner' cut t h))
    (nesting cut : Nesting) (s : Input) (h : s.length ≤ n) :
    LimitedParse cut.limit (fun body => Stmt.nestingAll body + 1 ≤ room cut)
      (block inner nesting s h) (block inner' cut s h) := by
  unfold block
  cases nesting.enter s with
  | error e => exact .failed
  | ok nested =>
      rcases enter_cases cut s with ⟨nested', hcut, hlimit, hroom⟩ | ⟨hroom, hcut⟩
      · simp only [hcut]
        split
        · exact .failed
        · rename_i p hp
          have hbody := itemsUntilBrace_limited
            (fun t ht => hinner nested nested' t (Nat.lt_of_lt_of_le ht h))
            (List.forall_mem_nil _) p.rest p.rest_lt
          rw [hlimit] at hbody
          refine hbody.congr fun body => ?_
          rw [← hroom, ← Stmt.nestingAll_le_iff]
          exact Nat.succ_le_succ_iff
      · simp only [hcut]
        refine .stop fun q hq => ?_
        rw [hroom]
        exact Nat.not_succ_le_zero _

theorem condition_limited (nesting cut : Nesting) (s : Input) :
    ExprLimited cut (condition nesting s) (condition cut s) :=
  LimitedParse.after (symbol '(')
    (fun _ t => (expr_limited nesting cut t).followedBy (symbol ')')) s

theorem conditional_limited {form : Expr → List Stmt → Stmt}
    (hinner : ∀ nested cut t h, StmtLimited cut (inner nested t h) (inner' cut t h))
    (hform : ∀ condition body,
      (form condition body).nesting = max condition.nesting (Stmt.nestingAll body + 1))
    (nesting cut : Nesting) (s : Input) (h : s.length ≤ n) :
    StmtLimited cut (conditional form inner nesting s h) (conditional form inner' cut s h) := by
  unfold conditional
  rcases (condition_limited nesting cut s).cases with
    ⟨e, he⟩ | ⟨p, hp, hfull, hcut⟩ | ⟨p, rest, hp, hfull, hcut⟩
  · simp only [he]
    exact .failed
  · simp only [hfull, hcut]
    refine (block_limited hinner nesting cut p.rest _).mapRelax (fun body => ?_) _
    rw [hform, Nat.max_le]
    exact and_iff_right hp
  · simp only [hfull, hcut]
    refine .stop fun q hq hfits => ?_
    obtain ⟨body, -, rfl⟩ := map_eq_ok.mp hq
    simp only [Parsed.relax, Parsed.map, hform, Nat.max_le] at hfits
    exact hp hfits.1

theorem simple_limited (nesting cut : Nesting) (s : Input) :
    StmtLimited cut (simple nesting s) (simple cut s) := by
  unfold simple
  rcases (expr_limited nesting cut s).cases with
    ⟨e, he⟩ | ⟨p, hp, hfull, hcut⟩ | ⟨p, rest, hp, hfull, hcut⟩
  · simp only [he]
    exact .failed
  · simp only [hfull, hcut]
    split
    · exact .kept hp
    · split
      · exact .kept hp
      · rename_i eq heq
        refine (expr_limited nesting cut eq.rest).mapRelax (fun value => ?_) _
        rw [Stmt.nesting, Nat.max_le]
        exact and_iff_right hp
  · simp only [hfull, hcut]
    refine .stop fun q hq hfits => hp ?_
    split at hq
    · cases hq
      exact hfits
    · split at hq
      · cases hq
        exact hfits
      · obtain ⟨value, -, rfl⟩ := map_eq_ok.mp hq
        exact (Nat.max_le.mp hfits).1

theorem stmt_limited (nesting cut : Nesting) (s : Input) :
    StmtLimited cut (stmt nesting s) (stmt cut s) := by
  fun_induction stmt nesting s generalizing cut with
  | case1 nesting s ih =>
      have hinner : ∀ nested cut (t : Input) (h : t.length < s.length),
          StmtLimited cut (stmt nested t) (stmt cut t) := fun nested cut t h => ih nested t h cut
      rw [stmt.eq_def cut]
      unfold stmtWith
      split
      · rename_i k hk
        exact (expr_limited nesting cut k.rest).mapRelax (fun _ => Iff.rfl) _
      · split
        · rename_i k hk
          exact (expr_limited nesting cut k.rest).mapRelax (fun _ => Iff.rfl) _
        · split
          · rename_i k hk
            exact (conditional_limited hinner (fun _ _ => rfl) nesting cut k.rest _).relax _
          · split
            · rename_i k hk
              exact (conditional_limited hinner (fun _ _ => rfl) nesting cut k.rest _).relax _
            · exact simple_limited nesting cut s

theorem found_subset_stmts {nesting : Nesting} {reached : Phase} {found ss : List Stmt}
    {s : Input} (h : stmts nesting reached found s = .ok ss) : found ⊆ ss := by
  fun_induction stmts nesting reached found s with
  | case1 reached found s hempty =>
      cases h
      exact fun x hx => List.mem_reverse.mpr hx
  | case2 reached found s hempty e he => cases h
  | case3 reached found s hempty hlate e he => cases h
  | case4 reached found s hempty hlate p hp ih => exact fun x hx => ih h (List.mem_cons_of_mem _ hx)

theorem stmts_limited (nesting cut : Nesting) (reached : Phase) {found : List Stmt}
    (hfound : ∀ s ∈ found, s.nesting ≤ room cut) (s : Input) :
    Limited cut.limit (fun ss => ∀ s ∈ ss, s.nesting ≤ room cut) (stmts nesting reached found s)
      (stmts cut reached found s) := by
  fun_induction stmts nesting reached found s with
  | case1 reached found s hempty =>
      rw [stmts, if_pos hempty]
      exact .kept (by simpa using hfound)
  | case2 reached found s hempty e he => exact .failed
  | case3 reached found s hempty hlate e he => exact .failed
  | case4 reached found s hempty hlate p hp ih =>
      rw [stmts.eq_def cut, if_neg hempty, hlate]
      rcases (stmt_limited nesting cut s).of_ok hp with ⟨hvalue, hcut⟩ | ⟨hvalue, rest, hcut⟩
      · simp only [hcut]
        exact ih (List.forall_mem_cons.mpr ⟨hvalue, hfound⟩)
      · simp only [hcut]
        refine .stop fun ss hss hall => hvalue (hall _ ?_)
        exact found_subset_stmts hss List.mem_cons_self

end Statements

theorem program_limited (nesting cut : Nesting) (s : Input) :
    Limited cut.limit (fun p => p.nesting ≤ room cut) (program nesting s) (program cut s) := by
  unfold program
  refine .bind_left fun headers => .bind_left fun types => .bind_left fun vars =>
    .bind_left fun functions => ?_
  apply (stmts_limited nesting cut _ (List.forall_mem_nil _) functions.rest).bind
  · intro statements hstatements
    exact .kept (Stmt.nestingAll_le_iff.mpr hstatements)
  · intro statements hstatements p hp
    cases hp
    exact mt Stmt.nestingAll_le_iff.mp hstatements

end Grammar

end FuzzFrontend.Program
