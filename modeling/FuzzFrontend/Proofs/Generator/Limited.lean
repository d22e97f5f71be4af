import FuzzFrontend.Proofs.Generator.Spellable
import FuzzFrontend.Proofs.Grouping
import FuzzFrontend.Proofs.Scan.Limited

namespace FuzzFrontend.Generator.Grammar

open Scan

variable {precedence : Precedence}

section States

/-- Of two readings the second one keeps the states that it has room for. -/
abbrev StateLimited {n : Nat} (cut : Nesting) (x y : Except Fault (Parsed GenExpr n)) : Prop :=
  LimitedParse cut.limit (fun e => e.nesting ≤ room cut) x y

theorem nesting_grouped_le_iff {first : GenExpr} {links : List (ArithmeticOp × GenExpr)}
    {k : Nat} :
    (grouped precedence (first, links)).nesting ≤ k ↔
      first.nesting ≤ k ∧ ∀ p ∈ links, p.2.nesting ≤ k :=
  Chain.group_iff (P := fun e => e.nesting ≤ k) (fun _ _ _ => Nat.max_le) first links

theorem textConstant_limited (cut : Nesting) (start s : Input) :
    StateLimited cut (textConstant start s) (textConstant start s) := by
  unfold textConstant
  refine LimitedParse.after (symbol ':') (fun _ t => ?_) s
  unfold Rule.onKeyword
  split
  · rename_i k hk
    refine LimitedParse.relax (.refl fun p hp => ?_) k.rest_le
    obtain ⟨v, -, rfl⟩ := map_eq_ok.mp hp
    exact Nat.zero_le _
  · exact .failed

theorem typedConstant_limited (cut : Nesting) (kind : Scalar) (s : Input) :
    StateLimited cut (typedConstant kind s) (typedConstant kind s) := by
  unfold typedConstant
  split
  · exact .failed
  · split
    · exact .failed
    · exact .kept (Nat.zero_le _)

theorem emptyBrackets_limited {n : Nat} (cut : Nesting) {e : GenExpr} (he : e.nesting = 0)
    (s : Input) (h : s.length ≤ n) :
    StateLimited cut ((emptyBrackets s).map fun p => (p.map fun _ => e).relax h)
      ((emptyBrackets s).map fun p => (p.map fun _ => e).relax h) := by
  refine .refl fun p hp => ?_
  obtain ⟨u, -, rfl⟩ := map_eq_ok.mp hp
  exact Nat.le_trans (Nat.le_of_eq he) (Nat.zero_le _)

variable {n : Nat} {inner inner' : Inner n}

theorem exists_bounds_of_randomRest {nesting : Nesting} {kind : Scalar} {s : Input}
    {h : s.length ≤ n} {p : Parsed GenExpr s.length}
    (hp : randomRest inner nesting kind s h = .ok p) :
    ∃ low high, p.value = .random (.scalar kind) low high := by
  unfold randomRest at hp
  split at hp
  · cases hp
  · split at hp
    · cases hp
    · split at hp
      · cases hp
      · rename_i low hlow
        split at hp
        · cases hp
        · dsimp only at hp
          split at hp
          · cases hp
          · rename_i high hhigh
            obtain ⟨close, -, rfl⟩ := map_eq_ok.mp hp
            exact ⟨low.value, high.value, rfl⟩

theorem randomRest_limited
    (hinner : ∀ nested cut t h, StateLimited cut (inner nested t h) (inner' cut t h))
    (nesting cut : Nesting) (kind : Scalar) (s : Input) (h : s.length ≤ n) :
    StateLimited cut (randomRest inner nesting kind s h) (randomRest inner' cut kind s h) := by
  rcases enter_cases cut s with ⟨nested', hcut, hlimit, hroom⟩ | ⟨hroom, hcut⟩
  · have hfits : ∀ low high : GenExpr, (GenExpr.random (.scalar kind) low high).nesting ≤ room cut ↔
        low.nesting ≤ room nested' ∧ high.nesting ≤ room nested' := by
      intro low high
      rw [GenExpr.nesting, ← hroom, Nat.succ_le_succ_iff, Nat.max_le]
    unfold randomRest
    simp only [hcut]
    split
    · exact .failed
    · rename_i nested henter
      split
      · exact .failed
      · rename_i p hp
        rcases (hinner nested nested' p.rest (p.rest_lt_of_le h)).cases with
          ⟨e, he⟩ | ⟨low, hlow, hfull, hcut⟩ | ⟨low, rest, hlow, hfull, hcut⟩
        · simp only [he]
          exact .failed
        · simp only [hfull, hcut]
          split
          · exact .failed
          · rename_i q hq
            have below : q.rest.length < n := Nat.lt_of_lt_of_le
              (Nat.lt_trans q.shorter (Nat.lt_trans low.shorter p.shorter)) h
            rcases (hinner nested nested' q.rest below).cases with
              ⟨e, he⟩ | ⟨high, hhigh, hfull, hcut⟩ | ⟨high, rest, hhigh, hfull, hcut⟩
            · simp only [he]
              exact .failed
            · simp only [hfull, hcut]
              refine .refl fun r hr => ?_
              obtain ⟨close, -, rfl⟩ := map_eq_ok.mp hr
              exact (hfits low.value high.value).mpr ⟨hlow, hhigh⟩
            · simp only [hfull, hcut, hlimit]
              refine .stop fun r hr hdeep => hhigh ?_
              obtain ⟨close, -, rfl⟩ := map_eq_ok.mp hr
              exact ((hfits low.value high.value).mp hdeep).2
        · simp only [hfull, hcut, hlimit]
          refine .stop fun r hr hdeep => hlow ?_
          split at hr
          · cases hr
          · split at hr
            · cases hr
            · rename_i high hhigh
              obtain ⟨close, -, rfl⟩ := map_eq_ok.mp hr
              exact ((hfits low.value high.value).mp hdeep).1
  · have hstop : randomRest inner' cut kind s h =
        .error (.problem s.skipBlanks (.nestingTooDeep cut.limit) []) := by
      simp only [randomRest, hcut]
    rw [hstop]
    refine .stop fun p hp => ?_
    obtain ⟨low, high, hvalue⟩ := exists_bounds_of_randomRest hp
    rw [hvalue, hroom]
    exact Nat.not_succ_le_zero _

theorem typedTerm_limited
    (hinner : ∀ nested cut t h, StateLimited cut (inner nested t h) (inner' cut t h))
    (nesting cut : Nesting) (kind : Scalar) (s : Input) (h : s.length ≤ n) :
    StateLimited cut (typedTerm inner nesting kind s h) (typedTerm inner' cut kind s h) := by
  unfold typedTerm
  split
  · exact .failed
  · rename_i colon hcolon
    dsimp only
    refine LimitedParse.relax ?_ _
    split
    · rename_i k hk
      exact (typedConstant_limited cut kind k.rest).relax _
    · split
      · rename_i k hk
        exact emptyBrackets_limited cut rfl k.rest k.rest_le
      · split
        · rename_i k hk
          exact emptyBrackets_limited cut rfl k.rest k.rest_le
        · split
          · rename_i k hk
            exact (randomRest_limited hinner nesting cut kind k.rest _).relax _
          · exact .failed

theorem term_limited
    (hinner : ∀ nested cut t h, StateLimited cut (inner nested t h) (inner' cut t h))
    (nesting cut : Nesting) (s : Input) (h : s.length ≤ n) :
    StateLimited cut (term inner nesting s h) (term inner' cut s h) := by
  unfold term
  split
  · rename_i k hk
    exact (textConstant_limited cut s.skipBlanks k.rest).relax _
  · split
    · exact .failed
    · rename_i p hp
      exact (typedTerm_limited hinner nesting cut p.value p.rest _).relax _

theorem found_subset_terms {nesting : Nesting} {found : List (ArithmeticOp × GenExpr)} {s : Input}
    {h : s.length < n} {p : Parsed (List (ArithmeticOp × GenExpr)) n}
    (hp : terms inner nesting found s h = .ok p) : found ⊆ p.value := by
  fun_induction terms inner nesting found s h with
  | case1 found s h hnone =>
      cases hp
      exact fun x hx => List.mem_reverse.mpr hx
  | case2 found s h op hop e he => cases hp
  | case3 found s h op hop q hq ih => exact fun x hx => ih hp (List.mem_cons_of_mem _ hx)

theorem terms_limited
    (hinner : ∀ nested cut t h, StateLimited cut (inner nested t h) (inner' cut t h))
    (nesting cut : Nesting) {found : List (ArithmeticOp × GenExpr)}
    (hfound : ∀ p ∈ found, p.2.nesting ≤ room cut) (s : Input) (h : s.length < n) :
    LimitedParse cut.limit (fun links => ∀ p ∈ links, p.2.nesting ≤ room cut)
      (terms inner nesting found s h) (terms inner' cut found s h) := by
  fun_induction terms inner nesting found s h with
  | case1 found s h hnone =>
      rw [terms.eq_def inner', hnone]
      exact .kept (by simpa using hfound)
  | case2 found s h op hop e he => exact .failed
  | case3 found s h op hop p hp ih =>
      rw [terms.eq_def inner', hop]
      rcases (term_limited hinner nesting cut op.rest _).of_ok hp with
        ⟨hvalue, hcut⟩ | ⟨hvalue, rest, hcut⟩
      · simp only [hcut]
        exact ih (List.forall_mem_cons.mpr ⟨hvalue, hfound⟩)
      · simp only [hcut]
        refine .stop fun q hq hall => hvalue (hall (op.value, p.value) ?_)
        exact found_subset_terms hq List.mem_cons_self

theorem chain_limited {s : Input} {inner inner' : Inner s.length}
    (hinner : ∀ nested cut t h, StateLimited cut (inner nested t h) (inner' cut t h))
    (nesting cut : Nesting) :
    LimitedParse cut.limit (fun c => c.1.nesting ≤ room cut ∧ ∀ p ∈ c.2, p.2.nesting ≤ room cut)
      (chain s inner nesting) (chain s inner' cut) := by
  unfold chain
  rcases (term_limited hinner nesting cut s s.length_le_self).cases with
    ⟨e, he⟩ | ⟨first, hfirst, hfull, hcut⟩ | ⟨first, rest, hfirst, hfull, hcut⟩
  · simp only [he]
    exact .failed
  · simp only [hfull, hcut]
    have hlinks := terms_limited hinner nesting cut (List.forall_mem_nil _) first.rest
      first.rest_lt
    exact hlinks.map fun links => and_iff_right hfirst
  · simp only [hfull, hcut]
    refine .stop fun p hp hfits => ?_
    obtain ⟨links, -, rfl⟩ := map_eq_ok.mp hp
    exact hfirst hfits.1

theorem state_limited (precedence : Precedence) (nesting cut : Nesting) (s : Input) :
    StateLimited cut (state precedence nesting s) (state precedence cut s) := by
  fun_induction state precedence nesting s generalizing cut with
  | case1 nesting s ih =>
      rw [state]
      refine (chain_limited (fun nested cut t h => ih nested t h cut) nesting cut).map ?_
      exact fun c => nesting_grouped_le_iff

end States

section Generators

theorem generator_limited (precedence : Precedence) (nesting cut : Nesting) (s : Input) :
    LimitedParse cut.limit (fun g => g.Within (room cut)) (generator precedence nesting s)
      (generator precedence cut s) := by
  unfold generator
  split
  · exact .failed
  · rename_i p hp
    have hstates := many_limited
      (LimitedParse.ifKeyword "state" (state_limited precedence nesting cut))
      (List.forall_mem_nil _) p.rest p.rest_lt
    rcases hstates.cases with ⟨e, he⟩ | ⟨q, hq, hfull, hcut⟩ | ⟨q, rest, hq, hfull, hcut⟩
    · simp only [he]
      exact .failed
    · simp only [hfull, hcut]
      split
      · exact .failed
      · exact .kept hq
    · simp only [hfull, hcut]
      refine .stop fun g hg hfits => ?_
      split at hg
      · cases hg
      · cases hg
        exact hq hfits

theorem found_subset_generators {nesting : Nesting} {found gs : List Generator} {s : Input}
    (h : generators precedence nesting found s = .ok gs) : found ⊆ gs := by
  fun_induction generators precedence nesting found s with
  | case1 found s e he => cases h
  | case2 found s p hp hend =>
      cases h
      exact fun x hx => List.mem_reverse.mpr (List.mem_cons_of_mem _ hx)
  | case3 found s p hp hend ih => exact fun x hx => ih h (List.mem_cons_of_mem _ hx)

theorem generators_limited (precedence : Precedence) (nesting cut : Nesting)
    {found : List Generator} (hfound : ∀ g ∈ found, g.Within (room cut)) (s : Input) :
    Limited cut.limit (fun gs => ∀ g ∈ gs, g.Within (room cut))
      (generators precedence nesting found s) (generators precedence cut found s) := by
  fun_induction generators precedence nesting found s with
  | case1 found s e he => exact .failed
  | case2 found s p hp hend =>
      rw [generators.eq_def precedence cut]
      rcases (generator_limited precedence nesting cut s).of_ok hp with
        ⟨hvalue, hcut⟩ | ⟨hvalue, rest, hcut⟩
      · simp only [hcut, if_pos hend]
        refine .kept fun g hg => ?_
        exact List.forall_mem_cons.mpr ⟨hvalue, hfound⟩ g (List.mem_reverse.mp hg)
      · simp only [hcut]
        exact .stopped fun hall => hvalue (hall _ (List.mem_reverse.mpr List.mem_cons_self))
  | case3 found s p hp hend ih =>
      rw [generators.eq_def precedence cut]
      rcases (generator_limited precedence nesting cut s).of_ok hp with
        ⟨hvalue, hcut⟩ | ⟨hvalue, rest, hcut⟩
      · simp only [hcut, if_neg hend]
        exact ih (List.forall_mem_cons.mpr ⟨hvalue, hfound⟩)
      · simp only [hcut]
        refine .stop fun gs hgs hall => hvalue (hall _ ?_)
        exact found_subset_generators hgs List.mem_cons_self

end Generators

end FuzzFrontend.Generator.Grammar
