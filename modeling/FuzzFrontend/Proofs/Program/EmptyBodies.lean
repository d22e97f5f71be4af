import FuzzFrontend.Proofs.NestingLimit
import FuzzFrontend.Proofs.Program.Cost

namespace FuzzFrontend

section Levels

/-- The body of a conditional statement. -/
def Stmt.body? : Stmt → Option (List Stmt)
  | .branch _ body => some body
  | .loop _ body => some body
  | _ => none

/-- An empty body stands in exactly so many others. -/
inductive Stmt.EmptyBodyAt : Nat → Stmt → Prop
  | here {s : Stmt} (h : s.body? = some []) : EmptyBodyAt 0 s
  | inside {s t : Stmt} {body : List Stmt} {n : Nat} (h : s.body? = some body) (ht : t ∈ body)
      (hn : EmptyBodyAt n t) : EmptyBodyAt (n + 1) s

theorem Expr.nesting_le_costIn (e : Expr) (inChain : Bool) : e.nesting ≤ e.costIn inChain := by
  induction e generalizing inChain with
  | call name arguments ih =>
      have harguments : Expr.nestingAll arguments ≤ Expr.costAll arguments := by
        refine nestingAll_le_iff.mpr fun a ha => Nat.le_trans (ih a ha false) ?_
        exact costAll_le_iff.mp (Nat.le_refl _) a ha
      exact Nat.succ_le_succ harguments
  | compound left op right ihl ihr =>
      have hl := ihl true
      have hr := ihr false
      simp only [Expr.nesting, Expr.costIn]
      omega
  | _ => exact Nat.zero_le _

theorem Expr.nesting_le_cost (e : Expr) : e.nesting ≤ e.cost :=
  e.nesting_le_costIn false

theorem Stmt.not_emptyBodyAt {s : Stmt} {n : Nat} (h : s.body? = none) : ¬ s.EmptyBodyAt n := by
  intro hempty
  cases hempty with
  | here hbody => exact absurd (hbody.symm.trans h) (by simp)
  | inside hbody _ _ => exact absurd (hbody.symm.trans h) (by simp)

theorem Stmt.emptyBodyAt_zero_iff {s : Stmt} {body : List Stmt} (h : s.body? = some body) :
    s.EmptyBodyAt 0 ↔ body = [] := by
  constructor
  · rintro ⟨hempty⟩
    exact Option.some.inj (h.symm.trans hempty)
  · rintro rfl
    exact .here h

theorem Stmt.emptyBodyAt_succ_iff {s : Stmt} {body : List Stmt} {n : Nat}
    (h : s.body? = some body) : s.EmptyBodyAt (n + 1) ↔ ∃ t ∈ body, t.EmptyBodyAt n := by
  constructor
  · rintro (_ | ⟨hbody, ht, hn⟩)
    obtain rfl := Option.some.inj (h.symm.trans hbody)
    exact ⟨_, ht, hn⟩
  · rintro ⟨t, ht, hn⟩
    exact .inside h ht hn

theorem Stmt.le_nestingAll_iff {s : Stmt} {body : List Stmt} {n : Nat} (h : s.body? = some body)
    (hcost : ∀ t ∈ body, t.cost + 1 ≤ n)
    (ih : ∀ t ∈ body, ∀ m, t.cost ≤ m → (m < t.nesting ↔ t.EmptyBodyAt m)) :
    n ≤ Stmt.nestingAll body ↔ s.EmptyBodyAt n := by
  cases n with
  | zero =>
      have hnone : body = [] :=
        List.eq_nil_iff_forall_not_mem.mpr fun t ht => Nat.not_succ_le_zero _ (hcost t ht)
      simp [emptyBodyAt_zero_iff h, hnone]
  | succ m =>
      rw [emptyBodyAt_succ_iff h, Nat.succ_le_iff, ← Nat.not_le, nestingAll_le_iff]
      simp only [not_forall, exists_prop, Nat.not_le]
      exact exists_congr fun t => and_congr_right fun ht =>
        ih t ht m (Nat.le_of_succ_le_succ (hcost t ht))

/-- Of a statement that is written at a limit nothing nests deeper but an empty body. -/
theorem Stmt.lt_nesting_iff {s : Stmt} {n : Nat} (h : s.cost ≤ n) :
    n < s.nesting ↔ s.EmptyBodyAt n := by
  have hflat : ∀ {s : Stmt} {n : Nat}, s.body? = none → s.nesting ≤ n →
      (n < s.nesting ↔ s.EmptyBodyAt n) :=
    fun hbody hnesting => iff_of_false (Nat.not_lt.mpr hnesting) (not_emptyBodyAt hbody)
  have hconditional : ∀ {s : Stmt} {condition : Expr} {body : List Stmt} {n : Nat},
      s.body? = some body → max condition.cost (Stmt.costBelow body) ≤ n →
        (∀ t ∈ body, ∀ m, t.cost ≤ m → (m < t.nesting ↔ t.EmptyBodyAt m)) →
          (n < max condition.nesting (Stmt.nestingAll body + 1) ↔ s.EmptyBodyAt n) := by
    intro s condition body n hbody hcost ih
    obtain ⟨hcondition, hbelow⟩ := Nat.max_le.mp hcost
    rw [← le_nestingAll_iff hbody (costBelow_le_iff.mp hbelow) ih]
    have hnesting := condition.nesting_le_cost
    omega
  induction s generalizing n with
  | bare expr => exact hflat rfl (Nat.le_trans expr.nesting_le_cost h)
  | assign target value =>
      obtain ⟨htarget, hvalue⟩ := Nat.max_le.mp h
      refine hflat rfl (Nat.max_le.mpr ⟨?_, ?_⟩)
      · exact Nat.le_trans target.nesting_le_cost htarget
      · exact Nat.le_trans value.nesting_le_cost hvalue
  | verify expr => exact hflat rfl (Nat.le_trans expr.nesting_le_cost h)
  | constrain expr => exact hflat rfl (Nat.le_trans expr.nesting_le_cost h)
  | branch condition body ih => exact hconditional rfl h fun t ht m => ih t ht
  | loop condition body ih => exact hconditional rfl h fun t ht m => ih t ht

end Levels

theorem Scan.stopsAt_iff {α : Type} {limit : Int} {r : Except ReadError α} {a : α} {fits : Prop}
    (h : (fits ∧ r = .ok a) ∨ ¬ fits ∧ StopsAt limit r) :
    (r = .ok a ↔ fits) ∧ (StopsAt limit r ↔ ¬ fits) := by
  rcases h with ⟨hfits, hread⟩ | ⟨hdeep, hstops⟩
  · refine ⟨iff_of_true hread hfits, iff_of_false ?_ (not_not_intro hfits)⟩
    rintro ⟨l, hl, -⟩
    exact absurd (hread.symm.trans hl) nofun
  · refine ⟨iff_of_false ?_ hdeep, iff_of_true hstops hdeep⟩
    obtain ⟨l, hl, -⟩ := hstops
    exact fun hread => absurd (hread.symm.trans hl) nofun

namespace Program

open Scan

/-- A program that is written takes no more levels than were asked for, and then it nests within
them unless an empty body stands at the last one. -/
theorem nesting_le_iff_of_write {p : Program} (hp : p.Spellable) {requested : Option Int}
    {depth : Nat} (hdepth : requested.getD defaultDepth = depth) {t : String}
    (h : p.write true requested = .ok t) :
    p.nesting ≤ depth ↔ ∀ s ∈ p.statements, ¬ s.EmptyBodyAt depth := by
  have hroom : (DepthGuard.ofRequest requested).room ≤ depth :=
    Nat.le_trans (DepthGuard.room_ofRequest_le (requested.getD defaultDepth)) (by omega)
  have hcheck : true = true → p.check = .ok () := fun _ => check_of_spellable hp
  have hcost := (write_fits (wellFormed_of_spellable hp) hcheck requested).ok_iff.mp ⟨t, h⟩
  rw [nesting, Stmt.nestingAll_le_iff]
  refine forall₂_congr fun s hs => ?_
  rw [← Stmt.lt_nesting_iff (Nat.le_trans (hcost s hs) hroom), Nat.not_lt]

theorem read_written {p : Program} (hp : p.Spellable) {requested : Option Int} {t : String}
    (h : p.write true requested = .ok t) {limits : Limits}
    (hsize : limits.sizeError? "ProgramParser" t = none) {depth : Nat} (hclamp : depth ≤ 237) :
    let reading := read t { limits with nesting := depth }
    (reading = .ok p ↔ p.nesting ≤ depth) ∧ (StopsAt depth reading ↔ ¬ p.nesting ≤ depth) := by
  intro reading
  -- the text is read at the nesting of the program, and cut there to the limit
  have hfull : Grammar.program { limit := p.nesting } (.ofList t.toList) = .ok p :=
    (program_of_write hp h p.nesting).mpr (by simp)
  have hcut := (Grammar.program_limited _ { limit := min depth 237 } _).mapError hfull
    problemFamilies fun e he => Grammar.about_of_program (endOf_toList t) he
  have hreading : reading = _ := read_eq { limits with nesting := depth } hsize
  have hlimit : min (depth : Int) 237 = depth := by omega
  rw [← hreading, room_of_limit, hlimit, Int.toNat_natCast] at hcut
  exact stopsAt_iff hcut

/-- What is written at a limit, the default or another that the reader has no lower one for, is read
back at that limit if no empty body stands in as many bodies as the limit allows, and else the
reading stops there. -/
theorem read_of_write_iff {p : Program} (hp : p.Spellable) {requested : Option Int} {depth : Nat}
    (hdepth : requested.getD defaultDepth = depth) (hclamp : depth ≤ 237) {t : String}
    (h : p.write true requested = .ok t) {limits : Limits}
    (hsize : limits.sizeError? "ProgramParser" t = none) :
    let reading := read t { limits with nesting := depth }
    (reading = .ok p ↔ ¬ ∃ s ∈ p.statements, s.EmptyBodyAt depth) ∧
      (StopsAt depth reading ↔ ∃ s ∈ p.statements, s.EmptyBodyAt depth) := by
  have hread := read_written hp h hsize hclamp
  rw [nesting_le_iff_of_write hp hdepth h] at hread
  simpa only [not_exists, not_and, not_forall, not_not, exists_prop] using hread

/-- An empty body in another one: at a limit of one it is written and not read, and at a limit of
two both. -/
theorem read_of_write_one :
    let a := Expr.var .plain "a"
    let p : Program := ⟨[], [.branch a [.loop a []]]⟩
    let t := "if ( a ) \x7b\n    while ( a ) \x7b \x7d\n\x7d\n"
    p.write true (some 1) = .ok t ∧ StopsAt 1 (read t { sourceSize := 0, nesting := 1 }) ∧
      p.write true (some 2) = .ok t ∧ read t { sourceSize := 0, nesting := 2 } = .ok p := by
  intro a p t
  have ha : a.Spellable := .var (by decide)
  have hp : p.Spellable := by
    refine ⟨.nil, List.forall_mem_nil _, List.forall_mem_singleton.mpr (.branch ha ?_)⟩
    exact List.forall_mem_singleton.mpr (.loop ha (List.forall_mem_nil _))
  have hempty : (Stmt.branch a [.loop a []]).EmptyBodyAt 1 :=
    .inside rfl List.mem_cons_self (.here rfl)
  have hone : p.write true (some 1) = .ok t := rfl
  have htwo : p.write true (some 2) = .ok t := rfl
  have hsize : ∀ t, Limits.sizeError? { sourceSize := 0 } "ProgramParser" t = none :=
    sizeError?_eq_none (Int.le_refl 0) _
  refine ⟨hone, ?_, htwo, ?_⟩
  · refine (read_of_write_iff hp rfl (by decide) hone (hsize t)).2.mpr ?_
    exact ⟨_, List.mem_cons_self, hempty⟩
  · refine (read_of_write_iff hp rfl (by decide) htwo (hsize t)).1.mpr ?_
    rintro ⟨s, hs, hdeep⟩
    obtain rfl := List.mem_singleton.mp hs
    obtain ⟨inner, hinner, hdeep⟩ := (Stmt.emptyBodyAt_succ_iff rfl).mp hdeep
    obtain rfl := List.mem_singleton.mp hinner
    obtain ⟨_, hnone, -⟩ := (Stmt.emptyBodyAt_succ_iff rfl).mp hdeep
    exact absurd hnone List.not_mem_nil

/-- Bodies that each hold the next one, around an empty one. -/
def nestedBodies : Nat → Stmt
  | 0 => .branch (.var .plain "a") []
  | n + 1 => .branch (.var .plain "a") [nestedBodies n]

theorem spellable_nestedBodies (n : Nat) : (nestedBodies n).Spellable := by
  have ha : (Expr.var .plain "a").Spellable := .var (by decide)
  induction n with
  | zero => exact .branch ha (List.forall_mem_nil _)
  | succ n ih => exact .branch ha (List.forall_mem_singleton.mpr ih)

theorem cost_nestedBodies (n : Nat) : (nestedBodies n).cost = n := by
  induction n with
  | zero => rfl
  | succ n ih => simp [nestedBodies, Stmt.cost, Stmt.costBelow, Expr.cost, Expr.costIn, ih]

theorem nesting_nestedBodies (n : Nat) : (nestedBodies n).nesting = n + 1 := by
  induction n with
  | zero => rfl
  | succ n ih => simp [nestedBodies, Stmt.nesting, Stmt.nestingAll, Expr.nesting, ih]

/-- What is written at a limit may be refused at that limit: where no body may be entered, and at
the default. -/
theorem write_refused_at_limit :
    let bare : Program := ⟨[], [nestedBodies 0]⟩
    let nested : Program := ⟨[], [nestedBodies 100]⟩
    let t := "if ( a ) \x7b \x7d\n"
    (bare.Spellable ∧ bare.write true (some 0) = .ok t ∧
        StopsAt 0 (read t { sourceSize := 0, nesting := 0 })) ∧
      nested.Spellable ∧ ∃ u, nested.write true none = .ok u ∧
        StopsAt 100 (read u { sourceSize := 0 }) := by
  intro bare nested t
  have hspellable : ∀ n, Spellable ⟨[], [nestedBodies n]⟩ := fun n =>
    ⟨.nil, List.forall_mem_nil _, List.forall_mem_singleton.mpr (spellable_nestedBodies n)⟩
  have hdeep : ∀ n, ¬ nesting ⟨[], [nestedBodies n]⟩ ≤ n := by
    intro n hle
    have hinner := Stmt.nestingAll_le_iff.mp hle _ List.mem_cons_self
    rw [nesting_nestedBodies] at hinner
    exact Nat.not_succ_le_self n hinner
  have hbare : bare.write true (some 0) = .ok t := rfl
  have hsize : ∀ t, Limits.sizeError? { sourceSize := 0 } "ProgramParser" t = none :=
    sizeError?_eq_none (Int.le_refl 0) _
  have hcheck : true = true → nested.check = .ok () := fun _ => check_of_spellable (hspellable 100)
  obtain ⟨u, hu⟩ : ∃ u, nested.write true none = .ok u := by
    refine (write_fits (wellFormed_of_spellable (hspellable 100)) hcheck none).ok_iff.mpr ?_
    exact List.forall_mem_singleton.mpr (Nat.le_of_eq (cost_nestedBodies 100))
  refine ⟨⟨hspellable 0, hbare, ?_⟩, hspellable 100, u, hu, ?_⟩
  · exact (read_written (hspellable 0) hbare (hsize t) (by decide)).2.mpr (hdeep 0)
  · exact (read_written (hspellable 100) hu (hsize u) (by decide)).2.mpr (hdeep 100)

end Program

end FuzzFrontend
