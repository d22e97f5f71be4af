import FuzzFrontend.Proofs.Failures
import FuzzFrontend.Proofs.Generator.Loops
import FuzzFrontend.Proofs.Generator.Shape

namespace FuzzFrontend

open Generator.Grammar

section Shapes

/-- The operator is one of addition and subtraction. -/
def ArithmeticOp.IsSum (op : ArithmeticOp) : Prop :=
  op.val = .add ∨ op.val = .sub

namespace GenExpr

/-- The operators of the chain that a state is, in order. -/
def chainOps (e : GenExpr) : List ArithmeticOp :=
  (grouping e).links.map Prod.fst

/-- The states inside a state: the bounds of its random values, and the states inside these. -/
def bounds : GenExpr → List GenExpr
  | constant _ => []
  | least _ => []
  | greatest _ => []
  | random _ low high => low :: high :: (low.bounds ++ high.bounds)
  | compound left _ right => left.bounds ++ right.bounds

/-- A chain that is grouped from the left. -/
def IsLeftFold (e : GenExpr) : Prop :=
  e = (grouping e).links.foldl (fun left p => compound left p.1 p.2) (grouping e).first

/-- A chain that is split at its last sum, or at its last operator if it has no sums, and whose
parts are split in the same way. -/
inductive SplitsAtLast : GenExpr → Prop
  | term {e : GenExpr} (h : e.root? = none) : SplitsAtLast e
  | sum {left right : GenExpr} {op : ArithmeticOp} (hop : op.IsSum)
      (hlast : ∀ inner ∈ right.chainOps, ¬ inner.IsSum) (hleft : SplitsAtLast left)
      (hright : SplitsAtLast right) : SplitsAtLast (compound left op right)
  | product {left right : GenExpr} {op : ArithmeticOp} (hop : ¬ op.IsSum)
      (hsums : ∀ inner ∈ left.chainOps, ¬ inner.IsSum) (hlast : right.chainOps = [])
      (hleft : SplitsAtLast left) (hright : SplitsAtLast right) :
      SplitsAtLast (compound left op right)

end GenExpr

mutual

/-- Terms that differ at most in how their bounds are grouped. -/
inductive SameTerm : GenExpr → GenExpr → Prop
  | constant (value : Constant) : SameTerm (.constant value) (.constant value)
  | least (ty : Ty) : SameTerm (.least ty) (.least ty)
  | greatest (ty : Ty) : SameTerm (.greatest ty) (.greatest ty)
  | random {ty : Ty} {low low' high high' : GenExpr} (hlow : SameChain low low')
      (hhigh : SameChain high high') : SameTerm (.random ty low high) (.random ty low' high')

/-- States with the same terms and operators in the same order. -/
inductive SameChain : GenExpr → GenExpr → Prop
  | intro {e e' : GenExpr} (hfirst : SameTerm (grouping e).first (grouping e').first)
      (hlinks : SameLinks (grouping e).links (grouping e').links) : SameChain e e'

/-- Operators with the terms after them, one by one the same. -/
inductive SameLinks : List (ArithmeticOp × GenExpr) → List (ArithmeticOp × GenExpr) → Prop
  | nil : SameLinks [] []
  | cons {op : ArithmeticOp} {a a' : GenExpr} {links links' : List (ArithmeticOp × GenExpr)}
      (hterm : SameTerm a a') (hlinks : SameLinks links links') :
      SameLinks ((op, a) :: links) ((op, a') :: links')

end

/-- A generator as the flat precedence and as the conventional one read it. -/
structure Generator.Regrouped (flat conventional : Generator) : Prop where
  name : flat.name = conventional.name
  resultType : flat.resultType = conventional.resultType
  states : List.Forall₂ SameChain flat.states conventional.states
  leftFold : ∀ e ∈ flat.states, ∀ c ∈ e :: e.bounds, c.IsLeftFold
  splitsAtLast : ∀ e ∈ conventional.states, ∀ c ∈ e :: e.bounds, c.SplitsAtLast

end Shapes

section Groupings

variable {a b : GenExpr}

theorem root?_of_sameTerm (h : SameTerm a b) : a.root? = none ∧ b.root? = none := by
  cases h <;> exact ⟨rfl, rfl⟩

theorem sameLinks_of_forall₂ {links links' : List (ArithmeticOp × GenExpr)}
    (h : List.Forall₂ (LinkAlike SameTerm) links links') : SameLinks links links' := by
  induction h with
  | nil => exact .nil
  | @cons p q _ _ hpq _ ih =>
      obtain ⟨op, a⟩ := p
      obtain ⟨op', a'⟩ := q
      obtain ⟨rfl, hterm⟩ := hpq
      exact .cons hterm ih

theorem grouping_of_root? {e : GenExpr} (h : e.root? = none) : grouping e = .leaf e := by
  cases e with
  | compound left op right => cases h
  | _ => rfl

theorem grouping_fold {t : Grouping GenExpr ArithmeticOp}
    (h : ∀ a ∈ t.operands, a.root? = none) : grouping (t.fold .compound) = t := by
  induction t with
  | leaf a => exact grouping_of_root? (h a List.mem_cons_self)
  | node l op r ihl ihr =>
      rw [Grouping.operands_node] at h
      simp only [Grouping.fold, grouping, ihl fun a ha => h a (List.mem_append_left _ ha),
        ihr fun a ha => h a (List.mem_append_right _ ha)]

theorem grouping_grouped (precedence : Precedence) {links : List (ArithmeticOp × GenExpr)}
    (ha : a.root? = none) (hlinks : ∀ p ∈ links, p.2.root? = none) :
    (grouping (grouped precedence (a, links))).first = a ∧
      (grouping (grouped precedence (a, links))).links = links := by
  obtain ⟨t, -, rfl, rfl, hgroup⟩ := Chain.exists_layered
    (fun op : ArithmeticOp => precedence.level op.val) GenExpr.compound a links
  have hoperands : ∀ b ∈ t.operands, b.root? = none := by
    intro b hb
    rcases List.mem_cons.mp hb with rfl | hb
    · exact ha
    · obtain ⟨p, hp, rfl⟩ := List.mem_map.mp hb
      exact hlinks p hp
  rw [grouped, hgroup, grouping_fold hoperands]
  exact ⟨rfl, rfl⟩

theorem root?_of_linksAlike {links links' : List (ArithmeticOp × GenExpr)}
    (h : List.Forall₂ (LinkAlike SameTerm) links links') :
    (∀ p ∈ links, p.2.root? = none) ∧ ∀ p ∈ links', p.2.root? = none := by
  induction h with
  | nil => exact ⟨nofun, nofun⟩
  | cons hpq _ ih =>
      obtain ⟨hleft, hright⟩ := root?_of_sameTerm hpq.2
      exact ⟨List.forall_mem_cons.mpr ⟨hleft, ih.1⟩, List.forall_mem_cons.mpr ⟨hright, ih.2⟩⟩

/-- Chains of the same terms and operators are the same however they are grouped. -/
theorem carried_sameChain (left right : Precedence) : Carried SameTerm SameChain left right where
  constant := .constant
  least := .least
  greatest := .greatest
  random := fun _ _ _ _ _ => .random
  grouped := by
    intro a a' links links' ha hlinks
    obtain ⟨hroot, hroot'⟩ := root?_of_sameTerm ha
    obtain ⟨hroots, hroots'⟩ := root?_of_linksAlike hlinks
    obtain ⟨hfirst, hrest⟩ := grouping_grouped left hroot hroots
    obtain ⟨hfirst', hrest'⟩ := grouping_grouped right hroot' hroots'
    refine .intro ?_ ?_
    · rw [hfirst, hfirst']
      exact ha
    · rw [hrest, hrest']
      exact sameLinks_of_forall₂ hlinks

end Groupings

section Spellable

variable {precedence : Precedence} {e : GenExpr}

theorem spellable_of_mem_bounds (he : e.Spellable precedence) :
    ∀ c ∈ e.bounds, c.Spellable precedence := by
  induction he with
  | constant h => exact nofun
  | least h => exact nofun
  | greatest h => exact nofun
  | random _ hl hh ihl ihh =>
      exact List.forall_mem_cons.mpr ⟨hl, List.forall_mem_cons.mpr
        ⟨hh, List.forall_mem_append.mpr ⟨ihl, ihh⟩⟩⟩
  | compound _ _ _ _ ihl ihr => exact List.forall_mem_append.mpr ⟨ihl, ihr⟩

theorem isLeftFold_of_spellable (he : e.Spellable .flat) : e.IsLeftFold := by
  induction he with
  | @compound left right op _ _ _ hright ihl _ =>
      -- With one level nothing binds tighter than the root, so its right operand is a term.
      have hterm : right.root? = none := by
        cases hroot : right.root? with
        | none => rfl
        | some inner =>
            have hrootOp : inner.val ∈ right.rootOp? := by
              rw [GenExpr.rootOp?_eq_map, hroot]
              rfl
            exact absurd (hright _ hrootOp) (Nat.lt_irrefl 0)
      have hgrouping := grouping_of_root? hterm
      rw [GenExpr.IsLeftFold] at ihl ⊢
      simp only [grouping, Grouping.links, Grouping.first, hgrouping, List.foldl_append,
        List.foldl_cons, List.foldl_nil, ← ihl]
  | _ => rfl

theorem le_level_of_mem_chainOps (he : e.Spellable precedence) {bound : Nat}
    (hroot : ∀ op ∈ e.rootOp?, bound ≤ precedence.level op) :
    ∀ op ∈ e.chainOps, bound ≤ precedence.level op.val := by
  induction he generalizing bound with
  | @compound left right op _ _ hleft hright ihl ihr =>
      have hop : bound ≤ precedence.level op.val := hroot op.val rfl
      have hlefts := ihl hleft
      have hrights := ihr hright
      intro inner hinner
      simp only [GenExpr.chainOps, grouping, Grouping.links, List.map_append, List.map_cons,
        List.mem_append, List.mem_cons] at hinner
      rcases hinner with hinner | rfl | hinner
      · exact Nat.le_trans hop (hlefts inner hinner)
      · exact hop
      · exact Nat.le_trans (Nat.le_succ_of_le hop) (hrights inner hinner)
  | _ => exact fun inner hinner => absurd hinner List.not_mem_nil

theorem isSum_iff (op : ArithmeticOp) : op.IsSum ↔ op.val.level = 3 := by
  obtain ⟨op, hop⟩ := op
  revert hop
  unfold ArithmeticOp.IsSum
  cases op <;> simp [BinaryOp.level, BinaryOp.isArithmetic]

theorem splitsAtLast_of_spellable (he : e.Spellable .conventional) : e.SplitsAtLast := by
  induction he with
  | @compound left right op hl hr hleft hright ihl ihr =>
      -- On the left of the root nothing binds looser and on the right all binds tighter. There are
      -- only two levels, so a sum has no sum on its right, and a product no operator at all.
      have hlefts : ∀ inner ∈ left.chainOps, op.val.level ≤ inner.val.level :=
        le_level_of_mem_chainOps hl hleft
      have hrights : ∀ inner ∈ right.chainOps, op.val.level + 1 ≤ inner.val.level :=
        le_level_of_mem_chainOps hr hright
      have hrange : ∀ inner : ArithmeticOp, 3 ≤ inner.val.level ∧ inner.val.level ≤ 4 := by
        rintro ⟨inner, hinner⟩
        revert hinner
        cases inner <;> simp [BinaryOp.level, BinaryOp.isArithmetic]
      by_cases hop : op.IsSum
      · refine .sum hop (fun inner hinner => ?_) ihl ihr
        have := hrights inner hinner
        rw [isSum_iff] at hop ⊢
        omega
      · have hlevel : op.val.level = 4 := by
          rw [isSum_iff] at hop
          have := hrange op
          omega
        refine .product hop (fun inner hinner => ?_) ?_ ihl ihr
        · have := hlefts inner hinner
          rw [isSum_iff]
          omega
        · refine List.eq_nil_iff_forall_not_mem.mpr fun inner hinner => ?_
          have := hrights inner hinner
          have := hrange inner
          omega
  | _ => exact .term rfl

end Spellable

namespace Generator

open Scan

variable {limits : Limits} {precedence : Precedence}

theorem spellable_of_read {source : String} {gs : List Generator}
    (h : read source precedence limits = .ok gs) : ∀ g ∈ gs, g.Spellable precedence := by
  unfold read at h
  split at h
  · cases h
  · have hgs := (Grammar.spellable_of_generators rfl (by simp) (mapError_eq_ok.mp h)).2
    exact fun g hg => (hgs g hg).1

theorem regrouped_of_alike {g g' : Generator} (h : g.Alike SameChain g')
    (hflat : g.Spellable .flat) (hconventional : g'.Spellable .conventional) :
    g.Regrouped g' where
  name := h.name
  resultType := h.resultType
  states := h.states
  leftFold e he := List.forall_mem_cons.mpr ⟨isLeftFold_of_spellable (hflat.states e he),
    fun c hc => isLeftFold_of_spellable (spellable_of_mem_bounds (hflat.states e he) c hc)⟩
  splitsAtLast e he := List.forall_mem_cons.mpr
    ⟨splitsAtLast_of_spellable (hconventional.states e he),
      fun c hc => splitsAtLast_of_spellable
        (spellable_of_mem_bounds (hconventional.states e he) c hc)⟩

theorem read_alike (source : String) (limits : Limits) (left right : Precedence) :
    Agree Eq (List.Forall₂ (Generator.Alike SameChain)) (read source left limits)
      (read source right limits) := by
  unfold read
  split
  · exact .error rfl
  · have hagree := Grammar.within_kept.generators (carried_sameChain left right)
      { limit := limits.nesting } .nil ⟨rfl, endOf_toList source⟩
    exact hagree.mapError fun e e' h => congrArg _ h.1

/-- Both precedences refuse a source with the same failure, or read it to the same generators, with
the same chains of terms and operators, and then each groups every chain in its own way. A state
comes of one loop under the flat precedence and of a loop in a loop under the conventional one, and
`state_eq_loops` ties the chains to these: value, text left and fault are those of the loops. -/
theorem read_regrouped (source : String) (limits : Limits) :
    Agree Eq (List.Forall₂ Regrouped) (read source .flat limits)
      (read source .conventional limits) := by
  rcases (read_alike source limits .flat .conventional).cases with
    ⟨e, e', he, he', hsame⟩ | ⟨gs, gs', hgs, hgs', halike⟩
  · rw [he, he']
    exact .error hsame
  · rw [hgs, hgs']
    refine .ok (List.forall₂_iff_zip.mpr ⟨halike.length_eq, fun {g g'} hmem => ?_⟩)
    have hg := spellable_of_read hgs g (List.of_mem_zip hmem).1
    have hg' := spellable_of_read hgs' g' (List.of_mem_zip hmem).2
    exact regrouped_of_alike ((List.forall₂_iff_zip.mp halike).2 hmem) hg hg'

end Generator

end FuzzFrontend
