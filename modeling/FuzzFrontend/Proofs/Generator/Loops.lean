import FuzzFrontend.Proofs.Generator.ReadTerm
import FuzzFrontend.Proofs.Grouping

/-!
States read by loops. A loop reads the operators of one kind and an operand after each, and puts
every operand together with what was read before it. The flat precedence is one loop over terms; the
conventional one is a loop for sums, whose operands are read by a loop for products. A chain that is
read as a whole and grouped afterwards gives the same state with the same text left, and fails with
the same fault.
-/
namespace FuzzFrontend.Generator.Grammar

open Scan

section Loops

/-- The symbol of an operator after blanks, if it is there. -/
def symbolOf? (op : BinaryOp) (s : Input) : Option (Parsed Unit s.length) :=
  literal? op.symbol.toList op.symbol_ne_empty s

/-- The first of some operators that stands after blanks, if there is one. -/
def operatorOf? (operators : List ArithmeticOp) (s : Input) :
    Option (Parsed ArithmeticOp s.length) :=
  operators.findSome? fun op => (symbolOf? op.val s).map fun p => p.map fun _ => op

def sums : List ArithmeticOp :=
  arithmetic.filter fun op => op.val.level == BinaryOp.level .add

def products : List ArithmeticOp :=
  arithmetic.filter fun op => op.val.level == BinaryOp.level .mul

/-- A rule for the operands inside a state of length `n`. -/
abbrev Operand (n : Nat) : Type :=
  (s : Input) → s.length ≤ n → Except Fault (Parsed GenExpr s.length)

/-- Goes on with a loop after an operand, which is on the left of what follows. -/
def loopFrom {n m : Nat} (operators : List ArithmeticOp) (operand : Operand n) (left : GenExpr)
    (s : Input) (hn : s.length ≤ n) (hm : s.length < m) : Except Fault (Parsed GenExpr m) :=
  match operatorOf? operators s with
  | none => .ok ⟨left, s, hm⟩
  | some op =>
    match operand op.rest (Nat.le_trans op.rest_le hn) with
    | .error e => .error e
    | .ok p =>
      have hlt : p.rest.length < s.length := Nat.lt_trans p.shorter op.shorter
      loopFrom operators operand (.compound left op.value p.value) p.rest
        (Nat.le_trans (Nat.le_of_lt hlt) hn) (Nat.lt_trans hlt hm)
termination_by s.length

def loop {n : Nat} (operators : List ArithmeticOp) (operand : Operand n) : Operand n := fun s h =>
  match operand s h with
  | .error e => .error e
  | .ok p => loopFrom operators operand p.value p.rest (Nat.le_trans p.rest_le h) p.rest_lt

/-- The loops of a precedence. -/
def loops {n : Nat} (precedence : Precedence) (inner : Inner n) (nesting : Nesting) : Operand n :=
  match precedence with
  | .flat => loop arithmetic (term inner nesting)
  | .conventional => loop sums (loop products (term inner nesting))

end Loops

section Operators

variable {s : Input} {op : Parsed ArithmeticOp s.length}

theorem prefix_of_operatorOf? {operators : List ArithmeticOp}
    (h : operatorOf? operators s = some op) :
    op.value ∈ operators ∧ op.value.val.symbol.toList <+: s.skipBlanks.ahead := by
  obtain ⟨found, hfound, hop⟩ := List.exists_of_findSome?_eq_some h
  obtain ⟨p, hp, rfl⟩ := Option.map_eq_some_iff.mp hop
  exact ⟨hfound, (literal?_eq_some_iff.mp hp).1⟩

theorem operatorOf?_eq_none {operators others : List ArithmeticOp}
    (h : operatorOf? operators s = some op) (hother : op.value ∉ others) :
    operatorOf? others s = none := by
  refine Option.eq_none_iff_forall_not_mem.mpr fun other hfound => hother ?_
  obtain ⟨-, hhead⟩ := prefix_of_operatorOf? h
  obtain ⟨hmem, hhead'⟩ := prefix_of_operatorOf? hfound
  have hlength : op.value.val.symbol.toList.length = other.value.val.symbol.toList.length := by
    obtain ⟨c, hc⟩ := symbol_arithmetic op.value
    obtain ⟨d, hd⟩ := symbol_arithmetic other.value
    rw [hc, hd]
    rfl
  have hsymbol : op.value.val.symbol.toList = other.value.val.symbol.toList :=
    (List.prefix_of_prefix_length_le hhead hhead' (Nat.le_of_eq hlength)).eq_of_length hlength
  rwa [symbol_injective hsymbol]

theorem arithmeticOp?_cases (s : Input) :
    (arithmeticOp? s = none ∧ operatorOf? sums s = none ∧ operatorOf? products s = none) ∨
    (∃ op, arithmeticOp? s = some op ∧ op.value.val.level = 3 ∧ operatorOf? sums s = some op ∧
      operatorOf? products s = none) ∨
    ∃ op, arithmeticOp? s = some op ∧ op.value.val.level = 4 ∧ operatorOf? sums s = none ∧
      operatorOf? products s = some op := by
  have hsplit : arithmeticOp? s = (operatorOf? sums s).or (operatorOf? products s) := by
    rw [operatorOf?, operatorOf?, ← List.findSome?_append]
    rfl
  have hsums : ∀ op ∈ sums, op.val.level = 3 ∧ op ∉ products := by decide
  have hproducts : ∀ op ∈ products, op.val.level = 4 := by decide
  cases hs : operatorOf? sums s with
  | some op =>
      obtain ⟨hlevel, hother⟩ := hsums _ (prefix_of_operatorOf? hs).1
      rw [hs, Option.some_or] at hsplit
      exact Or.inr (Or.inl ⟨op, hsplit, hlevel, rfl, operatorOf?_eq_none hs hother⟩)
  | none =>
      rw [hs, Option.none_or] at hsplit
      cases hp : operatorOf? products s with
      | some op =>
          have hlevel := hproducts _ (prefix_of_operatorOf? hp).1
          exact Or.inr (Or.inr ⟨op, hsplit.trans hp, hlevel, rfl, rfl⟩)
      | none => exact Or.inl ⟨hsplit.trans hp, rfl, rfl⟩

end Operators

section Equations

variable {n m : Nat} {operators : List ArithmeticOp} {operand : Operand n} {left : GenExpr}
  {s : Input} {hn : s.length ≤ n} {hm : s.length < m}

theorem loopFrom_of_none (h : operatorOf? operators s = none) :
    loopFrom operators operand left s hn hm = .ok ⟨left, s, hm⟩ := by
  rw [loopFrom.eq_def, h]

theorem loopFrom_of_error {op : Parsed ArithmeticOp s.length} {e : Fault}
    (h : operatorOf? operators s = some op)
    (he : operand op.rest (Nat.le_trans op.rest_le hn) = .error e) :
    loopFrom operators operand left s hn hm = .error e := by
  rw [loopFrom.eq_def]
  simp only [h, he]

theorem loopFrom_of_ok {op : Parsed ArithmeticOp s.length} {p : Parsed GenExpr op.rest.length}
    (h : operatorOf? operators s = some op)
    (hp : operand op.rest (Nat.le_trans op.rest_le hn) = .ok p) :
    loopFrom operators operand left s hn hm =
      loopFrom operators operand (.compound left op.value p.value) p.rest
        (Nat.le_trans p.rest_le (Nat.le_trans op.rest_le hn))
        (Nat.lt_trans p.shorter (Nat.lt_trans op.shorter hm)) := by
  rw [loopFrom.eq_def]
  simp only [h, hp]

theorem loop_of_error {h : s.length ≤ n} {e : Fault} (he : operand s h = .error e) :
    loop operators operand s h = .error e := by
  rw [loop, he]

theorem loop_of_ok {h : s.length ≤ n} {p : Parsed GenExpr s.length} (hp : operand s h = .ok p) :
    loop operators operand s h =
      loopFrom operators operand p.value p.rest (Nat.le_trans p.rest_le h) p.rest_lt := by
  rw [loop, hp]

end Equations

section Sums

variable {pending : Chain.Pending GenExpr ArithmeticOp} {left next : GenExpr} {op : ArithmeticOp}

/-- The sum that waiting operands make with the product after them. -/
def settled (pending : Chain.Pending GenExpr ArithmeticOp) (product : GenExpr) : GenExpr :=
  (Chain.close (fun op : ArithmeticOp => Precedence.conventional.level op.val) .compound 0 pending
    product).2

theorem settled_singleton (left right : GenExpr) (op : ArithmeticOp) :
    settled [(left, op)] right = .compound left op right := by
  rw [settled, Chain.close_cons (Nat.zero_le _)]
  rfl

theorem run_sum (hpending : ∀ p ∈ pending, p.2.val.level = 3) (hop : op.val.level = 3)
    (links : List (ArithmeticOp × GenExpr)) :
    Chain.run (fun op : ArithmeticOp => Precedence.conventional.level op.val) .compound pending left
        ((op, next) :: links) =
      Chain.run (fun op : ArithmeticOp => Precedence.conventional.level op.val) .compound
        [(settled pending left, op)] next links := by
  have hall : ∀ p ∈ pending, op.val.level ≤ p.2.val.level :=
    fun p hp => Nat.le_of_eq (hop.trans (hpending p hp).symm)
  rw [Chain.run, Chain.close_all hall]
  rfl

/-- A product is put together with what is on its left, and the sums go on waiting. -/
theorem run_product (hpending : ∀ p ∈ pending, p.2.val.level = 3) (hop : op.val.level = 4)
    (links : List (ArithmeticOp × GenExpr)) :
    Chain.run (fun op : ArithmeticOp => Precedence.conventional.level op.val) .compound pending left
        ((op, next) :: links) =
      Chain.run (fun op : ArithmeticOp => Precedence.conventional.level op.val) .compound pending
        (.compound left op next) links := by
  have hlooser : ∀ p ∈ pending.head?, p.2.val.level < op.val.level := by
    intro p hp
    rw [hop, hpending p (List.mem_of_mem_head? hp)]
    decide
  have htightest : ∀ other : BinaryOp, other.level ≤ op.val.level := by
    rw [hop]
    intro other
    cases other <;> decide
  rw [Chain.run, Chain.close_of_lt hlooser]
  exact Chain.run_pending_cons pending next fun p _ => htightest p.1.val

end Sums

section Chains

variable {n : Nat} {inner : Inner n} {nesting : Nesting}

theorem append_link (found links : List (ArithmeticOp × GenExpr)) (link : ArithmeticOp × GenExpr) :
    (link :: found).reverse ++ links = found.reverse ++ link :: links := by
  rw [List.reverse_cons, List.append_assoc, List.singleton_append]

theorem terms_flat {found : List (ArithmeticOp × GenExpr)} {s : Input} (hs : s.length < n)
    {left : GenExpr} {f : List (ArithmeticOp × GenExpr) → GenExpr}
    (hf : ∀ links, f (found.reverse ++ links) =
      Chain.run (fun op : ArithmeticOp => Precedence.flat.level op.val) .compound [] left links) :
    (terms inner nesting found s hs).map (·.map f) =
      loopFrom arithmetic (term inner nesting) left s (Nat.le_of_lt hs) hs := by
  fun_induction terms inner nesting found s hs generalizing left with
  | case1 found s hs hop =>
      have hvalue := hf []
      rw [List.append_nil] at hvalue
      rw [loopFrom_of_none hop]
      simp only [Except.map, Parsed.map, hvalue]
      rfl
  | case2 found s hs op hop e he =>
      rw [loopFrom_of_error hop he]
      rfl
  | case3 found s hs op hop p hp ih =>
      rw [loopFrom_of_ok hop hp]
      refine ih fun links => ?_
      rw [append_link, hf]
      exact Chain.run_pending_cons [] p.value fun _ _ => Nat.le_refl 0

/-- With two levels the terms of a chain are put together as a loop for products inside a loop for
sums does it. -/
theorem terms_conventional {found : List (ArithmeticOp × GenExpr)} {s : Input} (hs : s.length < n)
    {m : Nat} (hm : s.length < m) (hmn : m ≤ n) {pending : Chain.Pending GenExpr ArithmeticOp}
    (hpending : ∀ p ∈ pending, p.2.val.level = 3) {left : GenExpr}
    {f : List (ArithmeticOp × GenExpr) → GenExpr}
    (hf : ∀ links, f (found.reverse ++ links) =
      Chain.run (fun op : ArithmeticOp => Precedence.conventional.level op.val) .compound pending
        left links) :
    (terms inner nesting found s hs).map (·.map f) =
      (loopFrom products (term inner nesting) left s (Nat.le_of_lt hs) hm).bind fun p =>
        loopFrom sums (loop products (term inner nesting)) (settled pending p.value) p.rest
          (Nat.le_of_lt (Nat.lt_of_lt_of_le p.shorter hmn)) (Nat.lt_of_lt_of_le p.shorter hmn) := by
  -- A product is put together at once; at a sum all that waits is, and the product that follows is
  -- read with the sum so far waiting for it.
  fun_induction terms inner nesting found s hs generalizing m pending left with
  | case1 found s hs hop =>
      obtain ⟨-, hsums, hproducts⟩ | ⟨op, hsome, -⟩ | ⟨op, hsome, -⟩ := arithmeticOp?_cases s
      · have hvalue := hf []
        rw [List.append_nil] at hvalue
        rw [loopFrom_of_none hproducts, Except.bind, loopFrom_of_none hsums]
        simp only [Except.map, Parsed.map, hvalue]
        rfl
      · cases hop.symm.trans hsome
      · cases hop.symm.trans hsome
  | case2 found s hs op hop e he =>
      obtain ⟨hnone, -⟩ | ⟨_, hsome, -, hsums, hproducts⟩ | ⟨_, hsome, -, -, hproducts⟩ :=
        arithmeticOp?_cases s
      · cases hnone.symm.trans hop
      · cases hop.symm.trans hsome
        rw [loopFrom_of_none hproducts, Except.bind, loopFrom_of_error hsums (loop_of_error he)]
        rfl
      · cases hop.symm.trans hsome
        rw [loopFrom_of_error hproducts he]
        rfl
  | case3 found s hs op hop p hp ih =>
      obtain ⟨hnone, -⟩ | ⟨_, hsome, hlevel, hsums, hproducts⟩ | ⟨_, hsome, hlevel, -, hproducts⟩ :=
        arithmeticOp?_cases s
      · cases hnone.symm.trans hop
      · cases hop.symm.trans hsome
        have hwaiting : ∀ q ∈ [(settled pending left, op.value)], q.2.val.level = 3 :=
          List.forall_mem_singleton.mpr hlevel
        have hrest := ih p.rest_lt (Nat.le_of_lt (Nat.lt_trans op.shorter hs)) hwaiting
          fun links => by rw [append_link, hf, run_sum hpending hlevel]
        rw [hrest, loopFrom_of_none hproducts]
        cases hproduct : loopFrom products (term inner nesting) p.value p.rest
            (Nat.le_of_lt (Nat.lt_trans p.shorter (Nat.lt_trans op.shorter hs))) p.rest_lt with
        | error e => exact (loopFrom_of_error hsums ((loop_of_ok hp).trans hproduct)).symm
        | ok q =>
            simp only [Except.bind, settled_singleton]
            exact (loopFrom_of_ok hsums ((loop_of_ok hp).trans hproduct)).symm
      · cases hop.symm.trans hsome
        rw [loopFrom_of_ok hproducts hp]
        refine ih _ hmn hpending fun links => ?_
        rw [append_link, hf, run_product hpending hlevel]

/-- A state is what the loops of its precedence read: its value, the text left after it, and the
fault where there is one. -/
theorem state_eq_loops (precedence : Precedence) (nesting : Nesting) (s : Input) :
    state precedence nesting s =
      loops precedence (fun nested t _ => state precedence nested t) nesting s
        s.length_le_self := by
  have hmap : ∀ first (r : Except Fault (Parsed (List (ArithmeticOp × GenExpr)) s.length)),
      (r.map fun rest => rest.map fun links => (first, links)).map
          (fun p => p.map (grouped precedence)) =
        r.map fun rest => rest.map fun links => grouped precedence (first, links) := by
    rintro first (e | p) <;> rfl
  rw [state.eq_def, chain]
  cases precedence with
  | flat =>
      rw [loops, loop]
      cases term (fun nested t _ => state .flat nested t) nesting s s.length_le_self with
      | error e => rfl
      | ok first =>
          dsimp only
          rw [hmap]
          exact terms_flat first.rest_lt fun links => rfl
  | conventional =>
      rw [loops, loop, loop]
      cases term (fun nested t _ => state .conventional nested t) nesting s s.length_le_self with
      | error e => rfl
      | ok first =>
          dsimp only
          rw [hmap, terms_conventional first.rest_lt first.rest_lt (Nat.le_refl _)
            (List.forall_mem_nil _) fun links => rfl]
          cases loopFrom products (term (fun nested t _ => state .conventional nested t) nesting)
            first.value first.rest first.rest_le first.rest_lt <;> rfl

end Chains

end FuzzFrontend.Generator.Grammar
