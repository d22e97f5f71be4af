import FuzzFrontend.Proofs.Scan.Run

/-!
Loops turn by turn. The repetitions of rules end because less is left after each value. Here they
are told as turns from one state to the next, of which nothing says that they come to an end, and a
budget is set for the turns after which the loop goes on. A budget of as many turns as characters
are left is enough: the loop has ended, and in the same way as the repetition.
-/
namespace FuzzFrontend.Scan

/-- What a turn of a loop comes to, if it does not fail. -/
inductive Turn (σ ρ : Type)
  /-- The loop ends. -/
  | done (result : ρ)
  /-- The loop goes on. -/
  | next (state : σ)

section Loops

variable {σ ρ : Type}

/-- The outcome of a loop, if the turns after which it goes on are no more than the budget. The turn
that ends the loop, with a result or with a fault, is not one of them. -/
def turns (turn : σ → Except Fault (Turn σ ρ)) (budget : Nat) (state : σ) :
    ExceptT Fault Option ρ :=
  match turn state with
  | .error e => some (.error e)
  | .ok (.done result) => some (.ok result)
  | .ok (.next state) =>
    match budget with
    | 0 => none
    | budget + 1 => turns turn budget state

/-- With a budget of so many turns, or a larger one, the loop has the outcome. -/
def EndsIn (turn : σ → Except Fault (Turn σ ρ)) (count : Nat) (state : σ)
    (outcome : Except Fault ρ) : Prop :=
  ∀ budget, count ≤ budget → turns turn budget state = some outcome

namespace EndsIn

variable {turn : σ → Except Fault (Turn σ ρ)} {count : Nat} {state : σ}

theorem error {e : Fault} (h : turn state = .error e) : EndsIn turn count state (.error e) := by
  intro budget _
  rw [turns.eq_def, h]

theorem done {result : ρ} (h : turn state = .ok (.done result)) :
    EndsIn turn count state (.ok result) := by
  intro budget _
  rw [turns.eq_def, h]

theorem next {fewer : Nat} (state' : σ) {outcome : Except Fault ρ}
    (h : turn state = .ok (.next state')) (hfewer : fewer < count)
    (hrest : EndsIn turn fewer state' outcome) : EndsIn turn count state outcome := by
  intro budget hbudget
  obtain ⟨n, rfl⟩ : ∃ n, budget = n + 1 := ⟨budget - 1, by omega⟩
  rw [turns.eq_def, h]
  exact hrest n (by omega)

theorem bind_eq {τ : Type} {outcome : Except Fault ρ} {budget : Nat}
    (h : EndsIn turn count state outcome) (hbudget : count ≤ budget)
    {f : ρ → ExceptT Fault Option τ} {g : ρ → Except Fault τ}
    (hfg : ∀ result, f result = some (g result)) :
    (turns turn budget state >>= f) = some (outcome >>= g) := by
  rw [h budget hbudget]
  cases outcome with
  | error e => rfl
  | ok result => exact hfg result

end EndsIn

end Loops

section Repetitions

variable {α : Type} {n : Nat}

/-- A value with what is left after it, of which no bound is known. -/
def Parsed.pair (p : Parsed α n) : α × Input :=
  (p.value, p.rest)

/-- A turn of the loop for items in braces: the closing brace, or one more item. -/
def untilBrace (item : Rule α) :
    List α × Input → Except Fault (Turn (List α × Input) (List α × Input))
  | (found, s) =>
    match symbol? '}' s with
    | some p => .ok (.done (found.reverse, p.rest))
    | none => (item s).map fun p => .next (p.value :: found, p.rest)

/-- A turn of the loop for a rule that may decline. Where it declines, all that was left is still
left. -/
def whileOffered (item : OptionalRule α) :
    List α × Input → Except Fault (Turn (List α × Input) (List α × Input))
  | (found, s) =>
    match item s with
    | none => .ok (.done (found.reverse, s))
    | some r => r.map fun p => .next (p.value :: found, p.rest)

theorem itemsUntilBrace_endsIn (item : Rule α) (found : List α) (s : Input) (h : s.length < n) :
    EndsIn (untilBrace item) s.length (found, s)
      ((itemsUntilBrace (item.below n) found s h).map Parsed.pair) := by
  fun_induction itemsUntilBrace (item.below n) found s h with
  | case1 found s h p hp =>
      refine .done ?_
      simp only [untilBrace, hp]
      rfl
  | case2 found s h hnone e he =>
      have he : item s = .error e := he
      refine .error ?_
      simp only [untilBrace, hnone, he]
      rfl
  | case3 found s h hnone p hp ih =>
      have hp : item s = .ok p := hp
      refine .next (p.value :: found, p.rest) ?_ p.rest_lt ih
      simp only [untilBrace, hnone, hp]
      rfl

-- Two items take two turns, and the turn that finds the brace takes none.
example : turns (untilBrace (symbol ';')) 1 ([], .ofList [';', ';', '}']) = none := by rfl

example : turns (untilBrace (symbol ';')) 2 ([], .ofList [';', ';', '}']) =
    some (.ok ([(), ()], .ofList [])) := by rfl

theorem many_endsIn (item : OptionalRule α) (found : List α) (s : Input) (h : s.length < n) :
    EndsIn (whileOffered item) s.length (found, s) ((many item found s h).map Parsed.pair) := by
  fun_induction many item found s h with
  | case1 found s h hnone =>
      refine .done ?_
      simp only [whileOffered, hnone]
      rfl
  | case2 found s h e he =>
      refine .error ?_
      simp only [whileOffered, he]
      rfl
  | case3 found s h p hp ih =>
      refine .next (p.value :: found, p.rest) ?_ p.rest_lt ih
      simp only [whileOffered, hp]
      rfl

theorem many_bind_eq {β : Type} {item : OptionalRule α} {s : Input} {budget : Nat}
    (hbudget : s.length ≤ budget) {f : List α × Input → ExceptT Fault Option β}
    {g : Parsed (List α) (s.length + 1) → Except Fault β}
    (hfg : ∀ p, p.rest.length ≤ budget → f p.pair = some (g p)) :
    (turns (whileOffered item) budget ([], s) >>= f) =
      some (many item [] s (Nat.lt_succ_self _) >>= g) := by
  rw [many_endsIn item [] s (Nat.lt_succ_self _) budget hbudget]
  cases many item [] s (Nat.lt_succ_self _) with
  | error e => rfl
  | ok p => exact hfg p (Nat.le_trans (Nat.le_of_lt_succ p.shorter) hbudget)

/-- Without a closing brace in the text the items come to no end but a fault. -/
theorem exists_itemsUntilBrace_eq_error {text : List Char}
    {item : (s : Input) → s.length < n → Except Fault (Parsed α s.length)}
    (hitem : ∀ s h, s.EndOf text → ∀ p, item s h = .ok p → p.rest.EndOf text)
    (hopen : '}' ∉ text) (found : List α) {s : Input} (hs : s.EndOf text) (h : s.length < n) :
    ∃ e, itemsUntilBrace item found s h = .error e := by
  fun_induction itemsUntilBrace item found s h with
  | case1 found s h p hp =>
      have hbrace := (symbol?_eq_some_iff.mp hp).1.trans s.skipBlanks.ahead_prefix_chars
      exact absurd (hs.skipBlanks.suffix.subset (hbrace.subset List.mem_cons_self)) hopen
  | case2 found s h hnone e he => exact ⟨e, rfl⟩
  | case3 found s h hnone p hp ih => exact ih (hitem s h hs p hp)

end Repetitions

section Chains

variable {α ω : Type} {n : Nat}

/-- An operator and the operand after it, declined where no operator is. -/
def linked (op? : (s : Input) → Option (Parsed ω s.length)) (operand : Rule α) :
    OptionalRule (ω × α) := fun s =>
  (op? s).map fun op =>
    (operand op.rest).map fun p => (p.map fun value => (op.value, value)).relax op.rest_le

variable {op? : (s : Input) → Option (Parsed ω s.length)} {operand : Rule α}
  {found : List (ω × α)} {s : Input} {h : s.length < n}

theorem many_linked_of_none (hop : op? s = none) :
    many (linked op? operand) found s h = .ok ⟨found.reverse, s, h⟩ := by
  rw [many.eq_def]
  simp only [linked, hop, Option.map_none]

theorem many_linked_of_error {op : Parsed ω s.length} {e : Fault} (hop : op? s = some op)
    (he : operand op.rest = .error e) : many (linked op? operand) found s h = .error e := by
  rw [many.eq_def]
  simp only [linked, hop, Option.map_some, he, Except.map]

theorem many_linked_of_ok {op : Parsed ω s.length} {p : Parsed α op.rest.length}
    (hop : op? s = some op) (hp : operand op.rest = .ok p) :
    many (linked op? operand) found s h =
      many (linked op? operand) ((op.value, p.value) :: found) p.rest
        (Nat.lt_trans p.shorter (Nat.lt_trans op.shorter h)) := by
  rw [many.eq_def]
  simp only [linked, hop, Option.map_some, hp, Except.map, Parsed.relax, Parsed.map]

end Chains

section Offsets

variable {α : Type}

/-- The loop for the items in braces, from an offset of a source on. It goes on after no more turns
than characters are left, and if no closing brace is left it ends with a fault. -/
structure BracesEnd (source : List Char) (pos : Nat) (item : Rule α) : Prop where
  ends {n : Nat} (h : (Input.ofList (source.drop pos)).length < n) :
    EndsIn (untilBrace item) (source.length - pos) ([], .ofList (source.drop pos))
      ((itemsUntilBrace (item.below n) [] (.ofList (source.drop pos)) h).map Parsed.pair)
  unclosed {n : Nat} (h : (Input.ofList (source.drop pos)).length < n)
    (hopen : '}' ∉ source.drop pos) :
    ∃ e, itemsUntilBrace (item.below n) [] (.ofList (source.drop pos)) h = .error e

/-- The loop for a rule that may decline, from an offset of a source on. -/
def RepetitionEnds (source : List Char) (pos : Nat) (item : OptionalRule α) : Prop :=
  ∀ {n : Nat} (h : (Input.ofList (source.drop pos)).length < n),
    EndsIn (whileOffered item) (source.length - pos) ([], .ofList (source.drop pos))
      ((many item [] (.ofList (source.drop pos)) h).map Parsed.pair)

variable {source : List Char} {pos : Nat} {families : List Problem.Category}
  {broken : Problem → Prop}

theorem repetitionEnds (item : OptionalRule α) : RepetitionEnds source pos item := by
  intro n h
  rw [← length_ofList_drop]
  exact many_endsIn item [] _ h

theorem BracesEnd.of_keeps {item : Rule α}
    (h : ∀ text, (Correspondence.within text families broken).Keeps item) :
    BracesEnd source pos item where
  ends hn := by
    rw [← length_ofList_drop]
    exact itemsUntilBrace_endsIn item [] _ hn
  unclosed hn hopen :=
    exists_itemsUntilBrace_eq_error (fun _ _ hs _ hp => endOf_of_ends (h _ ⟨rfl, hs⟩) hp) hopen []
      ⟨rfl, List.suffix_refl _⟩ hn

end Offsets

section Recursion

variable {α : Type}

/-- A rule, given the rule for what is inside. -/
abbrev Opened (α : Type) : Type :=
  (s : Input) → (Nesting → (t : Input) → t.length < s.length → Except Fault (Parsed α t.length)) →
    Nesting → Except Fault (Parsed α s.length)

/-- A rule that goes into itself so many times, one inside the other. What is further inside is left
to another rule. -/
def cutOff (opened : Opened α) (stop : Nesting → Rule α) : Nat → Nesting → Rule α
  | 0, nesting => fun s => opened s (fun nested t _ => stop nested t) nesting
  | depth + 1, nesting => fun s =>
    opened s (fun nested t _ => cutOff opened stop depth nested t) nesting

/-- The rule goes into itself so many times at most: it reads the same wherever it is cut off behind
that, and whatever rule is put there. -/
def NestsIn (opened : Opened α) (rule : Nesting → Rule α) (count : Nat) (s : Input) : Prop :=
  ∀ stop depth, count ≤ depth → ∀ nesting, cutOff opened stop depth nesting s = rule nesting s

theorem nestsIn_length {opened : Opened α} {rule : Nesting → Rule α}
    (hrule : ∀ nesting s, rule nesting s = opened s (fun nested t _ => rule nested t) nesting)
    (s : Input) : NestsIn opened rule s.length s := by
  intro stop depth hdepth nesting
  rw [hrule]
  induction depth generalizing nesting s with
  | zero =>
      refine congrArg (opened s · nesting) (funext₃ fun nested t ht => ?_)
      omega
  | succ depth ih =>
      refine congrArg (opened s · nesting) (funext₃ fun nested t ht => ?_)
      rw [ih t (by omega) nested, ← hrule]

end Recursion

end FuzzFrontend.Scan
