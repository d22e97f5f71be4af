import FuzzFrontend.Proofs.Failures
import FuzzFrontend.Proofs.Generator.Loops
import FuzzFrontend.Proofs.Scan.Turns

namespace FuzzFrontend.Generator.Grammar

open Scan

section Names

theorem rest_lt_of_generatorName {s : Input} (hs : Plain s) {p : Parsed String (s.length + 1)}
    (h : generatorName s = .ok p) : p.rest.length < s.length := by
  have hskip := s.length_skipBlanks_le
  unfold generatorName at h
  split at h
  · rename_i rest hmark
    have hlt := length_lt_of_after? hmark (by decide)
    have hle := rest.length_dropWhile_le isWordChar
    unfold standardName at h
    dsimp only at h
    split at h
    · cases h
    · cases h
      exact Nat.lt_of_le_of_lt hle hlt
  · unfold ownName at h
    split at h
    · cases h
    · rename_i hword
      split at h
      · cases h
      · cases h
        have hplain : Plain s.skipBlanks := hs
        have hpos : 0 < (word s.skipBlanks.chars).length :=
          List.length_pos_iff.mpr (by simpa using hword)
        have hle := (word_prefix_self s.skipBlanks.chars).length_le
        change (s.skipBlanks.drop s.skipBlanks.word.length).length < s.length
        rw [Input.length_drop, word_of_plain hplain]
        simp only [Input.length] at hskip ⊢
        omega

end Names

section Inside

/-- A term, with states as the bounds of random values. -/
def wholeTerm (precedence : Precedence) (nesting : Nesting) : Rule GenExpr := fun s =>
  term (fun nested t _ => state precedence nested t) nesting s s.length_le_self

/-- How far the text goes makes no difference to a term in it. -/
theorem term_eq_wholeTerm {n : Nat} (precedence : Precedence) (nesting : Nesting) (s : Input)
    (h : s.length ≤ n) :
    term (fun nested t _ => state precedence nested t) nesting s h =
      wholeTerm precedence nesting s := by
  simp only [wholeTerm, term, typedTerm, randomRest]

theorem terms_eq_many {n : Nat} (precedence : Precedence) (nesting : Nesting)
    (found : List (ArithmeticOp × GenExpr)) (s : Input) (h : s.length < n) :
    terms (fun nested t _ => state precedence nested t) nesting found s h =
      many (linked arithmeticOp? (wholeTerm precedence nesting)) found s h := by
  fun_induction terms (fun nested t _ => state precedence nested t) nesting found s h with
  | case1 found s h hop => exact (many_linked_of_none hop).symm
  | case2 found s h op hop e he =>
      exact (many_linked_of_error hop (term_eq_wholeTerm precedence nesting op.rest _ ▸ he)).symm
  | case3 found s h op hop p hp ih =>
      exact ih.trans
        (many_linked_of_ok hop (term_eq_wholeTerm precedence nesting op.rest _ ▸ hp)).symm

/-- A state, given the rule for the bounds of random values. -/
def openedState (precedence : Precedence) : Opened GenExpr := fun s inner nesting =>
  (chain s inner nesting).map fun p => p.map (grouped precedence)

end Inside

section Chains

variable {operators : List ArithmeticOp} {operand : Rule GenExpr} {n n' m : Nat}

/-- Operands and the operators between them, put together from the left. -/
def wholeLoop (operators : List ArithmeticOp) (operand : Rule GenExpr) : Rule GenExpr := fun s =>
  loop operators (fun t _ => operand t) s s.length_le_self

/-- The loops of a precedence: one over terms, or one for sums of products of terms. -/
def wholeChain (precedence : Precedence) (nesting : Nesting) : Rule GenExpr :=
  match precedence with
  | .flat => wholeLoop arithmetic (wholeTerm .flat nesting)
  | .conventional => wholeLoop sums (wholeLoop products (wholeTerm .conventional nesting))

theorem loopFrom_congr (left : GenExpr) (s : Input) (hn : s.length ≤ n) (hn' : s.length ≤ n')
    (hm : s.length < m) :
    loopFrom operators (fun (t : Input) (_ : t.length ≤ n) => operand t) left s hn hm =
      loopFrom operators (fun (t : Input) (_ : t.length ≤ n') => operand t) left s hn' hm := by
  fun_induction loopFrom operators (fun (t : Input) (_ : t.length ≤ n) => operand t) left s hn
    hm with
  | case1 left s hn hm hop => exact (loopFrom_of_none hop).symm
  | case2 left s hn hm op hop e he => exact (loopFrom_of_error hop he).symm
  | case3 left s hn hm op hop p hp hlt ih => exact (ih _).trans (loopFrom_of_ok hop hp).symm

theorem loop_eq_wholeLoop (s : Input) (h : s.length ≤ n) :
    loop operators (fun t _ => operand t) s h = wholeLoop operators operand s := by
  unfold wholeLoop loop
  dsimp only
  cases operand s with
  | error e => rfl
  | ok p => exact loopFrom_congr p.value p.rest _ _ _

theorem state_eq_wholeChain (precedence : Precedence) (nesting : Nesting) (s : Input) :
    state precedence nesting s = wholeChain precedence nesting s := by
  have hterm : ∀ {n : Nat}, term (n := n) (fun nested t _ => state precedence nested t) nesting =
      fun t _ => wholeTerm precedence nesting t :=
    funext₂ fun t ht => term_eq_wholeTerm precedence nesting t ht
  rw [state_eq_loops]
  cases precedence with
  | flat => rw [loops, hterm, loop_eq_wholeLoop, wholeChain]
  | conventional =>
      have hproducts : ∀ {n : Nat}, loop (n := n) products
          (fun t _ => wholeTerm .conventional nesting t) =
            fun t _ => wholeLoop products (wholeTerm .conventional nesting) t :=
        funext₂ fun t ht => loop_eq_wholeLoop t ht
      rw [loops, hterm, hproducts, loop_eq_wholeLoop, wholeChain]

/-- A turn of a loop over operands: no operator, or one and the operand after it. -/
def untilNoOperator (operators : List ArithmeticOp) (operand : Rule GenExpr) :
    GenExpr × Input → Except Fault (Turn (GenExpr × Input) (GenExpr × Input))
  | (left, s) =>
    match operatorOf? operators s with
    | none => .ok (.done (left, s))
    | some op => (operand op.rest).map fun p => .next (.compound left op.value p.value, p.rest)

theorem loopFrom_endsIn (left : GenExpr) (s : Input) (hn : s.length ≤ n) (hm : s.length < m) :
    EndsIn (untilNoOperator operators operand) s.length (left, s)
      ((loopFrom operators (fun t _ => operand t) left s hn hm).map Parsed.pair) := by
  fun_induction loopFrom operators (fun (t : Input) (_ : t.length ≤ n) => operand t) left s hn
    hm with
  | case1 left s hn hm hop =>
      refine .done ?_
      simp only [untilNoOperator, hop]
      rfl
  | case2 left s hn hm op hop e he =>
      refine .error ?_
      simp only [untilNoOperator, hop, he]
      rfl
  | case3 left s hn hm op hop p hp hlt ih =>
      refine .next (.compound left op.value p.value, p.rest) ?_ hlt ih
      simp only [untilNoOperator, hop, hp]
      rfl

variable {source : List Char} {s : Input}

theorem endOf_of_operatorOf? (hs : s.EndOf source) {op : Parsed ArithmeticOp s.length}
    (h : operatorOf? operators s = some op) : op.rest.EndOf source := by
  obtain ⟨_, -, hop⟩ := List.exists_of_findSome?_eq_some h
  obtain ⟨p, hp, rfl⟩ := Option.map_eq_some_iff.mp hop
  exact hs.of_literal? hp

theorem endOf_of_wholeLoop
    (hoperand : ∀ t, t.EndOf source → ∀ p, operand t = .ok p → p.rest.EndOf source)
    (hs : s.EndOf source) {p : Parsed GenExpr s.length}
    (h : wholeLoop operators operand s = .ok p) : p.rest.EndOf source := by
  have hfrom : ∀ left t ht ht', t.EndOf source → ∀ p,
      loopFrom operators (fun (t : Input) (_ : t.length ≤ s.length) => operand t) (m := s.length)
        left t ht ht' = .ok p → p.rest.EndOf source := by
    intro left t ht ht' hend p hp
    fun_induction loopFrom operators (fun (t : Input) (_ : t.length ≤ s.length) => operand t) left t
      ht ht' with
    | case1 left t ht ht' hop =>
        cases hp
        exact hend
    | case2 left t ht ht' op hop e he => cases hp
    | case3 left t ht ht' op hop q hq hlt ih =>
        exact ih (hoperand _ (endOf_of_operatorOf? hend hop) q hq) hp
  unfold wholeLoop loop at h
  split at h
  · cases h
  · rename_i first hfirst
    exact hfrom _ _ _ _ (hoperand s hs first hfirst) p h

end Chains

section Loops

/-- A turn of the loop for generators: the end of the text behind a generator, or one more. -/
def untilAllRead (precedence : Precedence) (nesting : Nesting) :
    List Generator × Input → Except Fault (Turn (List Generator × Input) (List Generator))
  | (found, s) =>
    if !found.isEmpty && s.skipBlanks.chars.isEmpty then .ok (.done found.reverse)
    else (generator precedence nesting s).map fun p => .next (p.value :: found, p.rest)

theorem generators_endsIn (precedence : Precedence) (nesting : Nesting) (found : List Generator)
    (s : Input) (hs : (!found.isEmpty && s.skipBlanks.chars.isEmpty) = false) :
    EndsIn (untilAllRead precedence nesting) s.length (found, s)
      (generators precedence nesting found s) := by
  fun_induction generators precedence nesting found s with
  | case1 found s e he =>
      refine .error ?_
      simp only [untilAllRead, hs, he]
      rfl
  | case2 found s p hp hempty =>
      refine .next (p.value :: found, p.rest) ?_ p.rest_lt (.done ?_)
      · simp only [untilAllRead, hs, hp]
        rfl
      · simp [untilAllRead, hempty]
  | case3 found s p hp hempty ih =>
      refine .next (p.value :: found, p.rest) ?_ p.rest_lt (ih (by simpa using hempty))
      simp only [untilAllRead, hs, hp]
      rfl

/-- All of a text as generators, with a budget for the loop over them. -/
def generatorsWithin (budget : Nat) (precedence : Precedence) (nesting : Nesting) (s : Input) :
    ExceptT Fault Option (List Generator) :=
  turns (untilAllRead precedence nesting) budget ([], s)

theorem generatorsWithin_eq (precedence : Precedence) (nesting : Nesting) {budget : Nat}
    {s : Input} (h : s.length ≤ budget) :
    generatorsWithin budget precedence nesting s = some (generators precedence nesting [] s) :=
  generators_endsIn precedence nesting [] s rfl budget h

end Loops

section Offsets

variable {source : List Char} {pos : Nat} {precedence : Precedence} {nesting : Nesting}

/-- The rules of generators go forward from an offset of a source. -/
structure RulesAdvance (source : List Char) (pos : Nat) (precedence : Precedence)
    (nesting : Nesting) : Prop where
  wholeGenerator : Advances source pos (generator precedence nesting)
  plainName : Advances source pos generatorName
  typeName : Advances source pos typeToken
  literal : Advances source pos intLiteral
  wholeState : Advances source pos (state precedence nesting)
  termLoop (operators : List ArithmeticOp) :
    Advances source pos (wholeLoop operators (wholeTerm precedence nesting))
  singleTerm : Advances source pos (wholeTerm precedence nesting)

/-- The loops of generators end, each of them after no more turns than characters are left at the
offset from which it starts. A state is what the loops over its operands make of it. -/
structure LoopsEnd (source : List Char) (pos : Nat) (precedence : Precedence) (nesting : Nesting) :
    Prop where
  chain : state precedence nesting (.ofList (source.drop pos)) =
    wholeChain precedence nesting (.ofList (source.drop pos))
  operands (operators : List ArithmeticOp) (operand : Rule GenExpr) (left : GenExpr) {n m : Nat}
    (hn : (Input.ofList (source.drop pos)).length ≤ n)
    (hm : (Input.ofList (source.drop pos)).length < m) :
    EndsIn (untilNoOperator operators operand) (source.length - pos)
      (left, .ofList (source.drop pos))
      ((loopFrom operators (fun t _ => operand t) left (.ofList (source.drop pos)) hn hm).map
        Parsed.pair)
  links {n : Nat} (h : (Input.ofList (source.drop pos)).length < n) :
    EndsIn (whileOffered (linked arithmeticOp? (wholeTerm precedence nesting)))
      (source.length - pos) ([], .ofList (source.drop pos))
      ((terms (fun nested t _ => state precedence nested t) nesting []
        (.ofList (source.drop pos)) h).map Parsed.pair)
  states : RepetitionEnds source pos (Rule.ifKeyword "state" (state precedence nesting))
  all : EndsIn (untilAllRead precedence nesting) (source.length - pos)
    ([], .ofList (source.drop pos)) (generators precedence nesting [] (.ofList (source.drop pos)))

theorem states_inward {C : Correspondence} (hC : Kept C) {m n : Nat} :
    Kept.Inward C Eq (m := m) (n := n) (fun nested t _ => state precedence nested t)
      (fun nested t _ => state precedence nested t) :=
  fun nested _ _ _ _ h => hC.state (carried_eq precedence) nested h

theorem rulesAdvance (source : List Char) (pos : Nat) (precedence : Precedence)
    (nesting : Nesting) : RulesAdvance source pos precedence nesting := by
  have hC : Kept (reading source) := within_kept
  have hterm : (reading source).Keeps (wholeTerm precedence nesting) := fun s s' h =>
    hC.term (carried_eq precedence) (states_inward hC) nesting h _ _
  constructor
  case wholeGenerator =>
    exact .of_ends (fun _ hs => hC.generator (carried_eq precedence) nesting ⟨rfl, hs⟩) pos
  case plainName =>
    have hs := endOf_drop source pos
    refine .of_endOf fun p hp => ⟨endOf_of_ends (generatorName_within hs) hp, ?_⟩
    rw [← length_ofList_drop]
    exact rest_lt_of_generatorName hs.plain hp
  case typeName => exact .of_keeps hC.typeToken pos
  case literal => exact .of_keeps hC.intLiteral pos
  case wholeState =>
    exact .of_ends (fun _ hs => hC.state (carried_eq precedence) nesting ⟨rfl, hs⟩) pos
  case termLoop =>
    intro operators
    refine .of_endOf fun p hp => ⟨?_, length_ofList_drop source pos ▸ p.shorter⟩
    exact endOf_of_wholeLoop (fun _ ht _ hq => endOf_of_ends (hterm ⟨rfl, ht⟩) hq)
      (endOf_drop source pos) hp
  case singleTerm => exact .of_keeps hterm pos

theorem loopsEnd (source : List Char) (pos : Nat) (precedence : Precedence) (nesting : Nesting) :
    LoopsEnd source pos precedence nesting := by
  constructor
  case chain => exact state_eq_wholeChain precedence nesting _
  case operands =>
    intro operators operand left n m hn hm
    rw [← length_ofList_drop]
    exact loopFrom_endsIn left _ hn hm
  case links =>
    intro n h
    rw [terms_eq_many, ← length_ofList_drop]
    exact many_endsIn _ [] _ h
  case states => exact repetitionEnds _
  case all =>
    rw [← length_ofList_drop]
    exact generators_endsIn precedence nesting [] _ rfl

theorem state_nestsIn (source : List Char) (pos : Nat) (precedence : Precedence) :
    NestsIn (openedState precedence) (state precedence) (source.length - pos)
      (.ofList (source.drop pos)) := by
  rw [← length_ofList_drop]
  exact nestsIn_length (fun nesting s => state.eq_def precedence nesting s) _

end Offsets

end FuzzFrontend.Generator.Grammar
