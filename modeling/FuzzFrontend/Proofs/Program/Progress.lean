import FuzzFrontend.Proofs.Failures
import FuzzFrontend.Proofs.Scan.Turns

namespace FuzzFrontend.Program.Grammar

open Scan

section Inside

/-- An operand, with expressions as the arguments of calls. -/
def wholeOperand (nesting : Nesting) : Rule Expr := fun s =>
  operand (fun nested t _ => expr nested t) nesting s s.length_le_self

theorem length_lt_succ (s : Input) : s.length < s.length + 1 :=
  Nat.lt_succ_self s.length

/-- What follows `function:call`, with expressions as the arguments. -/
def wholeCall (nesting : Nesting) : Rule Expr := fun s =>
  callRest (fun nested t _ => expr nested t) nesting s (length_lt_succ s)

theorem operand_eq_wholeOperand {n : Nat} (nesting : Nesting) (s : Input) (h : s.length ≤ n) :
    operand (fun nested t _ => expr nested t) nesting s h = wholeOperand nesting s := by
  simp only [wholeOperand, operand, callRest]

theorem operands_eq_many {n : Nat} (nesting : Nesting) (found : List (BinaryOp × Expr)) (s : Input)
    (h : s.length < n) :
    operands (fun nested t _ => expr nested t) nesting found s h =
      many (linked binaryOp? (wholeOperand nesting)) found s h := by
  fun_induction operands (fun nested t _ => expr nested t) nesting found s h with
  | case1 found s h hop => exact (many_linked_of_none hop).symm
  | case2 found s h op hop e he =>
      exact (many_linked_of_error hop (operand_eq_wholeOperand nesting op.rest _ ▸ he)).symm
  | case3 found s h op hop p hp ih =>
      exact ih.trans
        (many_linked_of_ok hop (operand_eq_wholeOperand nesting op.rest _ ▸ hp)).symm

/-- A type reference, given the rule for the target of a pointer. -/
def openedTypeExpr : Opened TypeExpr := fun s inner nesting =>
  match keyword? "struct" s with
  | some k => (name k.rest).map fun p => (p.map .structNamed).relax k.rest_le
  | none =>
    match keyword? "enum" s with
    | some k => (name k.rest).map fun p => (p.map .enumNamed).relax k.rest_le
    | none =>
      match keyword? "pointer" s with
      | some k =>
        (inner nesting k.rest k.rest_lt).map fun p =>
          (p.map fun ty => .known (.pointer ty.target)).relax k.rest_le
      | none =>
        match scalar? s with
        | some p => .ok (p.map fun kind => .known (.scalar kind))
        | none => .error (.unexpected s.skipBlanks typeExprStarts)

theorem typeRef_eq_opened (nesting : Nesting) (s : Input) :
    typeRef s = openedTypeExpr s (fun _ t _ => typeRef t) nesting := by
  unfold typeRef openedTypeExpr
  rw [typeExpr.eq_def]
  cases keyword? "struct" s with
  | some k => rfl
  | none =>
      cases keyword? "enum" s with
      | some k => rfl
      | none =>
          cases keyword? "pointer" s with
          | none => rfl
          | some k =>
              dsimp only
              cases typeExpr k.rest <;> rfl

/-- An expression, given the rule for the arguments of calls. -/
def openedExpr : Opened Expr := fun s inner nesting =>
  (chain s inner nesting).map fun p => p.map grouped

end Inside

section Loops

/-- A turn of the loop for statements: the end of the text, or one more statement. -/
def untilEnd (nesting : Nesting) :
    Phase × List Stmt × Input → Except Fault (Turn (Phase × List Stmt × Input) (List Stmt))
  | (reached, found, s) =>
    if s.skipBlanks.chars.isEmpty then .ok (.done found.reverse)
    else
      match lateDeclaration? reached s with
      | some e => .error e
      | none => (stmt nesting s).map fun p => .next (.statements, p.value :: found, p.rest)

theorem stmts_endsIn (nesting : Nesting) (reached : Phase) (found : List Stmt) (s : Input) :
    EndsIn (untilEnd nesting) s.length (reached, found, s) (stmts nesting reached found s) := by
  fun_induction stmts nesting reached found s with
  | case1 reached found s hempty =>
      refine .done ?_
      simp only [untilEnd, hempty, if_true]
  | case2 reached found s hempty e he =>
      refine .error ?_
      simp only [untilEnd, hempty, he]
      rfl
  | case3 reached found s hempty hlate e he =>
      refine .error ?_
      simp only [untilEnd, hempty, hlate, he]
      rfl
  | case4 reached found s hempty hlate p hp ih =>
      refine .next (.statements, p.value :: found, p.rest) ?_ p.rest_lt ih
      simp only [untilEnd, hempty, hlate, hp]
      rfl

/-- All of a text as a program, with a budget for each loop over its parts. -/
def programWithin (budget : Nat) (nesting : Nesting) (s : Input) :
    ExceptT Fault Option Program := do
  let (headers, s) ← turns (whileOffered header?) budget ([], s)
  let (types, s) ← turns (whileOffered typeDeclaration?) budget ([], s)
  let (vars, s) ← turns (whileOffered variableDeclaration?) budget ([], s)
  let (functions, s) ← turns (whileOffered functionDeclaration?) budget ([], s)
  let reached := reachedBy functions .functions
    (reachedBy vars .vars (reachedBy types .types .headers))
  let statements ← turns (untilEnd nesting) budget (reached, [], s)
  return ⟨headers ++ types ++ vars ++ functions, statements⟩

end Loops

section Offsets

variable {source : List Char} {pos : Nat} {nesting : Nesting}

/-- The rules of programs go forward from an offset of a source. -/
structure RulesAdvance (source : List Char) (pos : Nat) (nesting : Nesting) : Prop where
  number : Advances source pos numeral
  plainName : Advances source pos name
  typeReference : Advances source pos typeRef
  headerLine : Advances source pos header
  structField : Advances source pos field
  structBody : Advances source pos structDefinition
  enumBody : Advances source pos enumDefinition
  typedefLine : Advances source pos typedef
  typeDeclaration : MayAdvance source pos typeDeclaration?
  variableDeclaration : MayAdvance source pos variableDeclaration?
  functionDeclaration : MayAdvance source pos functionDeclaration?
  primary (context : Option Nesting) : MayAdvance source pos (singleOperand context)
  call : Advances source pos (wholeCall nesting)
  expression : Advances source pos (expr nesting)
  bracedBlock : Advances source pos (singleBlock nesting)
  statement : Advances source pos (stmt nesting)

/-- The loops of programs end, each of them after no more turns than characters are left at the
offset from which it starts. -/
structure LoopsEnd (source : List Char) (pos : Nat) (nesting : Nesting) : Prop where
  fields : BracesEnd source pos field
  entries : BracesEnd source pos enumEntry
  parameters : BracesEnd source pos parameter
  arguments : BracesEnd source pos (expr nesting)
  body : BracesEnd source pos (stmt nesting)
  links {n : Nat} (h : (Input.ofList (source.drop pos)).length < n) :
    EndsIn (whileOffered (linked binaryOp? (wholeOperand nesting))) (source.length - pos)
      ([], .ofList (source.drop pos))
      ((operands (fun nested t _ => expr nested t) nesting [] (.ofList (source.drop pos)) h).map
        Parsed.pair)
  headers : RepetitionEnds source pos header?
  types : RepetitionEnds source pos typeDeclaration?
  vars : RepetitionEnds source pos variableDeclaration?
  functions : RepetitionEnds source pos functionDeclaration?
  statements (reached : Phase) :
    EndsIn (untilEnd nesting) (source.length - pos) (reached, [], .ofList (source.drop pos))
      (stmts nesting reached [] (.ofList (source.drop pos)))

/-- The rules of programs that go into themselves do so no more often, one inside the other, than
characters are left. -/
structure NestingEnds (source : List Char) (pos : Nat) : Prop where
  pointers : NestsIn openedTypeExpr (fun _ => typeRef) (source.length - pos)
    (.ofList (source.drop pos))
  calls : NestsIn openedExpr expr (source.length - pos) (.ofList (source.drop pos))
  blocks : NestsIn stmtWith stmt (source.length - pos) (.ofList (source.drop pos))

theorem exprs_inward {C : Correspondence} (hC : Kept C) {m n : Nat} :
    Kept.Inward C (m := m) (n := n) (fun nested t _ => expr nested t)
      (fun nested t _ => expr nested t) :=
  fun nested _ _ _ _ h => hC.expr nested h

theorem stmts_inward {C : Correspondence} (hC : Kept C) {m n : Nat} :
    Kept.Inward C (m := m) (n := n) (fun nested t _ => stmt nested t)
      (fun nested t _ => stmt nested t) :=
  fun nested _ _ _ _ h => hC.stmt nested h

theorem singleOperand_offers (context : Option Nesting) {s : Input} (hs : s.EndOf source) :
    (reading source).Offers Eq (singleOperand context s) (singleOperand context s) := by
  unfold singleOperand
  split
  · exact .none
  · exact .some (within_kept.operand (exprs_inward within_kept) _ ⟨rfl, hs⟩ _ _)

theorem rulesAdvance (source : List Char) (pos : Nat) (nesting : Nesting) :
    RulesAdvance source pos nesting := by
  have hC : Kept (reading source) := within_kept
  constructor
  case number => exact .of_keeps hC.numeral pos
  case plainName => exact .of_keeps hC.name pos
  case typeReference => exact .of_keeps hC.typeRef pos
  case headerLine => exact .of_keeps header_within pos
  case structField => exact .of_keeps hC.field pos
  case structBody => exact .of_keeps hC.structDefinition pos
  case enumBody => exact .of_keeps hC.enumDefinition pos
  case typedefLine => exact .of_keeps hC.typedef pos
  case typeDeclaration => exact .of_offers (fun _ hs => hC.typeDeclaration? ⟨rfl, hs⟩) pos
  case variableDeclaration => exact .of_offers (fun _ hs => hC.variableDeclaration? ⟨rfl, hs⟩) pos
  case functionDeclaration => exact .of_offers (fun _ hs => hC.functionDeclaration? ⟨rfl, hs⟩) pos
  case primary => exact fun context => .of_offers (fun _ => singleOperand_offers context) pos
  case call =>
    exact .of_keeps (fun _ _ h => hC.callRest (exprs_inward hC) nesting h _ _) pos
  case expression => exact .of_keeps (hC.expr nesting) pos
  case bracedBlock =>
    exact .of_keeps (fun _ _ h => hC.block (stmts_inward hC) nesting h _ _) pos
  case statement => exact .of_keeps (hC.stmt nesting) pos

theorem loopsEnd (source : List Char) (pos : Nat) (nesting : Nesting) :
    LoopsEnd source pos nesting := by
  have hC : ∀ text, Kept (reading text) := fun _ => within_kept
  constructor
  case fields => exact .of_keeps fun text => (hC text).field
  case entries => exact .of_keeps fun text => (hC text).name.andThen (hC text).enumEntryValue
  case parameters =>
    exact .of_keeps fun text => (hC text).typeRef.followedBy ((hC text).symbol rfl (by decide))
  case arguments => exact .of_keeps fun text => (hC text).expr nesting
  case body => exact .of_keeps fun text => (hC text).stmt nesting
  case links =>
    intro n h
    rw [operands_eq_many, ← length_ofList_drop]
    exact many_endsIn _ [] _ h
  case headers => exact repetitionEnds header?
  case types => exact repetitionEnds typeDeclaration?
  case vars => exact repetitionEnds variableDeclaration?
  case functions => exact repetitionEnds functionDeclaration?
  case statements =>
    intro reached
    rw [← length_ofList_drop]
    exact stmts_endsIn nesting reached [] _

theorem nestingEnds (source : List Char) (pos : Nat) : NestingEnds source pos := by
  constructor
  all_goals rw [← length_ofList_drop]
  case pointers => exact nestsIn_length typeRef_eq_opened _
  case calls => exact nestsIn_length (fun nesting s => expr.eq_def nesting s) _
  case blocks => exact nestsIn_length (fun nesting s => stmt.eq_def nesting s) _

end Offsets

section Wholes

theorem programWithin_eq (nesting : Nesting) {budget : Nat} {s : Input} (h : s.length ≤ budget) :
    programWithin budget nesting s = some (program nesting s) := by
  refine many_bind_eq h fun headers hheaders => ?_
  refine many_bind_eq hheaders fun types htypes => ?_
  refine many_bind_eq htypes fun vars hvars => ?_
  refine many_bind_eq hvars fun functions hfunctions => ?_
  exact (stmts_endsIn nesting _ [] _).bind_eq hfunctions fun statements => rfl

end Wholes

end FuzzFrontend.Program.Grammar
