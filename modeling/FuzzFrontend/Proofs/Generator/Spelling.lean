import FuzzFrontend.Generator.Write
import FuzzFrontend.Proofs.Generator.Spellable
import FuzzFrontend.Proofs.Grouping
import FuzzFrontend.Proofs.Scan.Integer
import FuzzFrontend.Proofs.Scan.Pieces
import FuzzFrontend.Proofs.Writing

namespace FuzzFrontend

open Scan (Pieces)

/-- A constant is spelled by a literal and any type in which the literal stands for it, and by the
token of the text. -/
inductive Constant.Spelled : Constant → List Char → Prop
  | literal {kind : Scalar} {value : Int} {c : Constant} (hkind : kind ∈ Scalar.sized)
      (hvalue : Word.IsSigned value) (h : forType (.scalar kind) value = .ok c) :
      Spelled c (kind.label.toList ++
        (":constant(".toList ++ ((Text.integer value).toList ++ [')'])))
  | text : Spelled (.text Generator.Grammar.textToken) "string:constant(0)".toList

inductive GenExpr.Spelled : GenExpr → List Char → Prop
  | constant {value : Constant} {t : List Char} (h : value.Spelled t) : Spelled (.constant value) t
  | least {kind : Scalar} (h : kind ∈ Scalar.sized) :
      Spelled (.least (.scalar kind)) (kind.label.toList ++ ":min()".toList)
  | greatest {kind : Scalar} (h : kind ∈ Scalar.sized) :
      Spelled (.greatest (.scalar kind)) (kind.label.toList ++ ":max()".toList)
  | random {kind : Scalar} {low high : GenExpr} {tl th : List Char} (h : kind ∈ Scalar.sized)
      (hl : Spelled low tl) (hh : Spelled high th) :
      Spelled (.random (.scalar kind) low high)
        (kind.label.toList ++ (":random(".toList ++ (tl ++ (", ".toList ++ (th ++ [')'])))))
  | compound {left right : GenExpr} {op : ArithmeticOp} {tl tr : List Char} (hl : Spelled left tl)
      (hr : Spelled right tr) :
      Spelled (.compound left op right) (tl ++ ' ' :: (op.val.symbol.toList ++ ' ' :: tr))

/-- A state with its keyword. -/
def GenExpr.SpelledState (e : GenExpr) (t : List Char) : Prop :=
  ∃ u, e.Spelled u ∧ t = "state ".toList ++ u

/-- A line with the name and the type, and then the states, with gaps after them. -/
def Generator.Spelled (g : Generator) (t : List Char) : Prop :=
  ∃ kind ∈ Scalar.sized, g.resultType = .scalar kind ∧
    ∃ ts, Pieces GenExpr.SpelledState g.states ts ∧
      t = "generator ".toList ++ (g.name.toList ++ ' ' :: (kind.label.toList ++ '\n' :: ts))

/-- Generators, one after another. -/
inductive Generator.SpelledAll : List Generator → List Char → Prop
  | nil : SpelledAll [] []
  | cons {g : Generator} {gs : List Generator} {t ts : List Char} (hg : g.Spelled t)
      (hgs : SpelledAll gs ts) : SpelledAll (g :: gs) (t ++ ts)

section Types

theorem Ty.writeToken_eq_ok {ty : Ty} {t : String} :
    ty.writeToken = .ok t ↔ ∃ kind ∈ Scalar.sized, ty = .scalar kind ∧ t = kind.label := by
  cases ty with
  | scalar kind =>
      by_cases h : kind ∈ Scalar.sized
      · simp [writeToken, h, eq_comm]
      · simp [writeToken, h]
  | _ => simp [writeToken]

theorem Ty.isSized_of_writeToken {ty : Ty} {t : String} (h : ty.writeToken = .ok t) :
    ty.IsSized := by
  obtain ⟨kind, hkind, rfl, -⟩ := writeToken_eq_ok.mp h
  exact hkind

theorem Ty.unrefused_writeToken {ty : Ty} (h : ty.IsSized) : Unrefused ty.writeToken := by
  cases ty with
  | scalar kind =>
      have hkind : kind ∈ Scalar.sized := h
      rw [writeToken, if_pos hkind]
      exact unrefused_ok _
  | _ => exact absurd h id

end Types

section Constants

/-- The literal that is written for an unsigned word: of all integers with its last 64 bits the one
that is a signed word. -/
theorem Constant.exists_literal (value : Nat) (h : Word.IsUnsigned value) :
    let literal : Int :=
      if value < 0x8000000000000000 then value else value - 0x10000000000000000
    Word.IsSigned literal ∧ wrap literal = .unsigned value h := by
  intro literal
  have hvalue : (literal % 0x10000000000000000).toNat = value := by
    simp only [literal]
    split <;> omega
  refine ⟨?_, ?_⟩
  · simp only [literal]
    split <;> exact ⟨by omega, by omega⟩
  · simp only [wrap, hvalue]

theorem Constant.spelled_of_write {c : Constant} {t : String} (h : c.write = .ok t) :
    c.Spellable ∧ c.Spelled t.toList := by
  cases c with
  | signed value hvalue =>
      cases h
      have hread : forType (.scalar .i64) value = .ok (.signed value hvalue) := by
        have hsigned : ofSigned value = .ok (.signed value hvalue) := dif_pos hvalue
        simp [forType, Scalar.isSigned, hsigned, Except.mapError]
      refine ⟨trivial, ?_⟩
      simpa [Scalar.label] using Constant.Spelled.literal (by decide) hvalue hread
  | unsigned value hvalue =>
      cases h
      obtain ⟨hliteral, hwrap⟩ := exists_literal value hvalue
      have hread : forType (.scalar .u64) _ = .ok _ := congrArg Except.ok hwrap
      refine ⟨trivial, ?_⟩
      simpa [Scalar.label] using Constant.Spelled.literal (by decide) hliteral hread
  | text content =>
      simp only [write] at h
      split at h
      · rename_i hcontent
        cases h
        subst hcontent
        exact ⟨rfl, .text⟩
      · cases h

theorem Constant.unrefused_write {c : Constant} (h : c.Spellable) : Unrefused c.write := by
  cases c with
  | signed value _ => exact unrefused_ok _
  | unsigned value _ => exact unrefused_ok _
  | text content =>
      have hcontent : content = Generator.Grammar.textToken := h
      rw [write, if_pos hcontent]
      exact unrefused_ok _

end Constants

namespace GenExpr

variable {precedence : Precedence}

theorem write_compound (g : DepthGuard) (inChain : Bool) (left right : GenExpr)
    (op : ArithmeticOp) :
    (compound left op right).write precedence g inChain = do
      let inner ← g.enterChain inChain ((compound left op right).bracketFault? precedence)
      let tl ← left.write precedence inner true
      let tr ← right.write precedence inner false
      return tl ++ " " ++ op.val.symbol ++ " " ++ tr := by
  rw [write]
  cases inChain with
  | true => rfl
  | false =>
      simp only [Bool.false_eq_true, if_false, DepthGuard.enterChain]
      cases bracketFault? precedence (compound left op right) <;> rfl

theorem bracketFault?_compound {left right : GenExpr} {op : ArithmeticOp} :
    (compound left op right).bracketFault? precedence = none ↔
      (∀ inner ∈ left.rootOp?, precedence.level op.val ≤ precedence.level inner) ∧
        (∀ inner ∈ right.rootOp?, precedence.level op.val < precedence.level inner) ∧
          left.bracketFault? precedence = none := by
  simp only [bracketFault?, Option.or_eq_none_iff, Option.map_eq_none_iff,
    Option.filter_eq_none_iff, decide_eq_true_eq, Nat.not_lt, Nat.not_le, and_assoc,
    Option.mem_def]

theorem bracketFault?_of_spellable {e : GenExpr} (h : e.Spellable precedence) :
    e.bracketFault? precedence = none := by
  induction h with
  | compound _ _ hleft hright ihl _ => exact bracketFault?_compound.mpr ⟨hleft, hright, ihl⟩
  | _ => rfl

theorem spelled_of_write {e : GenExpr} {g : DepthGuard} {inChain : Bool} {t : String}
    (h : e.write precedence g inChain = .ok t) : e.Spelled t.toList := by
  induction e generalizing g inChain t with
  | constant value => exact .constant (Constant.spelled_of_write h).2
  | least ty =>
      simp only [write, bind_eq_ok, pure, Except.pure] at h
      obtain ⟨token, htoken, ht⟩ := h
      obtain ⟨kind, hkind, rfl, rfl⟩ := Ty.writeToken_eq_ok.mp htoken
      cases ht
      simpa using GenExpr.Spelled.least hkind
  | greatest ty =>
      simp only [write, bind_eq_ok, pure, Except.pure] at h
      obtain ⟨token, htoken, ht⟩ := h
      obtain ⟨kind, hkind, rfl, rfl⟩ := Ty.writeToken_eq_ok.mp htoken
      cases ht
      simpa using GenExpr.Spelled.greatest hkind
  | random ty low high ihl ihh =>
      simp only [write, bind_eq_ok, pure, Except.pure] at h
      obtain ⟨token, htoken, inner, -, tl, hl, th, hh, ht⟩ := h
      obtain ⟨kind, hkind, rfl, rfl⟩ := Ty.writeToken_eq_ok.mp htoken
      cases ht
      simpa using GenExpr.Spelled.random hkind (ihl hl) (ihh hh)
  | compound left op right ihl ihr =>
      simp only [write_compound, bind_eq_ok, pure, Except.pure] at h
      obtain ⟨inner, -, tl, hl, tr, hr, ht⟩ := h
      cases ht
      simpa using GenExpr.Spelled.compound (ihl hl) (ihr hr)

/-- What is written has a spelling. The left operand of a chain is looked at together with the root
of the chain. -/
theorem spellable_of_write {e : GenExpr} {g : DepthGuard} {inChain : Bool} {t : String}
    (hchain : inChain = true → e.bracketFault? precedence = none)
    (h : e.write precedence g inChain = .ok t) : e.Spellable precedence := by
  induction e generalizing g inChain t with
  | constant value => exact .constant (Constant.spelled_of_write h).1
  | least ty =>
      simp only [write, bind_eq_ok] at h
      obtain ⟨token, htoken, -⟩ := h
      exact .least (Ty.isSized_of_writeToken htoken)
  | greatest ty =>
      simp only [write, bind_eq_ok] at h
      obtain ⟨token, htoken, -⟩ := h
      exact .greatest (Ty.isSized_of_writeToken htoken)
  | random ty low high ihl ihh =>
      simp only [write, bind_eq_ok] at h
      obtain ⟨token, htoken, inner, -, tl, hl, th, hh, -⟩ := h
      exact .random (Ty.isSized_of_writeToken htoken) (ihl (by simp) hl) (ihh (by simp) hh)
  | compound left op right ihl ihr =>
      simp only [write_compound, bind_eq_ok] at h
      obtain ⟨inner, hguard, tl, htl, tr, htr, -⟩ := h
      have hfault := DepthGuard.fault_of_enterChain hchain hguard
      obtain ⟨hleft, hright, hrest⟩ := bracketFault?_compound.mp hfault
      exact .compound (ihl (fun _ => hrest) htl) (ihr (by simp) htr) hleft hright

theorem unrefused_write {e : GenExpr} (h : e.Spellable precedence) (g : DepthGuard)
    (inChain : Bool) : Unrefused (e.write precedence g inChain) := by
  induction e generalizing g inChain with
  | constant value =>
      cases h with
      | constant h => exact Constant.unrefused_write h
  | least ty =>
      cases h with
      | least h => exact (Ty.unrefused_writeToken h).bind fun token _ => unrefused_ok _
  | greatest ty =>
      cases h with
      | greatest h => exact (Ty.unrefused_writeToken h).bind fun token _ => unrefused_ok _
  | random ty low high ihl ihh =>
      cases h with
      | random h hl hh =>
          rw [write]
          refine (Ty.unrefused_writeToken h).bind fun token _ => ?_
          refine (unrefused_enterToWrite g).bind fun inner _ => ?_
          refine (ihl hl inner false).bind fun tl _ => ?_
          refine (ihh hh inner false).bind fun th _ => ?_
          exact unrefused_ok _
  | compound left op right ihl ihr =>
      rw [write_compound, bracketFault?_of_spellable h]
      refine (unrefused_enterChain g inChain).bind fun inner _ => ?_
      cases h with
      | compound hl hr _ _ =>
          refine (ihl hl inner true).bind fun tl _ => ?_
          refine (ihr hr inner false).bind fun tr _ => ?_
          exact unrefused_ok _

/-- Nothing is written that nests deeper than the guard allows; chains enter the guard as well, so
that the writer may stop before that. -/
theorem nesting_of_write {e : GenExpr} {g : DepthGuard} {inChain : Bool} {t : String}
    (h : e.write precedence g inChain = .ok t) : e.nesting ≤ g.room := by
  induction e generalizing g inChain t with
  | constant value => exact Nat.zero_le _
  | least ty => exact Nat.zero_le _
  | greatest ty => exact Nat.zero_le _
  | random ty low high ihl ihh =>
      simp only [write, bind_eq_ok] at h
      obtain ⟨token, -, inner, hinner, tl, hl, th, hh, -⟩ := h
      have hbounds : max low.nesting high.nesting ≤ inner.room :=
        Nat.max_le.mpr ⟨ihl hl, ihh hh⟩
      exact Nat.le_trans (Nat.succ_le_succ hbounds) (DepthGuard.room_of_enterToWrite hinner)
  | compound left op right ihl ihr =>
      simp only [write_compound, bind_eq_ok] at h
      obtain ⟨inner, hinner, tl, hl, tr, hr, -⟩ := h
      have hoperands : max left.nesting right.nesting ≤ inner.room :=
        Nat.max_le.mpr ⟨ihl hl, ihr hr⟩
      exact Nat.le_trans hoperands (DepthGuard.room_of_enterChain hinner)

end GenExpr

namespace Generator

variable {precedence : Precedence} {guard : DepthGuard}

theorem writeState_eq_ok {e : GenExpr} {line : String} :
    writeState precedence guard e = .ok line ↔
      ∃ t, e.write precedence guard false = .ok t ∧ "    state " ++ t ++ "\n" = line := by
  simp only [writeState, bind_eq_ok, pure, Except.pure, Except.ok.injEq]

theorem pieces_of_lines {states : List GenExpr} {lines : List String}
    (h : List.Forall₂ (fun e line => writeState precedence guard e = .ok line) states lines) :
    Pieces GenExpr.SpelledState states (String.join lines).toList := by
  induction h with
  | nil => exact .nil Scan.blank_nil
  | @cons e line states lines he _ ih =>
      obtain ⟨t, ht, rfl⟩ := writeState_eq_ok.mp he
      have hindent : Scan.Blank "    ".toList := Scan.blank_of_all rfl
      have hpiece : e.SpelledState ("state ".toList ++ t.toList) :=
        ⟨t.toList, GenExpr.spelled_of_write ht, rfl⟩
      simpa using Pieces.cons hindent hpiece Scan.gap_newline ih

theorem write_eq_ok {g : Generator} {t : String} :
    g.write precedence guard = .ok t ↔
      Grammar.isName g.name = true ∧ ∃ token, g.resultType.writeToken = .ok token ∧
        ∃ lines, g.states.mapM (writeState precedence guard) = .ok lines ∧
          "generator " ++ g.name ++ " " ++ token ++ "\n" ++ String.join lines = t := by
  cases hname : Grammar.isName g.name with
  | false => simp [write, hname, bind_eq_ok, throw, throwThe, MonadExceptOf.throw]
  | true => simp [write, hname, bind_eq_ok, pure, Except.pure]

theorem spelled_of_write {g : Generator} {t : String} (h : g.write precedence guard = .ok t) :
    g.Spelled t.toList := by
  obtain ⟨-, token, htoken, lines, hlines, rfl⟩ := write_eq_ok.mp h
  obtain ⟨kind, hkind, htype, rfl⟩ := Ty.writeToken_eq_ok.mp htoken
  refine ⟨kind, hkind, htype, _, pieces_of_lines (mapM_eq_ok.mp hlines), ?_⟩
  simp

theorem spellable_of_write {g : Generator} {t : String} (h : g.write precedence guard = .ok t) :
    g.Spellable precedence ∧ g.Within guard.room := by
  obtain ⟨hname, token, htoken, lines, hlines, -⟩ := write_eq_ok.mp h
  have hstates : ∀ e ∈ g.states, ∃ t, e.write precedence guard false = .ok t := by
    intro e he
    obtain ⟨line, hline⟩ := exists_mapM_eq_ok.mp ⟨lines, hlines⟩ e he
    obtain ⟨t, ht, -⟩ := writeState_eq_ok.mp hline
    exact ⟨t, ht⟩
  refine ⟨⟨hname, Ty.isSized_of_writeToken htoken, fun e he => ?_⟩, fun e he => ?_⟩
  · obtain ⟨t, ht⟩ := hstates e he
    exact GenExpr.spellable_of_write (by simp) ht
  · obtain ⟨t, ht⟩ := hstates e he
    exact GenExpr.nesting_of_write ht

theorem unrefused_write {g : Generator} (h : g.Spellable precedence) :
    Unrefused (g.write precedence guard) := by
  have hstate : ∀ e ∈ g.states, Unrefused (writeState precedence guard e) := by
    intro e he
    refine (GenExpr.unrefused_write (h.states e he) guard false).bind fun t _ => ?_
    exact unrefused_ok _
  rw [write]
  simp only [h.name, Bool.not_true, Bool.false_eq_true, if_false]
  refine (Ty.unrefused_writeToken h.resultType).bind fun token _ => ?_
  refine (unrefused_mapM hstate).bind fun lines _ => ?_
  exact unrefused_ok _

theorem writeAll_eq_ok {gs : List Generator} {maxDepth : Option Int} {t : String} :
    writeAll gs precedence maxDepth = .ok t ↔
      ∃ texts, gs.mapM (write precedence (.ofRequest maxDepth)) = .ok texts ∧
        String.join texts = t := by
  simp only [writeAll, bind_eq_ok, pure, Except.pure, Except.ok.injEq]

theorem spelledAll_of_writeAll {gs : List Generator} {maxDepth : Option Int} {t : String}
    (h : writeAll gs precedence maxDepth = .ok t) : SpelledAll gs t.toList := by
  obtain ⟨texts, htexts, rfl⟩ := writeAll_eq_ok.mp h
  have hall := mapM_eq_ok.mp htexts
  clear h htexts
  induction hall with
  | nil => exact .nil
  | cons hg _ ih => simpa using SpelledAll.cons (spelled_of_write hg) ih

theorem spellable_of_writeAll {gs : List Generator} {maxDepth : Option Int} {t : String}
    (h : writeAll gs precedence maxDepth = .ok t) :
    ∀ g ∈ gs, g.Spellable precedence ∧ g.Within (DepthGuard.ofRequest maxDepth).room := by
  obtain ⟨texts, htexts, -⟩ := writeAll_eq_ok.mp h
  intro g hg
  obtain ⟨text, htext⟩ := exists_mapM_eq_ok.mp ⟨texts, htexts⟩ g hg
  exact spellable_of_write htext

theorem unrefused_writeAll {gs : List Generator} (h : ∀ g ∈ gs, g.Spellable precedence)
    (maxDepth : Option Int) : Unrefused (writeAll gs precedence maxDepth) := by
  rw [writeAll]
  refine (unrefused_mapM fun g hg => unrefused_write (h g hg)).bind fun texts _ => ?_
  exact unrefused_ok _

end Generator

end FuzzFrontend
