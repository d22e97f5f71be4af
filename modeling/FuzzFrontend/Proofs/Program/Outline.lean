import FuzzFrontend.Proofs.Scan.Integer
import FuzzFrontend.Proofs.Tree.Editing
import Mathlib.Data.List.Basic

namespace FuzzFrontend

theorem Text.integer_injective : Function.Injective Text.integer := by
  intro a b h
  have hchars : (Text.integer a).toList = (Text.integer b).toList := by rw [h]
  -- no digit is a minus sign, so the sign is told by the first character
  have hsign : ∀ n, '-' ∉ Text.decimalDigits n := fun n hmem =>
    absurd (Text.isDigit_of_mem_decimalDigits n '-' hmem) (by decide)
  have hdigits : ∀ m n, Text.decimalDigits m = Text.decimalDigits n → m = n := by
    intro m n hmn
    rw [← Text.decimalValue_decimalDigits m, hmn, Text.decimalValue_decimalDigits]
  cases a with
  | ofNat m =>
      cases b with
      | ofNat n =>
          rw [Text.integer_ofNat, Text.integer_ofNat] at hchars
          rw [hdigits m n hchars]
      | negSucc n =>
          rw [Text.integer_ofNat, Text.integer_negSucc] at hchars
          exact absurd (by simp [hchars]) (hsign m)
  | negSucc m =>
      cases b with
      | ofNat n =>
          rw [Text.integer_ofNat, Text.integer_negSucc] at hchars
          exact absurd (by simp [← hchars]) (hsign n)
      | negSucc n =>
          rw [Text.integer_negSucc, Text.integer_negSucc] at hchars
          have hmn := hdigits (m + 1) (n + 1) (List.cons.inj hchars).2
          rw [Nat.succ.inj hmn]

theorem Scalar.spelling_injective : Function.Injective Scalar.spelling := by
  intro a b
  cases a <;> cases b <;> decide

theorem BinaryOp.symbol_injective : Function.Injective BinaryOp.symbol := by
  intro a b
  cases a <;> cases b <;> decide

theorem UnaryOp.keyword_injective : Function.Injective UnaryOp.keyword := by
  intro a b
  cases a <;> cases b <;> decide

theorem HeaderStyle.name_injective : Function.Injective HeaderStyle.name := by
  intro a b
  cases a <;> cases b <;> decide

theorem EnumValue.toTree_injective : Function.Injective EnumValue.toTree := by
  intro a b h
  simp only [toTree, Tree.node.injEq, List.cons.injEq, Prod.mk.injEq, Attribute.text.injEq] at h
  obtain ⟨-, ⟨⟨-, hname⟩, ⟨-, hvalue⟩, -⟩, -⟩ := h
  cases a
  cases b
  rw [EnumValue.mk.injEq]
  exact ⟨hname, Text.integer_injective hvalue⟩

mutual

theorem Ty.eq_of_toTree : (a b : Ty) → a.toTree = b.toTree → a = b
  | .scalar kind, b, h => by
    cases b with
    | scalar kind' =>
        simp only [Ty.toTree, Tree.node.injEq, List.cons.injEq, Prod.mk.injEq,
          Attribute.text.injEq, true_and, and_true] at h
        rw [Scalar.spelling_injective h]
    | _ => simp [Ty.toTree] at h
  | .pointer target, b, h => by
    cases b with
    | pointer target' =>
        simp only [Ty.toTree, Tree.node.injEq, List.cons.injEq, Slot.one.injEq, true_and,
          and_true] at h
        rw [Ty.eq_of_toTree target target' h]
    | _ => simp [Ty.toTree] at h
  | .struct name members forward, b, h => by
    cases b with
    | struct name' members' forward' =>
        simp only [Ty.toTree, Tree.node.injEq, List.cons.injEq, Prod.mk.injEq,
          Attribute.text.injEq, Attribute.flag.injEq, Slot.many.injEq, true_and, and_true] at h
        obtain ⟨⟨hname, hforward⟩, hmembers⟩ := h
        rw [hname, hforward, Member.eq_of_toTrees members members' hmembers]
    | _ => simp [Ty.toTree] at h
  | .enum name values forward, b, h => by
    cases b with
    | enum name' values' forward' =>
        simp only [Ty.toTree, Tree.node.injEq, List.cons.injEq, Prod.mk.injEq,
          Attribute.text.injEq, Attribute.flag.injEq, Slot.many.injEq, true_and, and_true] at h
        obtain ⟨⟨hname, hforward⟩, hvalues⟩ := h
        rw [hname, hforward, EnumValue.toTree_injective.list_map hvalues]
    | _ => simp [Ty.toTree] at h

theorem Member.eq_of_toTrees :
    (as bs : List Member) → Member.toTrees as = Member.toTrees bs → as = bs
  | [], [], _ => rfl
  | .mk name ty :: rest, .mk name' ty' :: rest', h => by
    simp only [Member.toTrees, Tree.node.injEq, List.cons.injEq, Prod.mk.injEq,
      Attribute.text.injEq, Slot.one.injEq, true_and, and_true] at h
    obtain ⟨⟨hname, hty⟩, hrest⟩ := h
    rw [hname, Ty.eq_of_toTree ty ty' hty, Member.eq_of_toTrees rest rest' hrest]
  | [], .mk _ _ :: _, h | .mk _ _ :: _, [], h => by
    simp [Member.toTrees] at h

end

mutual

theorem TypeExpr.eq_of_toTree : (a b : TypeExpr) → a.toTree = b.toTree → a = b
  | .known ty, b, h => by
    cases b with
    | known ty' =>
        simp only [TypeExpr.toTree, Tree.node.injEq, List.cons.injEq, Slot.one.injEq, true_and,
          and_true] at h
        rw [Ty.eq_of_toTree ty ty' h]
    | inline d => cases d <;> simp [TypeExpr.toTree, Definition.toTree] at h
    | _ => simp [TypeExpr.toTree] at h
  | .inline d, b, h => by
    cases b with
    | inline d' => rw [Definition.eq_of_toTree d d' h]
    | _ => cases d <;> simp [TypeExpr.toTree, Definition.toTree] at h
  | .structNamed name, b, h => by
    cases b with
    | structNamed name' =>
        simp only [TypeExpr.toTree, Tree.node.injEq, List.cons.injEq, Prod.mk.injEq,
          Attribute.text.injEq, true_and, and_true] at h
        rw [h]
    | inline d => cases d <;> simp [TypeExpr.toTree, Definition.toTree] at h
    | _ => simp [TypeExpr.toTree] at h
  | .enumNamed name, b, h => by
    cases b with
    | enumNamed name' =>
        simp only [TypeExpr.toTree, Tree.node.injEq, List.cons.injEq, Prod.mk.injEq,
          Attribute.text.injEq, true_and, and_true] at h
        rw [h]
    | inline d => cases d <;> simp [TypeExpr.toTree, Definition.toTree] at h
    | _ => simp [TypeExpr.toTree] at h

theorem Definition.eq_of_toTree : (a b : Definition) → a.toTree = b.toTree → a = b
  | .struct name fields, .struct name' fields', h => by
    simp only [Definition.toTree, Tree.node.injEq, List.cons.injEq, Prod.mk.injEq,
      Attribute.text.injEq, Slot.many.injEq, true_and, and_true] at h
    rw [h.1, Field.eq_of_toTrees fields fields' h.2]
  | .enum name values, .enum name' values', h => by
    simp only [Definition.toTree, Tree.node.injEq, List.cons.injEq, Prod.mk.injEq,
      Attribute.text.injEq, Slot.many.injEq, true_and, and_true] at h
    rw [h.1, EnumValue.toTree_injective.list_map h.2]
  | .struct _ _, .enum _ _, h | .enum _ _, .struct _ _, h => by
    simp [Definition.toTree] at h

theorem Field.eq_of_toTrees :
    (as bs : List Field) → Field.toTrees as = Field.toTrees bs → as = bs
  | [], [], _ => rfl
  | .mk name ty :: rest, .mk name' ty' :: rest', h => by
    simp only [Field.toTrees, Tree.node.injEq, List.cons.injEq, Prod.mk.injEq,
      Attribute.text.injEq, Slot.one.injEq, true_and, and_true] at h
    obtain ⟨⟨hname, hty⟩, hrest⟩ := h
    rw [hname, TypeExpr.eq_of_toTree ty ty' hty, Field.eq_of_toTrees rest rest' hrest]
  | [], .mk _ _ :: _, h | .mk _ _ :: _, [], h => by
    simp [Field.toTrees] at h

end

theorem TypeExpr.toTree_injective : Function.Injective TypeExpr.toTree :=
  fun a b => TypeExpr.eq_of_toTree a b

theorem FreeVariable.toTree_injective : Function.Injective FreeVariable.toTree := by
  rintro ⟨name, generator, ty⟩ ⟨name', generator', ty'⟩ h
  simp only [toTree, Tree.node.injEq, List.cons.injEq, Prod.mk.injEq, Attribute.text.injEq,
    Slot.one.injEq, true_and, and_true] at h
  obtain ⟨⟨hname, hgenerator⟩, hty⟩ := h
  rw [hname, hgenerator, TypeExpr.toTree_injective hty]

theorem Signature.toTree_injective : Function.Injective Signature.toTree := by
  rintro ⟨name, result, parameters⟩ ⟨name', result', parameters'⟩ h
  simp only [toTree, Tree.node.injEq, List.cons.injEq, Prod.mk.injEq, Attribute.text.injEq,
    Slot.one.injEq, Slot.many.injEq, true_and, and_true] at h
  obtain ⟨hname, hresult, hparameters⟩ := h
  rw [hname, TypeExpr.toTree_injective hresult, TypeExpr.toTree_injective.list_map hparameters]

theorem Declaration.toTree_injective : Function.Injective Declaration.toTree := by
  intro a b h
  have hkind : a.kind = b.kind := by
    rw [← a.kind_toTree, ← b.kind_toTree, h]
  cases a with
  | header path style =>
      cases b with
      | header path' style' =>
          simp only [toTree, Tree.node.injEq, List.cons.injEq, Prod.mk.injEq,
            Attribute.text.injEq, true_and, and_true] at h
          rw [h.1, HeaderStyle.name_injective h.2]
      | _ => cases hkind
  | typedef source name =>
      cases b with
      | typedef source' name' =>
          simp only [toTree, Tree.node.injEq, List.cons.injEq, Prod.mk.injEq,
            Attribute.text.injEq, Slot.one.injEq, true_and, and_true] at h
          rw [h.1, TypeExpr.toTree_injective h.2]
      | _ => cases hkind
  | define d =>
      cases b with
      | define d' =>
          simp only [toTree, Tree.node.injEq, List.cons.injEq, Slot.one.injEq, true_and,
            and_true] at h
          rw [Definition.eq_of_toTree d d' h]
      | _ => cases hkind
  | free decl =>
      cases b with
      | free decl' =>
          simp only [toTree, Tree.node.injEq, List.cons.injEq, Slot.one.injEq, true_and,
            and_true] at h
          rw [FreeVariable.toTree_injective h]
      | _ => cases hkind
  | constrained name ty =>
      cases b with
      | constrained name' ty' =>
          simp only [toTree, Tree.node.injEq, List.cons.injEq, Prod.mk.injEq,
            Attribute.text.injEq, Slot.one.injEq, true_and, and_true] at h
          rw [h.1, TypeExpr.toTree_injective h.2]
      | _ => cases hkind
  | function signature =>
      cases b with
      | function signature' =>
          simp only [toTree, Tree.node.injEq, List.cons.injEq, Slot.one.injEq, true_and,
            and_true] at h
          rw [Signature.toTree_injective h]
      | _ => cases hkind

mutual

theorem Expr.eq_of_toTree : (a b : Expr) → a.toTree = b.toTree → a = b
  | .integer text, b, h => by
    cases b with
    | integer text' => simpa [Expr.toTree] using h
    | _ => simp [Expr.toTree] at h
  | .decimal text, b, h => by
    cases b with
    | decimal text' => simpa [Expr.toTree] using h
    | _ => simp [Expr.toTree] at h
  | .var op name, b, h => by
    cases b with
    | var op' name' =>
        simp only [Expr.toTree, Tree.node.injEq, List.cons.injEq, Prod.mk.injEq,
          Attribute.text.injEq, true_and, and_true] at h
        rw [UnaryOp.keyword_injective h.1, h.2]
    | _ => simp [Expr.toTree] at h
  | .call name arguments, b, h => by
    cases b with
    | call name' arguments' =>
        simp only [Expr.toTree, Tree.node.injEq, List.cons.injEq, Prod.mk.injEq,
          Attribute.text.injEq, Slot.many.injEq, true_and, and_true] at h
        rw [h.1, Expr.eq_of_toTrees arguments arguments' h.2]
    | _ => simp [Expr.toTree] at h
  | .compound left op right, b, h => by
    cases b with
    | compound left' op' right' =>
        simp only [Expr.toTree, Tree.node.injEq, List.cons.injEq, Prod.mk.injEq,
          Attribute.text.injEq, Slot.one.injEq, true_and, and_true] at h
        obtain ⟨hop, hleft, hright⟩ := h
        rw [Expr.eq_of_toTree left left' hleft, BinaryOp.symbol_injective hop,
          Expr.eq_of_toTree right right' hright]
    | _ => simp [Expr.toTree] at h
  | .field object member, b, h => by
    cases b with
    | field object' member' => simpa [Expr.toTree] using h
    | _ => simp [Expr.toTree] at h

theorem Expr.eq_of_toTrees :
    (as bs : List Expr) → Expr.toTrees as = Expr.toTrees bs → as = bs
  | [], [], _ => rfl
  | e :: rest, e' :: rest', h => by
    obtain ⟨he, hrest⟩ := List.cons.inj h
    rw [Expr.eq_of_toTree e e' he, Expr.eq_of_toTrees rest rest' hrest]
  | [], _ :: _, h | _ :: _, [], h => by
    simp [Expr.toTrees] at h

end

mutual

theorem Stmt.eq_of_toTree : (a b : Stmt) → a.toTree = b.toTree → a = b
  | .bare expr, b, h => by
    cases b with
    | bare expr' =>
        simp only [Stmt.toTree, Tree.node.injEq, List.cons.injEq, Slot.one.injEq, true_and,
          and_true] at h
        rw [Expr.eq_of_toTree expr expr' h]
    | _ => simp [Stmt.toTree] at h
  | .assign target value, b, h => by
    cases b with
    | assign target' value' =>
        simp only [Stmt.toTree, Tree.node.injEq, List.cons.injEq, Slot.one.injEq, true_and,
          and_true] at h
        rw [Expr.eq_of_toTree target target' h.1, Expr.eq_of_toTree value value' h.2]
    | _ => simp [Stmt.toTree] at h
  | .verify expr, b, h => by
    cases b with
    | verify expr' =>
        simp only [Stmt.toTree, Tree.node.injEq, List.cons.injEq, Slot.one.injEq, true_and,
          and_true] at h
        rw [Expr.eq_of_toTree expr expr' h]
    | _ => simp [Stmt.toTree] at h
  | .constrain expr, b, h => by
    cases b with
    | constrain expr' =>
        simp only [Stmt.toTree, Tree.node.injEq, List.cons.injEq, Slot.one.injEq, true_and,
          and_true] at h
        rw [Expr.eq_of_toTree expr expr' h]
    | _ => simp [Stmt.toTree] at h
  | .branch condition body, b, h => by
    cases b with
    | branch condition' body' =>
        simp only [Stmt.toTree, Tree.node.injEq, List.cons.injEq, Slot.one.injEq,
          Slot.many.injEq, true_and, and_true] at h
        rw [Expr.eq_of_toTree condition condition' h.1, Stmt.eq_of_toTrees body body' h.2]
    | _ => simp [Stmt.toTree] at h
  | .loop condition body, b, h => by
    cases b with
    | loop condition' body' =>
        simp only [Stmt.toTree, Tree.node.injEq, List.cons.injEq, Slot.one.injEq,
          Slot.many.injEq, true_and, and_true] at h
        rw [Expr.eq_of_toTree condition condition' h.1, Stmt.eq_of_toTrees body body' h.2]
    | _ => simp [Stmt.toTree] at h

theorem Stmt.eq_of_toTrees :
    (as bs : List Stmt) → Stmt.toTrees as = Stmt.toTrees bs → as = bs
  | [], [], _ => rfl
  | s :: rest, s' :: rest', h => by
    obtain ⟨hs, hrest⟩ := List.cons.inj h
    rw [Stmt.eq_of_toTree s s' hs, Stmt.eq_of_toTrees rest rest' hrest]
  | [], _ :: _, h | _ :: _, [], h => by
    simp [Stmt.toTrees] at h

end

theorem Program.toTree_injective : Function.Injective Program.toTree := by
  rintro ⟨declarations, statements⟩ ⟨declarations', statements'⟩ h
  simp only [toTree, Tree.node.injEq, List.cons.injEq, Slot.many.injEq, true_and, and_true] at h
  rw [Declaration.toTree_injective.list_map h.1, Stmt.eq_of_toTrees statements statements' h.2]

/-- A transformation that has no edits gives back the very program, and nothing else, if none of the
nodes that it goes through lies deeper than the limit. Otherwise it stops for the limit. -/
theorem Program.transform_unedited (p : Program) (maxDepth : Nat) :
    let limit := min maxDepth 950
    let outcome := (p.toTree.transform (fun _ => none) (some maxDepth)).1
    (∀ q : Program, outcome = .ok (.single q.toTree) ↔
        q = p ∧ ∀ node ∈ p.toTree.reached 1, node.1 ≤ limit) ∧
      ∀ e, outcome = .error e ↔
        e = .tooDeep ⟨limit⟩ ∧ ∃ node ∈ p.toTree.reached 1, limit < node.1 := by
  intro limit outcome
  have hself : p.toTree.relabelled (fun _ => none) = p.toTree :=
    Tree.relabelled_eq_self 1 _ fun _ _ => rfl
  have hinPlace : Edits.InPlace fun _ => none := nofun
  have hrecorded := Tree.transform_recorded hinPlace p.toTree (some maxDepth)
  rw [Visitor.ofRequest_natCast, hself] at hrecorded
  refine ⟨fun q => ?_, fun e => ?_⟩
  · rw [hrecorded.eq_ok_iff, Replacement.single.injEq, Program.toTree_injective.eq_iff]
    simp only [Int.ofNat_le]
    rfl
  · rw [hrecorded.eq_error_iff]
    simp only [Int.ofNat_lt]
    rfl

/-- Each operator of a chain on the left lies a level deeper than the one that it is an operand
of. -/
example :
    let a : Expr := .var .plain "a"
    let p : Program := ⟨[], [.bare (.compound (.compound a .add a) .sub (.call "f" []))]⟩
    (p.toTree.transform (fun _ => none) (some 4)).1 = .error (.tooDeep ⟨4⟩) ∧
      (p.toTree.transform (fun _ => none) (some 5)).1 = .ok (.single p.toTree) := by
  decide +kernel

end FuzzFrontend
