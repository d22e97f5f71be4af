import FuzzFrontend.Proofs.Program.ReadDeclaration

namespace FuzzFrontend

open Program.Grammar (isName)
open Unspellable (checkName place)

theorem checkName_eq_ok {name place : String} :
    checkName name place = .ok () ↔ isName name = true := by
  unfold checkName
  split <;> simp_all

section Defects

/-- The placeholder at the end of the pointers has no members. -/
def Ty.Memberless : Ty → Prop
  | .scalar _ => True
  | .pointer target => target.Memberless
  | .struct _ members _ => members = []
  | .enum _ values _ => values = []

def TypeExpr.Memberless : TypeExpr → Prop
  | .known ty => ty.Memberless
  | _ => True

/-- What no check looks at: the values of an enum fit into signed words, and placeholders have no
members. -/
def Declaration.Sound : Declaration → Prop
  | .header _ _ => True
  | .typedef source _ => source.Memberless
  | .define (.struct _ _) => True
  | .define (.enum _ values) => ∀ v ∈ values, Word.IsSigned v.value
  | .free decl => decl.ty.Memberless
  | .constrained _ ty => ty.Memberless
  | .function signature =>
      signature.result.Memberless ∧ ∀ ty ∈ signature.parameters, ty.Memberless

/-- No declaration has a defect that no check looks for. -/
def Program.Sound (p : Program) : Prop :=
  ∀ d ∈ p.declarations, d.Sound

end Defects

section Types

/-- The types that are written behind a pointer: scalars, and placeholders with a name. -/
def Ty.IsNamed : Ty → Prop
  | .scalar _ => True
  | .pointer _ => False
  | .struct name _ forward => isName name = true ∧ forward = true
  | .enum name _ forward => isName name = true ∧ forward = true

theorem Ty.isTarget_iff : ∀ {ty : Ty}, ty.IsTarget ↔ ty.Memberless ∧ ty.pointee.IsNamed
  | .scalar _ => by simp [IsTarget, Memberless, pointee, IsNamed]
  | .pointer target => by
      rw [IsTarget, Memberless, pointee]
      exact Ty.isTarget_iff
  | .struct _ _ _ => by
      simp only [IsTarget, Memberless, pointee, IsNamed]
      tauto
  | .enum _ _ _ => by
      simp only [IsTarget, Memberless, pointee, IsNamed]
      tauto

theorem Ty.pointee_ne_pointer : ∀ (ty target : Ty), ty.pointee ≠ .pointer target
  | .scalar _, _ => by simp [pointee]
  | .pointer inner, target => pointee_ne_pointer inner target
  | .struct _ _ _, _ => by simp [pointee]
  | .enum _ _ _, _ => by simp [pointee]

theorem Ty.write_pointer_iff {target : Ty} {place : String} :
    ((TypeExpr.known (.pointer target)).check place = .ok () ∧
      ∃ t, (Ty.pointer target).write = .ok t) ↔ target.pointee.IsNamed := by
  simp only [TypeExpr.check, Ty.write, Ty.pointee, Ty.indirections]
  cases hp : target.pointee with
  | scalar kind => simp [IsNamed]
  | pointer inner => exact absurd hp (pointee_ne_pointer target inner)
  | struct name members forward => cases forward <;> simp [IsNamed, checkName_eq_ok]
  | enum name values forward => cases forward <;> simp [IsNamed, checkName_eq_ok]

theorem TypeExpr.spellable_iff {ty : TypeExpr} {place : String} :
    ty.Spellable ↔ ty.check place = .ok () ∧ (∃ t, ty.write = .ok t) ∧ ty.Memberless := by
  match ty with
  | .known (.scalar kind) =>
      simp [Spellable, TypeExpr.check, TypeExpr.write, Ty.write, Ty.pointee, Memberless,
        Ty.Memberless]
  | .known (.pointer target) =>
      have hpointer := @Ty.write_pointer_iff target place
      rw [Spellable, Ty.isTarget_iff, ← hpointer]
      simp only [TypeExpr.write, Memberless, Ty.Memberless]
      tauto
  | .known (.struct name members forward) =>
      cases forward <;>
        simp [Spellable, TypeExpr.check, TypeExpr.write, Ty.write, Ty.pointee, Ty.indirections]
  | .known (.enum name values forward) =>
      cases forward <;>
        simp [Spellable, TypeExpr.check, TypeExpr.write, Ty.write, Ty.pointee, Ty.indirections]
  | .structNamed name =>
      simp [Spellable, TypeExpr.check, TypeExpr.write, Memberless, checkName_eq_ok]
  | .enumNamed name =>
      simp [Spellable, TypeExpr.check, TypeExpr.write, Memberless, checkName_eq_ok]
  | .inline definition => simp [Spellable, TypeExpr.write]

end Types

section Declarations

def Field.check (place : String) : Field → Except Unspellable Unit
  | .mk name ty => do
      checkName name place
      ty.check place

theorem Field.spellable_iff {f : Field} {struct place : String} :
    f.Spellable ↔ f.check place = .ok () ∧ ∃ line, f.write struct = .ok line := by
  match f with
  | .mk name (.known (.scalar kind)) =>
      simp [Spellable, Field.check, Field.write, TypeExpr.check, Ty.pointee, check_bind_eq_ok,
        checkName_eq_ok]
  | .mk name (.known (.pointer (.scalar kind))) =>
      simp [Spellable, Field.check, Field.write, TypeExpr.check, Ty.pointee, check_bind_eq_ok,
        checkName_eq_ok]
  | .mk name (.structNamed reference) =>
      simp [Spellable, Field.check, Field.write, TypeExpr.check, check_bind_eq_ok, checkName_eq_ok]
  | .mk name (.enumNamed reference) =>
      simp [Spellable, Field.check, Field.write, TypeExpr.check, check_bind_eq_ok, checkName_eq_ok]
  | .mk name (.known (.struct _ _ _)) => simp [Spellable, Field.write]
  | .mk name (.known (.enum _ _ _)) => simp [Spellable, Field.write]
  | .mk name (.known (.pointer (.pointer _))) => simp [Spellable, Field.write]
  | .mk name (.known (.pointer (.struct _ _ _))) => simp [Spellable, Field.write]
  | .mk name (.known (.pointer (.enum _ _ _))) => simp [Spellable, Field.write]
  | .mk name (.inline _) => simp [Spellable, Field.write]

theorem Declaration.check_struct (name : String) (fields : List Field) :
    (Declaration.define (.struct name fields)).check =
      (checkName name "struct declaration" >>= fun _ =>
        fields.forM (Field.check (place "struct" name))) :=
  rfl

theorem Definition.write_struct {name : String} {fields : List Field} :
    (∃ t, (Definition.struct name fields).write = .ok t) ↔
      ∀ f ∈ fields, ∃ line, f.write name = .ok line := by
  cases fields with
  | nil => simp [Definition.write]
  | cons f fields =>
      rw [← exists_mapM_eq_ok]
      simp only [Definition.write, bind_eq_ok, pure, Except.pure]
      constructor
      · rintro ⟨_, lines, hlines, -⟩
        exact ⟨lines, hlines⟩
      · rintro ⟨lines, hlines⟩
        exact ⟨_, lines, hlines, rfl⟩

theorem Declaration.spellable_iff_struct {name : String} {fields : List Field} :
    (Declaration.define (.struct name fields)).Spellable ↔
      (Declaration.define (.struct name fields)).check = .ok () ∧
        ∃ t, (Declaration.define (.struct name fields)).write = .ok t := by
  have hfields : (∀ f ∈ fields, f.Spellable) ↔
      (∀ f ∈ fields, f.check (place "struct" name) = .ok ()) ∧
        ∀ f ∈ fields, ∃ line, f.write name = .ok line := by
    rw [← forall₂_and]
    exact forall₂_congr fun f _ => Field.spellable_iff
  rw [Declaration.check_struct, check_bind_eq_ok, checkName_eq_ok, forM_eq_ok]
  simp only [Declaration.Spellable, Definition.Spellable, Declaration.write,
    Definition.write_struct, hfields, and_assoc]

theorem GeneratorName.eq_ofOwn {name own : String} (h : ofStandard? name = some own) :
    name = ofOwn own := by
  obtain ⟨rest, hrest, rfl⟩ := Option.map_eq_some_iff.mp h
  apply String.toList_inj.mp
  simpa [ofOwn] using Scan.after?_eq_some_iff.mp hrest

theorem GeneratorName.spellable_iff {generator : String} :
    GeneratorName.Spellable generator ↔ isName (GeneratorName.plain generator) = true := by
  constructor
  · rintro (hn | ⟨own, hown, rfl⟩)
    · rwa [plain, Program.Grammar.ofStandard?_of_isName hn]
    · rwa [plain, ofStandard?_ofOwn]
  · intro h
    unfold plain at h
    cases hs : ofStandard? generator with
    | none => exact Or.inl (by simpa [hs] using h)
    | some own => exact Or.inr ⟨own, by simpa [hs] using h, eq_ofOwn hs⟩

theorem Declaration.write_function {signature : Signature} :
    (∃ t, (Declaration.function signature).write = .ok t) ↔
      (∃ t, signature.result.write = .ok t) ∧
        ∀ ty ∈ signature.parameters, ∃ t, ty.write = .ok t := by
  rw [← exists_mapM_eq_ok]
  simp only [Declaration.write, bind_eq_ok, pure, Except.pure]
  constructor
  · rintro ⟨_, result, hresult, parameters, hparameters, -⟩
    exact ⟨⟨result, hresult⟩, parameters, hparameters⟩
  · rintro ⟨⟨result, hresult⟩, parameters, hparameters⟩
    exact ⟨_, result, hresult, parameters, hparameters, rfl⟩

theorem Declaration.spellable_iff {d : Declaration} :
    d.Spellable ↔ d.check = .ok () ∧ (∃ t, d.write = .ok t) ∧ d.Sound := by
  cases d with
  | header path style =>
      simp only [Spellable, Declaration.check, Declaration.write, Sound, and_true]
      split <;> split <;> simp_all
  | typedef source name =>
      have hwrite : (∃ t, (typedef source name).write = .ok t) ↔ ∃ t, source.write = .ok t :=
        exists_bind_eq_ok fun _ => ⟨_, rfl⟩
      have hsource := @TypeExpr.spellable_iff source (place "typedef" name)
      simp only [Spellable, Declaration.check, Sound, check_bind_eq_ok, checkName_eq_ok, hwrite,
        hsource]
      tauto
  | define definition =>
      cases definition with
      | struct name fields =>
          rw [spellable_iff_struct]
          simp only [Sound, and_true]
      | enum name values =>
          simp only [Spellable, Definition.Spellable, EnumValue.Spellable, Declaration.check,
            Declaration.write, Definition.write, Sound, check_bind_eq_ok, checkName_eq_ok,
            forM_eq_ok, Except.ok.injEq, exists_eq', true_and, forall₂_and, and_assoc]
  | free decl =>
      have hwrite : (∃ t, (free decl).write = .ok t) ↔ ∃ t, decl.ty.write = .ok t :=
        exists_bind_eq_ok fun _ => ⟨_, rfl⟩
      have hty := @TypeExpr.spellable_iff decl.ty (place "var:free" decl.name)
      simp only [Spellable, Declaration.check, Sound, check_bind_eq_ok, checkName_eq_ok, hwrite,
        GeneratorName.spellable_iff, hty]
      tauto
  | constrained name ty =>
      have hwrite : (∃ t, (constrained name ty).write = .ok t) ↔ ∃ t, ty.write = .ok t :=
        exists_bind_eq_ok fun _ => ⟨_, rfl⟩
      have hty := @TypeExpr.spellable_iff ty (place "var:constrained" name)
      simp only [Spellable, Declaration.check, Sound, check_bind_eq_ok, checkName_eq_ok, hwrite,
        hty]
      tauto
  | function signature =>
      have hresult := @TypeExpr.spellable_iff signature.result (place "function" signature.name)
      have hparameters : (∀ ty ∈ signature.parameters, ty.Spellable) ↔
          (∀ ty ∈ signature.parameters, ty.check (place "function" signature.name) = .ok ()) ∧
            (∀ ty ∈ signature.parameters, ∃ t, ty.write = .ok t) ∧
              ∀ ty ∈ signature.parameters, ty.Memberless := by
        simp only [← forall₂_and]
        exact forall₂_congr fun ty _ => TypeExpr.spellable_iff
      simp only [Spellable, Declaration.check, Sound, check_bind_eq_ok, checkName_eq_ok, forM_eq_ok,
        write_function, hresult, hparameters]
      tauto

theorem Declaration.writeAll_iff {reached : Phase} {ds : List Declaration} :
    (∃ t, Declaration.writeAll reached ds = .ok t) ↔
      (∀ d ∈ ds, ∃ t, d.write = .ok t) ∧ (∀ d ∈ ds, reached.rank ≤ d.phase.rank) ∧
        ds.Pairwise fun d d' => d.phase.rank ≤ d'.phase.rank := by
  induction ds generalizing reached with
  | nil => simp [Declaration.writeAll]
  | cons d ds ih =>
      have hstep : (∃ t, Declaration.writeAll reached (d :: ds) = .ok t) ↔
          reached.rank ≤ d.phase.rank ∧ (∃ t, d.write = .ok t) ∧
            ∃ t, Declaration.writeAll d.phase ds = .ok t := by
        by_cases hlate : d.phase.rank < reached.rank
        · simp [Declaration.writeAll, hlate, Nat.not_le.mpr hlate, bind, Except.bind, throw,
            throwThe, MonadExceptOf.throw]
        · simp only [Declaration.writeAll, if_neg hlate, Nat.not_lt.mp hlate, true_and, bind_eq_ok,
            pure, Except.pure, Except.ok.injEq]
          constructor
          · rintro ⟨_, text, hd, others, hds, -⟩
            exact ⟨⟨text, hd⟩, others, hds⟩
          · rintro ⟨⟨text, hd⟩, others, hds⟩
            exact ⟨_, text, hd, others, hds, rfl⟩
      have htrans : ∀ e ∈ ds, reached.rank ≤ d.phase.rank → d.phase.rank ≤ e.phase.rank →
          reached.rank ≤ e.phase.rank := fun _ _ => Nat.le_trans
      rw [hstep, ih, List.forall_mem_cons, List.forall_mem_cons, List.pairwise_cons]
      constructor
      · rintro ⟨hd, hwrite, hwrites, hafter, hsorted⟩
        exact ⟨⟨hwrite, hwrites⟩, ⟨hd, fun e he => htrans e he hd (hafter e he)⟩, hafter, hsorted⟩
      · rintro ⟨⟨hwrite, hwrites⟩, ⟨hd, -⟩, hafter, hsorted⟩
        exact ⟨hd, hwrite, hwrites, hafter, hsorted⟩

end Declarations

section Expressions

theorem Expr.leftFault?_eq_none {op : BinaryOp} {left : Expr} :
    leftFault? op left = none ↔ ∀ inner ∈ left.rootOp?, op.level ≤ inner.level := by
  unfold leftFault?
  cases left.rootOp? with
  | none => simp
  | some inner =>
      by_cases h : inner.level < op.level
      · simp [h, Nat.not_le.mpr h]
      · simp [h, Nat.not_lt.mp h]

theorem Expr.rightFault?_eq_none {op : BinaryOp} {right : Expr} :
    rightFault? op right = none ↔ ∀ inner ∈ right.rootOp?, op.level < inner.level := by
  unfold rightFault?
  cases right.rootOp? with
  | none => simp
  | some inner =>
      by_cases h : inner.level ≤ op.level
      · simp [h, Nat.not_lt.mpr h]
      · simp [h, Nat.not_le.mp h]

theorem Expr.bracketFault?_compound {left right : Expr} {op : BinaryOp} :
    (Expr.compound left op right).bracketFault? = none ↔
      (∀ inner ∈ left.rootOp?, op.level ≤ inner.level) ∧
        (∀ inner ∈ right.rootOp?, op.level < inner.level) ∧ left.bracketFault? = none := by
  simp only [bracketFault?, Option.or_eq_none_iff, leftFault?_eq_none, rightFault?_eq_none,
    and_assoc]

theorem Expr.bracketFault?_of_spellable {e : Expr} (h : e.Spellable) : e.bracketFault? = none := by
  induction h with
  | compound _ _ hleft hright ihl _ => exact bracketFault?_compound.mpr ⟨hleft, hright, ihl⟩
  | _ => rfl

theorem Expr.checkAll_eq_ok {es : List Expr} :
    Expr.checkAll es = .ok () ↔ ∀ e ∈ es, e.check = .ok () := by
  induction es with
  | nil => simp [Expr.checkAll]
  | cons e es ih =>
      rw [Expr.checkAll, check_bind_eq_ok, List.forall_mem_cons, ih]
      exact and_comm

theorem Expr.check_of_spellable {e : Expr} (h : e.Spellable) : e.check = .ok () := by
  induction e with
  | integer text =>
      cases h with
      | integer h => exact if_pos h
  | decimal text =>
      cases h with
      | decimal h => exact if_pos h
  | var op name =>
      cases h with
      | var h => exact checkName_eq_ok.mpr h
  | call name arguments ih =>
      cases h with
      | call hname harguments =>
          rw [Expr.check, check_bind_eq_ok, checkName_eq_ok, checkAll_eq_ok]
          exact ⟨hname, fun a ha => ih a ha (harguments a ha)⟩
  | compound left op right ihl ihr =>
      cases h with
      | compound hl hr _ _ =>
          rw [Expr.check, check_bind_eq_ok]
          exact ⟨ihr hr, ihl hl⟩
  | field object member =>
      cases h with
      | field hobject hmember =>
          rw [Expr.check, check_bind_eq_ok, checkName_eq_ok, checkName_eq_ok]
          exact ⟨hobject, hmember⟩

theorem Expr.unrefused_writeAll {g : DepthGuard} {es : List Expr}
    (h : ∀ e ∈ es, Unrefused (e.write g false)) : Unrefused (Expr.writeAll g es) := by
  induction es with
  | nil => exact unrefused_ok ""
  | cons e es ih =>
      rw [Expr.writeAll]
      refine (h e List.mem_cons_self).bind fun text _ => ?_
      refine (ih fun a ha => h a (List.mem_cons_of_mem _ ha)).bind fun others _ => ?_
      exact unrefused_ok _

theorem Expr.unrefused_write {e : Expr} (h : e.Spellable) (g : DepthGuard) (inChain : Bool) :
    Unrefused (e.write g inChain) := by
  induction e generalizing g inChain with
  | call name arguments ih =>
      cases h with
      | call _ harguments =>
          rw [Expr.write]
          refine (unrefused_enterToWrite g).bind fun inner _ => ?_
          refine (unrefused_writeAll fun a ha => ih a ha (harguments a ha) inner false).bind
            fun text _ => ?_
          exact unrefused_ok _
  | compound left op right ihl ihr =>
      rw [write_compound, bracketFault?_of_spellable h]
      refine (unrefused_enterChain g inChain).bind fun inner _ => ?_
      cases h with
      | compound hl hr _ _ =>
          refine (ihl hl inner true).bind fun tl _ => ?_
          refine (ihr hr inner false).bind fun tr _ => ?_
          exact unrefused_ok _
  | integer text => exact unrefused_ok _
  | decimal text => exact unrefused_ok _
  | var op name => exact unrefused_ok _
  | field object member => exact unrefused_ok _

theorem Expr.exists_write_of_writeAll {g : DepthGuard} {es : List Expr} {t : String}
    (h : Expr.writeAll g es = .ok t) : ∀ e ∈ es, ∃ text, e.write g false = .ok text := by
  induction es generalizing t with
  | nil => simp
  | cons e es ih =>
      simp only [Expr.writeAll, bind_eq_ok] at h
      obtain ⟨text, he, others, hothers, -⟩ := h
      exact List.forall_mem_cons.mpr ⟨⟨text, he⟩, ih hothers⟩

/-- An expression that is let through and written has a spelling. The left operand of a chain is
looked at together with the root of the chain. -/
theorem Expr.spellable_of_write {e : Expr} {g : DepthGuard} {inChain : Bool} {t : String}
    (hcheck : e.check = .ok ()) (hchain : inChain = true → e.bracketFault? = none)
    (hwrite : e.write g inChain = .ok t) : e.Spellable := by
  induction e generalizing g inChain t with
  | integer text =>
      by_cases h : Scan.isInteger text.toList = true
      · exact .integer h
      · simp [Expr.check, h] at hcheck
  | decimal text =>
      by_cases h : Scan.isDecimal text.toList = true
      · exact .decimal h
      · simp [Expr.check, h] at hcheck
  | var op name => exact .var (checkName_eq_ok.mp hcheck)
  | call name arguments ih =>
      rw [Expr.check, check_bind_eq_ok, checkName_eq_ok, checkAll_eq_ok] at hcheck
      simp only [Expr.write, bind_eq_ok] at hwrite
      obtain ⟨inner, -, text, harguments, -⟩ := hwrite
      refine .call hcheck.1 fun a ha => ?_
      obtain ⟨u, hu⟩ := exists_write_of_writeAll harguments a ha
      exact ih a ha (hcheck.2 a ha) (by simp) hu
  | compound left op right ihl ihr =>
      rw [Expr.check, check_bind_eq_ok] at hcheck
      simp only [write_compound, bind_eq_ok] at hwrite
      obtain ⟨inner, hguard, tl, htl, tr, htr, -⟩ := hwrite
      have hfault := DepthGuard.fault_of_enterChain hchain hguard
      obtain ⟨hleft, hright, hrest⟩ := bracketFault?_compound.mp hfault
      exact .compound (ihl hcheck.2 (fun _ => hrest) htl) (ihr hcheck.1 (by simp) htr) hleft hright
  | field object member =>
      rw [Expr.check, check_bind_eq_ok, checkName_eq_ok, checkName_eq_ok] at hcheck
      exact .field hcheck.1 hcheck.2

end Expressions

section Statements

theorem Stmt.checkAll_eq_ok {body : List Stmt} :
    Stmt.checkAll body = .ok () ↔ ∀ s ∈ body, s.check = .ok () := by
  induction body with
  | nil => simp [Stmt.checkAll]
  | cons s body ih =>
      rw [Stmt.checkAll, check_bind_eq_ok, List.forall_mem_cons, ih]
      exact and_comm

theorem Stmt.check_of_spellable {s : Stmt} (h : s.Spellable) : s.check = .ok () := by
  induction s with
  | bare expr =>
      cases h with
      | bare h => exact Expr.check_of_spellable h
  | assign target value =>
      cases h with
      | assign ht hv =>
          rw [Stmt.check, check_bind_eq_ok]
          exact ⟨Expr.check_of_spellable hv, Expr.check_of_spellable ht⟩
  | verify expr =>
      cases h with
      | verify h => exact Expr.check_of_spellable h
  | constrain expr =>
      cases h with
      | constrain h => exact Expr.check_of_spellable h
  | branch condition body ih =>
      cases h with
      | branch hc hbody =>
          rw [Stmt.check, check_bind_eq_ok, checkAll_eq_ok]
          exact ⟨fun s hs => ih s hs (hbody s hs), Expr.check_of_spellable hc⟩
  | loop condition body ih =>
      cases h with
      | loop hc hbody =>
          rw [Stmt.check, check_bind_eq_ok, checkAll_eq_ok]
          exact ⟨fun s hs => ih s hs (hbody s hs), Expr.check_of_spellable hc⟩

theorem Stmt.unrefused_writeAll {g : DepthGuard} {indent : String} {body : List Stmt}
    (h : ∀ s ∈ body, Unrefused (s.write g indent)) : Unrefused (Stmt.writeAll g indent body) := by
  induction body with
  | nil => exact unrefused_ok ""
  | cons s body ih =>
      rw [Stmt.writeAll]
      refine (h s List.mem_cons_self).bind fun text _ => ?_
      refine (ih fun a ha => h a (List.mem_cons_of_mem _ ha)).bind fun others _ => ?_
      exact unrefused_ok _

theorem Stmt.unrefused_writeBody {g : DepthGuard} {indent : String} {body : List Stmt}
    (h : ∀ s ∈ body, ∀ g indent, Unrefused (s.write g indent)) :
    Unrefused (Stmt.writeBody g indent body) := by
  cases body with
  | nil => exact unrefused_ok _
  | cons s body =>
      rw [Stmt.writeBody]
      refine (unrefused_enterToWrite g).bind fun inner _ => ?_
      refine (h s List.mem_cons_self inner _).bind fun first _ => ?_
      refine (unrefused_writeAll fun a ha => h a (List.mem_cons_of_mem _ ha) inner _).bind
        fun others _ => ?_
      exact unrefused_ok _

theorem Stmt.unrefused_write {s : Stmt} (h : s.Spellable) (g : DepthGuard) (indent : String) :
    Unrefused (s.write g indent) := by
  induction s generalizing g indent with
  | bare expr =>
      cases h with
      | bare h => exact (Expr.unrefused_write h g false).bind fun _ _ => unrefused_ok _
  | assign target value =>
      cases h with
      | assign ht hv =>
          refine (Expr.unrefused_write ht g false).bind fun left _ => ?_
          exact (Expr.unrefused_write hv g false).bind fun right _ => unrefused_ok _
  | verify expr =>
      cases h with
      | verify h => exact (Expr.unrefused_write h g false).bind fun _ _ => unrefused_ok _
  | constrain expr =>
      cases h with
      | constrain h => exact (Expr.unrefused_write h g false).bind fun _ _ => unrefused_ok _
  | branch condition body ih =>
      cases h with
      | branch hc hbody =>
          refine (Expr.unrefused_write hc g false).bind fun test _ => ?_
          refine (unrefused_writeBody fun s hs => ih s hs (hbody s hs)).bind fun text _ => ?_
          exact unrefused_ok _
  | loop condition body ih =>
      cases h with
      | loop hc hbody =>
          refine (Expr.unrefused_write hc g false).bind fun test _ => ?_
          refine (unrefused_writeBody fun s hs => ih s hs (hbody s hs)).bind fun text _ => ?_
          exact unrefused_ok _

theorem Stmt.exists_write_of_writeAll {g : DepthGuard} {indent : String} {body : List Stmt}
    {t : String} (h : Stmt.writeAll g indent body = .ok t) :
    ∀ s ∈ body, ∃ text, s.write g indent = .ok text := by
  induction body generalizing t with
  | nil => simp
  | cons s body ih =>
      simp only [Stmt.writeAll, bind_eq_ok] at h
      obtain ⟨text, hs, others, hothers, -⟩ := h
      exact List.forall_mem_cons.mpr ⟨⟨text, hs⟩, ih hothers⟩

theorem Stmt.exists_write_of_writeBody {g : DepthGuard} {indent : String} {body : List Stmt}
    {t : String} (h : Stmt.writeBody g indent body = .ok t) :
    ∀ s ∈ body, ∃ g indent text, s.write g indent = .ok text := by
  cases body with
  | nil => simp
  | cons s body =>
      simp only [Stmt.writeBody, bind_eq_ok] at h
      obtain ⟨inner, -, first, hfirst, others, hothers, -⟩ := h
      refine List.forall_mem_cons.mpr ⟨⟨_, _, first, hfirst⟩, fun a ha => ?_⟩
      exact ⟨_, _, exists_write_of_writeAll hothers a ha⟩

theorem Stmt.spellable_of_write {s : Stmt} {g : DepthGuard} {indent t : String}
    (hcheck : s.check = .ok ()) (hwrite : s.write g indent = .ok t) : s.Spellable := by
  have hexpr : ∀ {e : Expr} {g : DepthGuard} {t : String}, e.check = .ok () →
      e.write g false = .ok t → e.Spellable :=
    fun hcheck hwrite => Expr.spellable_of_write hcheck (by simp) hwrite
  induction s generalizing g indent t with
  | bare expr =>
      simp only [Stmt.write, bind_eq_ok] at hwrite
      obtain ⟨text, he, -⟩ := hwrite
      exact .bare (hexpr hcheck he)
  | assign target value =>
      rw [Stmt.check, check_bind_eq_ok] at hcheck
      simp only [Stmt.write, bind_eq_ok] at hwrite
      obtain ⟨left, hleft, right, hright, -⟩ := hwrite
      exact .assign (hexpr hcheck.2 hleft) (hexpr hcheck.1 hright)
  | verify expr =>
      simp only [Stmt.write, bind_eq_ok] at hwrite
      obtain ⟨text, he, -⟩ := hwrite
      exact .verify (hexpr hcheck he)
  | constrain expr =>
      simp only [Stmt.write, bind_eq_ok] at hwrite
      obtain ⟨text, he, -⟩ := hwrite
      exact .constrain (hexpr hcheck he)
  | branch condition body ih =>
      rw [Stmt.check, check_bind_eq_ok, checkAll_eq_ok] at hcheck
      simp only [Stmt.write, bind_eq_ok] at hwrite
      obtain ⟨test, htest, text, hbody, -⟩ := hwrite
      refine .branch (hexpr hcheck.2 htest) fun s hs => ?_
      obtain ⟨g, indent, u, hu⟩ := exists_write_of_writeBody hbody s hs
      exact ih s hs (hcheck.1 s hs) hu
  | loop condition body ih =>
      rw [Stmt.check, check_bind_eq_ok, checkAll_eq_ok] at hcheck
      simp only [Stmt.write, bind_eq_ok] at hwrite
      obtain ⟨test, htest, text, hbody, -⟩ := hwrite
      refine .loop (hexpr hcheck.2 htest) fun s hs => ?_
      obtain ⟨g, indent, u, hu⟩ := exists_write_of_writeBody hbody s hs
      exact ih s hs (hcheck.1 s hs) hu

end Statements

namespace Program

theorem check_eq_ok {p : Program} :
    p.check = .ok () ↔
      (∀ d ∈ p.declarations, d.check = .ok ()) ∧ ∀ s ∈ p.statements, s.check = .ok () := by
  rw [check, check_bind_eq_ok, forM_eq_ok, Stmt.checkAll_eq_ok]

theorem check_of_spellable {p : Program} (h : p.Spellable) : p.check = .ok () :=
  check_eq_ok.mpr ⟨fun d hd => (Declaration.spellable_iff.mp (h.declarations d hd)).1,
    fun s hs => Stmt.check_of_spellable (h.statements s hs)⟩

theorem unrefused_write {p : Program} (h : p.Spellable) (validate : Bool)
    (maxDepth : Option Int) : Unrefused (p.write validate maxDepth) := by
  have hwrites : ∀ d ∈ p.declarations, ∃ t, d.write = .ok t :=
    fun d hd => (Declaration.spellable_iff.mp (h.declarations d hd)).2.1
  have hall : ∃ ds, Declaration.writeAll .headers p.declarations = .ok ds :=
    Declaration.writeAll_iff.mpr ⟨hwrites, fun _ _ => Nat.zero_le _, h.ordered⟩
  obtain ⟨ds, hds⟩ := hall
  rw [write_of_check fun _ => check_of_spellable h, hds]
  refine (unrefused_ok ds).bind fun ds _ => ?_
  refine (Stmt.unrefused_writeAll fun s hs => Stmt.unrefused_write (h.statements s hs) _ _).bind
    fun ss _ => ?_
  exact unrefused_ok _

/-- A program that is let through and written has a spelling unless a declaration has a defect that
no check looks for. -/
theorem spellable_of_write {p : Program} {maxDepth : Option Int} {t : String}
    (h : p.write true maxDepth = .ok t) (hsound : p.Sound) : p.Spellable := by
  obtain ⟨hdeclarations, hstatements⟩ := check_eq_ok.mp (check_of_write h rfl)
  simp only [write_of_check (check_of_write h), bind_eq_ok] at h
  obtain ⟨ds, hds, ss, hss, -⟩ := h
  obtain ⟨hwrites, -, hordered⟩ := Declaration.writeAll_iff.mp ⟨ds, hds⟩
  refine ⟨hordered, fun d hd => ?_, fun s hs => ?_⟩
  · exact Declaration.spellable_iff.mpr ⟨hdeclarations d hd, hwrites d hd, hsound d hd⟩
  · obtain ⟨u, hu⟩ := Stmt.exists_write_of_writeAll hss s hs
    exact Stmt.spellable_of_write (hstatements s hs) hu

theorem sound_of_spellable {p : Program} (h : p.Spellable) : p.Sound :=
  fun d hd => (Declaration.spellable_iff.mp (h.declarations d hd)).2.2

end Program

end FuzzFrontend
