import FuzzFrontend.Proofs.Program.Renaming
import FuzzFrontend.Proofs.Tree.Splicing

namespace FuzzFrontend

def Definition.kind : Definition → Kind
  | .struct _ _ => .structDefinition
  | .enum _ _ => .enumDefinition

def TypeExpr.kind : TypeExpr → Kind
  | .known _ => .known
  | .inline definition => definition.kind
  | .structNamed _ => .structNamed
  | .enumNamed _ => .enumNamed

def Expr.kind : Expr → Kind
  | .integer _ => .integer
  | .decimal _ => .decimal
  | .var _ _ => .var
  | .call _ _ => .call
  | .compound _ _ _ => .compound
  | .field _ _ => .access

def Stmt.kind : Stmt → Kind
  | .bare _ => .bare
  | .assign _ _ => .assign
  | .verify _ => .verify
  | .constrain _ => .constrain
  | .branch _ _ => .branch
  | .loop _ _ => .loop

theorem Definition.kind_toTree (d : Definition) : d.toTree.kind = d.kind := by
  cases d <;> rfl

theorem TypeExpr.kind_toTree (ty : TypeExpr) : ty.toTree.kind = ty.kind := by
  cases ty with
  | inline definition => exact definition.kind_toTree
  | _ => rfl

theorem Expr.kind_toTree (e : Expr) : e.toTree.kind = e.kind := by
  cases e <;> rfl

theorem Stmt.kind_toTree (s : Stmt) : s.toTree.kind = s.kind := by
  cases s <;> rfl

theorem Field.toTrees_eq_map (fields : List Field) : Field.toTrees fields = fields.map toTree := by
  induction fields with
  | nil => rfl
  | cons f rest ih =>
      cases f
      rw [Field.toTrees, ih]
      rfl

theorem Expr.toTrees_eq_map (es : List Expr) : Expr.toTrees es = es.map toTree := by
  induction es with
  | nil => rfl
  | cons e rest ih => rw [Expr.toTrees, ih, List.map_cons]

theorem Stmt.toTrees_eq_map (body : List Stmt) : Stmt.toTrees body = body.map toTree := by
  induction body with
  | nil => rfl
  | cons s rest ih => rw [Stmt.toTrees, ih, List.map_cons]

section Rules

variable (rules : Splices)

mutual

def TypeExpr.rebuilt : TypeExpr → TypeExpr
  | .inline definition => .inline definition.rebuilt
  | .known ty => .known ty
  | .structNamed name => .structNamed name
  | .enumNamed name => .enumNamed name

/-- The entries of an enum are no nodes of their own for an edit. -/
def Definition.rebuilt : Definition → Definition
  | .struct name fields => .struct name (Field.splicedAll fields)
  | .enum name values => .enum name values

def Field.splicedAll : List Field → List Field
  | [] => []
  | .mk name ty :: rest =>
    rules.among .field (.mk name ty) (.mk name (rules.alone ty.kind ty ty.rebuilt)) ++
      Field.splicedAll rest

end

def FreeVariable.rebuilt (v : FreeVariable) : FreeVariable :=
  { v with ty := rules.alone v.ty.kind v.ty (v.ty.rebuilt rules) }

def Signature.rebuilt (s : Signature) : Signature where
  name := s.name
  result := rules.alone s.result.kind s.result (s.result.rebuilt rules)
  parameters := s.parameters.flatMap fun ty => rules.among ty.kind ty (ty.rebuilt rules)

def Declaration.rebuilt : Declaration → Declaration
  | .header path style => .header path style
  | .typedef source name => .typedef (rules.alone source.kind source (source.rebuilt rules)) name
  | .define definition =>
    .define (rules.alone definition.kind definition (definition.rebuilt rules))
  | .free decl => .free (rules.alone .freeVariable decl (decl.rebuilt rules))
  | .constrained name ty => .constrained name (rules.alone ty.kind ty (ty.rebuilt rules))
  | .function signature =>
    .function (rules.alone .signature signature (signature.rebuilt rules))

mutual

def Expr.rebuilt : Expr → Expr
  | .integer text => .integer text
  | .decimal text => .decimal text
  | .var op name => .var op name
  | .call name arguments => .call name (Expr.splicedAll arguments)
  | .compound left op right =>
    .compound (rules.alone left.kind left left.rebuilt) op
      (rules.alone right.kind right right.rebuilt)
  | .field object member => .field object member

def Expr.splicedAll : List Expr → List Expr
  | [] => []
  | e :: rest => rules.among e.kind e e.rebuilt ++ Expr.splicedAll rest

end

mutual

def Stmt.rebuilt : Stmt → Stmt
  | .bare expr => .bare (rules.alone expr.kind expr (expr.rebuilt rules))
  | .assign target value =>
    .assign (rules.alone target.kind target (target.rebuilt rules))
      (rules.alone value.kind value (value.rebuilt rules))
  | .verify expr => .verify (rules.alone expr.kind expr (expr.rebuilt rules))
  | .constrain expr => .constrain (rules.alone expr.kind expr (expr.rebuilt rules))
  | .branch condition body =>
    .branch (rules.alone condition.kind condition (condition.rebuilt rules)) (Stmt.splicedAll body)
  | .loop condition body =>
    .loop (rules.alone condition.kind condition (condition.rebuilt rules)) (Stmt.splicedAll body)

def Stmt.splicedAll : List Stmt → List Stmt
  | [] => []
  | s :: rest => rules.among s.kind s s.rebuilt ++ Stmt.splicedAll rest

end

def Program.rebuilt (p : Program) : Program where
  declarations := p.declarations.flatMap fun d => rules.among d.kind d (d.rebuilt rules)
  statements := Stmt.splicedAll rules p.statements

/-- The program with what becomes of its parts. -/
def Program.spliced (p : Program) : Program :=
  rules.alone .program p (p.rebuilt rules)

variable {rules}

theorem Tree.splicedAll_map {α : Type} (rules : Splices) {toTree : α → Tree} {kind : α → Kind}
    {rebuilt : α → α}
    (hkind : ∀ x, (toTree x).kind = kind x)
    (h : ∀ x, (toTree x).rebuilt rules = toTree (rebuilt x)) (xs : List α) :
    Tree.splicedAll rules (xs.map toTree) =
      (xs.flatMap fun x => rules.among (kind x) x (rebuilt x)).map toTree := by
  induction xs with
  | nil => rfl
  | cons x rest ih =>
      rw [List.map_cons, Tree.splicedAll, List.flatMap_cons, List.map_append, Splices.map_among,
        hkind, h, ih]

theorem Splices.alone_toTree {α : Type} (rules : Splices) {toTree : α → Tree} {x y : α}
    {kind : Kind} (hkind : (toTree x).kind = kind) (h : (toTree x).rebuilt rules = toTree y) :
    rules.alone (toTree x).kind (toTree x) ((toTree x).rebuilt rules) =
      toTree (rules.alone kind x y) := by
  rw [hkind, h, Splices.apply_alone toTree]

mutual

theorem TypeExpr.rebuilt_toTree :
    (ty : TypeExpr) → ty.toTree.rebuilt rules = (ty.rebuilt rules).toTree
  | .known _ => rfl
  | .inline definition => by
    rw [TypeExpr.toTree, TypeExpr.rebuilt, TypeExpr.toTree, definition.rebuilt_toTree]
  | .structNamed _ => rfl
  | .enumNamed _ => rfl

theorem Definition.rebuilt_toTree :
    (d : Definition) → d.toTree.rebuilt rules = (d.rebuilt rules).toTree
  | .struct name fields => by
    simp [Definition.toTree, Definition.rebuilt, Tree.rebuilt, Slot.rebuiltAll, Kind.isLeaf,
      Field.splicedAll_toTrees fields]
  | .enum _ _ => rfl

theorem Field.splicedAll_toTrees :
    (fields : List Field) → Tree.splicedAll rules (Field.toTrees fields) =
      Field.toTrees (Field.splicedAll rules fields)
  | [] => rfl
  | .mk name ty :: rest => by
    have hty := rules.alone_toTree ty.kind_toTree ty.rebuilt_toTree
    have hfield : (Field.mk name ty).toTree.rebuilt rules =
        (Field.mk name (rules.alone ty.kind ty (ty.rebuilt rules))).toTree := by
      simp [Field.toTree, Tree.rebuilt, Slot.rebuiltAll, Kind.isLeaf, hty]
    rw [Field.splicedAll, Field.toTrees_eq_map (_ ++ _), List.map_append, Splices.map_among,
      ← Field.toTrees_eq_map, ← Field.splicedAll_toTrees rest, ← hfield]
    rfl

end

theorem FreeVariable.rebuilt_toTree (v : FreeVariable) :
    v.toTree.rebuilt rules = (v.rebuilt rules).toTree := by
  have hty := rules.alone_toTree v.ty.kind_toTree v.ty.rebuilt_toTree
  simp [toTree, rebuilt, Tree.rebuilt, Slot.rebuiltAll, Kind.isLeaf, hty]

theorem Signature.rebuilt_toTree (s : Signature) :
    s.toTree.rebuilt rules = (s.rebuilt rules).toTree := by
  have hresult := rules.alone_toTree s.result.kind_toTree s.result.rebuilt_toTree
  have hparameters := Tree.splicedAll_map rules TypeExpr.kind_toTree
    TypeExpr.rebuilt_toTree s.parameters
  simp [toTree, rebuilt, Tree.rebuilt, Slot.rebuiltAll, Kind.isLeaf, hresult, hparameters]

theorem Declaration.rebuilt_toTree (d : Declaration) :
    d.toTree.rebuilt rules = (d.rebuilt rules).toTree := by
  cases d with
  | header path style => rfl
  | typedef source name =>
      have hsource := rules.alone_toTree source.kind_toTree source.rebuilt_toTree
      simp [toTree, rebuilt, Tree.rebuilt, Slot.rebuiltAll, Kind.isLeaf, hsource]
  | define definition =>
      have hdefinition := rules.alone_toTree definition.kind_toTree definition.rebuilt_toTree
      simp [toTree, rebuilt, Tree.rebuilt, Slot.rebuiltAll, Kind.isLeaf, hdefinition]
  | free decl =>
      have hkind : decl.toTree.kind = .freeVariable := rfl
      have hdecl := rules.alone_toTree hkind decl.rebuilt_toTree
      simp [toTree, rebuilt, Tree.rebuilt, Slot.rebuiltAll, Kind.isLeaf, hdecl]
  | constrained name ty =>
      have hty := rules.alone_toTree ty.kind_toTree ty.rebuilt_toTree
      simp [toTree, rebuilt, Tree.rebuilt, Slot.rebuiltAll, Kind.isLeaf, hty]
  | function signature =>
      have hkind : signature.toTree.kind = .signature := rfl
      have hsignature := rules.alone_toTree hkind signature.rebuilt_toTree
      simp [toTree, rebuilt, Tree.rebuilt, Slot.rebuiltAll, Kind.isLeaf, hsignature]

mutual

theorem Expr.rebuilt_toTree : (e : Expr) → e.toTree.rebuilt rules = (e.rebuilt rules).toTree
  | .integer _ | .decimal _ | .var _ _ | .field _ _ => rfl
  | .call name arguments => by
    simp [Expr.toTree, Expr.rebuilt, Tree.rebuilt, Slot.rebuiltAll, Kind.isLeaf,
      Expr.splicedAll_toTrees arguments]
  | .compound left op right => by
    have hleft := rules.alone_toTree left.kind_toTree left.rebuilt_toTree
    have hright := rules.alone_toTree right.kind_toTree right.rebuilt_toTree
    simp [Expr.toTree, Expr.rebuilt, Tree.rebuilt, Slot.rebuiltAll, Kind.isLeaf, hleft, hright]

theorem Expr.splicedAll_toTrees :
    (es : List Expr) → Tree.splicedAll rules (Expr.toTrees es) =
      Expr.toTrees (Expr.splicedAll rules es)
  | [] => rfl
  | e :: rest => by
    rw [Expr.toTrees, Tree.splicedAll, Expr.splicedAll, Expr.toTrees_eq_map (_ ++ _),
      List.map_append, Splices.map_among, e.kind_toTree, e.rebuilt_toTree, ← Expr.toTrees_eq_map,
      Expr.splicedAll_toTrees rest]

end

mutual

theorem Stmt.rebuilt_toTree : (s : Stmt) → s.toTree.rebuilt rules = (s.rebuilt rules).toTree
  | .bare expr | .verify expr | .constrain expr => by
    have hexpr := rules.alone_toTree expr.kind_toTree expr.rebuilt_toTree
    simp [Stmt.toTree, Stmt.rebuilt, Tree.rebuilt, Slot.rebuiltAll, Kind.isLeaf, hexpr]
  | .assign target value => by
    have htarget := rules.alone_toTree target.kind_toTree target.rebuilt_toTree
    have hvalue := rules.alone_toTree value.kind_toTree value.rebuilt_toTree
    simp [Stmt.toTree, Stmt.rebuilt, Tree.rebuilt, Slot.rebuiltAll, Kind.isLeaf, htarget, hvalue]
  | .branch condition body | .loop condition body => by
    have hcondition := rules.alone_toTree condition.kind_toTree condition.rebuilt_toTree
    simp [Stmt.toTree, Stmt.rebuilt, Tree.rebuilt, Slot.rebuiltAll, Kind.isLeaf, hcondition,
      Stmt.splicedAll_toTrees body]

theorem Stmt.splicedAll_toTrees :
    (body : List Stmt) → Tree.splicedAll rules (Stmt.toTrees body) =
      Stmt.toTrees (Stmt.splicedAll rules body)
  | [] => rfl
  | s :: rest => by
    rw [Stmt.toTrees, Tree.splicedAll, Stmt.splicedAll, Stmt.toTrees_eq_map (_ ++ _),
      List.map_append, Splices.map_among, s.kind_toTree, s.rebuilt_toTree, ← Stmt.toTrees_eq_map,
      Stmt.splicedAll_toTrees rest]

end

theorem Program.rebuilt_toTree (p : Program) :
    p.toTree.rebuilt rules = (p.rebuilt rules).toTree := by
  have hdeclarations := Tree.splicedAll_map rules Declaration.kind_toTree
    Declaration.rebuilt_toTree p.declarations
  simp [toTree, rebuilt, Tree.rebuilt, Slot.rebuiltAll, Kind.isLeaf, hdeclarations,
    Stmt.splicedAll_toTrees]

end Rules

/-- The kinds of statements. -/
def Kind.ofStatements : List Kind :=
  [bare, assign, verify, constrain, branch, loop]

/-- Drops the nodes of the given kinds. -/
def Splices.removing (kinds : List Kind) : Splices := fun kind =>
  if kind ∈ kinds then some .remove else none

section Statements

variable (kinds : List Kind)

mutual

/-- The statement without those of the given kinds in its body. -/
def Stmt.without : Stmt → Stmt
  | .bare expr => .bare expr
  | .assign target value => .assign target value
  | .verify expr => .verify expr
  | .constrain expr => .constrain expr
  | .branch condition body => .branch condition (Stmt.withoutAll body)
  | .loop condition body => .loop condition (Stmt.withoutAll body)

def Stmt.withoutAll : List Stmt → List Stmt
  | [] => []
  | s :: rest => if s.kind ∈ kinds then Stmt.withoutAll rest else s.without :: Stmt.withoutAll rest

end

/-- The program without the statements of the given kinds, wherever they stand. -/
def Program.without (p : Program) : Program :=
  { p with statements := Stmt.withoutAll kinds p.statements }

variable {kinds}

/-- No node of the tree is a statement. -/
abbrev Tree.HasNoStatement (t : Tree) : Prop :=
  t.EveryKind (· ∉ Kind.ofStatements)

section NoStatement

theorem Tree.Hidden.hasNoStatement {t : Tree} (h : t.Hidden) : t.HasNoStatement := by
  refine Tree.EveryKind.imp (P := fun kind => kind.isHidden = true) h fun kind hkind => ?_
  cases kind <;> first | decide | cases hkind

mutual

theorem TypeExpr.hasNoStatement : (ty : TypeExpr) → ty.toTree.HasNoStatement
  | .known ty => Tree.everyKind_of_children (by decide)
      (List.forall_mem_singleton.mpr ty.hidden_toTree.hasNoStatement)
  | .inline definition => definition.hasNoStatement
  | .structNamed _ | .enumNamed _ => Tree.everyKind_of_children (by decide) nofun

theorem Definition.hasNoStatement : (d : Definition) → d.toTree.HasNoStatement
  | .struct _ fields => by
    refine Tree.everyKind_of_children (by decide) ?_
    simpa [Tree.children, Tree.slots, Slot.children] using Field.hasNoStatement fields
  | .enum _ values => by
    refine Tree.everyKind_of_children (by decide) ?_
    simp [Tree.children, Tree.slots, Slot.children, EnumValue.hidden_toTree,
      Tree.Hidden.hasNoStatement]

theorem Field.hasNoStatement :
    (fields : List Field) → ∀ t ∈ Field.toTrees fields, t.HasNoStatement
  | [] => nofun
  | .mk _ ty :: rest =>
    List.forall_mem_cons.mpr
      ⟨Tree.everyKind_of_children (by decide) (List.forall_mem_singleton.mpr ty.hasNoStatement),
        Field.hasNoStatement rest⟩

end

theorem Declaration.hasNoStatement (d : Declaration) : d.toTree.HasNoStatement := by
  cases d with
  | header path style => exact Tree.everyKind_of_children (by decide) nofun
  | typedef source name =>
      exact Tree.everyKind_of_children (by decide)
        (List.forall_mem_singleton.mpr source.hasNoStatement)
  | define definition =>
      exact Tree.everyKind_of_children (by decide)
        (List.forall_mem_singleton.mpr definition.hasNoStatement)
  | free decl =>
      have hdecl : decl.toTree.HasNoStatement :=
        Tree.everyKind_of_children (by decide)
          (List.forall_mem_singleton.mpr decl.ty.hasNoStatement)
      exact Tree.everyKind_of_children (by decide) (List.forall_mem_singleton.mpr hdecl)
  | constrained name ty =>
      exact Tree.everyKind_of_children (by decide) (List.forall_mem_singleton.mpr ty.hasNoStatement)
  | function signature =>
      have hsignature : signature.toTree.HasNoStatement := by
        refine Tree.everyKind_of_children (by decide) ?_
        simp [Tree.children, Tree.slots, Slot.children, TypeExpr.hasNoStatement]
      exact Tree.everyKind_of_children (by decide) (List.forall_mem_singleton.mpr hsignature)

mutual

theorem Expr.hasNoStatement : (e : Expr) → e.toTree.HasNoStatement
  | .integer _ | .decimal _ | .var _ _ | .field _ _ => Tree.everyKind_of_children (by decide) nofun
  | .call _ arguments => by
    refine Tree.everyKind_of_children (by decide) ?_
    simpa [Tree.children, Tree.slots, Slot.children] using Expr.hasNoStatements arguments
  | .compound left op right =>
    Tree.everyKind_of_children (by decide) (List.forall_mem_cons.mpr
      ⟨left.hasNoStatement, List.forall_mem_singleton.mpr right.hasNoStatement⟩)

theorem Expr.hasNoStatements : (es : List Expr) → ∀ t ∈ Expr.toTrees es, t.HasNoStatement
  | [] => nofun
  | e :: rest => List.forall_mem_cons.mpr ⟨e.hasNoStatement, Expr.hasNoStatements rest⟩

end

end NoStatement

mutual

theorem Stmt.lone_toTree : (s : Stmt) → ∀ u ∈ s.toTree.lone, u.kind ∉ Kind.ofStatements
  | .bare expr | .verify expr | .constrain expr => by
    have hexpr := expr.hasNoStatement
    simpa [Stmt.toTree, Tree.lone, Slot.lone] using ⟨hexpr.root, hexpr.lone⟩
  | .assign target value => by
    have htarget := target.hasNoStatement
    have hvalue := value.hasNoStatement
    simpa [Stmt.toTree, Tree.lone, Slot.lone, or_imp, forall_and] using
      ⟨htarget.root, htarget.lone, hvalue.root, hvalue.lone⟩
  | .branch condition body | .loop condition body => by
    have hcondition := condition.hasNoStatement
    simpa [Stmt.toTree, Tree.lone, Slot.lone, or_imp, forall_and] using
      ⟨hcondition.root, hcondition.lone, Stmt.loneAll_toTrees body⟩

theorem Stmt.loneAll_toTrees :
    (body : List Stmt) → ∀ u ∈ Tree.loneAll (Stmt.toTrees body), u.kind ∉ Kind.ofStatements
  | [] => nofun
  | s :: rest => List.forall_mem_append.mpr ⟨s.lone_toTree, Stmt.loneAll_toTrees rest⟩

end

theorem Program.lone_toTree (p : Program) : ∀ u ∈ p.toTree.lone, u.kind ∉ Kind.ofStatements := by
  have hdeclarations : ∀ t ∈ p.declarations.map Declaration.toTree, t.HasNoStatement :=
    List.forall_mem_map.mpr fun d _ => d.hasNoStatement
  simpa [toTree, Tree.lone, Slot.lone, or_imp, forall_and] using
    ⟨Tree.loneAll_of_everyKind hdeclarations, Stmt.loneAll_toTrees p.statements⟩

theorem Splices.removing_eq_none (h : kinds ⊆ Kind.ofStatements) {kind : Kind}
    (hkind : kind ∉ Kind.ofStatements) : removing kinds kind = none :=
  if_neg fun hmem => hkind (h hmem)

theorem Splices.removing_ne_duplicate (kind : Kind) : removing kinds kind ≠ some .duplicate := by
  unfold removing
  split <;> exact nofun

theorem Expr.rebuilt_removing (h : kinds ⊆ Kind.ofStatements) (e : Expr) :
    e.toTree.rebuilt (.removing kinds) = e.toTree :=
  (e.hasNoStatement.imp fun _ => Splices.removing_eq_none h).rebuilt_eq_self

mutual

theorem Stmt.rebuilt_removing (h : kinds ⊆ Kind.ofStatements) :
    (s : Stmt) → s.toTree.rebuilt (.removing kinds) = (s.without kinds).toTree
  | .bare expr | .verify expr | .constrain expr => by
    simp [Stmt.toTree, Stmt.without, Tree.rebuilt, Slot.rebuiltAll, Kind.isLeaf,
      expr.rebuilt_removing h, Splices.alone_self]
  | .assign target value => by
    simp [Stmt.toTree, Stmt.without, Tree.rebuilt, Slot.rebuiltAll, Kind.isLeaf,
      target.rebuilt_removing h, value.rebuilt_removing h, Splices.alone_self]
  | .branch condition body | .loop condition body => by
    simp [Stmt.toTree, Stmt.without, Tree.rebuilt, Slot.rebuiltAll, Kind.isLeaf,
      condition.rebuilt_removing h, Splices.alone_self, Stmt.splicedAll_removing h body]

theorem Stmt.splicedAll_removing (h : kinds ⊆ Kind.ofStatements) :
    (body : List Stmt) → Tree.splicedAll (.removing kinds) (Stmt.toTrees body) =
      Stmt.toTrees (Stmt.withoutAll kinds body)
  | [] => rfl
  | s :: rest => by
    rw [Stmt.toTrees, Tree.splicedAll, Stmt.withoutAll, Stmt.splicedAll_removing h rest,
      s.kind_toTree, s.rebuilt_removing h]
    by_cases hkind : s.kind ∈ kinds
    · simp [Splices.among, Splices.removing, hkind]
    · simp [Splices.among, Splices.removing, hkind, Stmt.toTrees]

end

theorem Program.rebuilt_removing (h : kinds ⊆ Kind.ofStatements) (p : Program) :
    p.toTree.rebuilt (.removing kinds) = (p.without kinds).toTree := by
  have hself (d : Declaration) : d.toTree.rebuilt (.removing kinds) = d.toTree :=
    (d.hasNoStatement.imp fun _ => Splices.removing_eq_none h).rebuilt_eq_self
  have hkind (d : Declaration) : Splices.removing kinds d.kind = none :=
    Splices.removing_eq_none h (d.kind_toTree ▸ d.hasNoStatement.root)
  have hdeclarations := Tree.splicedAll_map _ Declaration.kind_toTree hself p.declarations
  simp only [Splices.among, hkind, List.flatMap_singleton'] at hdeclarations
  simp [toTree, without, Tree.rebuilt, Slot.rebuiltAll, Kind.isLeaf, hdeclarations,
    Stmt.splicedAll_removing h]

mutual

theorem Stmt.everyKind_without (h : kinds ⊆ Kind.ofStatements) :
    (s : Stmt) → s.kind ∉ kinds → (s.without kinds).toTree.EveryKind (· ∉ kinds)
  | .bare expr, hkind | .verify expr, hkind | .constrain expr, hkind =>
    Tree.everyKind_of_children hkind
      (List.forall_mem_singleton.mpr (expr.hasNoStatement.imp fun _ => mt (h ·)))
  | .assign target value, hkind =>
    Tree.everyKind_of_children hkind (List.forall_mem_cons.mpr
      ⟨target.hasNoStatement.imp fun _ => mt (h ·),
        List.forall_mem_singleton.mpr (value.hasNoStatement.imp fun _ => mt (h ·))⟩)
  | .branch condition body, hkind | .loop condition body, hkind => by
    refine Tree.everyKind_of_children hkind ?_
    have hcondition : condition.toTree.EveryKind (· ∉ kinds) :=
      condition.hasNoStatement.imp fun _ => mt (h ·)
    simpa [Tree.children, Tree.slots, Slot.children] using
      ⟨hcondition, Stmt.everyKind_withoutAll h body⟩

theorem Stmt.everyKind_withoutAll (h : kinds ⊆ Kind.ofStatements) :
    (body : List Stmt) → ∀ t ∈ Stmt.toTrees (Stmt.withoutAll kinds body), t.EveryKind (· ∉ kinds)
  | [] => nofun
  | s :: rest => by
    rw [Stmt.withoutAll]
    split
    · exact Stmt.everyKind_withoutAll h rest
    · rename_i hkind
      exact List.forall_mem_cons.mpr
        ⟨s.everyKind_without h hkind, Stmt.everyKind_withoutAll h rest⟩

end

theorem Program.everyKind_without (h : kinds ⊆ Kind.ofStatements) (p : Program) :
    (p.without kinds).toTree.EveryKind (· ∉ kinds) := by
  have hdeclarations : ∀ t ∈ p.declarations.map Declaration.toTree, t.EveryKind (· ∉ kinds) :=
    List.forall_mem_map.mpr fun d _ => d.hasNoStatement.imp fun _ => mt (h ·)
  refine Tree.everyKind_of_children (fun hkind => absurd (h hkind) (by decide)) ?_
  simpa only [Tree.children, Tree.slots, Slot.children, List.flatMap_cons, List.flatMap_nil,
    List.append_nil, List.forall_mem_append] using
    ⟨hdeclarations, Stmt.everyKind_withoutAll h p.statements⟩

end Statements

/-- Where only members of sequences are dropped or doubled and the depth limit is not met, a
transformation puts in the place of each member what the rules have for it and leaves all else as it
is. A pass that drops statements leaves none of the kinds anywhere and drops no others, and a second
such pass changes nothing. -/
theorem Program.transform_splices (p : Program) (maxDepth : Option Int) :
    (∀ rules : Splices, (∀ t ∈ p.toTree :: p.toTree.lone, rules.KeepsOne t.kind) →
        (∀ e, (p.toTree.transform rules.edits maxDepth).1 ≠ .error (.tooDeep e)) →
        p.toTree.transform rules.edits maxDepth = (.ok (.single (p.spliced rules).toTree), [])) ∧
      ∀ kinds : List Kind, kinds ⊆ Kind.ofStatements →
        let pass := (Splices.removing kinds).edits
        let left := p.without kinds
        (∀ e, (p.toTree.transform pass maxDepth).1 ≠ .error (.tooDeep e)) →
          p.toTree.transform pass maxDepth = (.ok (.single left.toTree), []) ∧
            (∀ node ∈ left.toTree.levels 1, node.2.kind ∉ kinds) ∧
            left.toTree.transform pass maxDepth = (.ok (.single left.toTree), []) := by
  constructor
  · intro rules hrules hne
    obtain ⟨hroot, hlone⟩ := List.forall_mem_cons.mp hrules
    have hdepth := (Tree.transform_splices_recorded hroot hlone maxDepth).shallow_of_ne hne
    have hkind : p.toTree.kind = .program := rfl
    rw [Tree.transform_of_entered hroot hlone hdepth, rules.alone_toTree hkind p.rebuilt_toTree]
    rfl
  · intro kinds hkinds pass left hne
    have hone : ∀ kind, kind ∉ Kind.ofStatements → (Splices.removing kinds).KeepsOne kind :=
      fun kind hkind => .inl (Splices.removing_eq_none hkinds hkind)
    have hroot : (Splices.removing kinds).KeepsOne .program := hone _ (by decide)
    have hlone (q : Program) : ∀ u ∈ q.toTree.lone, (Splices.removing kinds).KeepsOne u.kind :=
      fun u hu => hone _ (q.lone_toTree u hu)
    have hself : ∀ t : Tree, t.kind = .program →
        (Splices.removing kinds).alone t.kind t (t.rebuilt (.removing kinds)) =
          t.rebuilt (.removing kinds) := by
      intro t ht
      rw [Splices.alone, ht, Splices.removing_eq_none hkinds (by decide)]
    have hleft : p.toTree.rebuilt (.removing kinds) = left.toTree := p.rebuilt_removing hkinds
    have hagain : left.toTree.rebuilt (.removing kinds) = left.toTree := by
      rw [← hleft, Tree.rebuilt_rebuilt Splices.removing_ne_duplicate]
    have hdepth := (Tree.transform_splices_recorded hroot (hlone p) maxDepth).shallow_of_ne hne
    refine ⟨?_, p.everyKind_without hkinds 1, ?_⟩
    · rw [Tree.transform_of_entered hroot (hlone p) hdepth, hself _ rfl, hleft]
    · have hdepth' := Tree.entered_rebuilt_le hdepth
      rw [hleft] at hdepth'
      rw [Tree.transform_of_entered hroot (hlone left) hdepth', hself _ rfl, hagain]

/-- Statements are doubled at the top and in a body, but not in a loop that is kept as it is; a pass
that drops statements goes into the loop as well. -/
theorem Program.transform_splices_nested :
    let x : Expr := .var .plain "x"
    let check : Stmt := .verify (.call "f" [x, .call "g" [x], .integer "1"])
    let p : Program := ⟨[], [check, .branch x [.loop x [check, .bare x], check]]⟩
    let rules : Splices := fun
      | .verify => some .duplicate
      | .bare => some .remove
      | .loop => some .keep
      | _ => none
    (p.toTree.transform rules.edits (some 4)) =
        (.ok (.single (⟨[], [check, check, .branch x [.loop x [check, .bare x], check, check]]⟩ :
          Program).toTree), []) ∧
      (p.toTree.transform (Splices.removing [.verify, .bare]).edits (some 4)) =
        (.ok (.single (⟨[], [.branch x [.loop x []]]⟩ : Program).toTree), []) := by
  intro x check p rules
  have hrules : ∀ t ∈ p.toTree :: p.toTree.lone, rules.KeepsOne t.kind := by decide +kernel
  have hfirst : (p.toTree.transform rules.edits (some 4)).1.isOk = true := by decide +kernel
  have hsecond : (p.toTree.transform (Splices.removing [.verify, .bare]).edits
      (some 4)).1.isOk = true := by decide +kernel
  have hne : ∀ edits : Edits, (p.toTree.transform edits (some 4)).1.isOk = true →
      ∀ e, (p.toTree.transform edits (some 4)).1 ≠ .error (.tooDeep e) := by
    intro edits h e he
    rw [he] at h
    cases h
  obtain ⟨hsplices, hremoves⟩ := Program.transform_splices p (some 4)
  exact ⟨hsplices rules hrules (hne _ hfirst),
    (hremoves [.verify, .bare] (by decide) (hne _ hsecond)).1⟩

end FuzzFrontend
