import FuzzFrontend.Proofs.Tree.Editing

namespace FuzzFrontend

/-- Kinds of node that lie below leaves only. -/
def Kind.isHidden : Kind → Bool
  | enumValue | scalar | pointer | struct | enum | member => true
  | _ => false

section Reached

open FuzzFrontend.Tree

variable {kind : Kind} {attributes : List (String × Attribute)} {slots : List Slot}

/-- A tree with hidden nodes only. -/
def Tree.Hidden (t : Tree) : Prop :=
  ∀ depth, ∀ node ∈ t.levels depth, node.2.kind.isHidden = true

/-- A tree of which an edit reaches all nodes but the hidden ones. -/
def Tree.Exposed (t : Tree) : Prop :=
  ∀ depth, t.reached depth = (t.levels depth).filter fun node => !node.2.kind.isHidden

theorem Tree.hidden_of_children (hkind : kind.isHidden = true)
    (h : ∀ child ∈ (node kind attributes slots).children, child.Hidden) :
    (node kind attributes slots).Hidden :=
  everyKind_of_children (P := fun kind => kind.isHidden = true) hkind h

theorem Tree.exposed_of_leaf (hkind : kind.isHidden = false) (hleaf : kind.isLeaf = true)
    (h : ∀ child ∈ (node kind attributes slots).children, child.Hidden) :
    (node kind attributes slots).Exposed := by
  intro depth
  have hbelow : ((node kind attributes slots).children.flatMap (levels (depth + 1))).filter
      (fun n => !n.2.kind.isHidden) = [] := by
    refine List.filter_eq_nil_iff.mpr fun n hn => ?_
    obtain ⟨child, hchild, hn⟩ := List.mem_flatMap.mp hn
    simp [h child hchild (depth + 1) n hn]
  rw [levels_eq, List.filter_cons_of_pos (by simp [Tree.kind, hkind]), hbelow, reached,
    if_pos hleaf]

theorem Tree.reachedAll_eq_filter {ts : List Tree} (h : ∀ t ∈ ts, t.Exposed) (depth : Nat) :
    reachedAll depth ts = (levelsAll depth ts).filter fun node => !node.2.kind.isHidden := by
  induction ts with
  | nil => rfl
  | cons t rest ih =>
      obtain ⟨ht, hrest⟩ := List.forall_mem_cons.mp h
      rw [reachedAll, levelsAll, List.filter_append, ht depth, ih hrest]

theorem Slot.reached_eq_filter
    (h : ∀ child ∈ slots.flatMap Slot.children, child.Exposed) (depth : Nat) :
    Slot.reached depth slots =
      (Slot.levels depth slots).filter fun node => !node.2.kind.isHidden := by
  induction slots with
  | nil => rfl
  | cons slot rest ih =>
      rw [List.flatMap_cons] at h
      obtain ⟨hslot, hrest⟩ := List.forall_mem_append.mp h
      cases slot with
      | one _ child =>
          have hchild : child.Exposed := hslot child List.mem_cons_self
          rw [Slot.reached, Slot.levels, List.filter_append, hchild depth, ih hrest]
      | many _ children =>
          have hchildren : ∀ t ∈ children, t.Exposed := hslot
          rw [Slot.reached, Slot.levels, List.filter_append, Tree.reachedAll_eq_filter hchildren,
            ih hrest]

theorem Tree.exposed_of_children (hkind : kind.isHidden = false) (hleaf : kind.isLeaf = false)
    (h : ∀ child ∈ (node kind attributes slots).children, child.Exposed) :
    (node kind attributes slots).Exposed := by
  intro depth
  have hslots : Slot.reached (depth + 1) slots =
      (Slot.levels (depth + 1) slots).filter fun node => !node.2.kind.isHidden :=
    Slot.reached_eq_filter h (depth + 1)
  rw [reached, levels, hleaf, hslots, List.filter_cons_of_pos (by simp [Tree.kind, hkind])]
  rfl

theorem Tree.Exposed.mem_reached_iff {t : Tree} (h : t.Exposed) {node : Nat × Tree} {depth : Nat} :
    node ∈ t.reached depth ↔ node ∈ t.levels depth ∧ node.2.kind.isHidden = false := by
  rw [h depth, List.mem_filter, Bool.not_eq_true']

/-- An edit reaches the nodes of a kind that is not hidden, and none of a kind that is. -/
theorem Tree.Exposed.picked {t : Tree} (h : t.Exposed) (kind : Kind) (depth : Nat) :
    picked (· == kind) (t.reached depth) =
      if kind.isHidden then [] else picked (· == kind) (t.levels depth) := by
  rw [h depth]
  cases hkind : kind.isHidden with
  | true =>
      refine List.filter_eq_nil_iff.mpr fun t ht => ?_
      obtain ⟨node, hnode, rfl⟩ := List.mem_map.mp ht
      have hshown := (List.mem_filter.mp hnode).2
      rintro hself
      rw [eq_of_beq hself, hkind] at hshown
      cases hshown
  | false =>
      simp only [Tree.picked, List.filter_map, List.filter_filter]
      refine congrArg _ (List.filter_congr fun node _ => ?_)
      by_cases hself : node.2.kind = kind
      · simp [hself, hkind]
      · simp [hself]

theorem EnumValue.hidden_toTree (v : EnumValue) : v.toTree.Hidden :=
  hidden_of_children rfl nofun

mutual

theorem Ty.hidden_toTree (ty : Ty) : ty.toTree.Hidden := by
  cases ty with
  | scalar kind => exact hidden_of_children rfl nofun
  | pointer target =>
      exact hidden_of_children rfl (List.forall_mem_singleton.mpr target.hidden_toTree)
  | struct name members forward =>
      refine hidden_of_children rfl ?_
      simpa [Tree.children, Tree.slots, Slot.children] using Member.hidden_toTrees members
  | enum name values forward =>
      refine hidden_of_children rfl ?_
      simp [Tree.children, Tree.slots, Slot.children, EnumValue.hidden_toTree]

theorem Member.hidden_toTrees : (members : List Member) → ∀ t ∈ Member.toTrees members, t.Hidden
  | [] => nofun
  | .mk _ ty :: rest =>
    List.forall_mem_cons.mpr
      ⟨hidden_of_children rfl (List.forall_mem_singleton.mpr ty.hidden_toTree),
        Member.hidden_toTrees rest⟩

end

mutual

theorem TypeExpr.exposed_toTree : (ty : TypeExpr) → ty.toTree.Exposed
  | .known ty => exposed_of_leaf rfl rfl (List.forall_mem_singleton.mpr ty.hidden_toTree)
  | .inline definition => definition.exposed_toTree
  | .structNamed _ => exposed_of_leaf rfl rfl nofun
  | .enumNamed _ => exposed_of_leaf rfl rfl nofun

theorem Definition.exposed_toTree : (d : Definition) → d.toTree.Exposed
  | .struct _ fields => by
    refine exposed_of_children rfl rfl ?_
    simpa [Tree.children, Tree.slots, Slot.children] using Field.exposed_toTrees fields
  | .enum _ values => by
    refine exposed_of_leaf rfl rfl ?_
    simp [Tree.children, Tree.slots, Slot.children, EnumValue.hidden_toTree]

theorem Field.exposed_toTrees : (fields : List Field) → ∀ t ∈ Field.toTrees fields, t.Exposed
  | [] => nofun
  | .mk _ ty :: rest =>
    List.forall_mem_cons.mpr
      ⟨exposed_of_children rfl rfl (List.forall_mem_singleton.mpr ty.exposed_toTree),
        Field.exposed_toTrees rest⟩

end

theorem Declaration.exposed_toTree (d : Declaration) : d.toTree.Exposed := by
  cases d with
  | header path style => exact exposed_of_leaf rfl rfl nofun
  | typedef source name =>
      exact exposed_of_children rfl rfl (List.forall_mem_singleton.mpr source.exposed_toTree)
  | define definition =>
      exact exposed_of_children rfl rfl (List.forall_mem_singleton.mpr definition.exposed_toTree)
  | free decl =>
      have hdecl : decl.toTree.Exposed :=
        exposed_of_children rfl rfl (List.forall_mem_singleton.mpr decl.ty.exposed_toTree)
      exact exposed_of_children rfl rfl (List.forall_mem_singleton.mpr hdecl)
  | constrained name ty =>
      exact exposed_of_children rfl rfl (List.forall_mem_singleton.mpr ty.exposed_toTree)
  | function signature =>
      have hsignature : signature.toTree.Exposed := by
        refine exposed_of_children rfl rfl ?_
        simp [Tree.children, Tree.slots, Slot.children, TypeExpr.exposed_toTree]
      exact exposed_of_children rfl rfl (List.forall_mem_singleton.mpr hsignature)

mutual

theorem Expr.exposed_toTree : (e : Expr) → e.toTree.Exposed
  | .integer _ => exposed_of_leaf rfl rfl nofun
  | .decimal _ => exposed_of_leaf rfl rfl nofun
  | .var _ _ => exposed_of_leaf rfl rfl nofun
  | .call _ arguments => by
    refine exposed_of_children rfl rfl ?_
    simpa [Tree.children, Tree.slots, Slot.children] using Expr.exposed_toTrees arguments
  | .compound left _ right =>
    exposed_of_children rfl rfl (List.forall_mem_cons.mpr
      ⟨left.exposed_toTree, List.forall_mem_singleton.mpr right.exposed_toTree⟩)
  | .field _ _ => exposed_of_leaf rfl rfl nofun

theorem Expr.exposed_toTrees : (es : List Expr) → ∀ t ∈ Expr.toTrees es, t.Exposed
  | [] => nofun
  | e :: rest => List.forall_mem_cons.mpr ⟨e.exposed_toTree, Expr.exposed_toTrees rest⟩

end

mutual

theorem Stmt.exposed_toTree : (s : Stmt) → s.toTree.Exposed
  | .bare expr | .verify expr | .constrain expr =>
    exposed_of_children rfl rfl (List.forall_mem_singleton.mpr expr.exposed_toTree)
  | .assign target value =>
    exposed_of_children rfl rfl (List.forall_mem_cons.mpr
      ⟨target.exposed_toTree, List.forall_mem_singleton.mpr value.exposed_toTree⟩)
  | .branch condition body | .loop condition body => by
    refine exposed_of_children rfl rfl ?_
    simpa [Tree.children, Tree.slots, Slot.children] using
      ⟨condition.exposed_toTree, Stmt.exposed_toTrees body⟩

theorem Stmt.exposed_toTrees : (body : List Stmt) → ∀ t ∈ Stmt.toTrees body, t.Exposed
  | [] => nofun
  | s :: rest => List.forall_mem_cons.mpr ⟨s.exposed_toTree, Stmt.exposed_toTrees rest⟩

end

theorem Program.exposed_toTree (p : Program) : p.toTree.Exposed := by
  have hdeclarations : ∀ t ∈ p.declarations.map Declaration.toTree, t.Exposed :=
    List.forall_mem_map.mpr fun d _ => d.exposed_toTree
  refine exposed_of_children rfl rfl ?_
  simpa only [Tree.children, Tree.slots, Slot.children, List.flatMap_cons, List.flatMap_nil,
    List.append_nil, List.forall_mem_append] using
    ⟨hdeclarations, Stmt.exposed_toTrees p.statements⟩

end Reached

section Names

variable {kind : Kind} {old new : String}

/-- What becomes of the name of a node of the second kind when nodes of the first kind are given a
new name. -/
def renamed (kind : Kind) (old new : String) (k : Kind) (name : String) : String :=
  if k = kind ∧ name = old then new else name

variable (f : Kind → String → String)

def EnumValue.mapNames (v : EnumValue) : EnumValue where
  name := f .enumValue v.name
  value := v.value

mutual

/-- The names that are changed are those that the declaration itself writes. A type known in full
stays as it is. -/
def TypeExpr.mapNames : TypeExpr → TypeExpr
  | .known ty => .known ty
  | .inline definition => .inline definition.mapNames
  | .structNamed name => .structNamed (f .structNamed name)
  | .enumNamed name => .enumNamed (f .enumNamed name)

def Definition.mapNames : Definition → Definition
  | .struct name fields => .struct (f .structDefinition name) (Field.mapNamesAll fields)
  | .enum name values => .enum (f .enumDefinition name) (values.map (EnumValue.mapNames f))

def Field.mapNamesAll : List Field → List Field
  | [] => []
  | .mk name ty :: rest => .mk (f .field name) ty.mapNames :: Field.mapNamesAll rest

end

def FreeVariable.mapNames (v : FreeVariable) : FreeVariable where
  name := f .freeVariable v.name
  generator := v.generator
  ty := v.ty.mapNames f

def Signature.mapNames (s : Signature) : Signature where
  name := f .signature s.name
  result := s.result.mapNames f
  parameters := s.parameters.map (TypeExpr.mapNames f)

def Declaration.mapNames : Declaration → Declaration
  | .header path style => .header path style
  | .typedef source name => .typedef (source.mapNames f) (f .typedef name)
  | .define definition => .define (definition.mapNames f)
  | .free decl => .free (decl.mapNames f)
  | .constrained name ty => .constrained (f .constrained name) (ty.mapNames f)
  | .function signature => .function (signature.mapNames f)

mutual

def Expr.mapNames : Expr → Expr
  | .integer text => .integer text
  | .decimal text => .decimal text
  | .var op name => .var op (f .var name)
  | .call name arguments => .call (f .call name) (Expr.mapNamesAll arguments)
  | .compound left op right => .compound left.mapNames op right.mapNames
  | .field object member => .field object member

def Expr.mapNamesAll : List Expr → List Expr
  | [] => []
  | e :: rest => e.mapNames :: Expr.mapNamesAll rest

end

mutual

def Stmt.mapNames : Stmt → Stmt
  | .bare expr => .bare (expr.mapNames f)
  | .assign target value => .assign (target.mapNames f) (value.mapNames f)
  | .verify expr => .verify (expr.mapNames f)
  | .constrain expr => .constrain (expr.mapNames f)
  | .branch condition body => .branch (condition.mapNames f) (Stmt.mapNamesAll body)
  | .loop condition body => .loop (condition.mapNames f) (Stmt.mapNamesAll body)

def Stmt.mapNamesAll : List Stmt → List Stmt
  | [] => []
  | s :: rest => s.mapNames :: Stmt.mapNamesAll rest

end

/-- The program with other names, each made of the kind of the node that has it and of the name that
it had. -/
def Program.mapNames (p : Program) : Program where
  declarations := p.declarations.map (Declaration.mapNames f)
  statements := Stmt.mapNamesAll f p.statements

variable {f}

@[simp]
theorem Edits.renames_relabel_nil (k : Kind) : (renames kind old new).relabel k [] = [] := by
  by_cases h : k = kind <;> simp [relabel, renames, Edit.replaceText, h]

@[simp]
theorem Edits.renames_relabel_name (k : Kind) (name : String) (rest : List (String × Attribute)) :
    (renames kind old new).relabel k (("name", .text name) :: rest) =
      ("name", .text (renamed kind old new k name)) :: (renames kind old new).relabel k rest := by
  by_cases h : k = kind <;> by_cases hname : name = old <;>
    simp [relabel, renames, renamed, Edit.replaceText, h, hname]

@[simp]
theorem Edits.renames_relabel_other (k : Kind) {label : String} (value : Attribute)
    (rest : List (String × Attribute)) (h : label ≠ "name") :
    (renames kind old new).relabel k ((label, value) :: rest) =
      (label, value) :: (renames kind old new).relabel k rest := by
  by_cases hk : k = kind <;> simp [relabel, renames, Edit.replaceText, h, hk]

theorem renamed_of_ne {k : Kind} (h : k ≠ kind) (name : String) :
    renamed kind old new k name = name := by
  simp [renamed, h]

theorem EnumValue.mapNames_renamed (h : kind ≠ .enumValue) (v : EnumValue) :
    v.mapNames (renamed kind old new) = v := by
  rw [mapNames, renamed_of_ne h.symm]

theorem Tree.relabelledAll_map {α : Type} {edits : Edits} {toTree : α → Tree} {g : α → α}
    (h : ∀ x, (toTree x).relabelled edits = toTree (g x)) (xs : List α) :
    Tree.relabelledAll edits (xs.map toTree) = (xs.map g).map toTree := by
  induction xs with
  | nil => rfl
  | cons x rest ih => simp [h, ih]

mutual

theorem TypeExpr.relabelled_toTree (h : kind ≠ .enumValue) :
    (ty : TypeExpr) →
      ty.toTree.relabelled (.renames kind old new) = (ty.mapNames (renamed kind old new)).toTree
  | .known ty => by simp [TypeExpr.toTree, TypeExpr.mapNames, Tree.relabelled, Kind.isLeaf]
  | .inline definition => by
    rw [TypeExpr.toTree, TypeExpr.mapNames, TypeExpr.toTree, definition.relabelled_toTree h]
  | .structNamed name => by simp [TypeExpr.toTree, TypeExpr.mapNames, Tree.relabelled]
  | .enumNamed name => by simp [TypeExpr.toTree, TypeExpr.mapNames, Tree.relabelled]

theorem Definition.relabelled_toTree (h : kind ≠ .enumValue) :
    (d : Definition) →
      d.toTree.relabelled (.renames kind old new) = (d.mapNames (renamed kind old new)).toTree
  | .struct name fields => by
    simp [Definition.toTree, Definition.mapNames, Tree.relabelled, Kind.isLeaf,
      Field.relabelled_toTrees h fields]
  | .enum name values => by
    -- the entries are passed over, and the map of names leaves them as they are
    simp [Definition.toTree, Definition.mapNames, Tree.relabelled, Kind.isLeaf,
      EnumValue.mapNames_renamed h]

theorem Field.relabelled_toTrees (h : kind ≠ .enumValue) :
    (fields : List Field) →
      Tree.relabelledAll (.renames kind old new) (Field.toTrees fields) =
        Field.toTrees (Field.mapNamesAll (renamed kind old new) fields)
  | [] => rfl
  | .mk name ty :: rest => by
    simp [Field.toTrees, Field.mapNamesAll, Tree.relabelled, Kind.isLeaf, ty.relabelled_toTree h,
      Field.relabelled_toTrees h rest]

end

theorem Declaration.relabelled_toTree (h : kind ≠ .enumValue) (d : Declaration) :
    d.toTree.relabelled (.renames kind old new) = (d.mapNames (renamed kind old new)).toTree := by
  cases d with
  | header path style => simp [toTree, mapNames, Tree.relabelled]
  | typedef source name =>
      simp [toTree, mapNames, Tree.relabelled, Kind.isLeaf, source.relabelled_toTree h]
  | define definition =>
      simp [toTree, mapNames, Tree.relabelled, Kind.isLeaf, definition.relabelled_toTree h]
  | free decl =>
      simp [toTree, mapNames, FreeVariable.toTree, FreeVariable.mapNames, Tree.relabelled,
        Kind.isLeaf, decl.ty.relabelled_toTree h]
  | constrained name ty =>
      simp [toTree, mapNames, Tree.relabelled, Kind.isLeaf, ty.relabelled_toTree h]
  | function signature =>
      have hparameters : Tree.relabelledAll (.renames kind old new)
          (signature.parameters.map TypeExpr.toTree) =
            (signature.parameters.map (TypeExpr.mapNames _)).map TypeExpr.toTree :=
        Tree.relabelledAll_map (TypeExpr.relabelled_toTree h) _
      simp [toTree, mapNames, Signature.toTree, Signature.mapNames, Tree.relabelled, Kind.isLeaf,
        signature.result.relabelled_toTree h, hparameters]

mutual

theorem Expr.relabelled_toTree :
    (e : Expr) →
      e.toTree.relabelled (.renames kind old new) = (e.mapNames (renamed kind old new)).toTree
  | .integer _ => by simp [Expr.toTree, Expr.mapNames, Tree.relabelled, Kind.isLeaf]
  | .decimal _ => by simp [Expr.toTree, Expr.mapNames, Tree.relabelled, Kind.isLeaf]
  | .var _ _ => by simp [Expr.toTree, Expr.mapNames, Tree.relabelled, Kind.isLeaf]
  | .call name arguments => by
    simp [Expr.toTree, Expr.mapNames, Tree.relabelled, Kind.isLeaf,
      Expr.relabelled_toTrees arguments]
  | .compound left op right => by
    simp [Expr.toTree, Expr.mapNames, Tree.relabelled, Kind.isLeaf, left.relabelled_toTree,
      right.relabelled_toTree]
  | .field _ _ => by simp [Expr.toTree, Expr.mapNames, Tree.relabelled, Kind.isLeaf]

theorem Expr.relabelled_toTrees :
    (es : List Expr) →
      Tree.relabelledAll (.renames kind old new) (Expr.toTrees es) =
        Expr.toTrees (Expr.mapNamesAll (renamed kind old new) es)
  | [] => rfl
  | e :: rest => by
    simp [Expr.toTrees, Expr.mapNamesAll, e.relabelled_toTree, Expr.relabelled_toTrees rest]

end

mutual

theorem Stmt.relabelled_toTree :
    (s : Stmt) →
      s.toTree.relabelled (.renames kind old new) = (s.mapNames (renamed kind old new)).toTree
  | .bare expr | .verify expr | .constrain expr => by
    simp [Stmt.toTree, Stmt.mapNames, Tree.relabelled, Kind.isLeaf, expr.relabelled_toTree]
  | .assign target value => by
    simp [Stmt.toTree, Stmt.mapNames, Tree.relabelled, Kind.isLeaf, target.relabelled_toTree,
      value.relabelled_toTree]
  | .branch condition body | .loop condition body => by
    simp [Stmt.toTree, Stmt.mapNames, Tree.relabelled, Kind.isLeaf, condition.relabelled_toTree,
      Stmt.relabelled_toTrees body]

theorem Stmt.relabelled_toTrees :
    (body : List Stmt) →
      Tree.relabelledAll (.renames kind old new) (Stmt.toTrees body) =
        Stmt.toTrees (Stmt.mapNamesAll (renamed kind old new) body)
  | [] => rfl
  | s :: rest => by
    simp [Stmt.toTrees, Stmt.mapNamesAll, s.relabelled_toTree, Stmt.relabelled_toTrees rest]

end

theorem Program.relabelled_toTree (h : kind ≠ .enumValue) (p : Program) :
    p.toTree.relabelled (.renames kind old new) = (p.mapNames (renamed kind old new)).toTree := by
  have hdeclarations : Tree.relabelledAll (.renames kind old new)
      (p.declarations.map Declaration.toTree) =
        (p.declarations.map (Declaration.mapNames _)).map Declaration.toTree :=
    Tree.relabelledAll_map (Declaration.relabelled_toTree h) _
  simp [toTree, mapNames, Tree.relabelled, Kind.isLeaf, hdeclarations, Stmt.relabelled_toTrees]

end Names

/-- The kinds of node that the parts of programs have, types known in full apart. -/
def Kind.ofPrograms : List Kind :=
  [program, header, typedef, definition, free, freeVariable, constrained, function, signature,
    known, structDefinition, enumDefinition, structNamed, enumNamed, field, enumValue, integer,
    decimal, var, call, compound, access, bare, assign, verify, constrain, branch, loop]

theorem Kind.isHidden_iff_of_mem_ofPrograms :
    ∀ kind ∈ ofPrograms, kind.isHidden = true ↔ kind = .enumValue := by
  decide

section Kinds

variable {kind : Kind} (p : Program)

theorem Program.picked_reached (hkind : kind ∈ Kind.ofPrograms) (depth : Nat) :
    Tree.picked (· == kind) (p.toTree.reached depth) =
      if kind = .enumValue then [] else Tree.picked (· == kind) (p.toTree.levels depth) := by
  rw [p.exposed_toTree.picked]
  simp only [Kind.isHidden_iff_of_mem_ofPrograms kind hkind]

theorem Program.relabelled_renames (old new : String) :
    p.toTree.relabelled (.renames kind old new) =
      (if kind = .enumValue then p else p.mapNames (renamed kind old new)).toTree := by
  by_cases hentry : kind = .enumValue
  · -- no node that is reached is an entry, so none gets a new name
    have hkeep : ∀ node ∈ p.toTree.reached 1,
        (Edits.renames kind old new).relabel node.2.kind node.2.attributes =
          node.2.attributes := by
      intro node hnode
      have hshown := (p.exposed_toTree.mem_reached_iff.mp hnode).2
      refine Edits.renames_relabel_of_ne ?_ _
      rintro hself
      rw [hself, hentry] at hshown
      cases hshown
    rw [Tree.relabelled_eq_self 1 _ hkeep, if_pos hentry]
  · rw [p.relabelled_toTree hentry, if_neg hentry]

/-- A visitor that notes the nodes of one kind notes them all in their order. An edit that notes
them meets the same nodes and leaves the program as it is, but it does not meet the entries of
enums. So an edit that gives the nodes of one kind a new name leaves none with the old name and
changes nothing else, and entries of enums keep their names. -/
theorem Program.edit_reaches_visited (hkind : kind ∈ Kind.ofPrograms)
    {visitDepth editDepth : Option Int} {noted : List Tree} {t : Tree}
    (hvisit : (Visitor.noting kind).session (.ofRequest visitDepth) [p.toTree] = [⟨noted, .ok t⟩])
    (hedit : ∀ e, (p.toTree.transform (.noting kind) editDepth).1 ≠ .error (.tooDeep e)) :
    noted = Tree.picked (· == kind) (p.toTree.levels 1) ∧
      p.toTree.transform (.noting kind) editDepth =
        (.ok (.single p.toTree), if kind = .enumValue then [] else noted) ∧
      ∀ old new : String, old ≠ new →
        let outcome := if kind = .enumValue then p else p.mapNames (renamed kind old new)
        (p.toTree.transform (.renames kind old new) editDepth).1 = .ok (.single outcome.toTree) ∧
          (kind ≠ .enumValue → ∀ node ∈ outcome.toTree.levels 1,
            node.2.kind = kind → node.2.text? "name" ≠ some old) := by
  have hnoted : noted = Tree.picked (· == kind) (p.toTree.levels 1) :=
    Visitor.noted_of_noting hvisit
  have hdepth := Tree.reached_le_of_noting hedit
  refine ⟨hnoted, ?_, ?_⟩
  · rw [Tree.transform_of_reached (Edits.noting_inPlace kind) hdepth, Edits.noting_notes,
      Tree.relabelled_eq_self 1 _ fun node _ => Edits.noting_relabel kind _ _, hnoted,
      ← p.picked_reached hkind]
    rfl
  intro old new hne outcome
  have houtcome : p.toTree.relabelled (.renames kind old new) = outcome.toTree :=
    p.relabelled_renames old new
  refine ⟨?_, ?_⟩
  · rw [Tree.transform_of_reached (Edits.renames_inPlace kind old new) hdepth, houtcome]
  · intro hentry node hnode hself
    have hshown : node.2.kind.isHidden = false := by
      rw [hself]
      exact Bool.eq_false_iff.mpr fun h =>
        hentry ((Kind.isHidden_iff_of_mem_ofPrograms kind hkind).mp h)
    have hreached := outcome.exposed_toTree.mem_reached_iff.mpr ⟨hnode, hshown⟩
    rw [← houtcome] at hreached
    exact Tree.text?_ne_of_renames hne hreached hself

end Kinds

/-- A variable in a condition and in an argument of a call is visited, edited and renamed twice. -/
theorem Program.edit_reaches_visited_variables :
    let p : Program := ⟨[], [.branch (.var .plain "x") [.bare (.call "f" [.var .plain "x"])]]⟩
    let x : Tree := (Expr.var .plain "x").toTree
    (Visitor.noting .var).session (.ofRequest none) [p.toTree] = [⟨[x, x], .ok p.toTree⟩] ∧
      p.toTree.transform (.noting .var) = (.ok (.single p.toTree), [x, x]) ∧
      (p.toTree.transform (.renames .var "x" "y")).1 =
        .ok (.single (p.mapNames (renamed .var "x" "y")).toTree) := by
  intro p x
  have hvisit : (Visitor.noting .var).session (.ofRequest none) [p.toTree] =
      [⟨[x, x], .ok p.toTree⟩] := by
    decide +kernel
  have hedit : (p.toTree.transform (.noting .var)).1 = .ok (.single p.toTree) := by
    decide +kernel
  have hdepth : ∀ e, (p.toTree.transform (.noting .var)).1 ≠ .error (.tooDeep e) := by
    intro e h
    rw [hedit] at h
    cases h
  obtain ⟨-, hnoted, hrenamed⟩ := Program.edit_reaches_visited p (by decide) hvisit hdepth
  exact ⟨hvisit, hnoted, (hrenamed "x" "y" (by decide)).1⟩

/-- Entries of enums are visited, but an edit passes over them. -/
theorem Program.edit_passes_over_entries :
    let p : Program := ⟨[.define (.enum "E" [⟨"A", 0⟩])], []⟩
    let entry : Tree := .node .enumValue [("name", .text "A"), ("value", .text "0")] []
    (Visitor.noting .enumValue).session (.ofRequest none) [p.toTree] = [⟨[entry], .ok p.toTree⟩] ∧
      p.toTree.transform (.noting .enumValue) = (.ok (.single p.toTree), []) ∧
      (p.toTree.transform (.renames .enumValue "A" "B")).1 = .ok (.single p.toTree) ∧
      p.toTree ≠ (p.mapNames (renamed .enumValue "A" "B")).toTree := by
  decide +kernel

end FuzzFrontend
