import FuzzFrontend.Proofs.Program.Segments
import FuzzFrontend.Proofs.Scan.Pieces

namespace FuzzFrontend

open Scan (Blank Gap Pieces)
open Segment (Spells spells_append spells_append_single spells_cons spells_fixed spells_nil
  spells_single)

/-- The value of an entry may be left out when it is zero. -/
inductive EnumValue.Spelled : EnumValue → List Char → Prop
  | full (v : EnumValue) : Spelled v v.write.toList
  | zero {v : EnumValue} (h : v.value = 0) : Spelled v (v.name.toList ++ [','])

/-- A field of a struct, closed by a semicolon. -/
def Field.Spelled (struct : String) (f : Field) (t : List Char) : Prop :=
  ∃ form, f.write struct = .ok form ∧ t = form.toList ++ [';']

/-- A parameter of a function, closed by a comma. -/
def TypeExpr.SpelledParameter (ty : TypeExpr) (t : List Char) : Prop :=
  ∃ form, ty.write = .ok form ∧ t = form.toList ++ [',']

inductive Declaration.Spelled : Declaration → List Char → Prop
  | header {path : String} {style : HeaderStyle} :
      Spelled (.header path style)
        ("#include ".toList ++ style.opening :: (path.toList ++ [style.closing]))
  | typedef {source : TypeExpr} {name ty : String} (h : source.write = .ok ty) :
      Spelled (.typedef source name)
        ("typedef ".toList ++ (ty.toList ++ ' ' :: (name.toList ++ [';'])))
  | struct {name : String} {fields : List Field} {ts : List Char}
      (h : Pieces (Field.Spelled name) fields ts) :
      Spelled (.define (.struct name fields))
        ("struct ".toList ++ (name.toList ++ ' ' :: '{' :: (ts ++ ['}'])))
  | enum {name : String} {values : List EnumValue} {ts : List Char}
      (h : Pieces EnumValue.Spelled values ts) :
      Spelled (.define (.enum name values))
        ("enum ".toList ++ (name.toList ++ ' ' :: '{' :: (ts ++ ['}'])))
  | free {decl : FreeVariable} {ty : String} (h : decl.ty.write = .ok ty) :
      Spelled (.free decl)
        ("var:free ".toList ++ (decl.name.toList ++
          ' ' :: ((GeneratorName.write decl.generator).toList ++ ' ' :: ty.toList)))
  | constrained {name ty : String} {type : TypeExpr} (h : type.write = .ok ty) :
      Spelled (.constrained name type)
        ("var:constrained ".toList ++ (name.toList ++ ' ' :: ty.toList))
  | function {signature : Signature} {result : String} {ts : List Char}
      (hr : signature.result.write = .ok result)
      (hp : Pieces TypeExpr.SpelledParameter signature.parameters ts) :
      Spelled (.function signature)
        ("function:decl ".toList ++ (signature.name.toList ++
          ' ' :: (result.toList ++ ' ' :: '{' :: (ts ++ ['}']))))

inductive Expr.Spelled : Expr → List Char → Prop
  | integer {text : String} : Spelled (.integer text) text.toList
  | decimal {text : String} : Spelled (.decimal text) text.toList
  | var {op : UnaryOp} {name spelling : String} (h : spelling ∈ op.spellings) :
      Spelled (.var op name) (spelling.toList ++ name.toList)
  | call {name : String} {arguments : List Expr} {ts : List Char}
      (h : Pieces Spelled arguments ts) :
      Spelled (.call name arguments)
        ("function:call ".toList ++ (name.toList ++ ' ' :: '{' :: (ts ++ ['}'])))
  | compound {left right : Expr} {op : BinaryOp} {tl tr : List Char} (hl : Spelled left tl)
      (hr : Spelled right tr) :
      Spelled (.compound left op right) (tl ++ ' ' :: (op.symbol.toList ++ ' ' :: tr))
  | field {object member : String} :
      Spelled (.field object member) (object.toList ++ '.' :: member.toList)

inductive Stmt.Spelled : Stmt → List Char → Prop
  | bare {expr : Expr} {t : List Char} (h : expr.Spelled t) : Spelled (.bare expr) t
  | assign {target value : Expr} {tt tv : List Char} (ht : target.Spelled tt)
      (hv : value.Spelled tv) : Spelled (.assign target value) (tt ++ " = ".toList ++ tv)
  | verify {expr : Expr} {t : List Char} (h : expr.Spelled t) :
      Spelled (.verify expr) ("verify:new ".toList ++ t)
  | constrain {expr : Expr} {t : List Char} (h : expr.Spelled t) :
      Spelled (.constrain expr) ("constraint:new ".toList ++ t)
  | branch {condition : Expr} {body : List Stmt} {tc ts : List Char} (hc : condition.Spelled tc)
      (hb : Pieces Spelled body ts) :
      Spelled (.branch condition body)
        ("if ( ".toList ++ (tc ++ ' ' :: ')' :: ' ' :: '{' :: (ts ++ ['}'])))
  | loop {condition : Expr} {body : List Stmt} {tc ts : List Char} (hc : condition.Spelled tc)
      (hb : Pieces Spelled body ts) :
      Spelled (.loop condition body)
        ("while ( ".toList ++ (tc ++ ' ' :: ')' :: ' ' :: '{' :: (ts ++ ['}'])))

/-- Declarations and then statements, with gaps after them. -/
def Program.Spelled (p : Program) (t : List Char) : Prop :=
  ∃ ds ss, Pieces Declaration.Spelled p.declarations ds ∧ Pieces Stmt.Spelled p.statements ss ∧
    t = ds ++ ss

section Declarations

theorem Field.pieces_of_lines {name : String} {fields : List Field} {lines : List String}
    (h : List.Forall₂ (fun f line => f.write name = .ok line) fields lines) :
    Pieces (Field.Spelled name) fields
      (lines.flatMap fun line => "    ".toList ++ (line.toList ++ ";\n".toList)) := by
  induction h with
  | nil => exact .nil Scan.blank_nil
  | @cons f line fields lines hf _ ih =>
      have hindent : Blank "    ".toList := Scan.blank_of_all rfl
      have hpiece : Field.Spelled name f (line.toList ++ [';']) := ⟨line, hf, rfl⟩
      simpa using Pieces.cons hindent hpiece Scan.gap_newline ih

theorem Definition.spelled_of_write {d : Definition} {t : String} (h : d.write = .ok t) :
    Declaration.Spelled (.define d) t.toList := by
  cases d with
  | struct name fields =>
      cases fields with
      | nil =>
          cases h
          simpa using Declaration.Spelled.struct (Pieces.nil Scan.gap_space.blank)
      | cons f fields =>
          simp only [Definition.write, bind_eq_ok, mapM_eq_ok, pure, Except.pure] at h
          obtain ⟨lines, hlines, ht⟩ := h
          cases ht
          have hbody := (Field.pieces_of_lines hlines).blank_append Scan.gap_newline.blank
          simpa [List.flatMap_map] using Declaration.Spelled.struct hbody
  | enum name values =>
      cases h
      have hentries : List.Forall₂ EnumValue.Spelled values
          (values.map fun v => v.write.toList) := by
        rw [List.forall₂_map_right_iff]
        exact List.forall₂_same.mpr fun v _ => .full v
      have hbody := Pieces.of_spaced hentries
      simpa [List.flatMap_map] using Declaration.Spelled.enum hbody

theorem Declaration.spelled_of_write {d : Declaration} {t : String} (h : d.write = .ok t) :
    d.Spelled t.toList := by
  cases d with
  | header path style =>
      simp only [Declaration.write] at h
      split at h
      · cases h
      · cases h
        simpa using Declaration.Spelled.header
  | typedef source name =>
      simp only [Declaration.write, bind_eq_ok, pure, Except.pure] at h
      obtain ⟨ty, hty, ht⟩ := h
      cases ht
      simpa using Declaration.Spelled.typedef hty
  | define definition => exact Definition.spelled_of_write h
  | free decl =>
      simp only [Declaration.write, bind_eq_ok, pure, Except.pure] at h
      obtain ⟨ty, hty, ht⟩ := h
      cases ht
      simpa using Declaration.Spelled.free hty
  | constrained name ty =>
      simp only [Declaration.write, bind_eq_ok, pure, Except.pure] at h
      obtain ⟨text, hty, ht⟩ := h
      cases ht
      simpa using Declaration.Spelled.constrained hty
  | function signature =>
      simp only [Declaration.write, bind_eq_ok, mapM_eq_ok, pure, Except.pure] at h
      obtain ⟨result, hresult, parameters, hparameters, ht⟩ := h
      cases ht
      have hentries : List.Forall₂ TypeExpr.SpelledParameter signature.parameters
          (parameters.map fun ty => ty.toList ++ [',']) := by
        rw [List.forall₂_map_right_iff]
        exact hparameters.imp fun ty text hty => ⟨text, hty, rfl⟩
      have hbody := Pieces.of_spaced hentries
      simpa [List.flatMap_map] using Declaration.Spelled.function hresult hbody

end Declarations

theorem Segment.exists_spaced {α : Type} {R : α → List Char → Prop} {parts : α → List Segment}
    {xs : List α} {t : List Char} (hx : ∀ x ∈ xs, ∀ u, Spells (parts x) u → R x u)
    (h : Spells (xs.flatMap fun x => .fixed " " :: parts x) t) :
    ∃ texts, List.Forall₂ R xs texts ∧ t = texts.flatMap fun u => ' ' :: u := by
  induction xs generalizing t with
  | nil => exact ⟨[], .nil, spells_nil.mp h⟩
  | cons x xs ih =>
      rw [List.flatMap_cons, List.cons_append] at h
      obtain ⟨u, hu, rfl⟩ := spells_fixed.mp h
      obtain ⟨first, rest, hfirst, hrest, rfl⟩ := spells_append.mp hu
      obtain ⟨texts, htexts, rfl⟩ := ih (fun y hy => hx y (List.mem_cons_of_mem _ hy)) hrest
      exact ⟨first :: texts, .cons (hx x List.mem_cons_self first hfirst) htexts, rfl⟩

section Choices

variable {t : List Char}

theorem EnumValue.spelled_of_spells {v : EnumValue} (h : Spells v.segments t) : v.Spelled t := by
  unfold segments at h
  split at h
  · rename_i hzero
    obtain ⟨_, hplace, rfl⟩ := spells_fixed.mp h
    obtain ⟨choice, hchoice, _, hcomma, rfl⟩ := spells_cons.mp hplace
    obtain rfl := spells_single.mp hcomma
    rcases List.mem_cons.mp hchoice with rfl | hchoice
    · simpa [write_of_zero hzero] using Spelled.full v
    · obtain rfl := List.mem_singleton.mp hchoice
      simpa using Spelled.zero hzero
  · obtain rfl := spells_single.mp h
    exact .full v

theorem Declaration.spelled_of_spells {d : Declaration} {segments : List Segment}
    (hd : d.segments = .ok segments) (h : Spells segments t) : d.Spelled t := by
  unfold Declaration.segments at hd
  split at hd
  · rename_i name values
    cases hd
    obtain ⟨_, hrest, rfl⟩ := spells_fixed.mp h
    obtain ⟨_, hentries, rfl⟩ := spells_append_single.mp hrest
    obtain ⟨texts, htexts, rfl⟩ :=
      Segment.exists_spaced (fun v _ _ => EnumValue.spelled_of_spells) hentries
    simpa using Spelled.enum (Pieces.of_spaced htexts)
  · -- any other declaration is one fixed part, which is what is written for it
    cases hwrite : d.write with
    | error e =>
        rw [hwrite] at hd
        cases hd
    | ok text =>
        rw [hwrite] at hd
        cases hd
        obtain rfl := spells_single.mp h
        exact spelled_of_write hwrite

theorem Declaration.pieces_of_spells {ds : List Declaration} {segments : List Segment}
    (hds : segmentsAll ds = .ok segments) (h : Spells segments t) :
    Pieces Declaration.Spelled ds t := by
  induction ds generalizing segments t with
  | nil =>
      cases hds
      obtain rfl := spells_nil.mp h
      exact .nil Scan.blank_nil
  | cons d ds ih =>
      simp only [segmentsAll, bind_eq_ok, pure, Except.pure] at hds
      obtain ⟨first, hfirst, others, hothers, heq⟩ := hds
      cases heq
      obtain ⟨text, _, htext, hline, rfl⟩ := spells_append.mp h
      obtain ⟨rest, hrest, rfl⟩ := spells_fixed.mp hline
      exact .cons Scan.blank_nil (spelled_of_spells hfirst htext) Scan.gap_newline
        (ih hothers hrest)

end Choices

section Statements

theorem Expr.spelled_of_spells {e : Expr} {t : List Char} (h : Spells e.segments t) :
    e.Spelled t := by
  induction e generalizing t with
  | integer text =>
      obtain rfl := spells_single.mp h
      exact .integer
  | decimal text =>
      obtain rfl := spells_single.mp h
      exact .decimal
  | var op name =>
      obtain ⟨choice, hchoice, _, hname, rfl⟩ := spells_cons.mp h
      obtain rfl := spells_single.mp hname
      exact .var hchoice
  | call name arguments ih =>
      obtain ⟨_, hrest, rfl⟩ := spells_fixed.mp h
      obtain ⟨_, harguments, rfl⟩ := spells_append_single.mp hrest
      rw [segmentsAll_eq_flatMap] at harguments
      obtain ⟨texts, htexts, rfl⟩ := Segment.exists_spaced (fun a ha _ => ih a ha) harguments
      simpa using Expr.Spelled.call (Pieces.of_spaced htexts)
  | compound left op right ihl ihr =>
      obtain ⟨tl, _, hl, hop, rfl⟩ := spells_append.mp h
      obtain ⟨tr, hr, rfl⟩ := spells_fixed.mp hop
      simpa using Expr.Spelled.compound (ihl hl) (ihr hr)
  | field object member =>
      obtain rfl := spells_single.mp h
      simpa using Expr.Spelled.field

/-- A statement is written as blanks, one of its spellings and the end of the line. -/
def Stmt.Line (s : Stmt) (indent : String) (t : List Char) : Prop :=
  ∃ u, s.Spelled u ∧ t = indent.toList ++ (u ++ ['\n'])

section Bodies

variable {indent : String} {body : List Stmt} {t : List Char}

theorem Stmt.pieces_of_spells (hindent : Blank indent.toList)
    (hbody : ∀ s ∈ body, ∀ indent t, Blank indent.toList → Spells (s.segments indent) t →
      s.Line indent t)
    (h : Spells (Stmt.segmentsAll indent body) t) : Pieces Stmt.Spelled body t := by
  induction body generalizing t with
  | nil =>
      obtain rfl := spells_nil.mp h
      exact .nil Scan.blank_nil
  | cons s body ih =>
      obtain ⟨_, rest, hs, hrest, rfl⟩ := spells_append.mp h
      obtain ⟨u, hu, rfl⟩ := hbody s List.mem_cons_self indent _ hindent hs
      have hpieces := ih (fun a ha => hbody a (List.mem_cons_of_mem _ ha)) hrest
      simpa using Pieces.cons hindent hu Scan.gap_newline hpieces

theorem Stmt.pieces_of_spells_body (hindent : Blank indent.toList)
    (hbody : ∀ s ∈ body, ∀ indent t, Blank indent.toList → Spells (s.segments indent) t →
      s.Line indent t)
    (h : Spells (Stmt.bodySegments indent body) t) :
    ∃ ts, Pieces Stmt.Spelled body ts ∧ t = ' ' :: '{' :: (ts ++ ['}']) := by
  cases body with
  | nil =>
      obtain rfl := spells_single.mp h
      exact ⟨[' '], .nil Scan.gap_space.blank, rfl⟩
  | cons s body =>
      obtain ⟨_, hrest, rfl⟩ := spells_fixed.mp h
      -- the first statement and the others are the lines of one body, one indent deeper
      rw [← List.append_assoc] at hrest
      obtain ⟨lines, _, hlines, hend, rfl⟩ := spells_append.mp hrest
      obtain ⟨_, hbrace, rfl⟩ := spells_fixed.mp hend
      obtain rfl := spells_single.mp hbrace
      have hdeeper : Blank (indent ++ "    ").toList := by
        rw [String.toList_append]
        exact Scan.blank_append hindent (Scan.blank_of_all rfl)
      have hpieces : Pieces Stmt.Spelled (s :: body) lines :=
        Stmt.pieces_of_spells hdeeper hbody hlines
      exact ⟨_, (hpieces.append_blank hindent).blank_append Scan.gap_newline.blank, by simp⟩

theorem Stmt.line_of_spells {s : Stmt} (hindent : Blank indent.toList)
    (h : Spells (s.segments indent) t) : s.Line indent t := by
  induction s generalizing indent t with
  | bare expr =>
      obtain ⟨_, hexpr, rfl⟩ := spells_fixed.mp h
      obtain ⟨te, he, rfl⟩ := spells_append_single.mp hexpr
      exact ⟨te, .bare (Expr.spelled_of_spells he), by simp⟩
  | assign target value =>
      obtain ⟨_, htarget, rfl⟩ := spells_fixed.mp h
      obtain ⟨tt, _, ht, hsign, rfl⟩ := spells_append.mp htarget
      obtain ⟨_, hvalue, rfl⟩ := spells_fixed.mp hsign
      obtain ⟨tv, hv, rfl⟩ := spells_append_single.mp hvalue
      exact ⟨_, .assign (Expr.spelled_of_spells ht) (Expr.spelled_of_spells hv), by simp⟩
  | verify expr =>
      obtain ⟨_, hword, rfl⟩ := spells_fixed.mp h
      obtain ⟨_, hexpr, rfl⟩ := spells_fixed.mp hword
      obtain ⟨te, he, rfl⟩ := spells_append_single.mp hexpr
      exact ⟨_, .verify (Expr.spelled_of_spells he), by simp⟩
  | constrain expr =>
      obtain ⟨_, hword, rfl⟩ := spells_fixed.mp h
      obtain ⟨_, hexpr, rfl⟩ := spells_fixed.mp hword
      obtain ⟨te, he, rfl⟩ := spells_append_single.mp hexpr
      exact ⟨_, .constrain (Expr.spelled_of_spells he), by simp⟩
  | branch condition body ih =>
      obtain ⟨_, hword, rfl⟩ := spells_fixed.mp h
      obtain ⟨_, hcondition, rfl⟩ := spells_fixed.mp hword
      obtain ⟨tc, _, hc, hbracket, rfl⟩ := spells_append.mp hcondition
      obtain ⟨_, hend, rfl⟩ := spells_fixed.mp hbracket
      obtain ⟨_, hbody, rfl⟩ := spells_append_single.mp hend
      obtain ⟨ts, hts, rfl⟩ :=
        pieces_of_spells_body hindent (fun a ha indent t hi h => ih a ha hi h) hbody
      exact ⟨_, .branch (Expr.spelled_of_spells hc) hts, by simp⟩
  | loop condition body ih =>
      obtain ⟨_, hword, rfl⟩ := spells_fixed.mp h
      obtain ⟨_, hcondition, rfl⟩ := spells_fixed.mp hword
      obtain ⟨tc, _, hc, hbracket, rfl⟩ := spells_append.mp hcondition
      obtain ⟨_, hend, rfl⟩ := spells_fixed.mp hbracket
      obtain ⟨_, hbody, rfl⟩ := spells_append_single.mp hend
      obtain ⟨ts, hts, rfl⟩ :=
        pieces_of_spells_body hindent (fun a ha indent t hi h => ih a ha hi h) hbody
      exact ⟨_, .loop (Expr.spelled_of_spells hc) hts, by simp⟩

theorem Stmt.spelled_of_write {s : Stmt} {g : DepthGuard} {text : String}
    (hindent : Blank indent.toList) (h : s.write g indent = .ok text) :
    s.Line indent text.toList := by
  rw [text_of_write h]
  exact line_of_spells hindent (Segment.spells_text _)

end Bodies

end Statements

/-- Whatever is chosen for the parts of the text of a program, the text spells it. -/
theorem Program.spelled_of_spells {p : Program} {segments : List Segment} {t : List Char}
    (hp : p.segments = .ok segments) (h : Spells segments t) : p.Spelled t := by
  simp only [Program.segments, bind_eq_ok, pure, Except.pure] at hp
  obtain ⟨declarations, hdeclarations, heq⟩ := hp
  cases heq
  obtain ⟨ds, ss, hds, hss, rfl⟩ := spells_append.mp h
  refine ⟨ds, ss, Declaration.pieces_of_spells hdeclarations hds, ?_, rfl⟩
  have hindent : Blank "".toList := Scan.blank_nil
  exact Stmt.pieces_of_spells hindent (fun _ _ _ _ => Stmt.line_of_spells) hss

theorem Program.spelled_of_write {p : Program} {validate : Bool} {maxDepth : Option Int}
    {t : String} (h : p.write validate maxDepth = .ok t) : p.Spelled t.toList := by
  obtain ⟨segments, hsegments, rfl⟩ := segments_of_write h
  exact spelled_of_spells hsegments (Segment.spells_text segments)

end FuzzFrontend
