import FuzzFrontend.Program.Check
import FuzzFrontend.Proofs.Program.Spellable
import FuzzFrontend.Proofs.Scan.Integer
import FuzzFrontend.Proofs.Writing

/-!
The text of a program, cut where it may be spelled in more ways than one: before each variable,
where its operator stands, also when none is written, and after the name of each entry of an enum
that is zero. What is chosen at one place has no effect on the others. The text that is written is
that with the canonical choice everywhere.
-/
namespace FuzzFrontend

/-- What may be written before a variable for an operator. A star is left out: after a complete
expression it would be read as a product. -/
def UnaryOp.spellings : UnaryOp → List String
  | .plain => ["", "op:null "]
  | .deref => ["op:deref ", "op:* "]
  | .addressOf => ["op:addressof ", "op:& ", "&"]

theorem UnaryOp.spelling_mem_spellings (op : UnaryOp) : op.spelling ∈ op.spellings := by
  cases op <;> decide

/-- A part of the text of a program. -/
inductive Segment
  /-- Text that stands as it is. -/
  | fixed (text : String)
  /-- The place before a variable. -/
  | operator (op : UnaryOp)
  /-- The place between the name of an entry that is zero and its comma. -/
  | zero

namespace Segment

/-- What is written for a part. -/
@[simp]
def canonical : Segment → String
  | fixed text => text
  | operator op => op.spelling
  | zero => " = 0"

/-- What may be written for a part. -/
def spellings : Segment → List String
  | fixed text => [text]
  | operator op => op.spellings
  | zero => [" = 0", ""]

theorem canonical_mem_spellings (s : Segment) : s.canonical ∈ s.spellings := by
  cases s with
  | fixed text => exact List.mem_singleton_self text
  | operator op => exact op.spelling_mem_spellings
  | zero => exact List.mem_cons_self

/-- The text with the canonical choice everywhere. -/
def text (segments : List Segment) : String :=
  String.join (segments.map canonical)

@[simp]
theorem text_nil : text [] = "" :=
  rfl

@[simp]
theorem text_cons (s : Segment) (segments : List Segment) :
    text (s :: segments) = s.canonical ++ text segments := by
  simp [text, String.join_cons]

@[simp]
theorem text_append (front back : List Segment) :
    text (front ++ back) = text front ++ text back := by
  induction front with
  | nil => simp
  | cons s front ih => simp [ih, String.append_assoc]

/-- A text with one choice for each part. -/
inductive Spells : List Segment → List Char → Prop
  | nil : Spells [] []
  | cons {s : Segment} {segments : List Segment} {choice : String} {t : List Char}
      (h : choice ∈ s.spellings) (ht : Spells segments t) :
      Spells (s :: segments) (choice.toList ++ t)

variable {front back segments : List Segment} {t : List Char}

theorem spells_text (segments : List Segment) : Spells segments (text segments).toList := by
  induction segments with
  | nil => exact .nil
  | cons s segments ih =>
      rw [text_cons, String.toList_append]
      exact .cons s.canonical_mem_spellings ih

theorem spells_append :
    Spells (front ++ back) t ↔ ∃ u v, Spells front u ∧ Spells back v ∧ t = u ++ v := by
  constructor
  · intro h
    induction front generalizing t with
    | nil => exact ⟨[], t, .nil, h, rfl⟩
    | cons s front ih =>
        cases h with
        | @cons _ _ choice t hchoice ht =>
            obtain ⟨u, v, hu, hv, rfl⟩ := ih ht
            exact ⟨choice.toList ++ u, v, .cons hchoice hu, hv, (List.append_assoc _ _ _).symm⟩
  · rintro ⟨u, v, hu, hv, rfl⟩
    induction hu with
    | nil => exact hv
    | cons hchoice _ ih =>
        rw [List.append_assoc]
        exact .cons hchoice ih

theorem spells_nil : Spells [] t ↔ t = [] := by
  constructor
  · rintro ⟨⟩
    rfl
  · rintro rfl
    exact .nil

theorem spells_cons {s : Segment} :
    Spells (s :: segments) t ↔
      ∃ choice ∈ s.spellings, ∃ u, Spells segments u ∧ t = choice.toList ++ u := by
  constructor
  · rintro ⟨⟩
    rename_i choice u hchoice hu
    exact ⟨choice, hchoice, u, hu, rfl⟩
  · rintro ⟨choice, hchoice, u, hu, rfl⟩
    exact .cons hchoice hu

theorem spells_fixed {text : String} :
    Spells (.fixed text :: segments) t ↔ ∃ u, Spells segments u ∧ t = text.toList ++ u := by
  simp [spells_cons, spellings]

/-- The choices are made one by one, each on its own. -/
theorem spells_iff_choices :
    Spells segments t ↔ ∃ choices : List String,
      List.Forall₂ (fun s choice => choice ∈ s.spellings) segments choices ∧
        t = choices.flatMap String.toList := by
  constructor
  · intro h
    induction h with
    | nil => exact ⟨[], .nil, rfl⟩
    | @cons s _ choice t hchoice _ ih =>
        obtain ⟨choices, hchoices, rfl⟩ := ih
        exact ⟨choice :: choices, .cons hchoice hchoices, rfl⟩
  · rintro ⟨choices, hchoices, rfl⟩
    induction hchoices with
    | nil => exact .nil
    | cons hchoice _ ih => exact .cons hchoice ih

theorem spells_single {text : String} : Spells [.fixed text] t ↔ t = text.toList := by
  simp [spells_fixed, spells_nil]

theorem spells_append_single {text : String} :
    Spells (front ++ [.fixed text]) t ↔ ∃ u, Spells front u ∧ t = u ++ text.toList := by
  simp [spells_append, spells_single]

end Segment

namespace Expr

mutual

/-- The parts of the text of an expression. -/
def segments : Expr → List Segment
  | integer text => [.fixed text]
  | decimal text => [.fixed text]
  | var op name => [.operator op, .fixed name]
  | field object member => [.fixed (object ++ "." ++ member)]
  | call name arguments =>
    .fixed ("function:call " ++ name ++ " \x7b") :: (segmentsAll arguments ++ [.fixed " \x7d"])
  | compound left op right =>
    left.segments ++ .fixed (" " ++ op.symbol ++ " ") :: right.segments

def segmentsAll : List Expr → List Segment
  | [] => []
  | e :: rest => .fixed " " :: (e.segments ++ segmentsAll rest)

end

theorem segmentsAll_eq_flatMap (es : List Expr) :
    segmentsAll es = es.flatMap fun e => .fixed " " :: e.segments := by
  induction es with
  | nil => rfl
  | cons e es ih => rw [segmentsAll, ih, List.flatMap_cons, List.cons_append]

theorem write_compound (g : DepthGuard) (inChain : Bool) (left right : Expr) (op : BinaryOp) :
    (compound left op right).write g inChain = do
      let inner ← g.enterChain inChain (compound left op right).bracketFault?
      let tl ← left.write inner true
      let tr ← right.write inner false
      return tl ++ " " ++ op.symbol ++ " " ++ tr := by
  rw [write]
  cases inChain with
  | true => rfl
  | false =>
      simp only [Bool.false_eq_true, if_false, DepthGuard.enterChain]
      cases (compound left op right).bracketFault? <;> rfl

theorem text_of_writeAll {g : DepthGuard} {es : List Expr} {t : String}
    (hes : ∀ e ∈ es, ∀ g inChain t, e.write g inChain = .ok t → t = Segment.text e.segments)
    (h : writeAll g es = .ok t) : t = Segment.text (segmentsAll es) := by
  induction es generalizing t with
  | nil =>
      cases h
      rfl
  | cons e es ih =>
      simp only [writeAll, bind_eq_ok, pure, Except.pure] at h
      obtain ⟨text, he, others, hothers, ht⟩ := h
      cases ht
      have htext := hes e List.mem_cons_self g false text he
      have hrest := ih (fun a ha => hes a (List.mem_cons_of_mem _ ha)) hothers
      simp [segmentsAll, htext, hrest, String.append_assoc]

theorem text_of_write {e : Expr} {g : DepthGuard} {inChain : Bool} {t : String}
    (h : e.write g inChain = .ok t) : t = Segment.text e.segments := by
  induction e generalizing g inChain t with
  | integer text =>
      cases h
      simp [segments]
  | decimal text =>
      cases h
      simp [segments]
  | var op name =>
      cases h
      simp [segments]
  | call name arguments ih =>
      simp only [write, bind_eq_ok, pure, Except.pure] at h
      obtain ⟨inner, -, text, harguments, ht⟩ := h
      cases ht
      have htext := text_of_writeAll (fun a ha g inChain t h => ih a ha h) harguments
      simp [segments, htext, String.append_assoc]
  | compound left op right ihl ihr =>
      simp only [write_compound, bind_eq_ok, pure, Except.pure] at h
      obtain ⟨inner, -, tl, hl, tr, hr, ht⟩ := h
      cases ht
      simp [segments, ← ihl hl, ← ihr hr, String.append_assoc]
  | field object member =>
      cases h
      simp [segments]

end Expr

namespace Stmt

mutual

/-- The parts of the text of a statement on lines of its own, each after the given indent. -/
def segments (indent : String) : Stmt → List Segment
  | bare expr => .fixed indent :: (expr.segments ++ [.fixed "\n"])
  | assign target value =>
    .fixed indent :: (target.segments ++ .fixed " = " :: (value.segments ++ [.fixed "\n"]))
  | verify expr => .fixed indent :: .fixed "verify:new " :: (expr.segments ++ [.fixed "\n"])
  | constrain expr =>
    .fixed indent :: .fixed "constraint:new " :: (expr.segments ++ [.fixed "\n"])
  | branch condition body =>
    .fixed indent :: .fixed "if ( " ::
      (condition.segments ++ .fixed " )" :: (bodySegments indent body ++ [.fixed "\n"]))
  | loop condition body =>
    .fixed indent :: .fixed "while ( " ::
      (condition.segments ++ .fixed " )" :: (bodySegments indent body ++ [.fixed "\n"]))

def bodySegments (indent : String) : List Stmt → List Segment
  | [] => [.fixed " \x7b \x7d"]
  | s :: rest =>
    .fixed " \x7b\n" :: (s.segments (indent ++ "    ") ++
      (segmentsAll (indent ++ "    ") rest ++ [.fixed indent, .fixed "\x7d"]))

def segmentsAll (indent : String) : List Stmt → List Segment
  | [] => []
  | s :: rest => s.segments indent ++ segmentsAll indent rest

end

section Texts

variable {g : DepthGuard} {indent t : String} {body : List Stmt}

theorem text_of_writeAll
    (hbody : ∀ s ∈ body, ∀ g indent t, s.write g indent = .ok t →
      t = Segment.text (s.segments indent))
    (h : writeAll g indent body = .ok t) : t = Segment.text (segmentsAll indent body) := by
  induction body generalizing t with
  | nil =>
      cases h
      rfl
  | cons s body ih =>
      simp only [writeAll, bind_eq_ok, pure, Except.pure] at h
      obtain ⟨text, hs, others, hothers, ht⟩ := h
      cases ht
      have htext := hbody s List.mem_cons_self g indent text hs
      have hrest := ih (fun a ha => hbody a (List.mem_cons_of_mem _ ha)) hothers
      simp [segmentsAll, htext, hrest]

theorem text_of_writeBody
    (hbody : ∀ s ∈ body, ∀ g indent t, s.write g indent = .ok t →
      t = Segment.text (s.segments indent))
    (h : writeBody g indent body = .ok t) : t = Segment.text (bodySegments indent body) := by
  cases body with
  | nil =>
      cases h
      simp [bodySegments]
  | cons s body =>
      simp only [writeBody, bind_eq_ok, pure, Except.pure] at h
      obtain ⟨inner, -, first, hs, others, hothers, ht⟩ := h
      cases ht
      have hfirst := hbody s List.mem_cons_self inner _ first hs
      have hrest := text_of_writeAll (fun a ha => hbody a (List.mem_cons_of_mem _ ha)) hothers
      simp [bodySegments, hfirst, hrest, String.append_assoc]

theorem text_of_write {s : Stmt} (h : s.write g indent = .ok t) :
    t = Segment.text (s.segments indent) := by
  induction s generalizing g indent t with
  | bare expr =>
      simp only [write, bind_eq_ok, pure, Except.pure] at h
      obtain ⟨text, he, ht⟩ := h
      cases ht
      simp [segments, Expr.text_of_write he, String.append_assoc]
  | assign target value =>
      simp only [write, bind_eq_ok, pure, Except.pure] at h
      obtain ⟨left, hleft, right, hright, ht⟩ := h
      cases ht
      simp [segments, Expr.text_of_write hleft, Expr.text_of_write hright,
        String.append_assoc]
  | verify expr =>
      simp only [write, bind_eq_ok, pure, Except.pure] at h
      obtain ⟨text, he, ht⟩ := h
      cases ht
      simp [segments, Expr.text_of_write he, String.append_assoc]
  | constrain expr =>
      simp only [write, bind_eq_ok, pure, Except.pure] at h
      obtain ⟨text, he, ht⟩ := h
      cases ht
      simp [segments, Expr.text_of_write he, String.append_assoc]
  | branch condition body ih =>
      simp only [write, bind_eq_ok, pure, Except.pure] at h
      obtain ⟨test, htest, text, hbody, ht⟩ := h
      cases ht
      have htext := text_of_writeBody (fun a ha g indent t h => ih a ha h) hbody
      simp [segments, Expr.text_of_write htest, htext, String.append_assoc]
  | loop condition body ih =>
      simp only [write, bind_eq_ok, pure, Except.pure] at h
      obtain ⟨test, htest, text, hbody, ht⟩ := h
      cases ht
      have htext := text_of_writeBody (fun a ha g indent t h => ih a ha h) hbody
      simp [segments, Expr.text_of_write htest, htext, String.append_assoc]

end Texts

end Stmt

/-- The parts of the text of an entry. Its value may be left out when it is zero. -/
def EnumValue.segments (v : EnumValue) : List Segment :=
  if v.value = 0 then [.fixed v.name, .zero, .fixed ","] else [.fixed v.write]

theorem EnumValue.write_of_zero {v : EnumValue} (h : v.value = 0) :
    v.write = v.name ++ (" = 0" ++ ",") := by
  have hzero : Text.integer 0 = "0" := String.toList_injective Text.integer_zero
  simp [write, h, hzero, String.append_assoc]

theorem EnumValue.text_segments (v : EnumValue) : Segment.text v.segments = v.write := by
  unfold segments
  split
  · rename_i h
    simp [write_of_zero h]
  · simp

namespace Declaration

/-- The parts of the text of a declaration. Only those of enums have choices. -/
def segments : Declaration → Except WriteError (List Segment)
  | define (.enum name values) =>
    .ok (.fixed ("enum " ++ name ++ " \x7b") ::
      (values.flatMap (fun v => .fixed " " :: v.segments) ++ [.fixed " \x7d"]))
  | d => d.write.map fun text => [.fixed text]

/-- The parts of the texts of declarations, each ending its line. -/
def segmentsAll : List Declaration → Except WriteError (List Segment)
  | [] => .ok []
  | d :: rest => do
    let segments ← d.segments
    return segments ++ .fixed "\n" :: (← segmentsAll rest)

theorem segments_of_write {d : Declaration} {t : String} (h : d.write = .ok t) :
    ∃ segments, d.segments = .ok segments ∧ t = Segment.text segments := by
  unfold segments
  split
  · rename_i name values
    cases h
    have hvalues : Segment.text (values.flatMap fun v => .fixed " " :: v.segments) =
        String.join (values.map fun v => " " ++ v.write) := by
      induction values with
      | nil => rfl
      | cons v values ih =>
          simp [ih, EnumValue.text_segments, String.append_assoc]
    exact ⟨_, rfl, by simp [hvalues, String.append_assoc]⟩
  · rw [h]
    exact ⟨[.fixed t], rfl, by simp⟩

theorem segmentsAll_of_writeAll {reached : Phase} {ds : List Declaration} {t : String}
    (h : writeAll reached ds = .ok t) :
    ∃ segments, segmentsAll ds = .ok segments ∧ t = Segment.text segments := by
  induction ds generalizing reached t with
  | nil =>
      cases h
      exact ⟨[], rfl, rfl⟩
  | cons d ds ih =>
      unfold writeAll at h
      split at h
      · cases h
      · simp only [bind_eq_ok, pure, Except.pure] at h
        obtain ⟨text, hd, others, hds, ht⟩ := h
        cases ht
        obtain ⟨first, hfirst, rfl⟩ := segments_of_write hd
        obtain ⟨rest, hrest, rfl⟩ := ih hds
        refine ⟨first ++ .fixed "\n" :: rest, ?_, ?_⟩
        · simp only [segmentsAll, hfirst, hrest]
          rfl
        · simp [String.append_assoc]

end Declaration

namespace Program

/-- The parts of the text of a program. -/
def segments (p : Program) : Except WriteError (List Segment) := do
  let declarations ← Declaration.segmentsAll p.declarations
  return declarations ++ Stmt.segmentsAll "" p.statements

theorem write_of_check {p : Program} {validate : Bool}
    (h : validate = true → p.check = .ok ()) (maxDepth : Option Int) :
    p.write validate maxDepth = do
      let ds ← Declaration.writeAll .headers p.declarations
      let ss ← Stmt.writeAll (.ofRequest maxDepth) "" p.statements
      return ds ++ ss := by
  cases validate with
  | false => rfl
  | true =>
      simp only [write, h rfl]
      rfl

theorem check_of_write {p : Program} {validate : Bool} {maxDepth : Option Int}
    {t : String} (h : p.write validate maxDepth = .ok t) : validate = true → p.check = .ok () := by
  rintro rfl
  simp only [write, if_true, bind_eq_ok, mapError_eq_ok] at h
  obtain ⟨_, hcheck, -⟩ := h
  exact hcheck

theorem segments_of_write {p : Program} {validate : Bool} {maxDepth : Option Int}
    {t : String} (h : p.write validate maxDepth = .ok t) :
    ∃ segments, p.segments = .ok segments ∧ t = Segment.text segments := by
  simp only [write_of_check (check_of_write h), bind_eq_ok, pure, Except.pure] at h
  obtain ⟨ds, hds, ss, hss, ht⟩ := h
  cases ht
  obtain ⟨segments, hsegments, rfl⟩ := Declaration.segmentsAll_of_writeAll hds
  have hstatements := Stmt.text_of_writeAll (fun _ _ _ _ _ => Stmt.text_of_write) hss
  refine ⟨segments ++ Stmt.segmentsAll "" p.statements, ?_, ?_⟩
  · simp only [Program.segments, hsegments]
    rfl
  · simp [hstatements]

end Program

end FuzzFrontend
