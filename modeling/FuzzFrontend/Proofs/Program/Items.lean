import FuzzFrontend.Proofs.Program.RoundTrip

namespace FuzzFrontend

open Scan Program.Grammar

/-- What a program consists of at the top. -/
inductive Item
  | declaration (d : Declaration)
  | statement (s : Stmt)

/-- The statement is the given one, or stands in its body at any depth. -/
inductive Stmt.Within (s : Stmt) : Stmt → Prop
  | self : s.Within s
  | branch {condition : Expr} {body : List Stmt} {t : Stmt} (ht : t ∈ body) (h : s.Within t) :
      s.Within (.branch condition body)
  | loop {condition : Expr} {body : List Stmt} {t : Stmt} (ht : t ∈ body) (h : s.Within t) :
      s.Within (.loop condition body)

theorem Stmt.Within.spellable {s t : Stmt} (h : s.Within t) (ht : t.Spellable) : s.Spellable := by
  induction h with
  | self => exact ht
  | branch hmem _ ih =>
      cases ht with
      | branch _ hbody => exact ih (hbody _ hmem)
  | loop hmem _ ih =>
      cases ht with
      | loop _ hbody => exact ih (hbody _ hmem)

theorem Stmt.Within.nesting_le {s t : Stmt} (h : s.Within t) : s.nesting ≤ t.nesting := by
  induction h with
  | self => exact Nat.le_refl _
  | branch hmem _ ih =>
      have hbody := Stmt.nestingAll_le_iff.mp (Nat.le_refl _) _ hmem
      simp only [Stmt.nesting]
      omega
  | loop hmem _ ih =>
      have hbody := Stmt.nestingAll_le_iff.mp (Nat.le_refl _) _ hmem
      simp only [Stmt.nesting]
      omega

namespace Declaration

theorem writeAll_cons {d : Declaration} {reached : Phase} (h : reached.rank ≤ d.phase.rank)
    (rest : List Declaration) :
    writeAll reached (d :: rest) = do
      let text ← d.write
      let others ← writeAll d.phase rest
      return text ++ "\n" ++ others := by
  rw [writeAll, if_neg (Nat.not_lt.mpr h)]

theorem writeAll_cons_of_late {d : Declaration} {reached : Phase}
    (h : d.phase.rank < reached.rank) (rest : List Declaration) :
    writeAll reached (d :: rest) = .error (.unspellable (.latePhase d.kind)) := by
  rw [writeAll, if_pos h]
  rfl

end Declaration

namespace Item

def phase : Item → Phase
  | declaration d => d.phase
  | statement _ => .statements

def declaration? : Item → Option Declaration
  | declaration d => some d
  | statement _ => none

def statement? : Item → Option Stmt
  | declaration _ => none
  | statement s => some s

/-- The program of some items: the declarations and the statements among them. -/
def assemble (items : List Item) : Program :=
  ⟨items.filterMap declaration?, items.filterMap statement?⟩

/-- The program of nothing but the item. -/
def program (item : Item) : Program :=
  assemble [item]

/-- The item stands in the program: a declaration at the top, a statement at any depth. -/
def OccursIn (p : Program) : Item → Prop
  | declaration d => d ∈ p.declarations
  | statement s => ∃ t ∈ p.statements, s.Within t

/-- The item stands in a program that is read from some source under the limits. -/
def Readable (limits : Limits) (item : Item) : Prop :=
  ∃ source p, Program.read source limits = .ok p ∧ item.OccursIn p

/-- No item stands before one of an earlier phase. -/
def Ordered (items : List Item) : Prop :=
  items.Pairwise fun a b => a.phase.rank ≤ b.phase.rank

theorem not_rank_le_declaration (s : Stmt) (d : Declaration) :
    ¬(statement s).phase.rank ≤ (declaration d).phase.rank := by
  cases d <;> simp [phase, Declaration.phase, Phase.rank]

section Programs

variable {items : List Item} {item : Item} {limits : Limits}

theorem mem_declarations_assemble {d : Declaration} :
    d ∈ (assemble items).declarations ↔ declaration d ∈ items := by
  constructor
  · intro hd
    obtain ⟨item, hitem, heq⟩ := List.mem_filterMap.mp hd
    cases item with
    | declaration e =>
        cases heq
        exact hitem
    | statement s => cases heq
  · exact fun hd => List.mem_filterMap.mpr ⟨declaration d, hd, rfl⟩

theorem mem_statements_assemble {s : Stmt} :
    s ∈ (assemble items).statements ↔ statement s ∈ items := by
  constructor
  · intro hs
    obtain ⟨item, hitem, heq⟩ := List.mem_filterMap.mp hs
    cases item with
    | declaration d => cases heq
    | statement t =>
        cases heq
        exact hitem
  · exact fun hs => List.mem_filterMap.mpr ⟨statement s, hs, rfl⟩

theorem spellable_of_readable (h : item.Readable limits) :
    item.program.Spellable ∧ item.program.nesting ≤ (Program.clamped limits).nesting.toNat := by
  obtain ⟨source, p, hread, hitem⟩ := h
  obtain ⟨hp, hnesting⟩ := spellable_of_program rfl (Program.program_of_read hread)
  rw [room_of_limit] at hnesting
  cases item with
  | declaration d =>
      refine ⟨⟨List.pairwise_singleton _ _, ?_, nofun⟩, Nat.zero_le _⟩
      intro e he
      obtain rfl := List.mem_singleton.mp he
      exact hp.declarations e hitem
  | statement s =>
      obtain ⟨t, ht, hwithin⟩ := hitem
      refine ⟨⟨.nil, nofun, ?_⟩, ?_⟩
      · intro e he
        obtain rfl := List.mem_singleton.mp he
        exact hwithin.spellable (hp.statements t ht)
      · have hbound := Nat.le_trans hwithin.nesting_le (Stmt.nestingAll_le_iff.mp hnesting t ht)
        exact Nat.max_le.mpr ⟨hbound, Nat.zero_le _⟩

theorem readable_of_write {validate : Bool} {maxDepth : Option Int} {line : String}
    (h : item.program.Spellable)
    (hnesting : item.program.nesting ≤ (Program.clamped limits).nesting.toNat)
    (hline : item.program.write validate maxDepth = .ok line)
    (hsize : limits.sizeError? "ProgramParser" line = none) : item.Readable limits := by
  refine ⟨line, item.program, ?_, ?_⟩
  · exact (Program.read_eq_ok_iff hsize).mpr ((Program.program_of_write h hline _).mpr hnesting)
  · cases item with
    | declaration d => exact List.mem_cons_self
    | statement s => exact ⟨s, List.mem_cons_self, .self⟩

theorem spellable_assemble (hordered : Ordered items)
    (h : ∀ item ∈ items, item.program.Spellable) : (assemble items).Spellable := by
  refine ⟨?_, ?_, ?_⟩
  · refine List.pairwise_filterMap.mpr (hordered.imp ?_)
    rintro (d | s) (e | t) hle _ ⟨⟩ _ ⟨⟩
    exact hle
  · intro d hd
    exact (h _ (mem_declarations_assemble.mp hd)).declarations d List.mem_cons_self
  · intro s hs
    exact (h _ (mem_statements_assemble.mp hs)).statements s List.mem_cons_self

theorem nesting_assemble_le {n : Nat} (h : ∀ item ∈ items, item.program.nesting ≤ n) :
    (assemble items).nesting ≤ n := by
  refine Stmt.nestingAll_le_iff.mpr fun s hs => ?_
  have hs := h _ (mem_statements_assemble.mp hs)
  exact Stmt.nestingAll_le_iff.mp hs s List.mem_cons_self

end Programs

section Lines

variable {items : List Item} {item : Item} {line : String} {lines : List String}

/-- The text spells the item. -/
def Spelled : Item → List Char → Prop
  | declaration d => d.Spelled
  | statement s => s.Spelled

/-- An item is written as one of its spellings and the end of the line. -/
def Line (item : Item) (line : String) : Prop :=
  ∃ t, item.Spelled t ∧ line.toList = t ++ ['\n']

theorem line_of_write {validate : Bool} {maxDepth : Option Int}
    (h : item.program.write validate maxDepth = .ok line) : item.Line line := by
  simp only [Program.write_of_check (Program.check_of_write h), bind_eq_ok, pure, Except.pure] at h
  obtain ⟨ds, hds, ss, hss, ht⟩ := h
  cases ht
  cases item with
  | declaration d =>
      change Declaration.writeAll .headers [d] = .ok ds at hds
      change Stmt.writeAll _ _ [] = .ok ss at hss
      rw [Declaration.writeAll_cons (Nat.zero_le _)] at hds
      simp only [bind_eq_ok, pure, Except.pure] at hds
      obtain ⟨text, htext, _, hnil, ht⟩ := hds
      cases hss
      cases hnil
      cases ht
      exact ⟨text.toList, Declaration.spelled_of_write htext, by simp⟩
  | statement s =>
      change Declaration.writeAll _ [] = .ok ds at hds
      change Stmt.writeAll _ "" [s] = .ok ss at hss
      simp only [Stmt.writeAll, bind_eq_ok, pure, Except.pure] at hss
      obtain ⟨text, htext, _, hnil, ht⟩ := hss
      cases hds
      cases hnil
      cases ht
      have hindent : Blank "".toList := blank_nil
      obtain ⟨u, hu, heq⟩ := Stmt.spelled_of_write hindent htext
      exact ⟨u, hu, by simp [heq]⟩

/-- Lines of items in order are the spellings of the declarations and those of the statements. -/
theorem exists_pieces (hordered : Ordered items) (hlines : List.Forall₂ Line items lines) :
    ∃ dt st, Pieces Declaration.Spelled (assemble items).declarations dt ∧
      Pieces Stmt.Spelled (assemble items).statements st ∧
        (String.join lines).toList = dt ++ st := by
  induction hlines with
  | nil => exact ⟨[], [], .nil blank_nil, .nil blank_nil, rfl⟩
  | @cons item line items lines hline _ ih =>
      obtain ⟨hfirst, hordered⟩ := List.pairwise_cons.mp hordered
      obtain ⟨dt, st, hdt, hst, htext⟩ := ih hordered
      obtain ⟨t, ht, hline⟩ := hline
      cases item with
      | declaration d =>
          refine ⟨[] ++ (t ++ (['\n'] ++ dt)), st, .cons blank_nil ht gap_newline hdt, hst, ?_⟩
          simp [String.join_cons, hline, htext]
      | statement s =>
          -- no declaration comes after a statement, so that nothing is left of them but blanks
          have hnone : (assemble items).declarations = [] := by
            refine List.eq_nil_iff_forall_not_mem.mpr fun d hd => ?_
            exact not_rank_le_declaration s d (hfirst _ (mem_declarations_assemble.mp hd))
          rw [hnone] at hdt
          cases hdt with
          | nil hblank =>
              refine ⟨[], [] ++ (t ++ (['\n'] ++ (dt ++ st))), ?_, ?_, ?_⟩
              · rw [assemble, List.filterMap_cons_none rfl]
                rw [assemble] at hnone
                rw [hnone]
                exact .nil blank_nil
              · exact .cons blank_nil ht gap_newline (hst.blank_append hblank)
              · simp [String.join_cons, hline, htext]

theorem exists_front {xs ys : List Item} {x : Item}
    (h : List.Forall₂ Line (xs ++ x :: ys) lines) :
    ∃ front line others, lines = front ++ line :: others ∧ List.Forall₂ Line xs front ∧
      x.Line line := by
  have hfront := List.forall₂_take xs.length h
  have hrest := List.forall₂_drop xs.length h
  rw [List.take_left] at hfront
  rw [List.drop_left] at hrest
  obtain ⟨line, others, hline, -, hdrop⟩ := List.forall₂_cons_left_iff.mp hrest
  exact ⟨lines.take xs.length, line, others, by rw [← hdrop, List.take_append_drop], hfront, hline⟩

end Lines

end Item

end FuzzFrontend
