import Mathlib.Data.List.Induction
import FuzzFrontend.Proofs.Program.Items
import FuzzFrontend.Proofs.Scan.Place

namespace FuzzFrontend

open Scan Program.Grammar

namespace Item

/-- Where the phase falls for the first time. -/
structure FirstLate (items before : List Item) (previous : Item) (late : Declaration)
    (after : List Item) : Prop where
  split : items = before ++ previous :: declaration late :: after
  ordered : Ordered (before ++ [previous])
  falls : late.phase.rank < previous.phase.rank

theorem exists_declaration_of_rank_lt {a b : Item} (h : b.phase.rank < a.phase.rank) :
    ∃ d, b = declaration d := by
  cases b with
  | declaration d => exact ⟨d, rfl⟩
  | statement s =>
      have hrank : a.phase.rank ≤ Phase.statements.rank := by
        cases a.phase <;> decide
      exact absurd h (Nat.not_lt.mpr hrank)

theorem ordered_append_singleton {front : List Item} {last item : Item}
    (h : Ordered (front ++ [last])) (hlast : last.phase.rank ≤ item.phase.rank) :
    Ordered (front ++ [last] ++ [item]) := by
  refine List.pairwise_append.mpr ⟨h, List.pairwise_singleton _ _, ?_⟩
  intro a ha b hb
  obtain rfl := List.mem_singleton.mp hb
  rcases List.mem_append.mp ha with hfront | hself
  · exact Nat.le_trans ((List.pairwise_append.mp h).2.2 a hfront last List.mem_cons_self) hlast
  · rwa [List.mem_singleton.mp hself]

theorem ordered_or_firstLate (items : List Item) :
    Ordered items ∨ ∃ before previous late after, FirstLate items before previous late after := by
  induction items using List.reverseRecOn with
  | nil => exact Or.inl .nil
  | append_singleton items item ih =>
      rcases ih with hordered | ⟨before, previous, late, after, hsplit, hordered, hfalls⟩
      · obtain rfl | ⟨front, last, rfl⟩ := List.eq_nil_or_concat items
        · exact Or.inl (List.pairwise_singleton _ _)
        · rw [List.concat_eq_append] at hordered ⊢
          obtain hfalls | hlast := Nat.lt_or_ge item.phase.rank last.phase.rank
          · obtain ⟨late, rfl⟩ := exists_declaration_of_rank_lt hfalls
            exact Or.inr ⟨front, last, late, [], by simp, hordered, hfalls⟩
          · exact Or.inl (ordered_append_singleton hordered hlast)
      · refine Or.inr ⟨before, previous, late, after ++ [item], ?_, hordered, hfalls⟩
        simp [hsplit]

theorem lastPhase_assemble {front : List Item} {last : Item} (h : Ordered (front ++ [last])) :
    lastPhase (assemble (front ++ [last])) = last.phase := by
  cases last with
  | statement s => simp [assemble, statement?, lastPhase, reachedByStmts, phase]
  | declaration d =>
      have hnone : front.filterMap statement? = [] := by
        refine List.filterMap_eq_nil_iff.mpr fun item hitem => ?_
        obtain ⟨e, rfl⟩ : ∃ e, item = declaration e := by
          cases item with
          | declaration e => exact ⟨e, rfl⟩
          | statement s =>
              have hle := (List.pairwise_append.mp h).2.2 _ hitem _ List.mem_cons_self
              exact absurd hle (not_rank_le_declaration s d)
        rfl
      simp [assemble, declaration?, statement?, hnone, lastPhase, reachedByStmts, lastDeclared,
        phase]

section Reading

variable {items : List Item} {lines : List String} {limits : Limits}

/-- The problem of a declaration that comes after the given phase, at the given place. -/
structure TellsLate (late : Declaration) (reached : Phase) (place : Nat) (l : Located) : Prop where
  category : l.what.category = .grammar
  code : l.diagnostic.code = .outOfOrder
  found : l.diagnostic.found = some (opening late)
  message : l.diagnostic.message = "'" ++ opening late ++ "' starts a " ++ late.phase.singular ++
    " but " ++ reached.plural ++ " have already begun"
  span : l.diagnostic.span = some l.span
  start : l.span.start = place
  stop : l.span.stop = place + (opening late).length

/-- Reading the lines of the items stops at the first declaration of a phase that is over. -/
def StopsAtLate (limits : Limits) (items : List Item) (lines : List String) : Prop :=
  ∃ before previous late after, FirstLate items before previous late after ∧
    ∃ l, Program.read (String.join lines) limits = .error (.located l) ∧
      TellsLate late previous.phase (String.join (lines.take (before.length + 1))).length l

theorem exists_tellsLate (before tail : List Char) (late : Declaration) (reached : Phase) :
    ∃ l, (lateFault tail late reached).locate ⟨before ++ tail, 0⟩ = .located l ∧
      TellsLate late reached before.length l := by
  obtain ⟨span, hspan, hstart, hstop, -, -⟩ :=
    Cursor.spanTo_append before tail (opening late).length
  refine ⟨⟨.outOfOrder (opening late) late.phase.singular reached.plural, span,
    ⟨before ++ tail, before.length⟩, []⟩, ?_, rfl, rfl, rfl, rfl, rfl, hstart, hstop⟩
  have hplace : (⟨before ++ (Input.ofList tail).chars, 0⟩ : Cursor).reaching (.ofList tail) =
      ⟨before ++ (Input.ofList tail).chars, before.length⟩ := Cursor.reaching_append
  rw [Input.chars_ofList] at hplace
  simp only [lateFault, Fault.locate, hplace, Problem.found, Option.getD_some, hspan]

/-- The lines of items in order are read as their program, up to a declaration behind them that is
late. -/
theorem program_of_lines {late : Option Declaration} {tail : List Char} (hordered : Ordered items)
    (hitems : ∀ item ∈ items, item.Readable limits) (hlines : List.Forall₂ Line items lines)
    (hbehind : Behind late tail)
    (hlate : ∀ d ∈ late, d.phase.rank < (lastPhase (assemble items)).rank) :
    Program.Grammar.program { limit := (Program.clamped limits).nesting }
        (.ofList ((String.join lines).toList ++ tail)) =
      ending late tail (lastPhase (assemble items)) (assemble items) := by
  obtain ⟨dt, st, hdt, hst, htext⟩ := exists_pieces hordered hlines
  have hp : (assemble items).Spellable :=
    spellable_assemble hordered fun item hitem => (spellable_of_readable (hitems item hitem)).1
  have hroom : (assemble items).nesting ≤ room { limit := (Program.clamped limits).nesting } := by
    rw [room_of_limit]
    exact nesting_assemble_le fun item hitem => (spellable_of_readable (hitems item hitem)).2
  rw [htext, List.append_assoc]
  exact program_of_items hp hroom hdt hst hbehind hlate

theorem read_of_ordered (hordered : Ordered items)
    (hitems : ∀ item ∈ items, item.Readable limits) (hlines : List.Forall₂ Line items lines)
    (hsize : limits.sizeError? "ProgramParser" (String.join lines) = none) :
    Program.read (String.join lines) limits = .ok (assemble items) := by
  have hread := program_of_lines hordered hitems hlines .nothing nofun
  rw [List.append_nil] at hread
  exact (Program.read_eq_ok_iff hsize).mpr hread

theorem read_of_firstLate {before after : List Item} {previous : Item} {late : Declaration}
    (h : FirstLate items before previous late after)
    (hitems : ∀ item ∈ items, item.Readable limits) (hlines : List.Forall₂ Line items lines)
    (hsize : limits.sizeError? "ProgramParser" (String.join lines) = none) :
    ∃ l, Program.read (String.join lines) limits = .error (.located l) ∧
      TellsLate late previous.phase (String.join (lines.take (before.length + 1))).length l := by
  obtain ⟨rfl, hordered, hfalls⟩ := h
  rw [List.append_cons] at hitems hlines
  obtain ⟨front, line, others, rfl, hfront, t, ht, hline⟩ := exists_front hlines
  have htake : (front ++ line :: others).take (before.length + 1) = front := by
    have hlength := hfront.length_eq
    rw [List.length_append, List.length_singleton] at hlength
    rw [hlength, List.take_left]
  have hwhole : (String.join (front ++ line :: others)).toList =
      (String.join front).toList ++ (t ++ (['\n'] ++ (String.join others).toList)) := by
    simp [String.join_append, String.join_cons, hline]
  obtain ⟨l, hl, htells⟩ := exists_tellsLate (String.join front).toList
    (t ++ (['\n'] ++ (String.join others).toList)) late previous.phase
  refine ⟨l, ?_, ?_⟩
  · have hfault := program_of_lines hordered
      (fun item hitem => hitems item (List.mem_append_left _ hitem)) hfront
      (.late (k := ['\n'] ++ (String.join others).toList) ht)
      (by
        rw [lastPhase_assemble hordered]
        rintro d ⟨⟩
        exact hfalls)
    rw [lastPhase_assemble hordered, ← hwhole] at hfault
    rw [← hwhole] at hl
    rw [Program.read, hsize]
    dsimp only
    rw [hfault]
    exact congrArg Except.error hl
  · rw [htake, ← String.length_toList]
    exact htells

end Reading

end Item

theorem Declaration.writeAll_of_late {before after : List Declaration} {previous late : Declaration}
    {reached : Phase} (hwrite : ∀ d ∈ before ++ [previous], ∃ t, d.write = .ok t)
    (hfrom : ∀ d ∈ before ++ [previous], reached.rank ≤ d.phase.rank)
    (hordered : (before ++ [previous]).Pairwise fun d e => d.phase.rank ≤ e.phase.rank)
    (hfalls : late.phase.rank < previous.phase.rank) :
    writeAll reached (before ++ previous :: late :: after) =
      .error (.unspellable (.latePhase late.kind)) := by
  induction before generalizing reached with
  | nil =>
      obtain ⟨t, ht⟩ := hwrite previous List.mem_cons_self
      rw [List.nil_append, writeAll_cons (hfrom previous List.mem_cons_self), ht,
        writeAll_cons_of_late hfalls]
      rfl
  | cons d before ih =>
      obtain ⟨t, ht⟩ := hwrite d List.mem_cons_self
      obtain ⟨hd, hordered⟩ := List.pairwise_cons.mp hordered
      have hrest := ih (fun e he => hwrite e (List.mem_cons_of_mem _ he)) hd hordered
      rw [List.cons_append, writeAll_cons (hfrom d List.mem_cons_self), ht, hrest]
      rfl

namespace Item

section Writing

variable {ds : List Declaration}

theorem write_declarations (hds : ∀ d ∈ ds, d.Spellable) (validate : Bool) (maxDepth : Option Int) :
    (⟨ds, []⟩ : Program).write validate maxDepth = Declaration.writeAll .headers ds := by
  have hcheck : (⟨ds, []⟩ : Program).check = .ok () :=
    Program.check_eq_ok.mpr
      ⟨fun d hd => (Declaration.spellable_iff.mp (hds d hd)).1, fun _ hs => nomatch hs⟩
  rw [Program.write_of_check fun _ => hcheck]
  cases hwrite : Declaration.writeAll .headers ds with
  | error e => rfl
  | ok t => simp [Stmt.writeAll, bind, Except.bind, pure, Except.pure]

theorem write_of_firstLate {before after : List Item} {previous : Item} {late : Declaration}
    (h : FirstLate (ds.map declaration) before previous late after)
    (hds : ∀ d ∈ ds, d.Spellable) (validate : Bool) (maxDepth : Option Int) :
    (⟨ds, []⟩ : Program).write validate maxDepth =
      .error (.unspellable (.latePhase late.kind)) := by
  obtain ⟨hsplit, hordered, hfalls⟩ := h
  obtain ⟨xs, ys, rfl, rfl, hfrom⟩ := List.map_eq_append_iff.mp hsplit
  obtain ⟨d, zs, rfl, rfl, hrest⟩ := List.map_eq_cons_iff.mp hfrom
  obtain ⟨e, zs, rfl, ⟨⟩, -⟩ := List.map_eq_cons_iff.mp hrest
  rw [write_declarations hds]
  refine Declaration.writeAll_of_late (fun x hx => ?_) (fun x _ => Nat.zero_le _) ?_ hfalls
  · have hmem : x ∈ xs ++ d :: late :: zs := by
      rw [List.append_cons]
      exact List.mem_append_left _ hx
    exact (Declaration.spellable_iff.mp (hds x hmem)).2.1
  · have hmap : Ordered ((xs ++ [d]).map declaration) := by simpa using hordered
    exact (List.pairwise_map (f := declaration)).mp hmap

theorem write_of_ordered (h : Ordered (ds.map declaration)) (hds : ∀ d ∈ ds, d.Spellable)
    (validate : Bool) (maxDepth : Option Int) :
    ∃ t, (⟨ds, []⟩ : Program).write validate maxDepth = .ok t := by
  rw [write_declarations hds]
  exact Declaration.writeAll_iff.mpr
    ⟨fun d hd => (Declaration.spellable_iff.mp (hds d hd)).2.1, fun _ _ => Nat.zero_le _,
      (List.pairwise_map (f := declaration)).mp h⟩

theorem write_refused_iff (hds : ∀ d ∈ ds, d.Spellable) (validate : Bool) (maxDepth : Option Int) :
    (∃ reason, (⟨ds, []⟩ : Program).write validate maxDepth = .error (.unspellable reason)) ↔
      ¬Ordered (ds.map declaration) := by
  constructor
  · rintro ⟨reason, hreason⟩ hordered
    obtain ⟨t, ht⟩ := write_of_ordered hordered hds validate maxDepth
    rw [ht] at hreason
    cases hreason
  · intro hnot
    obtain ⟨before, previous, late, after, h⟩ := (ordered_or_firstLate _).resolve_left hnot
    exact ⟨_, write_of_firstLate h hds validate maxDepth⟩

end Writing

section Together

variable {items : List Item} {limits : Limits}

theorem exists_lines (hitems : ∀ item ∈ items, item.Readable limits) (validate : Bool)
    (maxDepth : Option Int) :
    (∃ item ∈ items, ∃ e, item.program.write validate maxDepth = .error (.tooDeep e)) ∨
      ∃ lines, List.Forall₂ (fun item line => item.program.write validate maxDepth = .ok line)
        items lines := by
  by_cases hdeep : ∃ item ∈ items, ∃ e, item.program.write validate maxDepth = .error (.tooDeep e)
  · exact Or.inl hdeep
  · have hall : ∀ item ∈ items, ∃ line, item.program.write validate maxDepth = .ok line := by
      intro item hitem
      have hp := (spellable_of_readable (hitems item hitem)).1
      exact (Program.unrefused_write hp validate maxDepth).cases.resolve_left
        fun he => hdeep ⟨item, hitem, he⟩
    obtain ⟨lines, hlines⟩ := exists_mapM_eq_ok.mpr hall
    exact Or.inr ⟨lines, mapM_eq_ok.mp hlines⟩

/-- Items that occur in programs that were read, each written on its own, are read together as the
program of these items just when they are in order. Else the first declaration after an item of a
later phase is refused, where it stands. The writer refuses declarations that are not in order. -/
theorem read_iff_ordered (hitems : ∀ item ∈ items, item.Readable limits) (validate : Bool)
    (maxDepth : Option Int) :
    ((∃ item ∈ items, ∃ e, item.program.write validate maxDepth = .error (.tooDeep e)) ∨
      ∃ lines : List String,
        List.Forall₂ (fun item line => item.program.write validate maxDepth = .ok line) items
          lines ∧
        (limits.sizeError? "ProgramParser" (String.join lines) = none →
          ((∃ p, Program.read (String.join lines) limits = .ok p) ↔ Ordered items) ∧
          (Ordered items → Program.read (String.join lines) limits = .ok (assemble items)) ∧
          (¬Ordered items → StopsAtLate limits items lines))) ∧
    ∀ ds, items = ds.map declaration →
      ((∃ reason, (⟨ds, []⟩ : Program).write validate maxDepth = .error (.unspellable reason)) ↔
        ¬Ordered items) ∧
      ∀ before previous late after, FirstLate items before previous late after →
        (⟨ds, []⟩ : Program).write validate maxDepth =
          .error (.unspellable (.latePhase late.kind)) := by
  constructor
  · refine (exists_lines hitems validate maxDepth).imp id ?_
    rintro ⟨lines, hlines⟩
    refine ⟨lines, hlines, fun hsize => ?_⟩
    have hline : List.Forall₂ Line items lines := hlines.imp fun _ _ => line_of_write
    have hordered : Ordered items →
        Program.read (String.join lines) limits = .ok (assemble items) :=
      fun h => read_of_ordered h hitems hline hsize
    have hlate : ¬Ordered items → StopsAtLate limits items lines := by
      intro hnot
      obtain ⟨before, previous, late, after, h⟩ := (ordered_or_firstLate items).resolve_left hnot
      exact ⟨before, previous, late, after, h, read_of_firstLate h hitems hline hsize⟩
    refine ⟨⟨?_, fun h => ⟨_, hordered h⟩⟩, hordered, hlate⟩
    rintro ⟨p, hp⟩
    by_contra hnot
    obtain ⟨_, _, _, _, -, l, hl, -⟩ := hlate hnot
    rw [hp] at hl
    cases hl
  · rintro ds rfl
    have hds : ∀ d ∈ ds, d.Spellable := fun d hd =>
      (spellable_of_readable (hitems _ (List.mem_map_of_mem hd))).1.declarations d
        List.mem_cons_self
    exact ⟨write_refused_iff hds validate maxDepth,
      fun _ _ _ _ h => write_of_firstLate h hds validate maxDepth⟩

/-- A header after a statement is refused at its own word. -/
theorem read_late_header :
    let check := statement (.verify (.var .plain "x"))
    let header := declaration (.header "a" .quoted)
    (∀ item ∈ [check, header], item.Readable {}) ∧
      ∃ l, Program.read "verify:new x\n#include \"a\"\n" = .error (.located l) ∧
        TellsLate (.header "a" .quoted) .statements 13 l := by
  intro check header
  have hcheck : check.program.write true none = .ok "verify:new x\n" := rfl
  have hheader : header.program.write true none = .ok "#include \"a\"\n" := rfl
  have hitems : ∀ item ∈ [check, header], item.Readable {} := by
    intro item hitem
    rcases List.mem_cons.mp hitem with rfl | hitem
    · refine readable_of_write ⟨.nil, nofun, fun s hs => ?_⟩ (by decide) hcheck rfl
      obtain rfl := List.mem_singleton.mp hs
      exact .verify (.var (by decide))
    · obtain rfl := List.mem_singleton.mp hitem
      refine readable_of_write ⟨List.pairwise_singleton _ _, fun d hd => ?_, nofun⟩ (by decide)
        hheader rfl
      obtain rfl := List.mem_singleton.mp hd
      exact ⟨by decide, by decide⟩
  refine ⟨hitems, ?_⟩
  rcases (read_iff_ordered hitems true none).1 with ⟨item, hitem, e, he⟩ | ⟨lines, hlines, hread⟩
  · rcases List.mem_cons.mp hitem with rfl | hitem
    · rw [hcheck] at he
      cases he
    · obtain rfl := List.mem_singleton.mp hitem
      rw [hheader] at he
      cases he
  · obtain ⟨_, _, hfirst, hrest, rfl⟩ := List.forall₂_cons_left_iff.mp hlines
    obtain ⟨_, _, hsecond, hnil, rfl⟩ := List.forall₂_cons_left_iff.mp hrest
    obtain rfl := List.forall₂_nil_left_iff.mp hnil
    rw [hcheck] at hfirst
    rw [hheader] at hsecond
    cases hfirst
    cases hsecond
    have hnot : ¬Ordered [check, header] := fun hordered =>
      absurd ((List.pairwise_cons.mp hordered).1 header List.mem_cons_self)
        (not_rank_le_declaration _ _)
    obtain ⟨before, previous, late, after, ⟨hsplit, -, -⟩, l, hl, htells⟩ := (hread rfl).2.2 hnot
    have hlength := congrArg List.length hsplit
    simp only [List.length_append, List.length_cons, List.length_nil] at hlength
    obtain rfl : before = [] := List.length_eq_zero_iff.mp (by omega)
    obtain ⟨rfl, hrest⟩ := List.cons.inj hsplit
    obtain rfl : .header "a" .quoted = late := Item.declaration.inj (List.cons.inj hrest).1
    exact ⟨l, hl, htells⟩

end Together

end Item

end FuzzFrontend
