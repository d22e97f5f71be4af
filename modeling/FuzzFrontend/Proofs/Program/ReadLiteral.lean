import FuzzFrontend.Proofs.Program.ReadProgram
import FuzzFrontend.Proofs.Scan.Literal

namespace FuzzFrontend

namespace Program.Grammar

open Scan

variable {l : Literal} {cs r t : List Char}

section Entries

/-- The entries of an enum up to one that has the literal as its value. -/
structure UpToEntry (l : Literal) (before : List EnumValue) (entry : String) (t : List Char) :
    Prop where
  spellable : ∀ v ∈ before, v.Spellable
  name : isName entry = true
  spelled : ∃ ts u, Pieces EnumValue.Spelled before ts ∧ SpelledEntry l entry u ∧ t = ts ++ u

/-- The entries behind the literal and the end of their enum, as the text that is left there. -/
def ReadsOn {α : Type} (rest : List Char) (reads : List EnumValue → List Char → α → Prop) (x : α) :
    Prop :=
  ∀ after us k, (∀ v ∈ after, v.Spellable) → Pieces EnumValue.Spelled after us →
    rest = us ++ '}' :: k → reads after k x

theorem ReadsOn.imp {α β : Type} {rest : List Char} {reads : List EnumValue → List Char → α → Prop}
    {reads' : List EnumValue → List Char → β → Prop} {x : α} {y : β} (h : ReadsOn rest reads x)
    (himp : ∀ after k, reads after k x → reads' after k y) : ReadsOn rest reads' y :=
  fun after us k hafter hus hrest => himp after k (h after us k hafter hus hrest)

variable {before : List EnumValue} {entry : String} {rest : List Char}

theorem readBy_enumEntry {values : List EnumValue} (h : ∀ v ∈ values, v.Spellable) :
    ReadBy enumEntry EnumValue.Spelled values where
  opens v hv _ ht r := opens_of_spelled_entry (h v hv) ht r
  yields v hv _ ht _ _ hcs := enumEntry_yields (h v hv) ht hcs

theorem entries_decide (h : UpToEntry l before entry t)
    (hcs : cs.dropWhile isBlank = '{' :: (t ++ rest)) :
    l.Decides (ReadsOn rest fun after k x => Yields x (before ++ ⟨entry, l.value⟩ :: after) k)
      (braced enumEntry (.ofList cs)) := by
  obtain ⟨hbefore, hn, ts, u, hts, hu, rfl⟩ := h
  rw [List.append_assoc] at hcs
  have hread := Literal.Decides.braced (readBy_enumEntry hbefore) hts
    (opens_of_spelledEntry hn hu rest) (fun cs hcs => enumEntry_decides hn hu hcs) hcs
  exact hread.around (fun _ he => he) fun _ hread after us k hafter =>
    hread after us k (readBy_enumEntry hafter)

theorem enumDefinition_decides {n : String} (hn : isName n = true)
    (h : UpToEntry l before entry t)
    (hcs : cs.dropWhile isBlank = "enum ".toList ++ (n.toList ++ ' ' :: '{' :: (t ++ rest))) :
    l.Decides (ReadsOn rest fun after k x =>
        Yields x (.enum n (before ++ ⟨entry, l.value⟩ :: after)) k)
      (enumDefinition (.ofList cs)) := by
  have hkeyword : Yields (keyword "enum" none (.ofList cs)) ()
      (' ' :: (n.toList ++ ' ' :: '{' :: (t ++ rest))) := keyword_yields (by decide) hcs rfl
  have hname : Yields (name (.ofList (' ' :: (n.toList ++ ' ' :: '{' :: (t ++ rest))))) n
      (' ' :: '{' :: (t ++ rest)) := spaced_name_yields hn rfl
  have hentries : l.Decides _ (braced enumEntry (.ofList (' ' :: '{' :: (t ++ rest)))) :=
    entries_decide h rfl
  have hbody : l.Decides (ReadsOn rest fun after k x =>
        Yields x (.enum n (before ++ ⟨entry, l.value⟩ :: after)) k)
      (((braced enumEntry).map (Definition.enum n)) (.ofList (' ' :: '{' :: (t ++ rest)))) :=
    hentries.mapRule _ fun hread => hread.imp fun _ _ hyields => hyields.mapRule _
  have hnamed : l.Decides (ReadsOn rest fun after k x =>
        Yields x (.enum n (before ++ ⟨entry, l.value⟩ :: after)) k)
      ((name.andThen fun name => (braced enumEntry).map (Definition.enum name))
        (.ofList (' ' :: (n.toList ++ ' ' :: '{' :: (t ++ rest))))) :=
    hbody.behind hname fun hread => hread.imp fun _ _ hyields => hname.andThen hyields
  exact hnamed.behind hkeyword fun hread => hread.imp fun _ _ hyields => hkeyword.andThen hyields

end Entries

end Program.Grammar

namespace Program

/-- The items of a program up to the value of an enum entry. -/
structure EntryFront where
  declarations : List Declaration
  enum : String
  entries : List EnumValue
  entry : String

/-- The items of a program behind the value of an enum entry. -/
structure EntryBack where
  entries : List EnumValue
  declarations : List Declaration
  statements : List Stmt

/-- The program that has the value between the two. -/
def EntryFront.close (front : EntryFront) (value : Int) (back : EntryBack) : Program :=
  ⟨front.declarations ++
    .define (.enum front.enum (front.entries ++ ⟨front.entry, value⟩ :: back.entries)) ::
      back.declarations, back.statements⟩

/-- The text up to the comma after the value, with the literal as the value. -/
def EntryFront.Spelled (front : EntryFront) (l : Scan.Literal) (t : List Char) : Prop :=
  ∃ dt ts u, Scan.Pieces Declaration.Spelled front.declarations dt ∧
    Scan.Pieces EnumValue.Spelled front.entries ts ∧ Grammar.SpelledEntry l front.entry u ∧
      t = dt ++ ("enum ".toList ++ (front.enum.toList ++ ' ' :: '{' :: (ts ++ u)))

/-- The text behind that comma. -/
def EntryBack.Spelled (back : EntryBack) (t : List Char) : Prop :=
  ∃ us dt st, Scan.Pieces EnumValue.Spelled back.entries us ∧
    Scan.Pieces Declaration.Spelled back.declarations dt ∧
      Scan.Pieces Stmt.Spelled back.statements st ∧ t = us ++ '}' :: (dt ++ st)

end Program

namespace Program.Grammar

open Scan

section Whole

variable {l : Literal} {cs r s t rest : List Char} {nesting : Nesting} {front : EntryFront}
  {ds : List Declaration}

theorem declarations_head {ts : List Char} (hts : Pieces Declaration.Spelled ds ts)
    (hs : opens s = true) :
    (ds = [] ∧ (ts ++ s).dropWhile isBlank = s) ∨
      ∃ d ∈ ds, ∃ t k, d.Spelled t ∧ (ts ++ s).dropWhile isBlank = t ++ k := by
  cases hts with
  | nil hb =>
      rw [dropWhile_blank_append hb]
      exact Or.inl ⟨rfl, dropWhile_of_solid (solid_of_opens hs)⟩
  | @cons d ds b t g ts hb ht hg hts =>
      refine Or.inr ⟨d, List.mem_cons_self, t, g ++ (ts ++ s), ht, ?_⟩
      have hopens := opens_of_spelled ht (g ++ (ts ++ s))
      rw [List.append_assoc, dropWhile_blank_append hb, List.append_assoc, List.append_assoc,
        dropWhile_of_solid (solid_of_opens hopens)]

theorem typeDeclaration?_enum {n : String}
    (hcs : cs.dropWhile isBlank = "enum ".toList ++ (n.toList ++ ' ' :: '{' :: r)) :
    typeDeclaration? (.ofList cs) = some ((enumDefinition.map .define) (.ofList cs)) := by
  have hstruct : keyword? "struct" (.ofList cs) = none := by
    apply keyword?_eq_none_of_head?
    rw [hcs]
    exact (by decide : some 's' ≠ some 'e')
  have hword : cs.dropWhile isBlank = "enum".toList ++ ' ' :: (n.toList ++ ' ' :: '{' :: r) := hcs
  obtain ⟨hlt, e⟩ := keyword?_finds (by decide) hword rfl
  simp [typeDeclaration?, hstruct, e]

theorem split_front {back : EntryBack} (h : (front.close 0 back).Spellable) :
    ∃ headers types, front.declarations = headers ++ types ∧
      (∀ d ∈ headers, d.phase = .headers) ∧ ∀ d ∈ types, d.phase = .types := by
  obtain ⟨hsorted, hbefore, hnext⟩ := List.pairwise_append.mp h.ordered
  have hearly : ∀ d ∈ front.declarations, d.phase.rank ≤ Phase.types.rank :=
    fun d hd => hnext d hd _ List.mem_cons_self
  obtain ⟨headers, typed, hdeclared, hheaders, htyped, hsorted⟩ :=
    split_phase hsorted .headers fun d _ => Nat.zero_le _
  obtain ⟨types, later, rfl, htypes, hlater, -⟩ := split_phase hsorted .types htyped
  refine ⟨headers, types, ?_, hheaders, htypes⟩
  have hnone : later = [] := by
    refine List.eq_nil_iff_forall_not_mem.mpr fun d hd => ?_
    exact absurd (hearly d (by simp [hdeclared, hd])) (Nat.not_le.mpr (hlater d hd))
  rw [hdeclared, hnone, List.append_nil]

theorem enum_of_close {back : EntryBack} (h : (front.close 0 back).Spellable) :
    isName front.enum = true ∧ (∀ v ∈ front.entries, v.Spellable) ∧
      isName front.entry = true ∧ ∀ v ∈ back.entries, v.Spellable := by
  obtain ⟨hn, hvalues⟩ := h.declarations (.define _)
    (List.mem_append_right _ List.mem_cons_self)
  obtain ⟨hbefore, hentry, hafter⟩ :=
    List.forall_mem_append.mp hvalues |>.imp id List.forall_mem_cons.mp
  exact ⟨hn, hbefore, hentry.1, hafter⟩

theorem header?_declines {ts : List Char} {n : String} (hds : ∀ d ∈ ds, d.phase = .types)
    (hts : Pieces Declaration.Spelled ds ts)
    (hs : s = "enum ".toList ++ (n.toList ++ ' ' :: '{' :: r)) (hopens : opens s = true)
    (hcs : cs.dropWhile isBlank = (ts ++ s).dropWhile isBlank) : header? (.ofList cs) = none := by
  have hnone : keyword? "#include" (.ofList cs) = none := by
    rcases declarations_head hts hopens with ⟨-, heq⟩ | ⟨d, hd, t, k, ht, heq⟩
    · apply keyword?_eq_none_of_head?
      rw [hcs, heq, hs]
      exact (by decide : some '#' ≠ some 'e')
    · refine keyword?_eq_none_of_spelled ht (by decide : ("#include", Phase.headers) ∈ _) ?_
        (hcs.trans heq)
      intro hword
      have hphase := phase_of_declarationKeyword (hword ▸ opening_mem d)
        (by decide : ("#include", Phase.headers) ∈ declarationKeywords)
      rw [hds d hd] at hphase
      cases hphase
  simp [header?, hnone]

/-- The phases of a program come to an enum behind the headers and the types. -/
structure ComesTo (cs r : List Char) (headers types : List Declaration) : Prop where
  allHeaders : ∀ d ∈ headers, d.phase = .headers
  allTypes : ∀ d ∈ types, d.phase = .types
  reads : ∃ r', Yields (many header? [] (.ofList cs) (Nat.lt_succ_self _)) headers r' ∧
    ∃ h', many typeDeclaration? [] (.ofList r') (Nat.lt_succ_self _) =
      many typeDeclaration? types.reverse (.ofList r) h'

theorem comesTo_enum {headers types : List Declaration} {us vs : List Char} {n : String}
    (hheaders : ∀ d ∈ headers, d.phase = .headers) (htypes : ∀ d ∈ types, d.phase = .types)
    (hds : ∀ d ∈ headers ++ types, d.Spellable) (hus : Pieces Declaration.Spelled headers us)
    (hvs : Pieces Declaration.Spelled types vs)
    (hs : s = "enum ".toList ++ (n.toList ++ ' ' :: '{' :: r)) :
    ∃ k, k.dropWhile isBlank = s ∧ ComesTo (us ++ (vs ++ s)) k headers types := by
  have hopens : opens s = true := by
    rw [hs]
    rfl
  have hsolid : s.dropWhile isBlank = s := dropWhile_of_solid (solid_of_opens hopens)
  have hhead : opens ((vs ++ s).dropWhile isBlank) = true := by
    rcases declarations_head hvs hopens with ⟨-, heq⟩ | ⟨d, -, t, k, ht, heq⟩
    · rw [heq]
      exact hopens
    · rw [heq]
      exact opens_of_spelled ht k
  obtain ⟨r', hlt', hr', e'⟩ := declarations_skip hheaders
    (fun d hd => hds d (List.mem_append_left _ hd)) hus (Or.inl hhead) [] (Nat.lt_succ_self _) rfl
  obtain ⟨k, hlt, hk, e⟩ := declarations_skip htypes
    (fun d hd => hds d (List.mem_append_right _ hd)) hvs (Or.inl (hsolid.symm ▸ hopens)) []
    (Nat.lt_succ_self _) hr'
  simp only [declaration?, List.append_nil] at e e'
  refine ⟨k, hk.trans hsolid, hheaders, htypes, r', ⟨hlt', e'.trans ?_⟩, hlt, e⟩
  rw [many, header?_declines htypes hvs hs hopens hr', List.reverse_reverse]

theorem ComesTo.program_of_error {headers types : List Declaration} {n : String} {k : List Char}
    {e : Fault} (h : ComesTo cs r headers types)
    (hr : r.dropWhile isBlank = "enum ".toList ++ (n.toList ++ ' ' :: '{' :: k))
    (he : enumDefinition (.ofList r) = .error e) : program nesting (.ofList cs) = .error e := by
  obtain ⟨-, -, r', ⟨hlt, hheaders⟩, h', htypes⟩ := h
  have herror : (enumDefinition.map Declaration.define) (.ofList r) = .error e := by
    rw [Rule.map, he]
    rfl
  have hfault : many typeDeclaration? [] (.ofList r') (Nat.lt_succ_self _) = .error e := by
    rw [htypes, many, typeDeclaration?_enum hr, herror]
  simp only [program, hheaders, bind, Except.bind, hfault]

theorem ComesTo.program_of_yields {headers types : List Declaration} {n : String}
    {k k' dt st : List Char} {d : Definition} {ss : List Stmt} (h : ComesTo cs r headers types)
    (hr : r.dropWhile isBlank = "enum ".toList ++ (n.toList ++ ' ' :: '{' :: k))
    (hd : Yields (enumDefinition (.ofList r)) d k')
    (hp : Program.Spellable ⟨.define d :: ds, ss⟩) (hdt : Pieces Declaration.Spelled ds dt)
    (hst : Pieces Stmt.Spelled ss st) (hk' : k' = dt ++ st)
    (hroom : ∀ s ∈ ss, s.nesting ≤ room nesting) :
    program nesting (.ofList cs) = .ok ⟨headers ++ types ++ .define d :: ds, ss⟩ := by
  subst hk'
  obtain ⟨hheaders, htypes, r', hreadHeaders, hlt', hreadTypes⟩ := h
  obtain ⟨hlt, e⟩ := hd.mapRule Declaration.define
  obtain ⟨hnext, hsorted⟩ := List.pairwise_cons.mp hp.ordered
  obtain ⟨types', later, rfl, htypes', hlater, hsorted⟩ := split_phase hsorted .types hnext
  have hleft : Remaining (types' ++ later) ss none [] (dt ++ st) :=
    ⟨fun d hd => hp.declarations d (List.mem_cons_of_mem _ hd), hp.statements, .nothing, dt, st,
      hdt, hst, by rw [List.append_nil]⟩
  obtain ⟨r'', hleft'', hlt'', e''⟩ := hleft.many htypes' (phase_ne_of_later hlater)
    (fun _ _ d hd => absurd hd (Option.not_mem_none d)) (.define d :: types.reverse)
    (Nat.lt_trans hlt hlt')
  have hread : Yields (many typeDeclaration? [] (.ofList r') (Nat.lt_succ_self _))
      (types ++ .define d :: types') r'' := by
    refine ⟨hlt'', ?_⟩
    rw [hreadTypes, many, typeDeclaration?_enum hr, e]
    simpa [declaration?] using e''
  have hphases : ∀ d' ∈ types ++ Declaration.define d :: types', d'.phase = .types :=
    List.forall_mem_append.mpr ⟨htypes, List.forall_mem_cons.mpr ⟨rfl, htypes'⟩⟩
  refine (program_of_types hheaders hphases hreadHeaders hread hleft'' hsorted hlater hroom
    fun d hd => absurd hd (Option.not_mem_none d)).trans ?_
  simp [ending]

/-- A literal decides how the reading of its program ends. If it is read, so is the program, with
the value of the literal in its place. -/
theorem program_decides (h : (front.close 0 ⟨[], [], []⟩).Spellable) (ht : front.Spelled l t) :
    l.Decides (fun x => ∀ back, (front.close 0 back).Spellable → back.Spelled rest →
        (∀ s ∈ back.statements, s.nesting ≤ room nesting) → x = .ok (front.close l.value back))
      (program nesting (.ofList (t ++ rest))) := by
  obtain ⟨dt, ts, u, hdt, hts, hu, rfl⟩ := ht
  obtain ⟨headers, types, hdeclared, hheaders, htypes⟩ := split_front h
  have hfront : ∀ d ∈ headers ++ types, d.Spellable := fun d hd =>
    h.declarations d (List.mem_append_left _ (hdeclared ▸ hd))
  obtain ⟨hn, hbefore, hentry, -⟩ := enum_of_close h
  rw [hdeclared] at hdt
  obtain ⟨us, vs, hus, hvs, rfl⟩ := hdt.split
  obtain ⟨k, hk, hcomes⟩ := comesTo_enum hheaders htypes hfront hus hvs
    (rfl : _ = "enum ".toList ++ (front.enum.toList ++ ' ' :: '{' :: (ts ++ u ++ rest)))
  have hsource : us ++ vs ++ ("enum ".toList ++ (front.enum.toList ++ ' ' :: '{' :: (ts ++ u))) ++
      rest = us ++ (vs ++ ("enum ".toList ++
        (front.enum.toList ++ ' ' :: '{' :: (ts ++ u ++ rest)))) := by simp
  rw [hsource]
  refine (enumDefinition_decides hn ⟨hbefore, hentry, ts, u, hts, hu, rfl⟩ hk).around
    (fun e he => hcomes.program_of_error hk he) fun hsigned hread back hback hspelled hroom => ?_
  obtain ⟨us', dt, st, hus', hdt, hst, hrest⟩ := hspelled
  obtain ⟨-, -, -, hafter⟩ := enum_of_close hback
  have hlast : Program.Spellable ⟨.define (.enum front.enum (front.entries ++
      ⟨front.entry, l.value⟩ :: back.entries)) :: back.declarations, back.statements⟩ := by
    obtain ⟨hnext, hsorted⟩ := List.pairwise_cons.mp (List.pairwise_append.mp hback.ordered).2.1
    refine ⟨List.pairwise_cons.mpr ⟨hnext, hsorted⟩, ?_, hback.statements⟩
    have hlater := List.forall_mem_append.mp hback.declarations |>.2
    refine List.forall_mem_cons.mpr ⟨⟨hn, ?_⟩, (List.forall_mem_cons.mp hlater).2⟩
    exact List.forall_mem_append.mpr ⟨hbefore, List.forall_mem_cons.mpr ⟨⟨hentry, hsigned⟩, hafter⟩⟩
  have hyields := hread back.entries us' (dt ++ st) hafter hus' hrest
  rw [hcomes.program_of_yields hk hyields hlast hdt hst rfl hroom, ← hdeclared]
  rfl

end Whole

end Program.Grammar

end FuzzFrontend
