import FuzzFrontend.Program.Grammar.Phases
import FuzzFrontend.Proofs.Program.ReadTypes
import FuzzFrontend.Proofs.Scan.Literal

namespace FuzzFrontend.Program.Grammar

open Scan

variable {cs r t : List Char}

section Headers

theorem headerPath_yields {path : String} {style : HeaderStyle} (hline : '\n' ∉ path.toList)
    (hclosing : style.closing ∉ path.toList) :
    Yields (headerPath style (.ofList (path.toList ++ style.closing :: r)))
      (.header path style) r := by
  have hpath : ∀ c ∈ path.toList, (c != style.closing && c != '\n') = true := by
    intro c hc
    have h₁ : c ≠ style.closing := fun h => hclosing (h ▸ hc)
    have h₂ : c ≠ '\n' := fun h => hline (h ▸ hc)
    simp [h₁, h₂]
  have hstop : (style.closing :: r).head?.any (fun c => c != style.closing && c != '\n') =
      false := by simp
  have htaken := takeWhile_append_of_head? hpath hstop
  have hleft := dropWhile_append_of_head? hpath hstop
  have hlt : r.length < (path.toList ++ style.closing :: r).length := by
    rw [List.length_append, List.length_cons]
    omega
  refine ⟨hlt, ?_⟩
  simp [headerPath, htaken, hleft, Parsed.taking, Parsed.relax]

theorem delimitedPath_yields {path : String} {style : HeaderStyle} (hline : '\n' ∉ path.toList)
    (hclosing : style.closing ∉ path.toList)
    (hcs : cs.dropWhile isBlank = style.opening :: (path.toList ++ style.closing :: r)) :
    Yields (delimitedPath (.ofList cs)) (.header path style) r := by
  have hpath := headerPath_yields (r := r) hline hclosing
  cases style with
  | quoted =>
      obtain ⟨hlt, e⟩ := symbol?_finds hcs
      simp only [delimitedPath, e]
      exact hpath.relax (Nat.le_of_lt hlt)
  | angled =>
      have hquoted : symbol? HeaderStyle.quoted.opening (.ofList cs) = none := by
        apply symbol?_eq_none
        rw [hcs, List.head?_cons]
        decide
      obtain ⟨hlt, e⟩ := symbol?_finds hcs
      simp only [delimitedPath, hquoted, e]
      exact hpath.relax (Nat.le_of_lt hlt)

theorem header_yields {path : String} {style : HeaderStyle} (hline : '\n' ∉ path.toList)
    (hclosing : style.closing ∉ path.toList)
    (hcs : cs.dropWhile isBlank =
      "#include ".toList ++ style.opening :: (path.toList ++ style.closing :: r)) :
    Yields (header (.ofList cs)) (.header path style) r := by
  have hkeyword : Yields (keyword "#include" none (.ofList cs)) ()
      (' ' :: style.opening :: (path.toList ++ style.closing :: r)) :=
    keyword_yields (by decide) hcs rfl
  refine hkeyword.andThen ?_
  apply delimitedPath_yields hline hclosing
  cases style <;> rfl

end Headers

section Fields

theorem scalarField_yields {kind : Scalar} {n : String} (form : Scalar → Ty)
    (hn : isName n = true)
    (hcs : cs.dropWhile isBlank = kind.spelling.toList ++ ' ' :: (n.toList ++ r))
    (hr : apart r = true) :
    Yields (scalarField form (.ofList cs)) (.mk n (.known (form kind))) r := by
  have hname := (spaced_name_yields hn hr).mapRule fun name => Field.mk name (.known (form kind))
  exact (scalar_yields hcs rfl).andThen hname

theorem namedField_yields {typeName n : String} (form : String → TypeExpr)
    (htype : isName typeName = true) (hn : isName n = true)
    (hcs : cs.dropWhile isBlank = typeName.toList ++ ' ' :: (n.toList ++ r))
    (hr : apart r = true) : Yields (namedField form (.ofList cs)) (.mk typeName (form n)) r := by
  have hname := (spaced_name_yields hn hr).mapRule fun name => Field.mk typeName (form name)
  exact (name_yields htype hcs rfl).andThen hname

theorem opens_of_spelled_field {struct : String} {f : Field} (ht : f.Spelled struct t)
    (r : List Char) : opens (t ++ r) = true := by
  obtain ⟨form, hform, rfl⟩ := ht
  have hword : ∃ w k, isWord w = true ∧ form.toList = w ++ k := by
    unfold Field.write at hform
    split at hform
    · rename_i n kind
      cases hform
      exact ⟨kind.spelling.toList, ' ' :: n.toList, isWord_spelling kind, by simp⟩
    · rename_i n kind
      cases hform
      exact ⟨"pointer".toList, ' ' :: (kind.spelling.toList ++ ' ' :: n.toList), by decide,
        by simp⟩
    · rename_i n reference
      cases hform
      exact ⟨"struct".toList, ' ' :: (n.toList ++ ' ' :: reference.toList), by decide, by simp⟩
    · rename_i n reference
      cases hform
      exact ⟨"enum".toList, ' ' :: (n.toList ++ ' ' :: reference.toList), by decide, by simp⟩
    · cases hform
  obtain ⟨w, k, hw, heq⟩ := hword
  rw [heq, List.append_assoc, List.append_assoc]
  exact opens_of_isWord hw _

theorem field_yields {struct : String} {f : Field} (hf : f.Spellable) (ht : f.Spelled struct t)
    (hcs : cs.dropWhile isBlank = t ++ r) : Yields (field (.ofList cs)) f r := by
  obtain ⟨form, hform, rfl⟩ := ht
  have hend : apart (';' :: r) = true := rfl
  have hsemicolon : Yields (symbol ';' none (.ofList (';' :: r))) () r := symbol_yields rfl
  refine Yields.followedBy ?_ hsemicolon
  match f, hf with
  | .mk n (.known (.scalar kind)), hn =>
      cases hform
      have htext : cs.dropWhile isBlank =
          kind.spelling.toList ++ ' ' :: (n.toList ++ ';' :: r) := by simpa using hcs
      have hforms : ∀ w ∈ formWords, keyword? w (.ofList cs) = none :=
        fun w hw => keyword?_eq_none_of_scalar hw htext rfl
      apply Yields.onOtherKeyword (hforms "pointer" (by decide))
      apply Yields.onOtherKeyword (hforms "struct" (by decide))
      apply Yields.onOtherKeyword (hforms "enum" (by decide))
      obtain ⟨hlt, e⟩ := scalar?_finds htext rfl
      obtain ⟨hlt', e'⟩ := scalarField_yields .scalar hn htext hend
      exact ⟨hlt', by simp only [e, e']⟩
  | .mk n (.known (.pointer (.scalar kind))), hn =>
      cases hform
      have htext : cs.dropWhile isBlank =
          "pointer".toList ++ ' ' :: (kind.spelling.toList ++ ' ' :: (n.toList ++ ';' :: r)) := by
        simpa using hcs
      apply Yields.onKeyword (keyword?_finds (by decide) htext rfl)
      have hspace := dropWhile_solid_append (solid_of_isWord (isWord_spelling kind))
        (' ' :: (n.toList ++ ';' :: r))
      exact scalarField_yields (fun kind => .pointer (.scalar kind)) hn hspace hend
  | .mk n (.structNamed reference), ⟨hn, hreference⟩ =>
      cases hform
      have htext : cs.dropWhile isBlank =
          "struct".toList ++ ' ' :: (n.toList ++ ' ' :: (reference.toList ++ ';' :: r)) := by
        simpa using hcs
      have hpointer : keyword? "pointer" (.ofList cs) = none :=
        keyword?_eq_none_of_word_ne (by decide) (by decide) htext rfl (by decide)
      apply Yields.onOtherKeyword hpointer
      apply Yields.onKeyword (keyword?_finds (by decide) htext rfl)
      exact namedField_yields .structNamed hn hreference
        (dropWhile_solid_append (solid_of_isName hn) _) hend
  | .mk n (.enumNamed reference), ⟨hn, hreference⟩ =>
      cases hform
      have htext : cs.dropWhile isBlank =
          "enum".toList ++ ' ' :: (n.toList ++ ' ' :: (reference.toList ++ ';' :: r)) := by
        simpa using hcs
      have hpointer : keyword? "pointer" (.ofList cs) = none :=
        keyword?_eq_none_of_word_ne (by decide) (by decide) htext rfl (by decide)
      have hstruct : keyword? "struct" (.ofList cs) = none :=
        keyword?_eq_none_of_word_ne (by decide) (by decide) htext rfl (by decide)
      apply Yields.onOtherKeyword hpointer
      apply Yields.onOtherKeyword hstruct
      apply Yields.onKeyword (keyword?_finds (by decide) htext rfl)
      exact namedField_yields .enumNamed hn hreference
        (dropWhile_solid_append (solid_of_isName hn) _) hend

theorem structDefinition_yields {n : String} {fields : List Field} {ts : List Char}
    (hd : (Definition.struct n fields).Spellable) (hts : Pieces (Field.Spelled n) fields ts)
    (hcs : cs.dropWhile isBlank =
      "struct ".toList ++ (n.toList ++ ' ' :: '{' :: (ts ++ '}' :: r))) :
    Yields (structDefinition (.ofList cs)) (.struct n fields) r := by
  obtain ⟨hn, hfields⟩ := hd
  have hkeyword : Yields (keyword "struct" none (.ofList cs)) ()
      (' ' :: (n.toList ++ ' ' :: '{' :: (ts ++ '}' :: r))) := keyword_yields (by decide) hcs rfl
  refine hkeyword.andThen ((spaced_name_yields hn rfl).andThen (Yields.mapRule ?_ _))
  apply braced_yields hts
  · intro f hf t ht r
    exact opens_of_spelled_field ht r
  · intro f hf t ht cs r hcs _
    exact field_yields (hfields f hf) ht hcs
  · rfl

end Fields

section Entries

variable {l : Literal}

/-- An entry with the literal as its value. -/
def SpelledEntry (l : Literal) (entry : String) (t : List Char) : Prop :=
  ∃ b₁ b₂ b₃, Blank b₁ ∧ Blank b₂ ∧ Blank b₃ ∧
    t = entry.toList ++ (b₁ ++ '=' :: (b₂ ++ (l.spelled [] ++ (b₃ ++ [',']))))

theorem enumNumber_decides (hcs : cs.dropWhile isBlank = l.spelled [] ++ r) (hr : endsNumber r) :
    l.Decides (fun x => Yields x l.value r) (enumNumber (.ofList cs)) := by
  have hnumber : cs.dropWhile isBlank = (String.ofList (l.spelled [])).toList ++ r := by
    rw [String.toList_ofList, hcs]
  have hinteger : isInteger (String.ofList (l.spelled [])).toList = true := by
    rw [String.toList_ofList]
    exact l.isInteger_spelled
  obtain ⟨hlt, e⟩ := numeral_yields (Or.inl hinteger) hnumber hr
  have hpoint := point_not_mem_of_isInteger l.isInteger_spelled
  simp only [enumNumber, e, String.toList_ofList, if_neg hpoint, l.head?_spelled,
    l.dropSign_spelled]
  refine (l.decides_signedWord _ _).around (fun e he => by rw [he]; rfl) fun _ hword => ?_
  rw [hword]
  exact ⟨hlt, rfl⟩

theorem enumEntryValue_decides {entry : String} {b₂ b₃ : List Char} (hb₂ : Blank b₂)
    (hb₃ : Blank b₃)
    (hcs : cs.dropWhile isBlank = '=' :: (b₂ ++ (l.spelled [] ++ (b₃ ++ ',' :: r)))) :
    l.Decides (fun x => Yields x ⟨entry, l.value⟩ r) (enumEntryValue entry (.ofList cs)) := by
  have hnumber : (b₂ ++ (l.spelled [] ++ (b₃ ++ ',' :: r))).dropWhile isBlank =
      l.spelled [] ++ (b₃ ++ ',' :: r) := by
    rw [dropWhile_blank_append hb₂]
    exact dropWhile_solid_append (l.solid_spelled []) _
  have hend : endsNumber (b₃ ++ ',' :: r) := endsNumber_blank_append hb₃ ⟨rfl, by simp⟩
  have hcomma : Yields (symbol ',' (some "Every enum entry ends with ','")
      (.ofList (b₃ ++ ',' :: r))) () r := symbol_yields (dropWhile_blank_append hb₃ _)
  obtain ⟨hlt, e⟩ := symbol?_finds hcs
  have hread := (enumNumber_decides hnumber hend).followedBy hcomma
  refine hread.around (fun error herror => ?_) fun _ hyields => ?_
  · simp only [enumEntryValue, e, herror]
    rfl
  · obtain ⟨hlt', e'⟩ := hyields.mapRelax (fun value => EnumValue.mk entry value) (Nat.le_of_lt hlt)
    exact ⟨hlt', by simpa only [enumEntryValue, e] using e'⟩

theorem enumEntryValue_yields_zero {n : String} :
    Yields (enumEntryValue n (.ofList (',' :: r))) ⟨n, 0⟩ r := by
  have hequals : symbol? '=' (.ofList (',' :: r)) = none := by
    apply symbol?_eq_none
    simp [isBlank]
  have hcomma : Yields (symbol ',' (some "Every enum entry ends with ','") (.ofList (',' :: r)))
      () r := symbol_yields rfl
  obtain ⟨hlt, e⟩ := hcomma.map fun _ => EnumValue.mk n 0
  exact ⟨hlt, by simpa only [enumEntryValue, hequals] using e⟩

theorem enumEntry_decides {entry : String} (hn : isName entry = true)
    (ht : SpelledEntry l entry t) (hcs : cs.dropWhile isBlank = t ++ r) :
    l.Decides (fun x => Yields x ⟨entry, l.value⟩ r) (enumEntry (.ofList cs)) := by
  obtain ⟨b₁, b₂, b₃, hb₁, hb₂, hb₃, rfl⟩ := ht
  have htext : cs.dropWhile isBlank =
      entry.toList ++ (b₁ ++ '=' :: (b₂ ++ (l.spelled [] ++ (b₃ ++ ',' :: r)))) := by
    simpa using hcs
  have hname := name_yields hn htext (apart_blank_append hb₁ rfl)
  have hequals : (b₁ ++ '=' :: (b₂ ++ (l.spelled [] ++ (b₃ ++ ',' :: r)))).dropWhile isBlank =
      '=' :: (b₂ ++ (l.spelled [] ++ (b₃ ++ ',' :: r))) := dropWhile_blank_append hb₁ _
  exact (enumEntryValue_decides hb₂ hb₃ hequals).behind hname fun hyields => hname.andThen hyields

theorem opens_of_spelledEntry {entry : String} (hn : isName entry = true)
    (ht : SpelledEntry l entry t) (r : List Char) : opens (t ++ r) = true := by
  obtain ⟨b₁, b₂, b₃, -, -, -, rfl⟩ := ht
  rw [List.append_assoc]
  exact opens_of_isWord (isWord_of_isName hn) _

theorem spelledEntry_write (v : EnumValue) :
    SpelledEntry (.ofInteger v.value) v.name v.write.toList := by
  refine ⟨[' '], [' '], [], gap_space.blank, gap_space.blank, blank_nil, ?_⟩
  simp [EnumValue.write, Literal.spelled_ofInteger]

theorem opens_of_spelled_entry {v : EnumValue} (hv : v.Spellable) (ht : v.Spelled t)
    (r : List Char) : opens (t ++ r) = true := by
  cases ht with
  | full => exact opens_of_spelledEntry hv.1 (spelledEntry_write v) r
  | zero h =>
      rw [List.append_assoc]
      exact opens_of_isWord (isWord_of_isName hv.1) _

theorem enumEntry_yields {v : EnumValue} (hv : v.Spellable) (ht : v.Spelled t)
    (hcs : cs.dropWhile isBlank = t ++ r) : Yields (enumEntry (.ofList cs)) v r := by
  obtain ⟨hn, hvalue⟩ := hv
  cases ht with
  | full =>
      have hread := (enumEntry_decides hn (spelledEntry_write v) hcs).reads_ofInteger hvalue
      rwa [Literal.value_ofInteger] at hread
  | zero h =>
      obtain ⟨n, value⟩ := v
      obtain rfl : value = 0 := h
      have htext : cs.dropWhile isBlank = n.toList ++ ',' :: r := by simpa using hcs
      exact (name_yields hn htext rfl).andThen enumEntryValue_yields_zero

theorem enumDefinition_yields {n : String} {values : List EnumValue} {ts : List Char}
    (hd : (Definition.enum n values).Spellable) (hts : Pieces EnumValue.Spelled values ts)
    (hcs : cs.dropWhile isBlank =
      "enum ".toList ++ (n.toList ++ ' ' :: '{' :: (ts ++ '}' :: r))) :
    Yields (enumDefinition (.ofList cs)) (.enum n values) r := by
  obtain ⟨hn, hvalues⟩ := hd
  have hkeyword : Yields (keyword "enum" none (.ofList cs)) ()
      (' ' :: (n.toList ++ ' ' :: '{' :: (ts ++ '}' :: r))) := keyword_yields (by decide) hcs rfl
  refine hkeyword.andThen ((spaced_name_yields hn rfl).andThen (Yields.mapRule ?_ _))
  apply braced_yields hts
  · intro v hv t ht r
    exact opens_of_spelled_entry (hvalues v hv) ht r
  · intro v hv t ht cs r hcs _
    exact enumEntry_yields (hvalues v hv) ht hcs
  · rfl

end Entries

section Variables

theorem ofStandard?_of_isName {n : String} (hn : isName n = true) :
    GeneratorName.ofStandard? n = none := by
  have hword := isWordChar_of_isWord (isWord_of_isName hn)
  cases hs : Scan.after? GeneratorName.standard n.toList with
  | none => simp [GeneratorName.ofStandard?, hs]
  | some rest =>
      rw [after?_eq_some_iff] at hs
      have hcolon : ':' ∈ n.toList := by
        rw [hs]
        exact List.mem_append_left rest (by decide)
      exact absurd (hword ':' hcolon) (by decide)

theorem generatorName_yields {generator : String} (hg : GeneratorName.Spellable generator)
    (hcs : cs.dropWhile isBlank = (GeneratorName.write generator).toList ++ r)
    (hr : apart r = true) : Yields (generatorName (.ofList cs)) generator r := by
  rcases hg with hn | ⟨own, hown, rfl⟩
  · have htext : cs.dropWhile isBlank = "gen:".toList ++ (' ' :: (generator.toList ++ r)) := by
      simpa [GeneratorName.write, ofStandard?_of_isName hn] using hcs
    have hstandard : keyword? "gen:std:" (.ofList cs) = none := by
      apply keyword?_eq_none
      rw [htext]
      simp [List.cons_prefix_cons]
    apply Yields.onOtherKeyword hstandard
    apply Yields.onKeyword (keyword?_finds_marked (by decide) (by decide) htext)
    exact spaced_name_yields hn hr
  · have htext : cs.dropWhile isBlank = "gen:std:".toList ++ (' ' :: (own.toList ++ r)) := by
      simpa [GeneratorName.write, GeneratorName.ofStandard?_ofOwn] using hcs
    apply Yields.onKeyword (keyword?_finds_marked (by decide) (by decide) htext)
    exact (spaced_name_yields hown hr).mapRule GeneratorName.ofOwn

theorem spaced_generatorName_yields {generator : String} (hg : GeneratorName.Spellable generator)
    (hr : apart r = true) :
    Yields (generatorName (.ofList (' ' :: ((GeneratorName.write generator).toList ++ r))))
      generator r := by
  apply generatorName_yields hg _ hr
  apply dropWhile_solid_append
  unfold GeneratorName.write
  split <;> simp [solid, isBlank]

theorem freeVariable_yields {decl : FreeVariable} {ty : String}
    (hd : (Declaration.free decl).Spellable) (ht : decl.ty.write = .ok ty) (hr : apart r = true) :
    Yields (freeVariable (.ofList (' ' :: (decl.name.toList ++
      ' ' :: ((GeneratorName.write decl.generator).toList ++ ' ' :: (ty.toList ++ r))))))
      (.free decl) r := by
  obtain ⟨hn, hg, hty⟩ := hd
  refine (spaced_name_yields hn rfl).andThen ?_
  refine (spaced_generatorName_yields hg rfl).andThen ?_
  exact (spaced_typeRef_yields hty ht hr).mapRule fun ty =>
    Declaration.free ⟨decl.name, decl.generator, ty⟩

theorem constrainedVariable_yields {n ty : String} {type : TypeExpr}
    (hd : (Declaration.constrained n type).Spellable) (ht : type.write = .ok ty)
    (hr : apart r = true) :
    Yields (constrainedVariable (.ofList (' ' :: (n.toList ++ ' ' :: (ty.toList ++ r)))))
      (.constrained n type) r := by
  obtain ⟨hn, hty⟩ := hd
  refine (spaced_name_yields hn rfl).andThen ?_
  exact (spaced_typeRef_yields hty ht hr).mapRule (Declaration.constrained n)

end Variables

section Functions

theorem parameter_yields {ty : TypeExpr} (hty : ty.Spellable) (ht : ty.SpelledParameter t)
    (hcs : cs.dropWhile isBlank = t ++ r) : Yields (parameter (.ofList cs)) ty r := by
  obtain ⟨form, hform, rfl⟩ := ht
  have htext : cs.dropWhile isBlank = form.toList ++ ',' :: r := by simpa using hcs
  have hcomma : Yields (symbol ',' (some "Every parameter type ends with ','")
      (.ofList (',' :: r))) () r := symbol_yields rfl
  exact (typeRef_yields hty hform htext rfl).followedBy hcomma

theorem signature_yields {decl : Signature} {result : String} {ts : List Char}
    (hd : (Declaration.function decl).Spellable) (ht : decl.result.write = .ok result)
    (hts : Pieces TypeExpr.SpelledParameter decl.parameters ts) :
    Yields (signature (.ofList (' ' :: (decl.name.toList ++
      ' ' :: (result.toList ++ ' ' :: '{' :: (ts ++ '}' :: r)))))) (.function decl) r := by
  obtain ⟨hn, hresult, hparameters⟩ := hd
  refine (spaced_name_yields hn rfl).andThen ?_
  refine (spaced_typeRef_yields hresult ht rfl).andThen (Yields.mapRule ?_ _)
  apply braced_yields hts
  · rintro ty hty t ⟨form, hform, rfl⟩ r
    rw [List.append_assoc]
    exact opens_of_write (hparameters ty hty) hform _
  · intro ty hty t ht cs r hcs _
    exact parameter_yields (hparameters ty hty) ht hcs
  · rfl

theorem typedef_yields {source : TypeExpr} {n ty : String}
    (hd : (Declaration.typedef source n).Spellable) (ht : source.write = .ok ty)
    (hcs : cs.dropWhile isBlank =
      "typedef ".toList ++ (ty.toList ++ ' ' :: (n.toList ++ ';' :: r))) :
    Yields (typedef (.ofList cs)) (.typedef source n) r := by
  obtain ⟨hsource, hn⟩ := hd
  have hkeyword : Yields (keyword "typedef" none (.ofList cs)) ()
      (' ' :: (ty.toList ++ ' ' :: (n.toList ++ ';' :: r))) := keyword_yields (by decide) hcs rfl
  have hsemicolon : Yields (symbol ';' none (.ofList (';' :: r))) () r := symbol_yields rfl
  refine hkeyword.andThen ((spaced_typeRef_yields hsource ht rfl).andThen ?_)
  exact ((spaced_name_yields hn rfl).followedBy hsemicolon).mapRule (Declaration.typedef source)

end Functions

section Phases

/-- The word that tells which declaration starts. -/
def opening : Declaration → String
  | .header _ _ => "#include"
  | .typedef _ _ => "typedef"
  | .define (.struct _ _) => "struct"
  | .define (.enum _ _) => "enum"
  | .free _ => "var:free"
  | .constrained _ _ => "var:constrained"
  | .function _ => "function:decl"

theorem opening_mem (d : Declaration) : (opening d, d.phase) ∈ declarationKeywords := by
  cases d with
  | define definition => cases definition <;> simp [opening, Declaration.phase, declarationKeywords]
  | _ => simp [opening, Declaration.phase, declarationKeywords]

theorem starts_of_spelled {d : Declaration} (h : d.Spelled t) :
    ∃ k, t = (opening d).toList ++ ' ' :: k := by
  have hstart : ∃ k, t = (opening d ++ " ").toList ++ k := by
    cases h <;> exact ⟨_, congrArg (· ++ _) (by simp [opening])⟩
  obtain ⟨k, rfl⟩ := hstart
  exact ⟨k, by simp⟩

theorem opens_of_declarationKeyword {text : String} {phase : Phase}
    (h : (text, phase) ∈ declarationKeywords) (r : List Char) :
    opens (text.toList ++ r) = true := by
  have hall : ∀ p ∈ declarationKeywords, p.1.toList.head?.any
      (fun c => isWordStart c || c == '#') = true := by decide
  have hhead := hall _ h
  cases heq : text.toList with
  | nil => simp [heq] at hhead
  | cons c w =>
      have hc : isWordStart c = true ∨ c = '#' := by simpa [heq] using hhead
      rcases hc with hc | rfl
      · exact opens_of_isWordStart hc _
      · rfl

theorem opens_of_spelled {d : Declaration} (h : d.Spelled t) (r : List Char) :
    opens (t ++ r) = true := by
  obtain ⟨k, rfl⟩ := starts_of_spelled h
  rw [List.append_assoc]
  exact opens_of_declarationKeyword (opening_mem d) _

theorem keyword?_eq_none_of_spelled {d : Declaration} (h : d.Spelled t) {text : String}
    {phase : Phase} (hmem : (text, phase) ∈ declarationKeywords) (hne : text ≠ opening d)
    (hcs : cs.dropWhile isBlank = t ++ r) : keyword? text (.ofList cs) = none := by
  have hspace : ∀ p ∈ declarationKeywords, ' ' ∉ p.1.toList := by decide
  have hall : ∀ p ∈ declarationKeywords, ∀ q ∈ declarationKeywords, p.1 ≠ q.1 →
      p.1.toList.isPrefixOf q.1.toList = false := by decide
  obtain ⟨k, rfl⟩ := starts_of_spelled h
  rw [List.append_assoc, List.cons_append] at hcs
  exact keyword?_eq_none_of_not_prefix (hspace _ hmem) (hall _ hmem _ (opening_mem d) hne) hcs

theorem isSome_keyword?_of_spelled {d : Declaration} (h : d.Spelled t)
    (hcs : cs.dropWhile isBlank = t ++ r) : (keyword? (opening d) (.ofList cs)).isSome = true := by
  have hall : ∀ p ∈ declarationKeywords, p.1.toList ≠ [] := by decide
  obtain ⟨k, rfl⟩ := starts_of_spelled h
  rw [List.append_assoc, List.cons_append] at hcs
  obtain ⟨hlt, e⟩ := keyword?_finds (hall _ (opening_mem d)) hcs rfl
  simp [e]

/-- The rule for the declarations of a phase. -/
def declaration? : Phase → OptionalRule Declaration
  | .headers => header?
  | .types => typeDeclaration?
  | .vars => variableDeclaration?
  | .functions => functionDeclaration?
  | .statements => fun _ => none

theorem typeDeclaration?_offers {d : Declaration} (hd : d.Spellable) (ht : d.Spelled t)
    (hphase : d.phase = .types) (hcs : cs.dropWhile isBlank = t ++ r) :
    Offers (typeDeclaration? (.ofList cs)) d r := by
  have hother : ∀ text, (text, Phase.types) ∈ declarationKeywords → text ≠ opening d →
      (keyword? text (.ofList cs)).isSome = false :=
    fun text hmem hne => by rw [keyword?_eq_none_of_spelled ht hmem hne hcs, Option.isSome_none]
  have hown := isSome_keyword?_of_spelled ht hcs
  cases ht with
  | struct h =>
      have hread := (structDefinition_yields hd h (by simpa using hcs)).mapRule Declaration.define
      obtain ⟨hlt, e⟩ := hread
      simp only [opening] at hown
      exact ⟨hlt, by simp [typeDeclaration?, hown, e]⟩
  | enum h =>
      have hread := (enumDefinition_yields hd h (by simpa using hcs)).mapRule Declaration.define
      obtain ⟨hlt, e⟩ := hread
      have hstruct := hother "struct" (by decide) (by simp [opening])
      simp only [opening] at hown
      exact ⟨hlt, by simp [typeDeclaration?, hstruct, hown, e]⟩
  | typedef h =>
      obtain ⟨hlt, e⟩ := typedef_yields hd h (by simpa using hcs)
      have hstruct := hother "struct" (by decide) (by simp [opening])
      have henum := hother "enum" (by decide) (by simp [opening])
      simp only [opening] at hown
      exact ⟨hlt, by simp [typeDeclaration?, hstruct, henum, hown, e]⟩
  | _ => simp [Declaration.phase] at hphase

theorem variableDeclaration?_offers {d : Declaration} (hd : d.Spellable) (ht : d.Spelled t)
    (hphase : d.phase = .vars) (hcs : cs.dropWhile isBlank = t ++ r) (hr : apart r = true) :
    Offers (variableDeclaration? (.ofList cs)) d r := by
  have hother : ∀ text, (text, Phase.vars) ∈ declarationKeywords → text ≠ opening d →
      keyword? text (.ofList cs) = none :=
    fun text hmem hne => keyword?_eq_none_of_spelled ht hmem hne hcs
  cases ht with
  | @free decl ty h =>
      have hconstrained := hother "var:constrained" (by decide) (by simp [opening])
      have htext : cs.dropWhile isBlank = "var:free".toList ++ ' ' :: (decl.name.toList ++
          ' ' :: ((GeneratorName.write decl.generator).toList ++ ' ' :: (ty.toList ++ r))) := by
        simpa using hcs
      obtain ⟨hlt, e⟩ := Yields.ifKeyword (keyword?_finds (by decide) htext rfl)
        (freeVariable_yields hd h hr)
      have hnone : Rule.ifKeyword "var:constrained" constrainedVariable (.ofList cs) = none := by
        simp [Rule.ifKeyword, hconstrained]
      exact ⟨hlt, by rw [variableDeclaration?, hnone, Option.none_or, e]⟩
  | @constrained n ty type h =>
      have htext : cs.dropWhile isBlank = "var:constrained".toList ++
          ' ' :: (n.toList ++ ' ' :: (ty.toList ++ r)) := by simpa using hcs
      obtain ⟨hlt, e⟩ := Yields.ifKeyword (keyword?_finds (by decide) htext rfl)
        (constrainedVariable_yields hd h hr)
      exact ⟨hlt, by rw [variableDeclaration?, e, Option.some_or]⟩
  | _ => simp [Declaration.phase] at hphase

theorem declaration?_offers {d : Declaration} (hd : d.Spellable) (ht : d.Spelled t)
    (hcs : cs.dropWhile isBlank = t ++ r) (hr : apart r = true) :
    Offers (declaration? d.phase (.ofList cs)) d r := by
  have hown := isSome_keyword?_of_spelled ht hcs
  cases ht with
  | header =>
      obtain ⟨hlt, e⟩ := header_yields hd.1 hd.2 (by simpa using hcs)
      simp only [opening] at hown
      exact ⟨hlt, by simp [declaration?, Declaration.phase, header?, hown, e]⟩
  | struct h => exact typeDeclaration?_offers hd (.struct h) rfl hcs
  | enum h => exact typeDeclaration?_offers hd (.enum h) rfl hcs
  | typedef h => exact typeDeclaration?_offers hd (.typedef h) rfl hcs
  | free h => exact variableDeclaration?_offers hd (.free h) rfl hcs hr
  | constrained h => exact variableDeclaration?_offers hd (.constrained h) rfl hcs hr
  | @function decl result ts hresult h =>
      have htext : cs.dropWhile isBlank = "function:decl".toList ++ ' ' :: (decl.name.toList ++
          ' ' :: (result.toList ++ ' ' :: '{' :: (ts ++ '}' :: r))) := by simpa using hcs
      exact Yields.ifKeyword (keyword?_finds (by decide) htext rfl) (signature_yields hd hresult h)

theorem declaration?_declines {phase : Phase}
    (h : ∀ text, (text, phase) ∈ declarationKeywords → keyword? text (.ofList cs) = none) :
    declaration? phase (.ofList cs) = none := by
  cases phase with
  | headers => simp [declaration?, header?, h "#include" (by decide)]
  | types =>
      simp [declaration?, typeDeclaration?, h "struct" (by decide), h "enum" (by decide),
        h "typedef" (by decide)]
  | vars =>
      simp [declaration?, variableDeclaration?, Rule.ifKeyword, h "var:free" (by decide),
        h "var:constrained" (by decide)]
  | functions =>
      simp [declaration?, functionDeclaration?, Rule.ifKeyword, h "function:decl" (by decide)]
  | statements => rfl

end Phases

end FuzzFrontend.Program.Grammar
