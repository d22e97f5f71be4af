import FuzzFrontend.Program.Grammar.TypeRef
import FuzzFrontend.Proofs.Program.Spelling

namespace FuzzFrontend.Program.Grammar

open Scan

variable {cs r : List Char}

theorem isWord_of_isName {n : String} (h : isName n = true) : isWord n.toList = true :=
  (Bool.and_eq_true_iff.mp h).1

theorem not_reserved_of_isName {n : String} (h : isName n = true) : n ∉ reservedWords := by
  simpa using (Bool.and_eq_true_iff.mp h).2

theorem solid_of_isName {n : String} (h : isName n = true) : solid n.toList = true :=
  solid_of_isWord (isWord_of_isName h)

theorem head_of_isName {n : String} (h : isName n = true) :
    ∃ c w, n.toList = c :: w ∧ isWordStart c = true := by
  have hw := isWord_of_isName h
  cases heq : n.toList with
  | nil => simp [heq, isWord] at hw
  | cons c w =>
      rw [heq] at hw
      exact ⟨c, w, rfl, (Bool.and_eq_true_iff.mp hw).1⟩

theorem name_yields {n : String} (hn : isName n = true)
    (hcs : cs.dropWhile isBlank = n.toList ++ r) (hr : apart r = true) :
    Yields (name (.ofList cs)) n r := by
  obtain ⟨h, e⟩ := identifier_yields (isWord_of_isName hn) hcs (head?_of_apart hr)
  refine ⟨h, ?_⟩
  simp [name, e, not_reserved_of_isName hn]

theorem spaced_name_yields {n : String} (hn : isName n = true) (hr : apart r = true) :
    Yields (name (.ofList (' ' :: (n.toList ++ r)))) n r :=
  name_yields hn (dropWhile_solid_append (solid_of_isName hn) r) hr

section Keywords

theorem keyword?_eq_none_of_word_ne {text : String} {w : List Char}
    (htext : isWord text.toList = true) (hw : isWord w = true)
    (hcs : cs.dropWhile isBlank = w ++ r) (hr : apart r = true)
    (hne : text.toList ≠ w) : keyword? text (.ofList cs) = none := by
  apply keyword?_eq_none_of_word htext
  rw [hcs, word_append hw (head?_of_apart hr)]
  exact hne.symm

theorem keyword?_eq_none_of_colon {text : String} {w : List Char}
    (htext : (text.toList.dropWhile isWordChar).head? = some ':')
    (hw : isWord w = true) (hcs : cs.dropWhile isBlank = w ++ r) (hr : apart r = true) :
    keyword? text (.ofList cs) = none := by
  apply keyword?_eq_none
  rintro ⟨tail, htail⟩
  have hword : ∀ c ∈ text.toList.takeWhile isWordChar, isWordChar c = true :=
    List.all_eq_true.mp List.all_takeWhile
  obtain ⟨k, hk⟩ : ∃ k, text.toList.dropWhile isWordChar = ':' :: k := by
    cases hd : text.toList.dropWhile isWordChar with
    | nil => simp [hd] at htext
    | cons c k =>
        rw [hd] at htext
        obtain rfl : c = ':' := by simpa using htext
        exact ⟨k, rfl⟩
  have hsplit : text.toList.takeWhile isWordChar ++ ':' :: (k ++ tail) = w ++ r := by
    rw [← hcs, ← htail, ← List.cons_append, ← hk, ← List.append_assoc,
      List.takeWhile_append_dropWhile]
  have hrest : ':' :: (k ++ tail) = r := by
    calc ':' :: (k ++ tail)
        = (text.toList.takeWhile isWordChar ++ ':' :: (k ++ tail)).dropWhile isWordChar :=
          (dropWhile_append_of_head? hword rfl).symm
      _ = (w ++ r).dropWhile isWordChar := by rw [hsplit]
      _ = r := dropWhile_append_of_head? (isWordChar_of_isWord hw) (head?_of_apart hr)
  rw [← hrest] at hr
  exact absurd hr Bool.false_ne_true

/-- No name makes this text: it is a reserved word, or has a mark in it. -/
def neverNamed (text : String) : Bool :=
  reservedWords.contains text || (text.toList.dropWhile isWordChar).head? == some ':' ||
    text.toList.head? == some '#'

theorem isWord_of_reserved {text : String} (h : text ∈ reservedWords) :
    isWord text.toList = true := by
  have hall : ∀ w ∈ reservedWords, isWord w.toList = true := by decide
  exact hall text h

theorem keyword?_eq_none_of_name {text n : String} (htext : neverNamed text = true)
    (hn : isName n = true) (hcs : cs.dropWhile isBlank = n.toList ++ r) (hr : apart r = true) :
    keyword? text (.ofList cs) = none := by
  have hw := isWord_of_isName hn
  simp only [neverNamed, Bool.or_eq_true, List.contains_iff_mem, beq_iff_eq] at htext
  rcases htext with (hreserved | hcolon) | hhash
  · apply keyword?_eq_none_of_word_ne (isWord_of_reserved hreserved) hw hcs hr
    intro heq
    rw [String.toList_inj.mp heq] at hreserved
    exact not_reserved_of_isName hn hreserved
  · exact keyword?_eq_none_of_colon hcolon hw hcs hr
  · apply keyword?_eq_none_of_head?
    obtain ⟨c, w, heq, hc⟩ := head_of_isName hn
    rw [hcs, hhash, heq]
    rintro hhead
    obtain rfl : '#' = c := by simpa using hhead
    exact absurd hc (by decide)

end Keywords

section Types

theorem isWord_spelling (kind : Scalar) : isWord kind.spelling.toList = true := by
  cases kind <;> decide

theorem ofSpelling?_spelling (kind : Scalar) : Scalar.ofSpelling? kind.spelling = some kind := by
  cases kind <;> decide

theorem scalar?_finds {kind : Scalar} (hcs : cs.dropWhile isBlank = kind.spelling.toList ++ r)
    (hr : apart r = true) : Finds (scalar? (.ofList cs)) kind r := by
  obtain ⟨h, e⟩ := identifier_yields (isWord_spelling kind) hcs (head?_of_apart hr)
  refine ⟨h, ?_⟩
  simp [scalar?, e, ofSpelling?_spelling, Parsed.map]

theorem scalar_yields {kind : Scalar} (hcs : cs.dropWhile isBlank = kind.spelling.toList ++ r)
    (hr : apart r = true) : Yields (scalar (.ofList cs)) kind r := by
  obtain ⟨h, e⟩ := scalar?_finds hcs hr
  exact ⟨h, by rw [scalar, e]⟩

/-- The words that start the other forms of a type. -/
def formWords : List String :=
  ["struct", "enum", "pointer"]

theorem keyword?_eq_none_of_scalar {text : String} (htext : text ∈ formWords) {kind : Scalar}
    (hcs : cs.dropWhile isBlank = kind.spelling.toList ++ r) (hr : apart r = true) :
    keyword? text (.ofList cs) = none := by
  have hall : ∀ w ∈ formWords, w ∈ reservedWords := by decide
  have hother : ∀ w ∈ formWords, ∀ k : Scalar, w.toList ≠ k.spelling.toList := by
    intro w hw k
    cases k <;> revert w <;> decide
  exact keyword?_eq_none_of_word_ne (isWord_of_reserved (hall text htext)) (isWord_spelling kind)
    hcs hr (hother text htext kind)

/-- How a type is referred to where it is pointed to. -/
def reference : Ty → TypeExpr
  | .struct name _ _ => .structNamed name
  | .enum name _ _ => .enumNamed name
  | ty => .known ty

theorem target_reference {ty : Ty} (h : ty.IsTarget) : (reference ty).target = ty := by
  match ty, h with
  | .scalar _, _ => rfl
  | .pointer _, _ => rfl
  | .struct _ _ _, ⟨_, rfl, rfl⟩ => rfl
  | .enum _ _ _, ⟨_, rfl, rfl⟩ => rfl

theorem write_pointer_pointer (ty : Ty) :
    (Ty.pointer (.pointer ty)).write = (Ty.pointer ty).write.map ("pointer " ++ ·) := by
  have hjoin : String.join (List.replicate (ty.indirections + 1 + 1) "pointer ") =
      "pointer " ++ String.join (List.replicate (ty.indirections + 1) "pointer ") := by
    simp [List.replicate_succ]
  simp only [Ty.write, Ty.pointee, Ty.indirections, hjoin, Nat.add_one_ne_zero, if_false]
  split <;> simp [Except.map, String.append_assoc]

theorem write_pointer {ty : Ty} (h : ty.IsTarget) :
    (Ty.pointer ty).write = (reference ty).write.map ("pointer " ++ ·) := by
  match ty, h with
  | .pointer target, _ => exact write_pointer_pointer target
  | .scalar kind, _ =>
      simp [reference, TypeExpr.write, Ty.write, Ty.pointee, Ty.indirections, Except.map]
  | .struct name _ _, ⟨_, rfl, rfl⟩ =>
      apply congrArg Except.ok
      apply String.toList_inj.mp
      simp [Ty.indirections]
  | .enum name _ _, ⟨_, rfl, rfl⟩ =>
      apply congrArg Except.ok
      apply String.toList_inj.mp
      simp [Ty.indirections]

theorem typeExpr_yields_pointer {target : TypeExpr}
    (hcs : cs.dropWhile isBlank = "pointer ".toList ++ r)
    {rest : List Char} (h : Yields (typeExpr (.ofList (' ' :: r))) target rest) :
    Yields (typeExpr (.ofList cs)) (.known (.pointer target.target)) rest := by
  have hword : cs.dropWhile isBlank = "pointer".toList ++ (' ' :: r) := hcs
  have hsplit : apart (' ' :: r) = true := rfl
  have hstruct : keyword? "struct" (.ofList cs) = none :=
    keyword?_eq_none_of_word_ne (by decide) (by decide) hword hsplit (by decide)
  have henum : keyword? "enum" (.ofList cs) = none :=
    keyword?_eq_none_of_word_ne (by decide) (by decide) hword hsplit (by decide)
  obtain ⟨hlt, e⟩ := keyword?_finds (by decide) hword rfl
  obtain ⟨hlt', e'⟩ := h
  unfold typeExpr
  simp only [hstruct, henum, e, e']
  exact ⟨_, rfl⟩

theorem typeExpr_yields_struct {n : String} (hn : isName n = true)
    (hcs : cs.dropWhile isBlank = ("struct " ++ n).toList ++ r) (hr : apart r = true) :
    Yields (typeExpr (.ofList cs)) (.structNamed n) r := by
  have hword : cs.dropWhile isBlank = "struct".toList ++ (' ' :: (n.toList ++ r)) := by
    simpa using hcs
  obtain ⟨hlt, e⟩ := keyword?_finds (by decide) hword rfl
  unfold typeExpr
  simp only [e]
  exact (spaced_name_yields hn hr).mapRelax TypeExpr.structNamed (Nat.le_of_lt hlt)

theorem typeExpr_yields_enum {n : String} (hn : isName n = true)
    (hcs : cs.dropWhile isBlank = ("enum " ++ n).toList ++ r) (hr : apart r = true) :
    Yields (typeExpr (.ofList cs)) (.enumNamed n) r := by
  have hword : cs.dropWhile isBlank = "enum".toList ++ (' ' :: (n.toList ++ r)) := by
    simpa using hcs
  have hstruct : keyword? "struct" (.ofList cs) = none :=
    keyword?_eq_none_of_word_ne (by decide) (by decide) hword rfl (by decide)
  obtain ⟨hlt, e⟩ := keyword?_finds (by decide) hword rfl
  unfold typeExpr
  simp only [hstruct, e]
  exact (spaced_name_yields hn hr).mapRelax TypeExpr.enumNamed (Nat.le_of_lt hlt)

theorem typeExpr_yields_scalar {kind : Scalar}
    (hcs : cs.dropWhile isBlank = kind.spelling.toList ++ r) (hr : apart r = true) :
    Yields (typeExpr (.ofList cs)) (.known (.scalar kind)) r := by
  have hforms : ∀ w ∈ formWords, keyword? w (.ofList cs) = none :=
    fun w hw => keyword?_eq_none_of_scalar hw hcs hr
  obtain ⟨hlt, e⟩ := scalar?_finds hcs hr
  unfold typeExpr
  simp only [hforms "struct" (by decide), hforms "enum" (by decide), hforms "pointer" (by decide),
    e]
  exact ⟨hlt, rfl⟩

theorem opens_of_write_reference {ty : Ty} {t : String} (hty : ty.IsTarget)
    (ht : (reference ty).write = .ok t) (r : List Char) : opens (t.toList ++ r) = true := by
  have hword : ∃ w k, isWord w = true ∧ t.toList = w ++ k := by
    match ty, hty with
    | .scalar kind, _ =>
        cases ht
        exact ⟨kind.spelling.toList, [], isWord_spelling kind, by simp [Ty.indirections]⟩
    | .struct name _ _, ⟨_, rfl, rfl⟩ =>
        cases ht
        exact ⟨"struct".toList, ' ' :: name.toList, by decide, by simp⟩
    | .enum name _ _, ⟨_, rfl, rfl⟩ =>
        cases ht
        exact ⟨"enum".toList, ' ' :: name.toList, by decide, by simp⟩
    | .pointer target, htarget =>
        have hwrite : (Ty.pointer target).write = .ok t := ht
        rw [write_pointer (show target.IsTarget from htarget)] at hwrite
        obtain ⟨u, -, rfl⟩ := map_eq_ok.mp hwrite
        exact ⟨"pointer".toList, ' ' :: u.toList, by decide, by simp⟩
  obtain ⟨w, k, hw, heq⟩ := hword
  rw [heq, List.append_assoc]
  exact opens_of_isWord hw (k ++ r)

theorem typeExpr_yields_reference {ty : Ty} {t : String} {cs : List Char} (hty : ty.IsTarget)
    (ht : (reference ty).write = .ok t) (hcs : cs.dropWhile isBlank = t.toList ++ r)
    (hr : apart r = true) : Yields (typeExpr (.ofList cs)) (reference ty) r := by
  match ty, hty with
  | .scalar kind, _ =>
      cases ht
      exact typeExpr_yields_scalar (by simpa [Ty.indirections] using hcs) hr
  | .struct name _ _, ⟨hname, rfl, rfl⟩ =>
      cases ht
      exact typeExpr_yields_struct hname hcs hr
  | .enum name _ _, ⟨hname, rfl, rfl⟩ =>
      cases ht
      exact typeExpr_yields_enum hname hcs hr
  | .pointer target, h =>
      have htarget : target.IsTarget := h
      have hwrite : (Ty.pointer target).write = .ok t := ht
      rw [write_pointer htarget] at hwrite
      obtain ⟨u, hu, rfl⟩ := map_eq_ok.mp hwrite
      have hpointer : cs.dropWhile isBlank = "pointer ".toList ++ (u.toList ++ r) := by
        simpa using hcs
      have hopens := opens_of_write_reference htarget hu r
      have hrest : Yields (typeExpr (.ofList (' ' :: (u.toList ++ r)))) (reference target) r :=
        typeExpr_yields_reference htarget hu (dropWhile_of_solid (solid_of_opens hopens)) hr
      have hread := typeExpr_yields_pointer hpointer hrest
      rw [target_reference htarget] at hread
      exact hread

theorem reference_target : ∀ {ty : TypeExpr}, ty.Spellable →
    ty.target.IsTarget ∧ reference ty.target = ty
  | .known (.scalar _), _ => ⟨trivial, rfl⟩
  | .known (.pointer _), h => ⟨h, rfl⟩
  | .structNamed _, h => ⟨⟨h, rfl, rfl⟩, rfl⟩
  | .enumNamed _, h => ⟨⟨h, rfl, rfl⟩, rfl⟩

theorem opens_of_write {ty : TypeExpr} {t : String} (hty : ty.Spellable) (ht : ty.write = .ok t)
    (r : List Char) : opens (t.toList ++ r) = true := by
  obtain ⟨htarget, heq⟩ := reference_target hty
  rw [← heq] at ht
  exact opens_of_write_reference htarget ht r

theorem typeRef_yields {ty : TypeExpr} {t : String} (hty : ty.Spellable) (ht : ty.write = .ok t)
    (hcs : cs.dropWhile isBlank = t.toList ++ r) (hr : apart r = true) :
    Yields (typeRef (.ofList cs)) ty r := by
  obtain ⟨htarget, heq⟩ := reference_target hty
  rw [← heq] at ht ⊢
  exact typeExpr_yields_reference htarget ht hcs hr

theorem spaced_typeRef_yields {ty : TypeExpr} {text : String} (hty : ty.Spellable)
    (ht : ty.write = .ok text) (hr : apart r = true) :
    Yields (typeRef (.ofList (' ' :: (text.toList ++ r)))) ty r :=
  typeRef_yields hty ht (dropWhile_of_solid (solid_of_opens (opens_of_write hty ht r))) hr

end Types

end FuzzFrontend.Program.Grammar
