import Mathlib.Data.List.Forall2
import FuzzFrontend.Proofs.Scan.Boundary
import FuzzFrontend.Proofs.Scan.Integer
import FuzzFrontend.Text.JsonString

/-!
JSON texts and what they stand for. The reader follows the format: four characters separate tokens,
strings have no control characters but escapes, and numbers have no leading zeros; only integers are
read. Main statements: a written string, a written integer, and written values between brackets or
braces are read back, whatever follows them.
-/
namespace FuzzFrontend

/-- What a JSON text stands for. The members of an object are in the order of the text. -/
inductive Json
  | null
  | bool (value : Bool)
  | integer (value : Int)
  | string (text : String)
  | array (items : List Json)
  | object (members : List (String × Json))

namespace Json

open Scan (isBlank)

section Reading

/-- The value of a hexadecimal digit in either case. -/
def hexValue? (c : Char) : Option Nat :=
  if c.isDigit then some (c.toNat - '0'.toNat)
  else if 'a' ≤ c ∧ c ≤ 'f' then some (c.toNat - 'a'.toNat + 10)
  else if 'A' ≤ c ∧ c ≤ 'F' then some (c.toNat - 'A'.toNat + 10)
  else none

/-- The number of four hexadecimal digits, and what follows them. -/
def unit? : List Char → Option (Nat × List Char)
  | a :: b :: c :: d :: r => do
    let a ← hexValue? a
    let b ← hexValue? b
    let c ← hexValue? c
    let d ← hexValue? d
    return (((a * 16 + b) * 16 + c) * 16 + d, r)
  | _ => none

def isHighSurrogate (n : Nat) : Bool :=
  0xd800 ≤ n && n < 0xdc00

def isLowSurrogate (n : Nat) : Bool :=
  0xdc00 ≤ n && n < 0xe000

/-- The character of an escaped code unit, or of two that are surrogates of each other. -/
def escapedUnit? (s : List Char) : Option (Char × List Char) :=
  match unit? s with
  | none => none
  | some (n, r) =>
    if isHighSurrogate n then
      match r with
      | '\\' :: 'u' :: r =>
        match unit? r with
        | none => none
        | some (m, r) =>
          if isLowSurrogate m then
            some (Char.ofNat (0x10000 + (n - 0xd800) * 0x400 + (m - 0xdc00)), r)
          else none
      | _ => none
    else if isLowSurrogate n then none
    else some (Char.ofNat n, r)

/-- The character for a letter or a mark after a backslash. -/
def escape? : Char → Option Char
  | '"' => some '"'
  | '\\' => some '\\'
  | '/' => some '/'
  | 'b' => some '\x08'
  | 'f' => some '\x0c'
  | 'n' => some '\n'
  | 'r' => some '\r'
  | 't' => some '\t'
  | _ => none

/-- The first character inside a string, which may be escaped. -/
def character? : List Char → Option (Char × List Char)
  | [] => none
  | c :: r =>
    if c = '\\' then
      match r with
      | [] => none
      | e :: r => if e = 'u' then escapedUnit? r else (escape? e).map fun c => (c, r)
    else if c = '"' ∨ c.toNat < 0x20 then none
    else some (c, r)

/-- The characters of a string up to its closing quote, at most so many. -/
def characters? : Nat → List Char → Option (List Char × List Char)
  | _, '"' :: r => some ([], r)
  | 0, _ => none
  | n + 1, s =>
    match character? s with
    | none => none
    | some (c, r) => (characters? n r).map fun (cs, r) => (c :: cs, r)

/-- A string after its opening quote. -/
def text? (s : List Char) : Option (String × List Char) :=
  (characters? s.length s).map fun (cs, r) => (String.ofList cs, r)

/-- What would make another number of the digits before it. -/
def continuesNumber (c : Char) : Bool :=
  c.isDigit || c == '.' || c == 'e' || c == 'E'

/-- The number of digits without a leading zero. -/
def natural? (s : List Char) : Option (Nat × List Char) :=
  let digits := s.takeWhile Char.isDigit
  let r := s.dropWhile Char.isDigit
  if digits = [] ∨ (digits.head? = some '0' ∧ digits ≠ ['0']) ∨ r.head?.any continuesNumber then
    none
  else some (Text.decimalValue digits, r)

def integer? : List Char → Option (Int × List Char)
  | '-' :: s => (natural? s).map fun (n, r) => (-(n : Int), r)
  | s => (natural? s).map fun (n, r) => ((n : Int), r)

variable {α : Type}

/-- Items with commas between them up to a closing bracket, at least one and at most so many. -/
def items? (item : List Char → Option (α × List Char)) (close : Char) :
    Nat → List Char → Option (List α × List Char)
  | 0, _ => none
  | n + 1, s =>
    match item s with
    | none => none
    | some (a, r) =>
      match r.dropWhile isBlank with
      | [] => none
      | c :: r =>
        if c = close then some ([a], r)
        else if c = ',' then (items? item close n r).map fun (as, r) => (a :: as, r)
        else none

/-- Items, or none, up to a closing bracket. -/
def enclosed? (item : List Char → Option (α × List Char)) (close : Char) (s : List Char) :
    Option (List α × List Char) :=
  match s.dropWhile isBlank with
  | [] => none
  | c :: r => if c = close then some ([], r) else items? item close s.length s

/-- A string, a colon and a value. -/
def member? (value : List Char → Option (Json × List Char)) (s : List Char) :
    Option ((String × Json) × List Char) :=
  match s.dropWhile isBlank with
  | '"' :: r =>
    match text? r with
    | none => none
    | some (key, r) =>
      match r.dropWhile isBlank with
      | ':' :: r => (value r).map fun (v, r) => ((key, v), r)
      | _ => none
  | _ => none

/-- A value that is nested at most so deep. -/
def value? : Nat → List Char → Option (Json × List Char)
  | 0, _ => none
  | depth + 1, s =>
    match s.dropWhile isBlank with
    | [] => none
    | c :: r =>
      if c = '"' then (text? r).map fun (t, r) => (string t, r)
      else if c = '[' then (enclosed? (value? depth) ']' r).map fun (vs, r) => (array vs, r)
      else if c = '{' then
        (enclosed? (member? (value? depth)) '}' r).map fun (ms, r) => (object ms, r)
      else
        match Scan.after? ['n', 'u', 'l', 'l'] (c :: r) with
        | some r => some (null, r)
        | none =>
          match Scan.after? ['t', 'r', 'u', 'e'] (c :: r) with
          | some r => some (bool true, r)
          | none =>
            match Scan.after? ['f', 'a', 'l', 's', 'e'] (c :: r) with
            | some r => some (bool false, r)
            | none => (integer? (c :: r)).map fun (v, r) => (integer v, r)

/-- The value that a whole text stands for. No text nests deeper than it is long. -/
def read? (text : String) : Option Json :=
  match value? text.length text.toList with
  | none => none
  | some (v, r) => if r.dropWhile isBlank = [] then some v else none

example : read? " [1, -20, \"\\u00e9\\n\\ud83d\\ude00\", \x7b\"a\": null\x7d] " =
    some (array [integer 1, integer (-20), string "é\n😀", object [("a", null)]]) := by
  with_unfolding_all rfl

end Reading

section Strings

theorem hexValue?_hexDigit {d : Nat} (h : d < 16) : hexValue? (Text.hexDigit d) = some d := by
  have : ∀ d < 16, hexValue? (Text.hexDigit d) = some d := by decide
  exact this d h

theorem unit?_hexDigits {n : Nat} (h : n < 0x10000) (r : List Char) :
    unit? (Text.hexDigits 4 n ++ r) = some (n, r) := by
  have h₁ := hexValue?_hexDigit (Nat.mod_lt (n / 16 / 16 / 16) (by decide : 0 < 16))
  have h₂ := hexValue?_hexDigit (Nat.mod_lt (n / 16 / 16) (by decide : 0 < 16))
  have h₃ := hexValue?_hexDigit (Nat.mod_lt (n / 16) (by decide : 0 < 16))
  have h₄ := hexValue?_hexDigit (Nat.mod_lt n (by decide : 0 < 16))
  simp only [Text.hexDigits, List.nil_append, List.cons_append, unit?, h₁, h₂, h₃, h₄,
    Option.bind_eq_bind, Option.bind_some, pure, Option.some.injEq, Prod.mk.injEq, and_true]
  omega

theorem escapedUnit?_hexDigits {c : Char} (h : c.toNat < 0x20) (r : List Char) :
    escapedUnit? (Text.hexDigits 4 c.toNat ++ r) = some (c, r) := by
  have hhigh : isHighSurrogate c.toNat = false := by
    simp only [isHighSurrogate, Bool.and_eq_false_iff, decide_eq_false_iff_not]
    omega
  have hlow : isLowSurrogate c.toNat = false := by
    simp only [isLowSurrogate, Bool.and_eq_false_iff, decide_eq_false_iff_not]
    omega
  unfold escapedUnit?
  rw [unit?_hexDigits (by omega)]
  simp [hhigh, hlow]

theorem character?_jsonChar (c : Char) (r : List Char) :
    character? (Text.jsonChar c ++ r) = some (c, r) := by
  unfold Text.jsonChar
  split_ifs with hquote hbackslash hnewline hreturn htab hbackspace hformfeed hcontrol
  · rw [hquote]; rfl
  · rw [hbackslash]; rfl
  · rw [hnewline]; rfl
  · rw [hreturn]; rfl
  · rw [htab]; rfl
  · rw [hbackspace]; rfl
  · rw [hformfeed]; rfl
  · exact escapedUnit?_hexDigits hcontrol r
  · simp [character?, hquote, hbackslash, hcontrol]

theorem exists_jsonChar (c : Char) : ∃ a t, Text.jsonChar c = a :: t ∧ a ≠ '"' := by
  unfold Text.jsonChar
  split_ifs with hquote
  case neg => exact ⟨c, [], rfl, hquote⟩
  all_goals exact ⟨'\\', _, rfl, by decide⟩

theorem characters?_flatMap {n : Nat} {cs : List Char} (h : cs.length ≤ n) (r : List Char) :
    characters? n (cs.flatMap Text.jsonChar ++ '"' :: r) = some (cs, r) := by
  induction cs generalizing n with
  | nil => simp [characters?]
  | cons c cs ih =>
      obtain ⟨a, t, hchar, ha⟩ := exists_jsonChar c
      cases n with
      | zero => simp at h
      | succ n =>
          have hrest := ih (Nat.le_of_succ_le_succ h)
          have hread := character?_jsonChar c (cs.flatMap Text.jsonChar ++ '"' :: r)
          rw [List.flatMap_cons, List.append_assoc]
          rw [hchar, List.cons_append] at hread ⊢
          simp [characters?, ha, hread, hrest]

theorem length_le_flatMap (cs : List Char) : cs.length ≤ (cs.flatMap Text.jsonChar).length := by
  induction cs with
  | nil => exact Nat.le_refl _
  | cons c cs ih =>
      obtain ⟨a, t, hchar, -⟩ := exists_jsonChar c
      rw [List.flatMap_cons, hchar, List.length_append, List.length_cons, List.length_cons]
      omega

theorem text?_jsonString (cs r : List Char) :
    text? (cs.flatMap Text.jsonChar ++ '"' :: r) = some (String.ofList cs, r) := by
  have hlength : cs.length ≤ (cs.flatMap Text.jsonChar ++ '"' :: r).length := by
    rw [List.length_append]
    exact Nat.le_add_right_of_le (length_le_flatMap cs)
  rw [text?, characters?_flatMap hlength]
  rfl

end Strings

section Values

variable {α : Type} {depth : Nat} {t : List Char} {v : Json}

/-- The text starts with something else than a blank or a closing bracket. -/
def opens (t : List Char) : Bool :=
  t.head?.any fun c => !isBlank c && c != ']' && c != '}'

/-- The text is read as the value, whatever blanks stand before it and whatever follows it, unless
that makes another number of it. -/
structure ReadAs (item : List Char → Option (α × List Char)) (t : List Char) (a : α) : Prop where
  opens : opens t = true
  reads : ∀ s r, s.dropWhile isBlank = t ++ r → r.head?.any continuesNumber = false →
    item s = some (a, r)

/-- The text is read as the value wherever values may nest so deep. -/
def Reads (depth : Nat) (t : List Char) (v : Json) : Prop :=
  ∀ n, depth ≤ n → ReadAs (value? n) t v

theorem Reads.mono {depth' : Nat} (h : Reads depth t v) (hle : depth ≤ depth') :
    Reads depth' t v :=
  fun n hn => h n (Nat.le_trans hle hn)

theorem solid_of_opens (h : opens t = true) : Scan.solid t = true := by
  cases t with
  | nil => simp [opens] at h
  | cons c t =>
      simp only [opens, List.head?_cons, Option.any_some, Bool.and_eq_true] at h
      exact h.1.1

theorem reads_string (text : String) : Reads 1 (Text.jsonString text).toList (string text) := by
  intro n hn
  obtain ⟨n, rfl⟩ := Nat.exists_eq_add_of_le' hn
  have ht : (Text.jsonString text).toList =
      '"' :: (text.toList.flatMap Text.jsonChar ++ ['"']) := by
    simp [Text.jsonString]
  constructor
  case opens => rw [ht]; rfl
  case reads =>
    intro s r hs _
    have hs' : s.dropWhile isBlank = '"' :: (text.toList.flatMap Text.jsonChar ++ '"' :: r) := by
      rw [hs, ht]
      simp
    rw [value?, hs']
    simp [text?_jsonString]

theorem eq_zero_of_head?_decimalDigits {n : Nat} (h : (Text.decimalDigits n).head? = some '0') :
    n = 0 := by
  fun_induction Text.decimalDigits n with
  | case1 n hlt =>
      have : ∀ d < 10, [Text.decimalDigit d].head? = some '0' → d = 0 := by decide
      exact this n hlt h
  | case2 n hlt ih =>
      rw [List.head?_append_of_ne_nil _ (Text.decimalDigits_ne_nil _)] at h
      have := ih h
      omega

theorem natural?_decimalDigits (n : Nat) {r : List Char}
    (hr : r.head?.any continuesNumber = false) :
    natural? (Text.decimalDigits n ++ r) = some (n, r) := by
  have hdigits := Text.isDigit_of_mem_decimalDigits n
  have hstop : r.head?.any Char.isDigit = false := by
    cases r with
    | nil => rfl
    | cons c r =>
        have hc : continuesNumber c = false := by simpa using hr
        simpa [continuesNumber, and_assoc] using (Bool.or_eq_false_iff.mp
          (Bool.or_eq_false_iff.mp (Bool.or_eq_false_iff.mp hc).1).1).1
  have hzero : ¬ ((Text.decimalDigits n).head? = some '0' ∧ Text.decimalDigits n ≠ ['0']) := by
    rintro ⟨hhead, hne⟩
    obtain rfl := eq_zero_of_head?_decimalDigits hhead
    exact hne (by rw [Text.decimalDigits]; rfl)
  unfold natural?
  dsimp only
  rw [Scan.takeWhile_append_of_head? hdigits hstop, Scan.dropWhile_append_of_head? hdigits hstop,
    if_neg, Text.decimalValue_decimalDigits]
  simp [Text.decimalDigits_ne_nil, hr, hzero]

theorem value?_digit {d : Char} (hd : d.isDigit = true) {s t : List Char}
    (hs : s.dropWhile isBlank = d :: t) :
    value? (depth + 1) s = (natural? (d :: t)).map fun (n, r) => (integer (n : Int), r) := by
  have hmark : ∀ c : Char, c.isDigit = false → d ≠ c := fun c hc heq => by
    rw [heq, hc] at hd
    cases hd
  have hword : ∀ (c : Char) (w : List Char), c.isDigit = false →
      Scan.after? (c :: w) (d :: t) = none := fun c w hc => by
    simp [Scan.after?, List.isPrefixOf, (hmark c hc).symm]
  have hinteger : integer? (d :: t) = (natural? (d :: t)).map fun (n, r) => ((n : Int), r) := by
    unfold integer?
    split
    · rename_i hminus
      exact absurd (List.cons.inj hminus).1 (hmark '-' rfl)
    · rfl
  rw [value?, hs]
  simp only [hmark '"' rfl, hmark '[' rfl, hmark '{' rfl, hword 'n' _ rfl, hword 't' _ rfl,
    hword 'f' _ rfl, if_false, hinteger,
    Option.map_map, Function.comp_def]

theorem reads_natural (n : Nat) : Reads 1 (Text.natural n).toList (integer n) := by
  obtain ⟨d, ds, hcons, hd⟩ := Scan.isDigit_head_of_isDigits (Text.isDigits_decimalDigits n)
  have ht : (Text.natural n).toList = d :: ds := by rw [← hcons]; simp [Text.natural]
  intro depth hdepth
  obtain ⟨depth, rfl⟩ := Nat.exists_eq_add_of_le' hdepth
  constructor
  case opens =>
    have hblank := Scan.isBlank_of_isWordChar (Scan.isWordChar_of_isDigit hd)
    have hsquare : d ≠ ']' := fun heq => absurd (heq ▸ hd) (by decide)
    have hcurly : d ≠ '}' := fun heq => absurd (heq ▸ hd) (by decide)
    simp [opens, ht, hblank, hsquare, hcurly]
  case reads =>
    intro s r hs hr
    have hread := natural?_decimalDigits n hr
    rw [ht, List.cons_append] at hs
    rw [hcons, List.cons_append] at hread
    rw [value?_digit hd hs, hread]
    rfl

section Items

variable {item : List Char → Option (α × List Char)} {close : Char} {ts : List (List Char)}
  {as : List α} {r : List Char}

/-- Texts of items with a comma and a space between them. -/
def joined (ts : List (List Char)) : List Char :=
  [',', ' '].intercalate ts

theorem length_pos_of_opens {t : List Char} (h : opens t = true) : 0 < t.length := by
  cases t with
  | nil => simp [opens] at h
  | cons c t => exact Nat.succ_pos _

theorem opens_append {t : List Char} (h : opens t = true) (r : List Char) :
    opens (t ++ r) = true := by
  cases t with
  | nil => simp [opens] at h
  | cons c t => exact h

theorem opens_joined {t : List Char} (h : opens t = true) : opens (joined (t :: ts)) = true := by
  cases ts with
  | nil => simpa [joined] using h
  | cons next ts =>
      rw [joined, List.intercalate_cons_cons, List.append_assoc]
      exact opens_append h _

theorem length_le_joined (h : ∀ t ∈ ts, opens t = true) : ts.length ≤ (joined ts).length := by
  induction ts with
  | nil => exact Nat.le_refl _
  | cons t ts ih =>
      have ht := length_pos_of_opens (h t List.mem_cons_self)
      have hrest := ih fun t ht => h t (List.mem_cons_of_mem _ ht)
      cases ts with
      | nil => simpa [joined] using Nat.succ_le_of_lt ht
      | cons next ts =>
          rw [joined, List.intercalate_cons_cons, List.length_append, List.length_append]
          rw [joined] at hrest
          simp only [List.length_cons] at hrest ⊢
          omega

theorem opens_of_forall₂ (h : List.Forall₂ (ReadAs item) ts as) : ∀ t ∈ ts, opens t = true := by
  induction h with
  | nil => simp
  | cons hitem _ ih => exact List.forall_mem_cons.mpr ⟨hitem.opens, ih⟩

theorem ne_close_of_opens (hclose : close = ']' ∨ close = '}') {c : Char} {t : List Char}
    (h : opens (c :: t) = true) : c ≠ close := by
  rintro rfl
  rcases hclose with rfl | rfl <;> exact absurd h (by simp [opens])

theorem items?_joined (hclose : close = ']' ∨ close = '}')
    (hitems : List.Forall₂ (ReadAs item) ts as) (hne : ts ≠ []) {n : Nat} (hn : ts.length ≤ n)
    {s : List Char} (hs : s.dropWhile isBlank = joined ts ++ close :: r) :
    items? item close n s = some (as, r) := by
  have hblank : isBlank close = false := by rcases hclose with rfl | rfl <;> rfl
  have hnumber : continuesNumber close = false := by rcases hclose with rfl | rfl <;> rfl
  have hcomma : ',' ≠ close := by rcases hclose with rfl | rfl <;> decide
  induction hitems generalizing n s with
  | nil => exact absurd rfl hne
  | @cons t a ts as hitem hitems ih =>
      cases n with
      | zero => simp at hn
      | succ n =>
          cases hitems with
          | nil =>
              have hread := hitem.reads s (close :: r) (by simpa [joined] using hs) (by simpa)
              simp [items?, hread, hblank]
          | @cons next b ts as hnext hitems =>
              have hread := hitem.reads s (',' :: ' ' :: (joined (next :: ts) ++ close :: r))
                (by rw [hs, joined, List.intercalate_cons_cons]; simp [joined]) rfl
              have hskip : (' ' :: (joined (next :: ts) ++ close :: r)).dropWhile isBlank =
                  joined (next :: ts) ++ close :: r :=
                Scan.dropWhile_solid_append (solid_of_opens (opens_joined hnext.opens)) _
              have hrest := ih (List.cons_ne_nil _ _) (Nat.le_of_succ_le_succ hn) hskip
              simp [items?, hread, hcomma, hrest, show isBlank ',' = false from rfl]

theorem enclosed?_joined (hclose : close = ']' ∨ close = '}')
    (hitems : List.Forall₂ (ReadAs item) ts as) :
    enclosed? item close (joined ts ++ close :: r) = some (as, r) := by
  have hblank : isBlank close = false := by rcases hclose with rfl | rfl <;> rfl
  cases hitems with
  | nil => simp [enclosed?, joined, hblank]
  | @cons t a ts as hitem hitems =>
      have hall := List.Forall₂.cons hitem hitems
      have hopens := opens_append (@opens_joined ts t hitem.opens) (close :: r)
      have hskip := Scan.dropWhile_of_solid (solid_of_opens hopens)
      have hn : (t :: ts).length ≤ (joined (t :: ts) ++ close :: r).length := by
        rw [List.length_append]
        exact Nat.le_add_right_of_le (length_le_joined (opens_of_forall₂ hall))
      have hread := items?_joined hclose hall (List.cons_ne_nil _ _) hn hskip
      rw [enclosed?, hskip]
      cases hcons : joined (t :: ts) ++ close :: r with
      | nil => simp at hcons
      | cons c u =>
          rw [hcons] at hopens hread
          simp only [ne_close_of_opens hclose hopens, if_false]
          exact hread

end Items

theorem reads_array {ts : List (List Char)} {vs : List Json}
    (h : List.Forall₂ (Reads depth) ts vs) :
    Reads (depth + 1) ('[' :: (joined ts ++ [']'])) (array vs) := by
  intro n hn
  obtain ⟨n, rfl⟩ := Nat.exists_eq_add_of_le' (Nat.le_of_add_left_le hn)
  have hitems : List.Forall₂ (ReadAs (value? n)) ts vs := h.imp fun t v ht => ht n (by omega)
  refine ⟨rfl, fun s r hs _ => ?_⟩
  have hread := enclosed?_joined (r := r) (Or.inl rfl) hitems
  rw [value?, hs]
  simp [hread]

/-- The text of a member. -/
def memberText (key : String) (t : List Char) : List Char :=
  (Text.jsonString key).toList ++ ':' :: ' ' :: t

theorem memberText_append (key : String) (t r : List Char) :
    memberText key t ++ r =
      '"' :: (key.toList.flatMap Text.jsonChar ++ '"' :: ':' :: ' ' :: (t ++ r)) := by
  simp [memberText, Text.jsonString]

theorem opens_memberText (key : String) (t : List Char) : opens (memberText key t) = true := by
  rw [← List.append_nil (memberText key t), memberText_append]
  rfl

theorem readAs_member {n : Nat} (key : String) (h : ReadAs (value? n) t v) :
    ReadAs (member? (value? n)) (memberText key t) (key, v) := by
  refine ⟨opens_memberText key t, fun s r hs hr => ?_⟩
  have hread := h.reads (' ' :: (t ++ r)) r
    (Scan.dropWhile_solid_append (solid_of_opens h.opens) r) hr
  rw [memberText_append] at hs
  unfold member?
  rw [hs]
  simp [text?_jsonString, hread, show isBlank ':' = false from rfl]

theorem reads_object {ts : List (String × List Char)} {ms : List (String × Json)}
    (h : List.Forall₂ (fun t m => t.1 = m.1 ∧ Reads depth t.2 m.2) ts ms) :
    Reads (depth + 1) ('{' :: (joined (ts.map fun t => memberText t.1 t.2) ++ ['}']))
      (object ms) := by
  intro n hn
  obtain ⟨n, rfl⟩ := Nat.exists_eq_add_of_le' (Nat.le_of_add_left_le hn)
  have hitems : List.Forall₂ (ReadAs (member? (value? n)))
      (ts.map fun t => memberText t.1 t.2) ms := by
    rw [List.forall₂_map_left_iff]
    refine h.imp fun t m ht => ?_
    obtain ⟨key, v⟩ := m
    obtain ⟨rfl, hread⟩ := ht
    exact readAs_member t.1 (hread n (by omega))
  refine ⟨rfl, fun s r hs _ => ?_⟩
  have hread := enclosed?_joined (r := r) (Or.inr rfl) hitems
  rw [value?, hs]
  simp [hread]

/-- A text that is read as a value wherever it stands is the text of that value. -/
theorem read?_of_reads {text : String} (h : Reads depth text.toList v)
    (hdepth : depth ≤ text.length) : read? text = some v := by
  have hread := h text.length hdepth
  have hskip := Scan.dropWhile_of_solid (solid_of_opens hread.opens)
  have heq := hread.reads text.toList [] (by rw [hskip, List.append_nil]) rfl
  simp [read?, heq]

end Values

end Json

end FuzzFrontend
