import Mathlib.Computability.Language
import Mathlib.Data.Char
import FuzzFrontend.GeneratorName
import FuzzFrontend.Proofs.Scan.Number

/-!
Lexemes as regular languages. The checks of whole texts decide these languages, and the scanners
find the longest of their texts at the head of what is left. Only ASCII letters and digits are in
any class, so a letter of another script ends a word and a digit of another script ends a number.
-/
namespace FuzzFrontend.Scan

open scoped Computability

/-- The texts of one character of a class. -/
def oneOf (S : Set Char) : Language Char :=
  {w | ∃ c ∈ S, w = [c]}

/-- The texts of one or more characters of a class. -/
def someOf (S : Set Char) : Language Char :=
  oneOf S * (oneOf S)∗

theorem mem_oneOf_mul {S : Set Char} {L : Language Char} {w : List Char} :
    w ∈ oneOf S * L ↔ ∃ c ∈ S, ∃ r ∈ L, w = c :: r := by
  constructor
  · rintro ⟨_, ⟨c, hc, rfl⟩, r, hr, rfl⟩
    exact ⟨c, hc, r, hr, rfl⟩
  · rintro ⟨c, hc, r, hr, rfl⟩
    exact ⟨[c], ⟨c, hc, rfl⟩, r, hr, rfl⟩

theorem mem_kstar_oneOf {S : Set Char} {w : List Char} : w ∈ (oneOf S)∗ ↔ ∀ c ∈ w, c ∈ S := by
  rw [Language.mem_kstar]
  constructor
  · rintro ⟨parts, rfl, hparts⟩ c hc
    obtain ⟨part, hpart, hc⟩ := List.mem_flatten.mp hc
    obtain ⟨d, hd, rfl⟩ := hparts part hpart
    rwa [List.mem_singleton.mp hc]
  · intro hw
    have hflat : w = (w.map fun c => [c]).flatten := by
      rw [← List.flatMap_def, List.flatMap_singleton']
    refine ⟨w.map fun c => [c], hflat, fun part hpart => ?_⟩
    obtain ⟨c, hc, rfl⟩ := List.mem_map.mp hpart
    exact ⟨c, hw c hc, rfl⟩

theorem mem_someOf {S : Set Char} {w : List Char} :
    w ∈ someOf S ↔ w ≠ [] ∧ ∀ c ∈ w, c ∈ S := by
  rw [someOf, mem_oneOf_mul]
  constructor
  · rintro ⟨c, hc, r, hr, rfl⟩
    exact ⟨List.cons_ne_nil c r, List.forall_mem_cons.mpr ⟨hc, mem_kstar_oneOf.mp hr⟩⟩
  · rintro ⟨hne, hw⟩
    obtain ⟨c, r, rfl⟩ := List.exists_cons_of_ne_nil hne
    obtain ⟨hc, hr⟩ := List.forall_mem_cons.mp hw
    exact ⟨c, hc, r, mem_kstar_oneOf.mpr hr, rfl⟩

theorem mem_singleton_mul {t w : List Char} {L : Language Char} :
    w ∈ ({t} : Language Char) * L ↔ ∃ r ∈ L, w = t ++ r := by
  constructor
  · rintro ⟨_, rfl, r, hr, rfl⟩
    exact ⟨r, hr, rfl⟩
  · rintro ⟨r, hr, rfl⟩
    exact ⟨t, rfl, r, hr, rfl⟩

namespace Pattern

/-- `[A-Za-z]` -/
def letters : Set Char :=
  Set.Icc 'A' 'Z' ∪ Set.Icc 'a' 'z'

/-- `[0-9]` -/
def digits : Set Char :=
  Set.Icc '0' '9'

/-- `[A-Za-z0-9_]` -/
def wordChars : Set Char :=
  letters ∪ digits ∪ {'_'}

/-- `[A-Za-z][A-Za-z0-9_]*` -/
def word : Language Char :=
  oneOf letters * (oneOf wordChars)∗

/-- `-?` -/
def sign : Language Char :=
  1 + {['-']}

/-- `\.[0-9]+` -/
def fraction : Language Char :=
  {['.']} * someOf digits

/-- `-?[0-9]+` -/
def integer : Language Char :=
  sign * someOf digits

/-- `-?[0-9]+\.[0-9]+` -/
def decimal : Language Char :=
  sign * (someOf digits * fraction)

/-- `-?[0-9]+(\.[0-9]+)?` -/
def number : Language Char :=
  sign * (someOf digits * (1 + fraction))

/-- `std:[A-Za-z0-9_]+|[A-Za-z][A-Za-z0-9_]*` -/
def generatorName : Language Char :=
  {GeneratorName.standard} * someOf wordChars + word

theorem isDigit_iff {c : Char} : c.isDigit = true ↔ c ∈ digits :=
  Bool.and_eq_true_iff.trans (and_congr decide_eq_true_iff decide_eq_true_iff)

theorem isWordStart_iff {c : Char} : isWordStart c = true ↔ c ∈ letters := by
  have hupper : c.isUpper = true ↔ c ∈ Set.Icc 'A' 'Z' := decide_eq_true_iff
  have hlower : c.isLower = true ↔ c ∈ Set.Icc 'a' 'z' :=
    Bool.and_eq_true_iff.trans (and_congr decide_eq_true_iff decide_eq_true_iff)
  exact Bool.or_eq_true_iff.trans (or_congr hupper hlower)

theorem isWordChar_iff {c : Char} : isWordChar c = true ↔ c ∈ wordChars := by
  have halphanum : c.isAlphanum = true ↔ c ∈ letters ∪ digits :=
    Bool.or_eq_true_iff.trans (or_congr isWordStart_iff isDigit_iff)
  exact Bool.or_eq_true_iff.trans (or_congr halphanum beq_iff_eq)

theorem isWord_iff {w : List Char} : isWord w = true ↔ w ∈ word := by
  rw [word, mem_oneOf_mul]
  constructor
  · intro h
    cases w with
    | nil => simp [isWord] at h
    | cons c r =>
        obtain ⟨hc, hr⟩ := Bool.and_eq_true_iff.mp h
        refine ⟨c, isWordStart_iff.mp hc, r, mem_kstar_oneOf.mpr fun d hd => ?_, rfl⟩
        exact isWordChar_iff.mp (List.all_eq_true.mp hr d hd)
  · rintro ⟨c, hc, r, hr, rfl⟩
    refine Bool.and_eq_true_iff.mpr ⟨isWordStart_iff.mpr hc, List.all_eq_true.mpr fun d hd => ?_⟩
    exact isWordChar_iff.mpr (mem_kstar_oneOf.mp hr d hd)

theorem isDigits_iff_mem {w : List Char} : isDigits w = true ↔ w ∈ someOf digits := by
  simp only [isDigits_iff, mem_someOf, isDigit_iff]

theorem dropSign_mem_iff {L : Language Char} {w : List Char}
    (hL : ∀ r, '-' :: r ∉ L) : dropSign w ∈ L ↔ w ∈ sign * L := by
  have hsign : w ∈ sign * L ↔ w ∈ L ∨ ∃ r ∈ L, w = '-' :: r := by
    rw [sign, add_mul, one_mul, Language.mem_add, mem_singleton_mul]
    rfl
  rw [hsign]
  unfold dropSign
  split
  · rename_i r
    constructor
    · exact fun hr => Or.inr ⟨r, hr, rfl⟩
    · rintro (hr | ⟨r', hr', heq⟩)
      · exact absurd hr (hL r)
      · rwa [(List.cons.inj heq).2]
  · rename_i hminus
    constructor
    · exact Or.inl
    · rintro (hw | ⟨r, -, heq⟩)
      · exact hw
      · exact absurd heq (hminus r)

theorem sign_not_mem_someOf_mul (L : Language Char) (r : List Char) :
    '-' :: r ∉ someOf digits * L := by
  rintro ⟨ds, hds, t, -, heq⟩
  obtain ⟨d, rest, rfl, hd⟩ := isDigit_head_of_isDigits (isDigits_iff_mem.mpr hds)
  rw [(List.cons.inj heq).1] at hd
  exact absurd hd (by decide)

theorem isInteger_iff {w : List Char} : isInteger w = true ↔ w ∈ integer := by
  rw [isInteger, isDigits_iff_mem, integer, ← mul_one (someOf digits)]
  exact dropSign_mem_iff (sign_not_mem_someOf_mul 1)

theorem isDecimal_iff_mem {w : List Char} : isDecimal w = true ↔ w ∈ decimal := by
  rw [decimal, ← dropSign_mem_iff (sign_not_mem_someOf_mul fraction), isDecimal_iff]
  constructor
  · rintro ⟨ds, fs, heq, hds, hfs⟩
    exact ⟨ds, isDigits_iff_mem.mp hds, '.' :: fs,
      mem_singleton_mul.mpr ⟨fs, isDigits_iff_mem.mp hfs, rfl⟩, heq.symm⟩
  · rintro ⟨ds, hds, t, ht, heq⟩
    obtain ⟨fs, hfs, rfl⟩ := mem_singleton_mul.mp ht
    exact ⟨ds, fs, heq.symm, isDigits_iff_mem.mpr hds, isDigits_iff_mem.mpr hfs⟩

theorem isNumber_iff {w : List Char} :
    isInteger w = true ∨ isDecimal w = true ↔ w ∈ number := by
  have hnumber : number = integer + decimal := by
    rw [number, mul_add, mul_one, mul_add, integer, decimal]
  rw [hnumber, Language.mem_add, isInteger_iff, isDecimal_iff_mem]

end Pattern

/-- Which text of a language another text starts with: the longest one, if there is any. -/
inductive Longest (L : Language Char) (s : List Char) : Option (List Char) → Prop
  | found {m : List Char} (hm : m ∈ L) (hs : m <+: s) (hlongest : ∀ k ∈ L, k <+: s → k <+: m) :
      Longest L s (some m)
  | absent (h : ∀ k ∈ L, ¬ k <+: s) : Longest L s none

/-- The scanner for words finds the longest one, and the empty text where there is none. -/
theorem longest_word (s : List Char) :
    ∃ o, Longest Pattern.word s o ∧ word s = o.getD [] := by
  by_cases h : word s = []
  · refine ⟨none, .absent fun k hk hs => ?_, h⟩
    have hword := Pattern.isWord_iff.mpr hk
    have hnil := prefix_word hword hs
    rw [h, List.prefix_nil] at hnil
    rw [hnil] at hword
    exact absurd hword Bool.false_ne_true
  · exact ⟨some (word s), .found (Pattern.isWord_iff.mp (isWord_word h)) (word_prefix_self s)
      fun k hk hs => prefix_word (Pattern.isWord_iff.mpr hk) hs, rfl⟩

/-- A letter of another alphabet ends a word. -/
example : word "naïve".toList = "na".toList := by
  decide

theorem longest_number (s : List Char) :
    Longest Pattern.number s (if startsNumber s = true then some (number s) else none) := by
  split
  · rename_i h
    exact .found (Pattern.isNumber_iff.mp (isNumber_number h)) (number_prefix_self s)
      fun k hk hs => (prefix_number (Pattern.isNumber_iff.mpr hk) hs).2
  · rename_i h
    exact .absent fun k hk hs => h (prefix_number (Pattern.isNumber_iff.mpr hk) hs).1

/-- A point that no digit follows is left. -/
example : number "-1.2.".toList = "-1.2".toList := by
  decide

end FuzzFrontend.Scan
