import Mathlib.Algebra.Group.Nat.Defs
import FuzzFrontend.Scan.Integer
import FuzzFrontend.Proofs.Scan.Number

namespace FuzzFrontend.Text

theorem length_decimalDigits_le {k n : Nat} (h : n < 10 ^ (k + 1)) :
    (decimalDigits n).length ≤ k + 1 := by
  induction k generalizing n with
  | zero =>
      have hn : n < 10 := by simpa using h
      rw [decimalDigits, if_pos hn]
      simp
  | succ k ih =>
      rw [decimalDigits]
      split
      · simp
      · have hdiv : n / 10 < 10 ^ (k + 1) := by
          rw [Nat.div_lt_iff_lt_mul (by decide)]
          simpa [Nat.pow_succ] using h
        rw [List.length_append, List.length_singleton]
        exact Nat.succ_le_succ (ih hdiv)

theorem isDigits_decimalDigits (n : Nat) : Scan.isDigits (decimalDigits n) = true :=
  Scan.isDigits_iff.mpr ⟨decimalDigits_ne_nil n, isDigit_of_mem_decimalDigits n⟩

theorem integer_ofNat (n : Nat) : (integer (Int.ofNat n)).toList = decimalDigits n := by
  simp [integer, natural]

theorem integer_zero : (integer 0).toList = ['0'] := by
  rw [show (0 : Int) = Int.ofNat 0 from rfl, integer_ofNat, decimalDigits]
  rfl

theorem integer_negSucc (n : Nat) :
    (integer (Int.negSucc n)).toList = '-' :: decimalDigits (n + 1) := by
  simp [integer, natural]

end FuzzFrontend.Text

namespace FuzzFrontend.Scan

theorem isSigned_of_signedWord {s : Input} {text : String} {negative : Bool} {digits : List Char}
    {v : Int} (h : signedWord s text negative digits = .ok v) : Word.IsSigned v := by
  cases hm : Text.readDigits digits with
  | error fault => simp [signedWord, hm] at h
  | ok m =>
      simp only [signedWord, hm] at h
      by_cases hv : Word.IsSigned (if negative then -(m : Int) else m)
      · rw [if_pos hv] at h
        cases h
        exact hv
      · rw [if_neg hv] at h
        cases h

theorem dropSign_digit {d : Char} (hd : d.isDigit = true) (s : List Char) :
    dropSign (d :: s) = d :: s := by
  unfold dropSign
  split
  · rename_i heq
    rw [(List.cons.inj heq).1] at hd
    exact absurd hd (by decide)
  · rfl

end FuzzFrontend.Scan
