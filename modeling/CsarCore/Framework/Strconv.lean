import CsarCore.Framework.Int64

/-!
# Decimal texts (`strconv.Atoi`)
-/

namespace Csar.Strconv

def digits (cs : List Char) : Bool := cs ≠ [] ∧ cs.all Char.isDigit

def decimal (cs : List Char) : Nat := cs.foldl (fun n c => n * 10 + (c.toNat - 48)) 0

def signed (neg : Bool) (cs : List Char) : Option Int :=
  let n : Int := if neg then -decimal cs else decimal cs
  if digits cs ∧ minInt64 ≤ n ∧ n ≤ maxInt64 then some n else none

def atoi (s : String) : Option Int :=
  match s.toList with
  | '-' :: cs => signed true cs
  | '+' :: cs => signed false cs
  | cs => signed false cs

/-- `strconv.Itoa`. -/
def itoa (n : Int) : List Char := (if n < 0 then ['-'] else []) ++ Nat.toDigits 10 n.natAbs

theorem decimal_toDigits (n : Nat) : decimal (Nat.toDigits 10 n) = n := by
  have heq : decimal (Nat.toDigits 10 n) = Nat.ofDigitChars 10 (Nat.toDigits 10 n) 0 := by
    simp only [decimal, Nat.ofDigitChars, Nat.mul_comm]
    rfl
  rw [heq, Nat.ofDigitChars_ten_toDigits]

theorem atoi_of_digits {s : String} (h : digits s.toList) :
    atoi s = if (decimal s.toList : Int) ≤ maxInt64 then some (decimal s.toList : Int) else none := by
  have hunsigned : atoi s = signed false s.toList := by
    simp only [digits, decide_eq_true_eq] at h
    unfold atoi
    split
    · rename_i cs hs
      exact absurd (List.all_eq_true.mp h.2 '-' (by simp [hs])) (by decide)
    · rename_i cs hs
      exact absurd (List.all_eq_true.mp h.2 '+' (by simp [hs])) (by decide)
    · rfl
  have hmin : minInt64 ≤ (decimal s.toList : Int) := by
    rw [minInt64]
    omega
  rw [hunsigned, signed]
  simp [h, hmin]

end Csar.Strconv
