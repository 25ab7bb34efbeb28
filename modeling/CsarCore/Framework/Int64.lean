import Mathlib.Tactic.Common

/-!
# 64-bit integers

Go's `int64` as integers, with the value that a result wraps around to (`wrap64`).
-/

namespace Csar

def minInt64 : Int := -9223372036854775808

def maxInt64 : Int := 9223372036854775807

/-- A 64-bit integer, of any integer. -/
def wrap64 (n : Int) : Int := n.bmod 18446744073709551616

variable {n : Int}

theorem wrap64_le_of_min (h : minInt64 ≤ n) : wrap64 n ≤ n := by
  rw [minInt64] at h
  rw [wrap64, Int.bmod_def]
  omega

theorem wrap64_le (h : 0 ≤ n) : wrap64 n ≤ n := by
  refine wrap64_le_of_min ?_
  rw [minInt64]
  omega

theorem wrap64_le_max (n : Int) : wrap64 n ≤ maxInt64 := by
  rw [wrap64, Int.bmod_def, maxInt64]
  omega

theorem min_le_wrap64 (n : Int) : minInt64 ≤ wrap64 n := by
  rw [wrap64, Int.bmod_def, minInt64]
  omega

theorem wrap64_of_range (h0 : minInt64 ≤ n) (h : n ≤ maxInt64) : wrap64 n = n := by
  rw [minInt64] at h0
  rw [maxInt64] at h
  rw [wrap64, Int.bmod_def]
  omega

theorem wrap64_of_le (h0 : 0 ≤ n) (h : n ≤ maxInt64) : wrap64 n = n := by
  refine wrap64_of_range ?_ h
  rw [minInt64]
  omega

theorem wrap64_eq_self_iff : wrap64 n = n ↔ minInt64 ≤ n ∧ n ≤ maxInt64 := by
  constructor
  · intro h
    rw [← h]
    exact ⟨min_le_wrap64 n, wrap64_le_max n⟩
  · intro ⟨h0, h⟩
    exact wrap64_of_range h0 h

theorem wrap64_add_left (n m : Int) : wrap64 (wrap64 n + m) = wrap64 (n + m) := Int.bmod_add_bmod ..

theorem wrap64_mul_left (n m : Int) : wrap64 (wrap64 n * m) = wrap64 (n * m) := Int.bmod_mul_bmod ..

end Csar
