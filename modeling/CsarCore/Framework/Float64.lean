import Mathlib.Algebra.Field.Rat
import Mathlib.Algebra.Order.Ring.Nat
import Mathlib.Data.Nat.Log
import Mathlib.Tactic.NormNum
import Mathlib.Tactic.Positivity
import Mathlib.Tactic.Ring

/-!
# Decimal numbers and binary64

`Decimal.toFloat64` is the nearest binary64 number, ties to even, or `none` where a
number is too large. `Float64.shortest` is the decimal number with the fewest digits of
those that have a given binary64 number as their nearest one; of two, the nearer. Both
are what `strconv` documents of `ParseFloat` and of `FormatFloat` with precision -1. A
binary64 number is a multiple of `2 ^ -1074`.
-/

namespace Csar

/-- `coeff * 10 ^ exp`, or its negative. -/
structure Decimal where
  neg : Bool
  coeff : Nat
  exp : Int
  deriving DecidableEq

def Decimal.value (d : Decimal) : ℚ := (if d.neg then -1 else 1) * (d.coeff * (10 : ℚ) ^ d.exp)

/-- A finite binary64 number: `mant * 2 ^ shift / 2 ^ 1074`, or its negative. -/
structure Float64 where
  neg : Bool
  mant : Nat
  shift : Nat
  fits : mant < 2 ^ 53 ∧ (shift = 0 ∨ 2 ^ 52 ≤ mant) ∧ shift ≤ 2045
  deriving DecidableEq

/-! ## To the nearest -/

/-- `a / b` to the nearest natural, ties to even. -/
def divNearest (a b : Nat) : Nat :=
  if 2 * (a % b) < b then a / b
  else if b < 2 * (a % b) then a / b + 1
  else if a / b % 2 = 0 then a / b
  else a / b + 1

theorem div_le_divNearest (a b : Nat) : a / b ≤ divNearest a b := by
  unfold divNearest
  split
  · exact Nat.le_refl _
  · split
    · exact Nat.le_succ _
    · split
      · exact Nat.le_refl _
      · exact Nat.le_succ _

theorem divNearest_le (a b : Nat) : divNearest a b ≤ a / b + 1 := by
  unfold divNearest
  split
  · exact Nat.le_succ _
  · split
    · exact Nat.le_refl _
    · split
      · exact Nat.le_succ _
      · exact Nat.le_refl _

def dropBits (a b : Nat) : Nat := Nat.log2 (a / b) - 52

/-- The binary64 number nearest to `a / b` in units of `2 ^ -1074`. -/
def nearestBits (a b : Nat) : Nat × Nat :=
  let s := dropBits a b
  let m := divNearest a (b * 2 ^ s)
  if m < 2 ^ 53 then (m, s) else (2 ^ 52, s + 1)

theorem le_div_dropBits {a b : Nat} (h : dropBits a b ≠ 0) : 2 ^ 52 ≤ a / (b * 2 ^ dropBits a b) := by
  have hlog : Nat.log2 (a / b) = 52 + dropBits a b := by
    unfold dropBits at *
    omega
  have hne : a / b ≠ 0 := by
    intro hz
    rw [hz, Nat.log2_zero] at hlog
    omega
  rw [← Nat.div_div_eq_div_mul, Nat.le_div_iff_mul_le (Nat.two_pow_pos _), ← Nat.pow_add, ← hlog]
  exact Nat.log2_self_le hne

theorem nearestBits_fits (a b : Nat) :
    (nearestBits a b).1 < 2 ^ 53 ∧ ((nearestBits a b).2 = 0 ∨ 2 ^ 52 ≤ (nearestBits a b).1) := by
  unfold nearestBits
  dsimp only
  split
  · rename_i hlt
    refine ⟨hlt, ?_⟩
    by_cases hs : dropBits a b = 0
    · exact .inl hs
    · exact .inr (Nat.le_trans (le_div_dropBits hs) (div_le_divNearest _ _))
  · refine ⟨?_, .inr (Nat.le_refl _)⟩
    show 2 ^ 52 < 2 ^ 53
    decide

def Decimal.fraction (d : Decimal) : Nat × Nat :=
  if 0 ≤ d.exp then (d.coeff * 10 ^ d.exp.toNat, 1) else (d.coeff, 10 ^ (-d.exp).toNat)

/-- The number with a mantissa and a shift; `none`: it is too large. -/
def Float64.ofBits (neg : Bool) (bits : Nat × Nat) (h : bits.1 < 2 ^ 53 ∧ (bits.2 = 0 ∨ 2 ^ 52 ≤ bits.1)) :
    Option Float64 :=
  if hs : bits.2 ≤ 2045 then some ⟨neg, bits.1, bits.2, h.1, h.2, hs⟩ else none

def Decimal.toFloat64 (d : Decimal) : Option Float64 :=
  Float64.ofBits d.neg (nearestBits (2 ^ 1074 * d.fraction.1) d.fraction.2) (nearestBits_fits _ _)

/-! ## Shortest digits -/

def Float64.units (f : Float64) : Nat := f.mant * 2 ^ f.shift

/-- The digits before the 350th decimal place. Every number but 0 has more than 17. -/
def Float64.places (f : Float64) : Nat := (Nat.toDigits 10 (10 ^ 350 * f.units / 2 ^ 1074)).length

def Float64.pick (f : Float64) (down up mid : Decimal) : Option Decimal :=
  if down.toFloat64 = some f then if up.toFloat64 = some f then some mid else some down
  else if up.toFloat64 = some f then some up
  else none

variable {f : Float64} {d : Decimal}

theorem Float64.pick_some {down up mid : Decimal} (h : f.pick down up mid = some d) :
    d = down ∨ d = up ∨ d = mid := by
  unfold Float64.pick at h
  split at h
  · split at h
    · exact .inr (.inr (Option.some.inj h).symm)
    · exact .inl (Option.some.inj h).symm
  · split at h
    · exact .inr (.inl (Option.some.inj h).symm)
    · cases h

/-- With `n` digits: cut, or the next one, or the nearer of the two. -/
def Float64.withDigits (f : Float64) (n : Nat) : Option Decimal :=
  let unit := 2 ^ 1074 * 10 ^ (f.places - n)
  let exp : Int := (f.places - n : Nat) - 350
  f.pick ⟨f.neg, 10 ^ 350 * f.units / unit, exp⟩ ⟨f.neg, 10 ^ 350 * f.units / unit + 1, exp⟩
    ⟨f.neg, divNearest (10 ^ 350 * f.units) unit, exp⟩

def Float64.exact (f : Float64) : Decimal := ⟨f.neg, 5 ^ 1074 * f.units, -1074⟩

/-- Without zeros at the end, of which there are at most `n`. -/
def Decimal.trim : Nat → Decimal → Decimal
  | 0, d => d
  | n + 1, d => if d.coeff ≠ 0 ∧ d.coeff % 10 = 0 then trim n ⟨d.neg, d.coeff / 10, d.exp + 1⟩ else d

def Float64.shortest (f : Float64) : Decimal :=
  let d := ((List.range 17).findSome? fun i => f.withDigits (i + 1)).getD f.exact
  d.trim (Nat.toDigits 10 d.coeff).length

/-! ## Back again

`toFloat64` depends on the value only, so the shortest number, like every number with
the same value, has `f` as its nearest one.
-/

theorem divNearest_mul (a b : Nat) {k : Nat} (hk : 0 < k) : divNearest (a * k) (b * k) = divNearest a b := by
  have hless : 2 * (a % b * k) < b * k ↔ 2 * (a % b) < b := by
    rw [← Nat.mul_assoc]
    exact Nat.mul_lt_mul_right hk
  have hmore : b * k < 2 * (a % b * k) ↔ b < 2 * (a % b) := by
    rw [← Nat.mul_assoc]
    exact Nat.mul_lt_mul_right hk
  unfold divNearest
  rw [Nat.mul_div_mul_right a b hk, Nat.mul_mod_mul_right]
  simp only [hless, hmore]

theorem nearestBits_mul (a b : Nat) {k : Nat} (hk : 0 < k) : nearestBits (a * k) (b * k) = nearestBits a b := by
  have hdrop : dropBits (a * k) (b * k) = dropBits a b := by
    rw [dropBits, dropBits, Nat.mul_div_mul_right a b hk]
  unfold nearestBits
  rw [hdrop]
  dsimp only
  rw [Nat.mul_right_comm, divNearest_mul _ _ hk]

theorem nearestBits_congr {a b a' b' : Nat} (hb : 0 < b) (hb' : 0 < b') (h : a * b' = a' * b) :
    nearestBits a b = nearestBits a' b' := by
  rw [← nearestBits_mul a b hb', h, Nat.mul_comm b b', nearestBits_mul a' b' hb]

theorem Decimal.fraction_pos (d : Decimal) : 0 < d.fraction.2 := by
  unfold Decimal.fraction
  split
  · exact Nat.one_pos
  · exact Nat.pow_pos (by decide)

theorem Decimal.fraction_eq (d : Decimal) :
    (d.fraction.1 : ℚ) / d.fraction.2 = d.coeff * (10 : ℚ) ^ d.exp := by
  unfold Decimal.fraction
  split
  · rename_i hexp
    obtain ⟨n, hn⟩ := Int.eq_ofNat_of_zero_le hexp
    rw [hn]
    simp
  · rename_i hexp
    obtain ⟨n, hn⟩ := Int.eq_ofNat_of_zero_le (show 0 ≤ -d.exp by omega)
    rw [show d.exp = -(n : Int) by omega]
    simp [div_eq_mul_inv]

theorem Decimal.abs_value (d : Decimal) : |d.value| = (d.fraction.1 : ℚ) / d.fraction.2 := by
  have hnonneg : 0 ≤ (d.fraction.1 : ℚ) / d.fraction.2 := by positivity
  rw [value, ← d.fraction_eq]
  cases d.neg
  · simpa using abs_of_nonneg hnonneg
  · simpa using abs_of_nonneg hnonneg

theorem Decimal.toFloat64_congr {d' : Decimal} (hneg : d.neg = d'.neg) (h : d.value = d'.value) :
    d.toFloat64 = d'.toFloat64 := by
  have hpos := d.fraction_pos
  have hpos' := d'.fraction_pos
  have hcross : d.fraction.1 * d'.fraction.2 = d'.fraction.1 * d.fraction.2 := by
    have habs := congrArg abs h
    rw [d.abs_value, d'.abs_value, div_eq_div_iff (by exact_mod_cast hpos.ne') (by exact_mod_cast hpos'.ne')] at habs
    exact_mod_cast habs
  have hbits : nearestBits (2 ^ 1074 * d.fraction.1) d.fraction.2 =
      nearestBits (2 ^ 1074 * d'.fraction.1) d'.fraction.2 :=
    nearestBits_congr hpos hpos' (by rw [Nat.mul_assoc, hcross, Nat.mul_assoc])
  unfold toFloat64
  simp only [hbits, hneg]

theorem log2_units (f : Float64) (h : f.shift ≠ 0) : Nat.log2 f.units = 52 + f.shift := by
  obtain ⟨hlt, hle, -⟩ := f.fits
  have hmant : 2 ^ 52 ≤ f.mant := hle.resolve_left h
  refine (Nat.log2_eq_iff ?_).mpr ⟨?_, ?_⟩
  · exact Nat.mul_ne_zero (by omega) (Nat.two_pow_pos _).ne'
  · rw [Nat.pow_add]
    exact Nat.mul_le_mul_right _ hmant
  · rw [show 52 + f.shift + 1 = 53 + f.shift by omega, Nat.pow_add]
    exact Nat.mul_lt_mul_of_pos_right hlt (Nat.two_pow_pos _)

theorem nearestBits_units (f : Float64) : nearestBits f.units 1 = (f.mant, f.shift) := by
  obtain ⟨hlt, -, -⟩ := f.fits
  have hdrop : dropBits f.units 1 = f.shift := by
    rw [dropBits, Nat.div_one]
    by_cases hshift : f.shift = 0
    · have hunits : f.units = f.mant := by rw [Float64.units, hshift, Nat.pow_zero, Nat.mul_one]
      have hlog : Nat.log2 f.mant < 53 ∨ f.mant = 0 := by
        by_cases hz : f.mant = 0
        · exact .inr hz
        · exact .inl ((Nat.log2_lt hz).mpr hlt)
      rw [hunits]
      rcases hlog with hlog | hlog
      · omega
      · rw [hlog, Nat.log2_zero]
        omega
    · rw [log2_units f hshift]
      omega
  have hexact : divNearest (f.mant * 2 ^ f.shift) (1 * 2 ^ f.shift) = f.mant := by
    rw [divNearest_mul _ _ (Nat.two_pow_pos _), divNearest, Nat.mod_one, Nat.div_one, if_pos (by decide)]
  unfold nearestBits
  rw [hdrop]
  dsimp only
  rw [Float64.units, hexact, if_pos hlt]

theorem ten_pow (n : Nat) : (10 : Nat) ^ n = 2 ^ n * 5 ^ n := by rw [← Nat.mul_pow]

theorem nearestBits_five_pow (u n : Nat) : nearestBits (2 ^ n * (5 ^ n * u)) (10 ^ n) = nearestBits u 1 := by
  refine nearestBits_congr (Nat.pow_pos (by decide)) Nat.one_pos ?_
  rw [ten_pow, ← Nat.mul_assoc, Nat.mul_one, Nat.mul_comm]

theorem Decimal.fraction_of_neg (neg : Bool) (coeff : Nat) {n : Nat} (hn : 0 < n) :
    (Decimal.mk neg coeff (-(n : Int))).fraction = (coeff, 10 ^ n) := by
  unfold Decimal.fraction
  dsimp only
  rw [if_neg (by omega), Int.neg_neg, Int.toNat_natCast]

theorem toFloat64_exact (f : Float64) : f.exact.toFloat64 = some f := by
  have hfraction : f.exact.fraction = (5 ^ 1074 * f.units, 10 ^ 1074) := by
    rw [Float64.exact, show (-1074 : Int) = -((1074 : Nat) : Int) from rfl, Decimal.fraction_of_neg _ _ (by decide)]
  unfold Decimal.toFloat64
  simp only [hfraction, nearestBits_five_pow, nearestBits_units, Float64.ofBits]
  rw [dif_pos f.fits.2.2]
  rfl

theorem toFloat64_pick {down up mid : Decimal} (hmid : mid = down ∨ mid = up)
    (h : f.pick down up mid = some d) : d.toFloat64 = some f := by
  unfold Float64.pick at h
  split at h
  · rename_i hdown
    split at h
    · rename_i hup
      cases h
      rcases hmid with rfl | rfl
      · exact hdown
      · exact hup
    · cases h
      exact hdown
  · split at h
    · rename_i hup
      cases h
      exact hup
    · cases h

theorem divNearest_eq (a b : Nat) : divNearest a b = a / b ∨ divNearest a b = a / b + 1 := by
  have hle := div_le_divNearest a b
  have hge := divNearest_le a b
  omega

theorem toFloat64_withDigits {n : Nat} (h : f.withDigits n = some d) : d.toFloat64 = some f := by
  refine toFloat64_pick ?_ h
  rcases divNearest_eq (10 ^ 350 * f.units) (2 ^ 1074 * 10 ^ (f.places - n)) with hmid | hmid
  · exact .inl (by rw [hmid])
  · exact .inr (by rw [hmid])

theorem value_trim (n : Nat) (d : Decimal) : (d.trim n).value = d.value ∧ (d.trim n).neg = d.neg := by
  induction n generalizing d with
  | zero => exact ⟨rfl, rfl⟩
  | succ n ih =>
    rw [Decimal.trim]
    split
    · rename_i hzero
      obtain ⟨hvalue, hneg⟩ := ih ⟨d.neg, d.coeff / 10, d.exp + 1⟩
      refine ⟨?_, hneg⟩
      have hten : d.coeff / 10 * 10 = d.coeff := Nat.div_mul_cancel (Nat.dvd_of_mod_eq_zero hzero.2)
      have hcast : ((d.coeff / 10 : Nat) : ℚ) * 10 = d.coeff := by exact_mod_cast hten
      rw [hvalue, Decimal.value, Decimal.value, zpow_add₀ (by norm_num : (10 : ℚ) ≠ 0), zpow_one, ← hcast]
      ring
    · exact ⟨rfl, rfl⟩

theorem toFloat64_shortest (f : Float64) : f.shortest.toFloat64 = some f := by
  unfold Float64.shortest
  dsimp only
  obtain ⟨hvalue, hneg⟩ := value_trim
    (Nat.toDigits 10 (((List.range 17).findSome? fun i => f.withDigits (i + 1)).getD f.exact).coeff).length
    (((List.range 17).findSome? fun i => f.withDigits (i + 1)).getD f.exact)
  rw [Decimal.toFloat64_congr hneg hvalue]
  rcases hfind : (List.range 17).findSome? fun i => f.withDigits (i + 1) with _ | d
  · exact toFloat64_exact f
  · obtain ⟨i, -, hi⟩ := List.exists_of_findSome?_eq_some hfind
    exact toFloat64_withDigits hi

end Csar
