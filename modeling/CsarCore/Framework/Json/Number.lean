import CsarCore.Framework.Float64
import Mathlib.Data.List.TakeWhile
import CsarCore.Framework.Int64

/-!
# Numbers in JSON

`parseNumber` reads a number of the grammar; `formatFloat` is how `encoding/json` writes
a binary64 number: the shortest decimal number, with an exponent if it is small or
large. Both are about the same texts (`spell`).
-/

namespace Csar.Json

/-! ## Reading -/

def readDigits (ds : List Char) : Nat := Nat.ofDigitChars 10 ds 0

def parseFraction : List Char → Option (List Char × List Char)
  | '.' :: cs =>
    if cs.takeWhile Char.isDigit = [] then none
    else some (cs.takeWhile Char.isDigit, cs.dropWhile Char.isDigit)
  | cs => some ([], cs)

def parseExponentDigits (ds : List Char) : Option Nat :=
  if ds ≠ [] ∧ ds.all Char.isDigit then some (readDigits ds) else none

def parseExponent : List Char → Option Int
  | [] => some 0
  | c :: cs =>
    if c = 'e' ∨ c = 'E' then
      match cs with
      | '-' :: ds => (parseExponentDigits ds).map fun n : Nat => -(n : Int)
      | '+' :: ds => (parseExponentDigits ds).map Int.ofNat
      | ds => (parseExponentDigits ds).map Int.ofNat
    else none

/-- Its digits as a natural number, and the power of ten. -/
def parseUnsigned (cs : List Char) : Option (Nat × Int) :=
  let int := cs.takeWhile Char.isDigit
  if int = [] ∨ (int.head? = some '0' ∧ int.length ≠ 1) then none
  else
    match parseFraction (cs.dropWhile Char.isDigit) with
    | none => none
    | some (frac, rest) => (parseExponent rest).map fun e => (readDigits (int ++ frac), e - frac.length)

def parseNumber : List Char → Option Decimal
  | '-' :: cs => (parseUnsigned cs).map fun x => ⟨true, x.1, x.2⟩
  | cs => (parseUnsigned cs).map fun x => ⟨false, x.1, x.2⟩

/-! ## Writing -/

def spellExponent : Option Int → List Char
  | none => []
  | some e => 'e' :: (if e < 0 then '-' else '+') :: Nat.toDigits 10 e.natAbs

def spell (int frac : List Char) (exp : Option Int) : List Char :=
  int ++ ((if frac = [] then [] else '.' :: frac) ++ spellExponent exp)

/-- Format `'f'` of `strconv`. -/
def formatFixed (d : Decimal) : List Char :=
  let ds := Nat.toDigits 10 d.coeff
  let k := (-d.exp).toNat
  if 0 ≤ d.exp then spell (ds ++ List.replicate d.exp.toNat '0') [] none
  else if k < ds.length then spell (ds.take (ds.length - k)) (ds.drop (ds.length - k)) none
  else spell ['0'] (List.replicate (k - ds.length) '0' ++ ds) none

/-- Format `'e'` of `strconv`, without a leading zero in the exponent. -/
def formatScientific (d : Decimal) : List Char :=
  let ds := Nat.toDigits 10 d.coeff
  spell (ds.take 1) (ds.drop 1) (some (ds.length - 1 + d.exp))

/-- A number that the source writes as a constant, in units of `2 ^ -1074`. -/
def constUnits (d : Decimal) : Nat := (d.toFloat64.map Float64.units).getD 0

/-- Whether a number is written with an exponent: below 1e-6, or from 1e21 on. -/
def usesExponent (f : Float64) : Bool :=
  f.units ≠ 0 ∧ (f.units < constUnits ⟨false, 1, -6⟩ ∨ constUnits ⟨false, 1, 21⟩ ≤ f.units)

def formatUnsigned (scientific : Bool) (d : Decimal) : List Char :=
  if d.coeff = 0 then ['0'] else if scientific then formatScientific d else formatFixed d

/-- `floatEncoder`. -/
def formatFloat (f : Float64) : List Char :=
  if f.neg then '-' :: formatUnsigned (usesExponent f) f.shortest else formatUnsigned (usesExponent f) f.shortest

/-! ## Texts of numbers -/

section Spell

variable {int frac ds rest : List Char}

theorem takeWhile_digits (hds : ∀ c ∈ ds, c.isDigit = true) (hrest : ∀ c ∈ rest.head?, c.isDigit = false) :
    (ds ++ rest).takeWhile Char.isDigit = ds ∧ (ds ++ rest).dropWhile Char.isDigit = rest := by
  have htake : rest.takeWhile Char.isDigit = [] := by
    rcases rest with _ | ⟨c, rest⟩
    · rfl
    · rw [List.takeWhile_cons_of_neg (by rw [hrest c rfl]; decide)]
  have hdrop : rest.dropWhile Char.isDigit = rest := by
    rcases rest with _ | ⟨c, rest⟩
    · rfl
    · rw [List.dropWhile_cons_of_neg (by rw [hrest c rfl]; decide)]
  constructor
  · rw [List.takeWhile_append_of_pos hds, htake, List.append_nil]
  · rw [List.dropWhile_append_of_pos hds, hdrop]

theorem digits_toDigits (n : Nat) : ∀ c ∈ Nat.toDigits 10 n, c.isDigit = true := fun _ hc =>
  Nat.isDigit_of_mem_toDigits (by decide) (by decide) hc

theorem parseExponent_spell (exp : Option Int) : parseExponent (spellExponent exp) = some (exp.getD 0) := by
  rcases exp with _ | e
  · rfl
  · have hdigits : parseExponentDigits (Nat.toDigits 10 e.natAbs) = some e.natAbs := by
      unfold parseExponentDigits
      rw [if_pos ⟨Nat.toDigits_ne_nil, List.all_eq_true.mpr (digits_toDigits _)⟩, readDigits,
        Nat.ofDigitChars_ten_toDigits]
    by_cases he : e < 0
    · have hneg : -((e.natAbs : Nat) : Int) = e := by omega
      rw [spellExponent, if_pos he]
      exact (congrArg (Option.map fun n : Nat => -(n : Int)) hdigits).trans (congrArg some hneg)
    · have hpos : ((e.natAbs : Nat) : Int) = e := by omega
      rw [spellExponent, if_neg he]
      exact (congrArg (Option.map Int.ofNat) hdigits).trans (congrArg some hpos)

theorem parseFraction_spell (hfrac : ∀ c ∈ frac, c.isDigit = true) (exp : Option Int) :
    parseFraction ((if frac = [] then [] else '.' :: frac) ++ spellExponent exp) = some (frac, spellExponent exp) := by
  by_cases hnil : frac = []
  · rw [if_pos hnil, hnil, List.nil_append]
    rcases exp with _ | e
    · rfl
    · exact rfl
  · have hrest : ∀ c ∈ (spellExponent exp).head?, c.isDigit = false := by
      rcases exp with _ | e
      · exact nofun
      · intro c hc
        cases hc
        rfl
    obtain ⟨htake, hdrop⟩ := takeWhile_digits hfrac hrest
    rw [if_neg hnil, List.cons_append, parseFraction, htake, hdrop, if_neg hnil]

theorem parseUnsigned_spell (hint : ∀ c ∈ int, c.isDigit = true) (hne : int ≠ [])
    (hlead : int.head? = some '0' → int.length = 1) (hfrac : ∀ c ∈ frac, c.isDigit = true) (exp : Option Int) :
    parseUnsigned (spell int frac exp) = some (readDigits (int ++ frac), exp.getD 0 - frac.length) := by
  have hrest : ∀ c ∈ ((if frac = [] then [] else '.' :: frac) ++ spellExponent exp).head?, c.isDigit = false := by
    intro c hc
    by_cases hnil : frac = []
    · rw [if_pos hnil, List.nil_append] at hc
      rcases exp with _ | e
      · cases hc
      · cases hc
        rfl
    · rw [if_neg hnil] at hc
      cases hc
      rfl
  obtain ⟨htake, hdrop⟩ := takeWhile_digits hint hrest
  unfold parseUnsigned spell
  dsimp only
  rw [htake, hdrop, if_neg (not_or.mpr ⟨hne, fun h => h.2 (hlead h.1)⟩), parseFraction_spell hfrac]
  dsimp only
  rw [parseExponent_spell]
  rfl

theorem head_toDigits {n : Nat} (hn : n ≠ 0) : (Nat.toDigits 10 n).head? ≠ some '0' := by
  induction n using Nat.strong_induction_on with
  | _ n ih =>
    rw [Nat.toDigits_eq_if (by decide)]
    split
    · rename_i hlt
      intro h
      exact hn (Nat.digitChar_eq_zero.mp (Option.some.inj h))
    · rename_i hge
      have hrest := ih (n / 10) (by omega) (by omega)
      rcases hd : Nat.toDigits 10 (n / 10) with _ | ⟨c, cs⟩
      · exact absurd hd Nat.toDigits_ne_nil
      · rw [hd] at hrest
        exact hrest

theorem readDigits_append_zeros (ds : List Char) (n : Nat) :
    readDigits (ds ++ List.replicate n '0') = readDigits ds * 10 ^ n := by
  unfold readDigits
  rw [Nat.ofDigitChars_append, Nat.ofDigitChars_replicate_zero, Nat.mul_comm]

theorem readDigits_zeros_append (n : Nat) (ds : List Char) :
    readDigits (List.replicate n '0' ++ ds) = readDigits ds := by
  unfold readDigits
  rw [Nat.ofDigitChars_append, Nat.ofDigitChars_replicate_zero, Nat.mul_zero]

theorem readDigits_toDigits (n : Nat) : readDigits (Nat.toDigits 10 n) = n := Nat.ofDigitChars_ten_toDigits

end Spell

/-! ## Written and read back -/

section Format

variable {d : Decimal}

theorem parseUnsigned_formatFixed (h : d.coeff ≠ 0) :
    ∃ c e, parseUnsigned (formatFixed d) = some (c, e) ∧ (c : ℚ) * 10 ^ e = d.coeff * 10 ^ d.exp := by
  have hds := digits_toDigits d.coeff
  have hne : Nat.toDigits 10 d.coeff ≠ [] := Nat.toDigits_ne_nil
  have hhead := head_toDigits h
  unfold formatFixed
  dsimp only
  split
  · rename_i hexp
    rw [parseUnsigned_spell _ (by simp [hne]) _ (by simp)]
    · refine ⟨_, _, rfl, ?_⟩
      rw [List.append_nil, readDigits_append_zeros, readDigits_toDigits]
      obtain ⟨n, hn⟩ := Int.eq_ofNat_of_zero_le hexp
      rw [hn]
      push_cast
      simp
    · intro c hc
      rcases List.mem_append.mp hc with hc | hc
      · exact hds c hc
      · rw [List.eq_of_mem_replicate hc]
        rfl
    · intro hz
      rcases hd : Nat.toDigits 10 d.coeff with _ | ⟨c, cs⟩
      · exact absurd hd hne
      · rw [hd] at hz hhead
        exact absurd hz hhead
  · rename_i hexp
    have hk : ((-d.exp).toNat : Int) = -d.exp := Int.toNat_of_nonneg (by omega)
    split
    · rename_i hlt
      rw [parseUnsigned_spell _ _ _ fun c hc => hds c (List.mem_of_mem_drop hc)]
      · refine ⟨_, _, rfl, ?_⟩
        rw [List.take_append_drop, readDigits_toDigits, List.length_drop]
        congr 2
        show 0 - _ = _
        omega
      · exact fun c hc => hds c (List.mem_of_mem_take hc)
      · intro hz
        have hlen := congrArg List.length hz
        rw [List.length_take, List.length_nil] at hlen
        omega
      · intro hz
        rcases hd : Nat.toDigits 10 d.coeff with _ | ⟨c, cs⟩
        · exact absurd hd hne
        · rw [hd] at hz hhead hlt
          obtain ⟨m, hm⟩ : ∃ m, (c :: cs).length - (-d.exp).toNat = m + 1 := ⟨_, (Nat.succ_pred (by omega)).symm⟩
          rw [hm, List.take_succ_cons] at hz
          exact absurd hz hhead
    · rename_i hge
      rw [parseUnsigned_spell (by simp) (by simp) (by simp)]
      · refine ⟨_, _, rfl, ?_⟩
        rw [← List.append_assoc, show ['0'] ++ List.replicate ((-d.exp).toNat - (Nat.toDigits 10 d.coeff).length) '0' =
          List.replicate ((-d.exp).toNat - (Nat.toDigits 10 d.coeff).length + 1) '0' from rfl,
          readDigits_zeros_append, readDigits_toDigits, List.length_append, List.length_replicate]
        congr 2
        show 0 - _ = _
        omega
      · intro c hc
        rcases List.mem_append.mp hc with hc | hc
        · rw [List.eq_of_mem_replicate hc]
          rfl
        · exact hds c hc

theorem parseUnsigned_formatScientific (h : d.coeff ≠ 0) :
    parseUnsigned (formatScientific d) = some (d.coeff, d.exp) := by
  have hds := digits_toDigits d.coeff
  have hhead := head_toDigits h
  unfold formatScientific
  dsimp only
  rcases hd : Nat.toDigits 10 d.coeff with _ | ⟨c, cs⟩
  · exact absurd hd Nat.toDigits_ne_nil
  · rw [hd] at hds hhead
    rw [parseUnsigned_spell (fun c hc => hds c (List.mem_of_mem_take hc)) (by simp) (fun _ => rfl)
      fun c hc => hds c (List.mem_of_mem_drop hc)]
    rw [List.take_append_drop, ← hd, readDigits_toDigits, hd, List.length_drop]
    congr 2
    show ((c :: cs).length : Int) - 1 + d.exp - _ = _
    rw [List.length_cons]
    omega

theorem parseUnsigned_format (scientific : Bool) (d : Decimal) :
    ∃ c e, parseUnsigned (formatUnsigned scientific d) = some (c, e) ∧ (c : ℚ) * 10 ^ e = d.coeff * 10 ^ d.exp := by
  unfold formatUnsigned
  split
  · rename_i hz
    refine ⟨0, 0, rfl, ?_⟩
    rw [hz]
    simp
  · rename_i hne
    split
    · exact ⟨_, _, parseUnsigned_formatScientific hne, rfl⟩
    · exact parseUnsigned_formatFixed hne

theorem parseNumber_of_unsigned {cs : List Char} {x : Nat × Int} (h : parseUnsigned cs = some x) :
    parseNumber cs = some ⟨false, x.1, x.2⟩ := by
  unfold parseNumber
  split
  · cases h
  · rw [h]
    rfl

theorem neg_withDigits {f : Float64} {n : Nat} (h : f.withDigits n = some d) : d.neg = f.neg := by
  rcases Float64.pick_some h with rfl | rfl | rfl <;> rfl

theorem neg_shortest (f : Float64) : f.shortest.neg = f.neg := by
  unfold Float64.shortest
  rw [(value_trim _ _).2]
  rcases hfind : (List.range 17).findSome? fun i => f.withDigits (i + 1) with _ | d
  · rfl
  · obtain ⟨i, -, hi⟩ := List.exists_of_findSome?_eq_some hfind
    exact neg_withDigits hi

theorem parseNumber_formatFloat (f : Float64) :
    ∃ d, parseNumber (formatFloat f) = some d ∧ d.neg = f.neg ∧ d.value = f.shortest.value := by
  obtain ⟨c, e, hparse, hvalue⟩ := parseUnsigned_format (usesExponent f) f.shortest
  refine ⟨⟨f.neg, c, e⟩, ?_, rfl, ?_⟩
  · unfold formatFloat
    by_cases hneg : f.neg = true
    · rw [if_pos hneg, parseNumber, hparse, hneg]
      rfl
    · rw [if_neg hneg, parseNumber_of_unsigned hparse, show f.neg = false by simpa using hneg]
  · unfold Decimal.value
    rw [neg_shortest, ← hvalue]

end Format

/-! ## Integers -/

/-- `strconv.AppendInt`. -/
def formatInt (n : Int) : List Char :=
  if n < 0 then '-' :: Nat.toDigits 10 n.natAbs else Nat.toDigits 10 n.natAbs

def inInt64 (n : Int) : Bool := minInt64 ≤ n ∧ n ≤ maxInt64

def parseInt : List Char → Option Int
  | '-' :: ds => ((parseExponentDigits ds).map fun n : Nat => -(n : Int)).filter inInt64
  | ds => ((parseExponentDigits ds).map Int.ofNat).filter inInt64

theorem parseExponentDigits_toDigits (n : Nat) : parseExponentDigits (Nat.toDigits 10 n) = some n := by
  rw [parseExponentDigits, if_pos ⟨Nat.toDigits_ne_nil, List.all_eq_true.mpr (digits_toDigits n)⟩,
    readDigits_toDigits]

theorem toDigits_ne_neg {n : Nat} {cs : List Char} : Nat.toDigits 10 n ≠ '-' :: cs := by
  intro h
  have hneg := digits_toDigits n '-' (h ▸ List.mem_cons_self)
  cases hneg

theorem parseInt_formatInt {n : Int} (h : inInt64 n) : parseInt (formatInt n) = some n := by
  unfold formatInt
  split
  · rename_i hneg
    have habs : -(n.natAbs : Int) = n := by omega
    rw [parseInt, parseExponentDigits_toDigits, Option.map_some, habs]
    exact Option.filter_eq_some_iff.mpr ⟨rfl, h⟩
  · rename_i hpos
    have habs : Int.ofNat n.natAbs = n := by rw [Int.ofNat_eq_natCast]; omega
    rw [parseInt, parseExponentDigits_toDigits, Option.map_some, habs]
    · exact Option.filter_eq_some_iff.mpr ⟨rfl, h⟩
    · exact fun _ => toDigits_ne_neg

theorem parseUnsigned_toDigits (n : Nat) : (parseUnsigned (Nat.toDigits 10 n)).isSome := by
  obtain ⟨c, e, h, -⟩ := parseUnsigned_format false ⟨false, n, 0⟩
  have hformat : formatUnsigned false ⟨false, n, 0⟩ = Nat.toDigits 10 n := by
    unfold formatUnsigned
    split
    · rename_i hn
      rw [show n = 0 from hn]
      rfl
    · simp [formatFixed, spell, spellExponent]
  rw [← hformat, h]
  rfl

theorem parseNumber_formatInt (n : Int) : (parseNumber (formatInt n)).isSome := by
  obtain ⟨x, hx⟩ := Option.isSome_iff_exists.mp (parseUnsigned_toDigits n.natAbs)
  unfold formatInt
  split
  · rw [parseNumber, hx]
    rfl
  · rw [parseNumber_of_unsigned hx]
    rfl

end Csar.Json
