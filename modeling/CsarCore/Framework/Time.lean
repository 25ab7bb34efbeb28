import CsarCore.Framework.Hex
import Mathlib.Data.List.TakeWhile
import Mathlib.Data.Nat.Log
import Mathlib.Tactic.Ring

/-!
# Instants and RFC 3339

An instant is the number of nanoseconds since the beginning of the year 0 (UTC) of the
proleptic Gregorian calendar. `format` is `Time.Format(time.RFC3339Nano)` of a time in
UTC, and `parse` is `time.Parse(time.RFC3339Nano, s)`, with what it accepts beyond RFC
3339: an hour of one digit, a comma before the fraction, offsets up to 24:60.
-/

namespace Csar.Time

/-! ## The calendar -/

def isLeap (year : Int) : Bool := year % 4 = 0 ∧ (year % 100 ≠ 0 ∨ year % 400 = 0)

def monthLengths (leap : Bool) : List Nat := [31, if leap then 29 else 28, 31, 30, 31, 30, 31, 31, 30, 31, 30, 31]

structure Date where
  year : Int
  month : Nat
  day : Nat
  deriving DecidableEq

/-- The days before the year `y` of a period of 400 years. -/
def yearStart (y : Nat) : Nat := 365 * y + (y + 3) / 4 - (y + 99) / 100 + (y + 399) / 400

/-- The year of a day of 146097: a guess, which may be one off. -/
def yearOfDay (d : Nat) : Nat :=
  let y := d * 400 / 146097
  if d < yearStart y then y - 1
  else if yearStart (y + 1) ≤ d then y + 1
  else y

def monthOfDay : List Nat → Nat → Nat × Nat
  | [], d => (1, d + 1)
  | len :: lens, d => if d < len then (1, d + 1) else ((monthOfDay lens (d - len)).1 + 1, (monthOfDay lens (d - len)).2)

def dateOfDay (n : Int) : Date :=
  let d := (n % 146097).toNat
  let y := yearOfDay d
  let md := monthOfDay (monthLengths (isLeap y)) (d - yearStart y)
  ⟨400 * (n / 146097) + y, md.1, md.2⟩

def dayOfDate (date : Date) : Int :=
  146097 * (date.year / 400) + yearStart (date.year % 400).toNat +
    ((monthLengths (isLeap date.year)).take (date.month - 1)).sum + date.day - 1

def Date.Valid (date : Date) : Prop :=
  1 ≤ date.month ∧ date.month ≤ 12 ∧ 1 ≤ date.day ∧ date.day ≤ (monthLengths (isLeap date.year)).getD (date.month - 1) 0

instance : DecidablePred Date.Valid := fun _ => inferInstanceAs (Decidable (_ ∧ _))

theorem isLeap_period (e : Int) (y : Nat) : isLeap (400 * e + y) = isLeap y := by
  unfold isLeap
  have h4 : (400 * e + y) % 4 = (y : Int) % 4 := by omega
  have h100 : (400 * e + y) % 100 = (y : Int) % 100 := by omega
  have h400 : (400 * e + y) % 400 = (y : Int) % 400 := by omega
  rw [h4, h100, h400]

theorem sum_monthLengths (leap : Bool) : (monthLengths leap).sum = if leap then 366 else 365 := by
  cases leap <;> rfl

theorem monthLength_le (leap : Bool) (i : Nat) : (monthLengths leap).getD i 0 ≤ 31 := by
  have hall : ∀ leap, ∀ len ∈ monthLengths leap, len ≤ 31 := by decide
  rw [List.getD_eq_getElem?_getD]
  cases h : (monthLengths leap)[i]? with
  | none => exact Nat.zero_le 31
  | some len => exact hall leap len (List.mem_of_getElem? h)

theorem yearStart_succ (y : Nat) : yearStart (y + 1) = yearStart y + (monthLengths (isLeap y)).sum := by
  have h4 : (y + 1 + 3) / 4 = (y + 3) / 4 + if y % 4 = 0 then 1 else 0 := by split <;> omega
  have h100 : (y + 1 + 99) / 100 = (y + 99) / 100 + if y % 100 = 0 then 1 else 0 := by split <;> omega
  have h400 : (y + 1 + 399) / 400 = (y + 399) / 400 + if y % 400 = 0 then 1 else 0 := by split <;> omega
  have hleap : (isLeap y = true) ↔ y % 4 = 0 ∧ (y % 100 ≠ 0 ∨ y % 400 = 0) := by
    unfold isLeap
    rw [decide_eq_true_eq]
    omega
  rw [sum_monthLengths]
  unfold yearStart
  rw [h4, h100, h400]
  have hbound : (y + 99) / 100 ≤ 365 * y + (y + 3) / 4 := by omega
  generalize (y + 3) / 4 = a, (y + 99) / 100 = b, (y + 399) / 400 = c at hbound ⊢
  by_cases hl : isLeap y = true
  · obtain ⟨hy4, hy⟩ := hleap.mp hl
    rw [if_pos hl, if_pos hy4]
    rcases hy with hy | hy
    · rw [if_neg hy, if_neg (by omega)]
      omega
    · rw [if_pos (by omega), if_pos hy]
      omega
  · have hy := mt hleap.mpr hl
    rw [if_neg hl]
    by_cases hy4 : y % 4 = 0
    · rw [if_pos hy4, if_pos (by omega), if_neg (by omega)]
      omega
    · rw [if_neg hy4, if_neg (by omega), if_neg (by omega)]
      omega

theorem yearOfDay_spec {d : Nat} (h : d < 146097) :
    yearStart (yearOfDay d) ≤ d ∧ d < yearStart (yearOfDay d + 1) ∧ yearOfDay d < 400 := by
  unfold yearOfDay
  dsimp only
  generalize hy : d * 400 / 146097 = y
  split
  · rename_i hlt
    obtain ⟨k, rfl⟩ : ∃ k, y = k + 1 := ⟨y - 1, by unfold yearStart at hlt; omega⟩
    rw [Nat.add_sub_cancel]
    unfold yearStart at hlt ⊢
    omega
  · rename_i hge
    split
    · rename_i hnext
      unfold yearStart at hge hnext ⊢
      omega
    · rename_i hnext
      unfold yearStart at hge hnext ⊢
      omega

theorem monthOfDay_spec (lens : List Nat) {d : Nat} (h : d < lens.sum) :
    1 ≤ (monthOfDay lens d).1 ∧ (monthOfDay lens d).1 ≤ lens.length ∧ 1 ≤ (monthOfDay lens d).2 ∧
      (monthOfDay lens d).2 ≤ lens.getD ((monthOfDay lens d).1 - 1) 0 ∧
      (lens.take ((monthOfDay lens d).1 - 1)).sum + (monthOfDay lens d).2 = d + 1 := by
  induction lens generalizing d with
  | nil => exact absurd h (Nat.not_lt_zero d)
  | cons len lens ih =>
    rw [List.sum_cons] at h
    rw [monthOfDay]
    split
    · rename_i hlt
      refine ⟨Nat.le_refl 1, Nat.succ_pos _, Nat.succ_pos d, ?_, ?_⟩
      · exact hlt
      · exact Nat.zero_add _
    · rename_i hge
      obtain ⟨h1, h2, h3, h4, h5⟩ := ih (d := d - len) (by omega)
      generalize monthOfDay lens (d - len) = md at h1 h2 h3 h4 h5
      obtain ⟨k, hk⟩ : ∃ k, md.1 = k + 1 := ⟨md.1 - 1, by omega⟩
      dsimp only
      rw [hk, Nat.add_sub_cancel] at h4 h5
      rw [hk] at h2
      rw [hk, Nat.add_sub_cancel, List.take_succ_cons, List.sum_cons, List.length_cons, List.getD_cons_succ]
      exact ⟨by omega, by omega, h3, h4, by omega⟩

theorem dateOfDay_valid (n : Int) : (dateOfDay n).Valid := by
  have hd : (n % 146097).toNat < 146097 := by omega
  obtain ⟨hle, hlt, -⟩ := yearOfDay_spec hd
  rw [yearStart_succ] at hlt
  obtain ⟨h1, h2, h3, h4, -⟩ := monthOfDay_spec (monthLengths (isLeap (yearOfDay (n % 146097).toNat)))
    (d := (n % 146097).toNat - yearStart (yearOfDay (n % 146097).toNat)) (by omega)
  refine ⟨h1, h2, h3, ?_⟩
  unfold dateOfDay
  dsimp only
  rw [isLeap_period]
  exact h4

theorem dayOfDate_dateOfDay (n : Int) : dayOfDate (dateOfDay n) = n := by
  have hd : (n % 146097).toNat < 146097 := by omega
  have hn : ((n % 146097).toNat : Int) = n % 146097 := Int.toNat_of_nonneg (by omega)
  obtain ⟨hle, hlt, h400⟩ := yearOfDay_spec hd
  rw [yearStart_succ] at hlt
  unfold dayOfDate dateOfDay
  dsimp only
  generalize (n % 146097).toNat = d at hn hle hlt h400 ⊢
  generalize yearOfDay d = y at hle hlt h400 ⊢
  obtain ⟨-, -, -, -, hsum⟩ := monthOfDay_spec (monthLengths (isLeap y)) (d := d - yearStart y) (by omega)
  have hera : (400 * (n / 146097) + (y : Int)) / 400 = n / 146097 := by omega
  have hyear : ((400 * (n / 146097) + (y : Int)) % 400).toNat = y := by omega
  rw [isLeap_period, hera, hyear]
  omega

theorem dateOfDay_year {n : Int} (h0 : 0 ≤ n) (h : n < 25 * 146097) :
    0 ≤ (dateOfDay n).year ∧ (dateOfDay n).year < 10000 := by
  have hd : (n % 146097).toNat < 146097 := by omega
  obtain ⟨-, -, h400⟩ := yearOfDay_spec hd
  show 0 ≤ 400 * (n / 146097) + (yearOfDay (n % 146097).toNat : Int) ∧
    400 * (n / 146097) + (yearOfDay (n % 146097).toNat : Int) < 10000
  omega

def dayNanos : Nat := 86400000000000

/-- The zero `time.Time`: the start of the year 1. -/
def zeroTime : Int := 366 * dayNanos

example : zeroTime = dayOfDate ⟨1, 1, 1⟩ * dayNanos := by decide

/-- An instant of the years 0 to 9999, which are 25 periods of 400 years. -/
def FourDigitYear (t : Int) : Prop := 0 ≤ t ∧ t < 25 * 146097 * dayNanos

instance : DecidablePred FourDigitYear := fun _ => inferInstanceAs (Decidable (_ ∧ _))

example : dayOfDate ⟨10000, 1, 1⟩ = 25 * 146097 := by decide

/-! ## Digits -/

def digit (n : Nat) : UInt8 := UInt8.ofNat (48 + n % 10)

def fixedDigits : Nat → Nat → Bytes
  | 0, _ => []
  | w + 1, n => digit (n / 10 ^ w) :: fixedDigits w n

def digitValue (c : UInt8) : Option Nat := if 48 ≤ c.toNat ∧ c.toNat ≤ 57 then some (c.toNat - 48) else none

def isDigit (c : UInt8) : Bool := (digitValue c).isSome

/-- The number of some digits, after those of `acc`. -/
def readDigits (acc : Nat) (cs : Bytes) : Nat := cs.foldl (fun acc c => acc * 10 + (c.toNat - 48)) acc

theorem toNat_digit (n : Nat) : (digit n).toNat = 48 + n % 10 := by
  rw [digit, UInt8.toNat_ofNat']
  omega

theorem digitValue_digit (n : Nat) : digitValue (digit n) = some (n % 10) := by
  rw [digitValue, toNat_digit, if_pos ⟨by omega, by omega⟩, Nat.add_sub_cancel_left]

theorem length_fixedDigits (w n : Nat) : (fixedDigits w n).length = w := by
  induction w with
  | zero => rfl
  | succ w ih => rw [fixedDigits, List.length_cons, ih]

variable {n : Nat} {c : UInt8}

theorem isDigit_of_mem {w : Nat} (h : c ∈ fixedDigits w n) : isDigit c = true := by
  induction w with
  | zero => exact absurd h List.not_mem_nil
  | succ w ih =>
    rcases List.mem_cons.mp h with rfl | h
    · rw [isDigit, digitValue_digit]
      rfl
    · exact ih h

theorem readDigits_append (acc : Nat) (xs ys : Bytes) : readDigits acc (xs ++ ys) = readDigits (readDigits acc xs) ys :=
  List.foldl_append

theorem readDigits_cons (acc : Nat) (c : UInt8) (cs : Bytes) :
    readDigits acc (c :: cs) = readDigits (acc * 10 + (c.toNat - 48)) cs := List.foldl_cons ..

theorem readDigits_fixedDigits (acc w n : Nat) : readDigits acc (fixedDigits w n) = acc * 10 ^ w + n % 10 ^ w := by
  induction w generalizing acc with
  | zero =>
    show acc = acc * 10 ^ 0 + n % 10 ^ 0
    rw [Nat.pow_zero, Nat.mul_one, Nat.mod_one, Nat.add_zero]
  | succ w ih =>
    have hsplit : n % 10 ^ (w + 1) = n % 10 ^ w + 10 ^ w * (n / 10 ^ w % 10) := by
      rw [Nat.pow_succ, Nat.mod_mul]
    rw [fixedDigits, readDigits_cons, ih, toNat_digit, Nat.add_sub_cancel_left, hsplit, Nat.pow_succ]
    ring

theorem readDigits_zeros (acc k : Nat) : readDigits acc (List.replicate k 48) = acc * 10 ^ k := by
  induction k generalizing acc with
  | zero => exact (Nat.mul_one acc).symm
  | succ k ih =>
    have hzero : acc * 10 + ((48 : UInt8).toNat - 48) = acc * 10 := rfl
    rw [List.replicate_succ, readDigits_cons, hzero, ih, Nat.pow_succ]
    ring

/-! ## Texts -/

def yearText (year : Int) : Bytes :=
  (if year < 0 then [0x2D] else []) ++ fixedDigits (max 4 (Nat.log 10 year.natAbs + 1)) year.natAbs

def fractionText (nsec : Nat) : Bytes :=
  if nsec = 0 then [] else 0x2E :: ((fixedDigits 9 nsec).reverse.dropWhile fun c => c = 48).reverse

structure Clock where
  hour : Nat
  minute : Nat
  second : Nat
  nsec : Nat
  deriving DecidableEq

def clockOf (n : Nat) : Clock :=
  ⟨n / 3600000000000, n / 60000000000 % 60, n / 1000000000 % 60, n % 1000000000⟩

def nanosOf (c : Clock) : Nat := ((c.hour * 60 + c.minute) * 60 + c.second) * 1000000000 + c.nsec

def Clock.Valid (c : Clock) : Prop := c.hour < 24 ∧ c.minute < 60 ∧ c.second < 60

instance : DecidablePred Clock.Valid := fun _ => inferInstanceAs (Decidable (_ ∧ _))

def dateText (date : Date) : Bytes :=
  yearText date.year ++ 0x2D :: (fixedDigits 2 date.month ++ 0x2D :: fixedDigits 2 date.day)

def clockText (clock : Clock) : Bytes :=
  fixedDigits 2 clock.hour ++ 0x3A :: (fixedDigits 2 clock.minute ++ 0x3A :: (fixedDigits 2 clock.second ++
    fractionText clock.nsec))

/-- `Time.Format(time.RFC3339Nano)`, of a time in UTC. -/
def format (t : Int) : Bytes :=
  dateText (dateOfDay (t / dayNanos)) ++ 0x54 :: (clockText (clockOf (t % dayNanos).toNat) ++ [0x5A])

def getYear : Bytes → Option (Nat × Bytes)
  | a :: b :: c :: d :: rest =>
    if [a, b, c, d].all isDigit then some (readDigits 0 [a, b, c, d], rest) else none
  | _ => none

/-- `getnum`: two digits, or one if that is not `fixed`. -/
def getnum (fixed : Bool) : Bytes → Option (Nat × Bytes)
  | [] => none
  | [a] => if fixed then none else (digitValue a).map fun x => (x, [])
  | a :: b :: rest =>
    match digitValue a, digitValue b with
    | none, _ => none
    | some x, some y => some (x * 10 + y, rest)
    | some x, none => if fixed then none else some (x, b :: rest)

def expect (c : UInt8) : Bytes → Option Bytes
  | [] => none
  | b :: rest => if b = c then some rest else none

/-- Nanoseconds, of at most nine digits. -/
def fraction : Bytes → Nat × Bytes
  | p :: d :: rest =>
    if (p = 0x2E ∨ p = 0x2C) ∧ isDigit d then
      let digits := (d :: rest).takeWhile isDigit
      (readDigits 0 (digits.take 9) * 10 ^ (9 - digits.length), (d :: rest).dropWhile isDigit)
    else (0, p :: d :: rest)
  | s => (0, s)

/-- `Z07:00`: the offset in seconds. -/
def zone : Bytes → Option (Int × Bytes)
  | [] => none
  | c :: s =>
    if c = 0x5A then some (0, s)
    else do
      let (hh, s) ← getnum true s
      let s ← expect 0x3A s
      let (mm, s) ← getnum true s
      guard (hh ≤ 24 ∧ mm ≤ 60)
      let offset : Int := ((hh * 60 + mm) * 60 : Nat)
      if c = 0x2B then some (offset, s)
      else if c = 0x2D then some (-offset, s)
      else none

/-- `2006-01-02`. -/
def getDate (s : Bytes) : Option (Date × Bytes) := do
  let (year, s) ← getYear s
  let s ← expect 0x2D s
  let (month, s) ← getnum true s
  let s ← expect 0x2D s
  let (day, s) ← getnum true s
  some (⟨year, month, day⟩, s)

/-- `15:04:05.999999999`. -/
def getClock (s : Bytes) : Option (Clock × Bytes) := do
  let (hour, s) ← getnum false s
  let s ← expect 0x3A s
  let (minute, s) ← getnum true s
  let s ← expect 0x3A s
  let (second, s) ← getnum true s
  some (⟨hour, minute, second, (fraction s).1⟩, (fraction s).2)

/-- `time.Parse(time.RFC3339Nano, s)`; `none` where it returns an error. -/
def parse (s : Bytes) : Option Int := do
  let (date, s) ← getDate s
  let s ← expect 0x54 s
  let (clock, s) ← getClock s
  let (offset, s) ← zone s
  if s = [] ∧ date.Valid ∧ clock.Valid then
    some (dayOfDate date * dayNanos + nanosOf clock - offset * 1000000000)
  else none

/-! ## Round trip -/

theorem clockOf_spec (h : n < dayNanos) :
    nanosOf (clockOf n) = n ∧ (clockOf n).hour < 24 ∧ (clockOf n).minute < 60 ∧ (clockOf n).second < 60 ∧
      (clockOf n).nsec < 1000000000 := by
  have hd : dayNanos = 86400000000000 := rfl
  unfold nanosOf clockOf
  dsimp only
  omega

theorem getYear_format {y : Nat} (h : y < 10000) (rest : Bytes) : getYear (fixedDigits 4 y ++ rest) = some (y, rest) := by
  have hread : readDigits 0 (fixedDigits 4 y) = y := by
    rw [readDigits_fixedDigits, Nat.zero_mul, Nat.zero_add]
    exact Nat.mod_eq_of_lt h
  have hall : (fixedDigits 4 y).all isDigit = true :=
    List.all_eq_true.mpr fun c hc => isDigit_of_mem hc
  show (if (fixedDigits 4 y).all isDigit then some (readDigits 0 (fixedDigits 4 y), rest)
    else none) = _
  rw [if_pos hall, hread]

theorem getnum_format (h : n < 100) (fixed : Bool) (rest : Bytes) :
    getnum fixed (fixedDigits 2 n ++ rest) = some (n, rest) := by
  show getnum fixed (digit (n / 10 ^ 1) :: digit (n / 10 ^ 0) :: rest) = _
  rw [getnum, digitValue_digit, digitValue_digit]
  dsimp only
  have hn : n / 10 ^ 1 % 10 * 10 + n / 10 ^ 0 % 10 = n := by omega
  rw [hn]

theorem expect_self (c : UInt8) (rest : Bytes) : expect c (c :: rest) = some rest := if_pos rfl

theorem trim_append_zeros (ds : Bytes) :
    ∃ k, (ds.reverse.dropWhile fun c => c = 48).reverse ++ List.replicate k 48 = ds := by
  refine ⟨(ds.reverse.takeWhile fun c => c = 48).length, ?_⟩
  have hzeros : ds.reverse.takeWhile (fun c => c = 48) = List.replicate (ds.reverse.takeWhile fun c => c = 48).length 48 :=
    List.eq_replicate_length.mpr fun c hc => by simpa using List.mem_takeWhile_imp hc
  rw [← List.reverse_inj, List.reverse_append, List.reverse_reverse, List.reverse_replicate, ← hzeros]
  exact List.takeWhile_append_dropWhile

theorem fraction_format (h : n < 1000000000) (hc : digitValue c = none)
    (hpoint : c ≠ 0x2E ∧ c ≠ 0x2C) (rest : Bytes) : fraction (fractionText n ++ c :: rest) = (n, c :: rest) := by
  unfold fractionText
  split
  · rename_i hn
    rw [hn, List.nil_append]
    rcases rest with _ | ⟨d, rest⟩
    · rfl
    · rw [fraction, if_neg fun hp => hp.1.elim hpoint.1 hpoint.2]
  · rename_i hn
    obtain ⟨k, hk⟩ := trim_append_zeros (fixedDigits 9 n)
    generalize ((fixedDigits 9 n).reverse.dropWhile fun c => c = 48).reverse = ds at hk
    have hlen : ds.length + k = 9 := by
      have := congrArg List.length hk
      rwa [List.length_append, List.length_replicate, length_fixedDigits] at this
    have hvalue : readDigits 0 ds * 10 ^ k = n := by
      rw [← readDigits_zeros, ← readDigits_append, hk, readDigits_fixedDigits, Nat.zero_mul, Nat.zero_add]
      exact Nat.mod_eq_of_lt h
    have hdigits : ∀ d ∈ ds, isDigit d = true := fun d hd =>
      isDigit_of_mem (w := 9) (n := n) (hk ▸ List.mem_append_left _ hd)
    rcases ds with _ | ⟨d, ds⟩
    · exact absurd (hvalue.symm.trans (Nat.zero_mul _)) hn
    · have hnot : ¬ isDigit c = true := by rw [isDigit, hc]; exact Bool.false_ne_true
      have htake : ((d :: ds) ++ c :: rest).takeWhile isDigit = d :: ds := by
        rw [List.takeWhile_append_of_pos hdigits, List.takeWhile_cons_of_neg hnot, List.append_nil]
      have hdrop : ((d :: ds) ++ c :: rest).dropWhile isDigit = c :: rest := by
        rw [List.dropWhile_append_of_pos hdigits, List.dropWhile_cons_of_neg hnot]
      show fraction (0x2E :: d :: (ds ++ c :: rest)) = _
      rw [fraction, if_pos ⟨.inl rfl, hdigits d List.mem_cons_self⟩]
      dsimp only
      rw [← List.cons_append, htake, hdrop, List.take_of_length_le (by omega), show 9 - (d :: ds).length = k by omega,
        hvalue]

theorem yearText_eq {y : Int} (h0 : 0 ≤ y) (h : y < 10000) : yearText y = fixedDigits 4 y.toNat := by
  have habs : y.natAbs = y.toNat := by omega
  have hlog : Nat.log 10 y.natAbs < 4 := Nat.log_lt_of_lt_pow' (by decide) (by omega)
  rw [yearText, if_neg (by omega), List.nil_append, Nat.max_eq_left hlog, habs]

theorem getDate_dateText {date : Date} (h : date.Valid) (hy0 : 0 ≤ date.year) (hy : date.year < 10000) (rest : Bytes) :
    getDate (dateText date ++ rest) = some (date, rest) := by
  have hmonth : date.month < 100 := by
    have := h.2.1
    omega
  have hday : date.day < 100 := by
    have := h.2.2.2
    have := monthLength_le (isLeap date.year) (date.month - 1)
    omega
  have htext : dateText date ++ rest =
      fixedDigits 4 date.year.toNat ++ 0x2D :: (fixedDigits 2 date.month ++ 0x2D :: (fixedDigits 2 date.day ++ rest)) := by
    rw [dateText, yearText_eq hy0 hy, List.append_assoc, List.cons_append, List.append_assoc, List.cons_append]
  rw [htext, getDate, getYear_format (by omega)]
  simp only [Option.bind_eq_bind, Option.bind_some, expect_self, getnum_format hmonth, getnum_format hday,
    Int.toNat_of_nonneg hy0]

theorem getClock_clockText {clock : Clock} (h : clock.Valid) (hn : clock.nsec < 1000000000)
    (hc : digitValue c = none) (hpoint : c ≠ 0x2E ∧ c ≠ 0x2C) (rest : Bytes) :
    getClock (clockText clock ++ c :: rest) = some (clock, c :: rest) := by
  obtain ⟨hh, hm, hs⟩ := h
  have htext : clockText clock ++ c :: rest =
      fixedDigits 2 clock.hour ++ 0x3A :: (fixedDigits 2 clock.minute ++ 0x3A :: (fixedDigits 2 clock.second ++
        (fractionText clock.nsec ++ c :: rest))) := by
    rw [clockText, List.append_assoc, List.cons_append, List.append_assoc, List.cons_append, List.append_assoc]
  rw [htext, getClock, getnum_format (by omega)]
  simp only [Option.bind_eq_bind, Option.bind_some, expect_self, getnum_format (show clock.minute < 100 by omega),
    getnum_format (show clock.second < 100 by omega), fraction_format hn hc hpoint]

theorem parse_format {t : Int} (ht : FourDigitYear t) : parse (format t) = some t := by
  obtain ⟨h0, h⟩ := ht
  have hn : (dayNanos : Int) = 86400000000000 := rfl
  obtain ⟨hy0, hy⟩ := dateOfDay_year (n := t / dayNanos) (by rw [hn]; omega) (by rw [hn] at h ⊢; omega)
  have hvalid := dateOfDay_valid (t / dayNanos)
  have hnanos : (t % dayNanos).toNat < dayNanos := by
    rw [hn]
    show _ < 86400000000000
    omega
  obtain ⟨hclock, hh, hm, hs, hns⟩ := clockOf_spec hnanos
  have hclockValid : (clockOf (t % dayNanos).toNat).Valid := ⟨hh, hm, hs⟩
  have hzone : zone [0x5A] = some (0, []) := rfl
  rw [format, parse, getDate_dateText hvalid hy0 hy]
  simp only [Option.bind_eq_bind, Option.bind_some, expect_self, getClock_clockText hclockValid hns (c := 0x5A) rfl
    (by decide), hzone]
  rw [if_pos ⟨trivial, hvalid, hclockValid⟩, dayOfDate_dateOfDay, hclock, hn]
  congr 1
  omega

/-! ## The characters of a text -/

def punctuation : Bytes := [0x2D, 0x54, 0x3A, 0x2E, 0x5A]

def Plain (s : Bytes) : Prop := ∀ c ∈ s, isDigit c = true ∨ c ∈ punctuation

theorem Plain.append {s s' : Bytes} (h : Plain s) (h' : Plain s') : Plain (s ++ s') :=
  fun c hc => (List.mem_append.mp hc).elim (h c) (h' c)

theorem Plain.cons {s : Bytes} (hc : c ∈ punctuation) (h : Plain s) : Plain (c :: s) :=
  List.forall_mem_cons.mpr ⟨.inr hc, h⟩

theorem plain_fixedDigits (w n : Nat) : Plain (fixedDigits w n) := fun _ hc => .inl (isDigit_of_mem hc)

theorem plain_fractionText (n : Nat) : Plain (fractionText n) := by
  unfold fractionText
  split
  · exact nofun
  · refine .cons (by decide) fun c hc => ?_
    obtain ⟨k, hk⟩ := trim_append_zeros (fixedDigits 9 n)
    refine plain_fixedDigits 9 n c ?_
    rw [← hk]
    exact List.mem_append_left _ hc

theorem plain_yearText (y : Int) : Plain (yearText y) := by
  refine .append ?_ (plain_fixedDigits _ _)
  split
  · exact .cons (by decide) nofun
  · exact nofun

theorem plain_format (t : Int) : Plain (format t) := by
  have hdate : ∀ date, Plain (dateText date) := fun date =>
    (plain_yearText _).append (.cons (by decide) ((plain_fixedDigits _ _).append (.cons (by decide) (plain_fixedDigits _ _))))
  have hclock : ∀ clock, Plain (clockText clock) := fun clock =>
    (plain_fixedDigits _ _).append (.cons (by decide) ((plain_fixedDigits _ _).append
      (.cons (by decide) ((plain_fixedDigits _ _).append (plain_fractionText _)))))
  exact (hdate _).append (.cons (by decide) ((hclock _).append (.cons (by decide) nofun)))

end Csar.Time
