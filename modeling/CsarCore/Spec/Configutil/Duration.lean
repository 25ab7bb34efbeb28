import CsarCore.Framework.Strconv
import Mathlib.Data.Rat.Cast.Order

/-!
# Durations with days

A duration is written as a sign and terms (`render`). `Exact` is what is assumed of
`time.ParseDuration`. A text is `Misread` if the hours of some days are no `int`, and what
they wrap around to makes a duration nevertheless.
-/

namespace Csar.Spec.Configutil

/-- The units of `time.ParseDuration`, and days. -/
inductive TimeUnit
  | ns
  | us
  | microsecond
  | musecond
  | ms
  | s
  | m
  | h
  | d
  deriving DecidableEq

namespace TimeUnit

def text : TimeUnit → List Char
  | ns => ['n', 's']
  | us => ['u', 's']
  | microsecond => ['µ', 's']
  | musecond => ['μ', 's']
  | ms => ['m', 's']
  | s => ['s']
  | m => ['m']
  | h => ['h']
  | d => ['d']

/-- A day is 24 hours. -/
def nanoseconds : TimeUnit → ℚ
  | ns => 1
  | us | microsecond | musecond => 10 ^ 3
  | ms => 10 ^ 6
  | s => 10 ^ 9
  | m => 60 * 10 ^ 9
  | h => 3600 * 10 ^ 9
  | d => 24 * (3600 * 10 ^ 9)

end TimeUnit

/-- A number has digits, and a dot at most; of days, none. -/
structure IsNumber (unit : TimeUnit) (number : List Char) : Prop where
  numerals : ∀ c ∈ number, (c.isDigit || c = '.') = true
  digit : ∃ c ∈ number, c.isDigit = true
  dots : number.count '.' ≤ 1
  whole : unit = .d → ∀ c ∈ number, c.isDigit = true

/-- So many of a unit. -/
@[ext] structure Term where
  number : List Char
  unit : TimeUnit
  isNumber : IsNumber unit number

namespace Term

def text (t : Term) : List Char := t.number ++ t.unit.text

/-- What a number with or without a fraction is. -/
def quantity (number : List Char) : ℚ :=
  let frac := (number.dropWhile Char.isDigit).drop 1
  Strconv.decimal (number.takeWhile Char.isDigit) + Strconv.decimal frac / 10 ^ frac.length

/-- In nanoseconds. -/
def value (t : Term) : ℚ := quantity t.number * t.unit.nanoseconds

end Term

/-- What stands before the terms. -/
inductive Sign
  | none
  | plus
  | minus
  deriving DecidableEq

def Sign.text : Sign → List Char
  | none => []
  | plus => ['+']
  | minus => ['-']

def Sign.factor : Sign → ℚ
  | none | plus => 1
  | minus => -1

/-- How a duration is written. -/
def render (sign : Sign) (ts : List Term) : List Char := sign.text ++ ts.flatMap Term.text

/-- The exact duration, in nanoseconds. -/
def duration (sign : Sign) (ts : List Term) : ℚ := sign.factor * (ts.map Term.value).sum

/-- What is in a `time.Duration`. -/
def InRange (d : Int) : Prop := minInt64 ≤ d ∧ d ≤ maxInt64

/-- `time.ParseDuration` reads a sign and terms in its own units, or a sign and a zero, and what it returns
is exact. -/
def Exact (parse : List Char → Except String Int) : Prop :=
  ∀ text d, parse text = .ok d → InRange d ∧
    ((∃ sign : Sign, text = sign.text ++ ['0'] ∧ d = 0) ∨
      ∃ sign ts, (∀ t ∈ ts, t.unit ≠ .d) ∧ text = render sign ts ∧ (d : ℚ) = duration sign ts)

/-! ## Days in hours -/

theorem isNumber_toDigits (unit : TimeUnit) (n : Nat) : IsNumber unit (Nat.toDigits 10 n) := by
  have hdigits : ∀ c ∈ Nat.toDigits 10 n, c.isDigit = true := fun c hc =>
    Nat.isDigit_of_mem_toDigits (by decide) (by decide) hc
  obtain ⟨c, hc⟩ := List.exists_mem_of_ne_nil _ (Nat.toDigits_ne_nil (b := 10) (n := n))
  refine ⟨fun c hc => by rw [hdigits c hc, Bool.true_or], ⟨c, hc, hdigits c hc⟩, ?_, fun _ => hdigits⟩
  rw [List.count_eq_zero.mpr fun hdot => absurd (hdigits '.' hdot) (by decide)]
  exact Nat.zero_le 1

namespace Term

/-- The hours of all days of the term are an `int`. -/
def Fits (t : Term) : Prop := t.unit = .d → 24 * Strconv.decimal t.number < 2 ^ 63

/-- The hours of so many days, or of as many as are an `int`, in 64 bits. -/
def hours (t : Term) : Int := wrap64 (min (Strconv.decimal t.number : Int) maxInt64 * 24)

def Negative (t : Term) : Prop := t.unit = .d ∧ t.hours < 0

instance : DecidablePred Negative := fun _ => inferInstanceAs (Decidable (_ ∧ _))

/-- Days in hours, without a sign. -/
def inHours (t : Term) : Term := if t.unit = .d then ⟨_, .h, isNumber_toDigits .h t.hours.natAbs⟩ else t

end Term

/-- With days in hours the text has the sign `s`: its own, if no hours are negative, or that of the hours
of its first term, if there is no other. -/
def ReadAs (sign : Sign) (ts : List Term) (s : Sign) : Prop :=
  (s = sign ∧ ∀ t ∈ ts, ¬ t.Negative) ∨
    (sign = .none ∧ s = .minus ∧ ∃ t rest, ts = t :: rest ∧ t.Negative ∧ ∀ u ∈ rest, ¬ u.Negative)

/-- The hours of some days are no `int`, and what the text is with those that they wrap around to is a
whole number of nanoseconds in range. -/
structure Misread (sign : Sign) (ts : List Term) : Prop where
  wraps : ∃ t ∈ ts, ¬ t.Fits
  read : ∃ s d, ReadAs sign ts s ∧ InRange d ∧ (d : ℚ) = duration s (ts.map Term.inHours)

end Csar.Spec.Configutil
