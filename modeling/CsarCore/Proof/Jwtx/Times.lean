import CsarCore.Proof.Jwtx.Verify
import Mathlib.Data.Nat.Cast.Field

/-!
# The times of a verified token

Now is compared with the instant that is read for a claim: whole seconds, in 64 bits. It
is not after that of the whole seconds for an `exp` (`readExp_le`) and is it for an
`nbf` (`readNbf_eq`), where they fit: `verified_timely_iff`. A claim that is no number
is not looked at: `text_exp_accepted`.
-/

namespace Csar.Proof.Jwtx

open Impl.Jwtx Spec.Jwtx

variable {ρ ε κ : Type} {C : Crypto ρ ε} {overflow : Float64 → Int} {now skew : Int} {claims : Json.GoMap}
  {f : Float64} {t d : Int}

/-! ## Time arithmetic -/

theorem addTime_cases (t d : Int) :
    (maxInt64 < (t + d) / 1000000000 ∧ addTime t d = maxInt64 * 1000000000 + (t + d) % 1000000000) ∨
      ((t + d) / 1000000000 < minInt64 ∧ addTime t d = -maxInt64 * 1000000000 + (t + d) % 1000000000) ∨
      (minInt64 ≤ (t + d) / 1000000000 ∧ (t + d) / 1000000000 ≤ maxInt64 ∧ addTime t d = t + d) := by
  simp only [addTime]
  by_cases hmax : maxInt64 < (t + d) / 1000000000
  · exact .inl ⟨hmax, by rw [if_pos hmax]⟩
  · by_cases hmin : (t + d) / 1000000000 < minInt64
    · exact .inr (.inl ⟨hmin, by rw [if_neg hmax, if_pos hmin]⟩)
    · refine .inr (.inr ⟨Int.not_lt.mp hmin, Int.not_lt.mp hmax, ?_⟩)
      rw [if_neg hmax, if_neg hmin]
      omega

theorem addTime_le (h : minInt64 * 1000000000 ≤ t + d) : addTime t d ≤ t + d := by
  rcases addTime_cases t d with ⟨hmax, he⟩ | ⟨hmin, -⟩ | ⟨-, -, he⟩
  · omega
  · omega
  · omega

theorem addTime_lt (t d : Int) : addTime t d < (maxInt64 + 1) * 1000000000 := by
  have hmax : maxInt64 = 9223372036854775807 := rfl
  rcases addTime_cases t d with ⟨-, he⟩ | ⟨-, he⟩ | ⟨-, hle, he⟩
  · omega
  · omega
  · omega

theorem addTime_eq (h : minInt64 * 1000000000 ≤ t + d) (h' : t + d < (maxInt64 + 1) * 1000000000) :
    addTime t d = t + d := by
  rcases addTime_cases t d with ⟨hmax, -⟩ | ⟨hmin, -⟩ | ⟨-, -, he⟩
  · omega
  · omega
  · exact he

theorem toInt64_eq (overflow : Float64 → Int) (f : Float64) : toInt64 overflow f =
    if minInt64 ≤ wholeSeconds f ∧ wholeSeconds f ≤ maxInt64 then wholeSeconds f else overflow f := rfl

theorem readExp_le (hskew : 0 ≤ skew) (h : minInt64 ≤ wholeSeconds f) :
    addTime (unixTime (toInt64 overflow f)) skew ≤ (wholeSeconds f + unixToInternal) * 1000000000 + skew := by
  have hmin := h
  rw [minInt64] at hmin
  by_cases hmax : wholeSeconds f ≤ maxInt64
  · rw [toInt64_eq, if_pos ⟨h, hmax⟩, unixTime]
    have hle : wrap64 (wholeSeconds f + unixToInternal) ≤ wholeSeconds f + unixToInternal := by
      refine wrap64_le_of_min ?_
      rw [minInt64, unixToInternal]
      omega
    have hmin' := min_le_wrap64 (wholeSeconds f + unixToInternal)
    refine Int.le_trans (addTime_le ?_) ?_ <;> omega
  · have hlt := addTime_lt (unixTime (toInt64 overflow f)) skew
    rw [maxInt64] at hmax hlt
    rw [unixToInternal]
    omega

theorem readNbf_eq (hskew : 0 ≤ skew) (hskew' : skew ≤ maxInt64) (h : minInt64 ≤ wholeSeconds f)
    (h' : wholeSeconds f ≤ maxInt64 - unixToInternal) :
    addTime (unixTime (toInt64 overflow f)) (wrap64 (-skew)) =
      (wholeSeconds f + unixToInternal) * 1000000000 - skew := by
  have hU : unixToInternal = 62135596800 := rfl
  have hmin : minInt64 = -9223372036854775808 := rfl
  have hmax : maxInt64 = 9223372036854775807 := rfl
  have hneg : wrap64 (-skew) = -skew := wrap64_of_range (by omega) (by omega)
  have hsec : wrap64 (wholeSeconds f + unixToInternal) = wholeSeconds f + unixToInternal :=
    wrap64_of_range (by omega) (by omega)
  rw [toInt64_eq, if_pos ⟨h, by omega⟩, unixTime, hneg, hsec, addTime_eq (by omega) (by omega)]
  rfl

/-! ## The checks -/

/-- What `checkTimes` found. -/
structure TimesChecked (overflow : Float64 → Int) (now skew : Int) (claims : Json.GoMap) : Prop where
  exp : ∀ f, claims.get (utf8 "exp") = some (.number f) → now ≤ addTime (unixTime (toInt64 overflow f)) skew
  nbf : ∀ f, claims.get (utf8 "nbf") = some (.number f) → addTime (unixTime (toInt64 overflow f)) (wrap64 (-skew)) ≤ now

theorem of_checkTimes (h : checkTimes (κ := κ) overflow now skew claims = .ok ()) :
    TimesChecked overflow now skew claims := by
  unfold checkTimes at h
  split at h <;> [cases h; skip]
  rename_i hexp
  split at h <;> [cases h; skip]
  rename_i hnbf
  constructor
  · intro f hf
    rw [numericClaim, hf] at hexp
    simpa using hexp
  · intro f hf
    rw [numericClaim, hf] at hnbf
    simpa using hnbf

theorem instant_whole (n : Int) : instant n = ((n + unixToInternal) * 1000000000 : Int) := by
  rw [instant]
  push_cast
  rfl

theorem exp_iff (hskew : 0 ≤ skew) (h : now ≤ addTime (unixTime (toInt64 overflow f)) skew) :
    (now : ℚ) ≤ instant (seconds f) + skew ↔ ExpRead now skew f := by
  rw [ExpRead]
  split
  · rename_i hmin
    have hread : (now : ℚ) ≤ instant (wholeSeconds f) + skew := by
      rw [instant_whole]
      exact_mod_cast Int.le_trans h (readExp_le hskew hmin)
    constructor
    · intro hle hboth
      exact absurd hle (not_le.mpr hboth.1)
    · intro hnot
      exact not_lt.mp fun hlt => hnot ⟨hlt, hread⟩
  · exact Iff.rfl

theorem nbf_iff (hskew : 0 ≤ skew) (hskew' : skew ≤ maxInt64)
    (h : addTime (unixTime (toInt64 overflow f)) (wrap64 (-skew)) ≤ now) :
    instant (seconds f) - skew ≤ now ↔ NbfRead now skew f := by
  rw [NbfRead]
  split
  · rename_i hrange
    have hread : instant (wholeSeconds f) - skew ≤ now := by
      rw [readNbf_eq hskew hskew' hrange.1 hrange.2] at h
      rw [instant_whole]
      exact_mod_cast h
    constructor
    · intro hle hboth
      exact absurd hle (not_le.mpr hboth.2)
    · intro hnot
      exact not_lt.mp fun hlt => hnot ⟨hread, hlt⟩
  · exact Iff.rfl

theorem at_congr (claims : Json.GoMap) (key : Bytes) {P Q : Float64 → Prop}
    (h : ∀ f, claims.get key = some (.number f) → (P f ↔ Q f)) :
    At claims key P ↔ At claims key Q := by
  constructor
  · intro hP v hv
    obtain ⟨f, rfl, hf⟩ := hP v hv
    exact ⟨f, rfl, (h f hv).mp hf⟩
  · intro hQ v hv
    obtain ⟨f, rfl, hf⟩ := hQ v hv
    exact ⟨f, rfl, (h f hv).mpr hf⟩

/-- A verified token is timely exactly if its times are numbers that are read without a difference. -/
theorem verified_timely_iff (C : Crypto ρ ε) (overflow : Float64 → Int) (now : Int) (token : Bytes)
    (keyFunc : Bytes → Bytes → Except κ (PublicKey ρ ε)) (cfg : Option VerifyConfig) (vt : VerifiedToken)
    (hskew : 0 ≤ (cfg.getD {}).clockSkew) (hskew' : (cfg.getD {}).clockSkew ≤ maxInt64)
    (h : verify C overflow now token keyFunc cfg = .ok vt) :
    Timely now (cfg.getD {}).clockSkew vt.claims ↔ TimesRead now (cfg.getD {}).clockSkew vt.claims := by
  obtain ⟨hd, p, s, steps⟩ := steps_of_verify h
  have hchecked := of_checkTimes steps.checkTimes
  have hexp := at_congr vt.claims (utf8 "exp") fun f hf => exp_iff hskew (hchecked.exp f hf)
  have hnbf := at_congr vt.claims (utf8 "nbf") fun f hf => nbf_iff hskew hskew' (hchecked.nbf f hf)
  constructor
  · intro ht
    exact ⟨hexp.mp ht.exp, hnbf.mp ht.nbf⟩
  · intro hr
    exact ⟨hexp.mpr hr.exp, hnbf.mpr hr.nbf⟩

/-! ## Whole seconds -/

theorem seconds_of_whole (h : f.units % 2 ^ 1074 = 0) : seconds f = wholeSeconds f := by
  have hdiv : ((f.units / 2 ^ 1074 : Nat) : ℚ) = f.units / 2 ^ 1074 := by
    rw [Nat.cast_div_charZero (Nat.dvd_of_mod_eq_zero h), Nat.cast_pow, Nat.cast_ofNat]
  rw [seconds, wholeSeconds]
  split
  · rw [Int.cast_neg, Int.cast_natCast, hdiv]
  · rw [Int.cast_natCast, hdiv]

theorem expRead_of_whole (h : f.units % 2 ^ 1074 = 0) (hmin : minInt64 ≤ wholeSeconds f) : ExpRead now skew f := by
  rw [ExpRead, if_pos hmin, seconds_of_whole h]
  intro hboth
  exact absurd hboth.2 (not_le.mpr hboth.1)

theorem nbfRead_of_whole (h : f.units % 2 ^ 1074 = 0) (hmin : minInt64 ≤ wholeSeconds f)
    (hmax : wholeSeconds f ≤ maxInt64 - unixToInternal) : NbfRead now skew f := by
  rw [NbfRead, if_pos ⟨hmin, hmax⟩, seconds_of_whole h]
  intro hboth
  exact absurd hboth.1 (not_le.mpr hboth.2)

def Whole (f : Float64) : Prop :=
  f.units % 2 ^ 1074 = 0 ∧ minInt64 ≤ wholeSeconds f ∧ wholeSeconds f ≤ maxInt64 - unixToInternal

theorem timesRead_of_whole {e n : Float64} (he : Whole e) (hn : Whole n) :
    TimesRead now skew (some [(utf8 "exp", .number e), (utf8 "nbf", .number n)]) := by
  have hkeys : utf8 "nbf" ≠ utf8 "exp" := by
    rw [utf8_eq_encodeRunes, utf8_eq_encodeRunes]
    decide
  constructor
  · intro v hv
    cases List.lookup_cons_self.symm.trans hv
    exact ⟨e, rfl, expRead_of_whole he.1 he.2.1⟩
  · intro v hv
    have hget : List.lookup (utf8 "nbf") [(utf8 "exp", Json.number e), (utf8 "nbf", Json.number n)] =
        some (.number n : Json.Value) := by
      rw [List.lookup_cons, beq_false_of_ne hkeys]
      exact List.lookup_cons_self
    cases hget.symm.trans hv
    exact ⟨n, rfl, nbfRead_of_whole hn.1 hn.2.1 hn.2.2⟩

def lenient : Crypto Empty Empty where
  sum := fun _ bs => bs
  verifyPKCS1v15 := fun _ _ _ _ => false
  verifyECDSA := fun _ _ _ _ => false
  verifyEd25519 := fun key _ _ => key = [7]

/-- A token with an `exp` in 2033 and an `nbf` in 2001. -/
def datedToken : Bytes := utf8 "eyJhbGciOiJFZERTQSIsImtpZCI6ImsifQ.eyJleHAiOjIwMDAwMDAwMDAsIm5iZiI6MTAwMDAwMDAwMH0.cw"

def number (n : Nat) : Float64 := Json.toFloat ⟨false, n, 0⟩

theorem verified_timely_dated :
    ∃ vt, verify lenient (fun _ => 0) (unixTime 1500000000) datedToken edKeyFunc none = .ok vt ∧
      Timely (unixTime 1500000000) 0 vt.claims := by
  have h : verify lenient (fun _ => 0) (unixTime 1500000000) datedToken edKeyFunc none = .ok
      { header := some [(utf8 "alg", .string (utf8 "EdDSA")), (utf8 "kid", .string (utf8 "k"))]
        claims := some [(utf8 "exp", .number (number 2000000000)), (utf8 "nbf", .number (number 1000000000))] } := by
    decide +kernel
  have hwhole : Whole (number 2000000000) ∧ Whole (number 1000000000) := by
    unfold Whole
    decide +kernel
  exact ⟨_, h, (verified_timely_iff lenient _ _ _ edKeyFunc none _ (Int.le_refl 0) (by decide) h).mpr
    (timesRead_of_whole hwhole.1 hwhole.2)⟩

def textToken : Bytes := utf8 "eyJhbGciOiJFZERTQSIsImtpZCI6ImsifQ.eyJleHAiOiIxIn0.cw"

/-- The `exp` is not looked at, and the token is verified. -/
theorem text_exp_accepted :
    ∃ vt, verify lenient (fun _ => 0) (unixTime 1500000000) textToken edKeyFunc none = .ok vt ∧
      vt.claims.get (utf8 "exp") = some (.string (utf8 "1")) ∧ ¬ Timely (unixTime 1500000000) 0 vt.claims := by
  have h : verify lenient (fun _ => 0) (unixTime 1500000000) textToken edKeyFunc none = .ok
      { header := some [(utf8 "alg", .string (utf8 "EdDSA")), (utf8 "kid", .string (utf8 "k"))]
        claims := some [(utf8 "exp", .string (utf8 "1"))] } := by
    decide +kernel
  have hget : Json.GoMap.get (some [(utf8 "exp", .string (utf8 "1"))]) (utf8 "exp") = some (.string (utf8 "1")) :=
    List.lookup_cons_self
  refine ⟨_, h, hget, fun ht => ?_⟩
  obtain ⟨f, hf, -⟩ := ht.exp _ hget
  cases hf

end Csar.Proof.Jwtx
