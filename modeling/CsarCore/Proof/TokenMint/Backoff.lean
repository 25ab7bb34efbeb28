import CsarCore.Proof.TokenMint.Profile
import CsarCore.Spec.TokenMint

/-!
# How long a failed grant backs off

`clampDuration` looks at its lower bound first, so with crossed bounds it gives the
upper one for all that is not below the lower (`clampDuration_crossed`). The
exponential backoff is clamped after the doubling, wherever that has wrapped to; a
retry hint may be below it: `backoff_bounded_iff`.
-/

namespace Csar.Proof.TokenMint

open Impl.TokenMint Spec.TokenMint

variable {lib : Lib} {name : Bytes} {p : Profile} {d lo hi : Int}

theorem clampDuration_ordered (hlo : 0 < lo) (h : lo ≤ hi) :
    lo ≤ clampDuration d lo hi ∧ clampDuration d lo hi ≤ hi := by
  unfold clampDuration
  split_ifs <;> omega

theorem clampDuration_crossed (hhi : 0 < hi) (h : hi < lo) :
    clampDuration d lo hi = if d < lo then lo else hi := by
  unfold clampDuration
  split_ifs <;> omega

theorem doubled_of_le (n : Nat) (h : hi ≤ d) : doubled hi n d = d := by
  cases n with
  | zero => rfl
  | succ n => exact if_neg (by omega)

theorem jitter_bounds (draw : Nat) (hd : 0 < d) :
    d / 2 ≤ d.tdiv 2 + draw % (d.tdiv 2 + 1) ∧ d.tdiv 2 + draw % (d.tdiv 2 + 1) ≤ d := by
  have hhalf : d.tdiv 2 = d / 2 := Int.tdiv_eq_ediv_of_nonneg (by omega)
  have hnonneg : 0 ≤ (draw : Int) % (d / 2 + 1) := Int.emod_nonneg _ (by omega)
  have hlt : (draw : Int) % (d / 2 + 1) < d / 2 + 1 := Int.emod_lt_of_pos _ (by omega)
  rw [hhalf]
  omega

theorem exponential_bounded (hp : Settled p) (failCount draw : Nat) :
    BackoffBounded p (backoffFor p .notJSON failCount draw) := by
  have hbase := hp.errorBackoffBase
  have hmax := hp.errorBackoffMax
  unfold backoffFor BackoffBounded
  dsimp only
  rcases Int.lt_or_le p.errorBackoffMax p.errorBackoffBase with hlt | hle
  · rw [clampDuration_crossed hmax hlt, doubled_of_le _ (Int.le_of_lt hlt), if_neg (Int.lt_irrefl _)]
    have hj := jitter_bounds draw hmax
    omega
  · generalize doubled p.errorBackoffMax (failCount - 1) p.errorBackoffBase = d
    obtain ⟨hlo, hhi⟩ : _ ∧ clampDuration d _ _ ≤ _ := clampDuration_ordered hbase hle
    have hj := jitter_bounds draw (Int.lt_of_lt_of_le hbase hlo)
    omega

theorem backoffFor_status_pos {status ra : Int} (hra : 0 < ra) {code : Bytes} {failCount draw : Nat} :
    backoffFor p (.status status ra code) failCount draw = clampDuration ra p.errorBackoffBase p.errorBackoffMax :=
  if_pos hra

/-- A hint is clamped into the bounds, unless they are crossed and it is below both. -/
theorem hint_bounded_iff (hp : Settled p) (ra : Int) :
    BackoffBounded p (clampDuration ra p.errorBackoffBase p.errorBackoffMax) ↔
      ¬ (p.errorBackoffMax < p.errorBackoffBase ∧ ra < p.errorBackoffBase) := by
  have hbase := hp.errorBackoffBase
  have hmax := hp.errorBackoffMax
  rcases Int.lt_or_le p.errorBackoffMax p.errorBackoffBase with hlt | hle
  · rw [clampDuration_crossed hmax hlt, BackoffBounded]
    split <;> omega
  · obtain ⟨hlo, hhi⟩ : _ ∧ clampDuration ra _ _ ≤ _ := clampDuration_ordered hbase hle
    rw [BackoffBounded]
    omega

/-- But for rejected credentials, only a retry hint below crossed bounds gives a wait that is out of bounds. -/
theorem backoff_bounded_iff (cfg : ValidConfig lib) (h : cfg.profile name = some p) {err : GrantErr}
    (herr : ∀ n code, err ≠ .invalidClient n code) (failCount draw : Nat) :
    BackoffBounded p (backoffFor p err failCount draw) ↔ ¬ HintUnderBase p err := by
  have hp := settled_of_valid cfg h
  have hexp := exponential_bounded hp failCount draw
  unfold HintUnderBase
  cases err with
  | invalidClient n code => exact absurd rfl (herr n code)
  | status n ra code =>
    by_cases hra : 0 < ra
    · rw [backoffFor_status_pos hra, hint_bounded_iff hp]
      simp only [GrantErr.status.injEq]
      constructor
      · rintro hno ⟨hlt, _, _, _, ⟨rfl, rfl, rfl⟩, -, hbase⟩
        exact hno ⟨hlt, hbase⟩
      · rintro hno ⟨hlt, hbase⟩
        exact hno ⟨hlt, n, ra, code, ⟨rfl, rfl, rfl⟩, hra, hbase⟩
    · have hnone : backoffFor p (.status n ra code) failCount draw = backoffFor p .notJSON failCount draw :=
        if_neg hra
      rw [hnone]
      simp only [GrantErr.status.injEq]
      refine ⟨?_, fun _ => hexp⟩
      rintro - ⟨-, _, _, _, ⟨rfl, rfl, rfl⟩, hpos, -⟩
      exact hra hpos
  | _ =>
    refine iff_of_true hexp ?_
    rintro ⟨-, _, _, _, hstatus, -⟩
    cases hstatus

def crossedProfile : Profile :=
  { sampleProfile with errorBackoffBase := 10 * minute, errorBackoffMax := minute }

theorem crossedProfile_haircut : crossedProfile.withDefaults.expiresInHaircut = 9 / 10 := rfl

theorem crossedNames_nodup : ([[1]] : List Bytes).Nodup := List.nodup_singleton _

def crossedConfig : ValidConfig sampleLib where
  allowedHosts := ["idp"]
  allowPrivate := false
  profiles := profilesNamed [[1]] crossedNames_nodup crossedProfile.withDefaults
  hosts := ["idp"]
  valid := by
    refine ⟨⟨["idp"], false, profilesNamed [[1]] crossedNames_nodup crossedProfile, []⟩, validate_ok.mpr ⟨?_, ?_, ?_⟩⟩
    · simp [profilesNamed]
    · simp [Config.applyDefaults, Table.updateWhere, profilesNamed, sampleLib]
    · simp only [profilesNamed, List.forall_mem_map]
      intro n hmem
      obtain rfl := List.mem_singleton.mp hmem
      refine validateProfile_ok.mpr ⟨by decide, _, rfl, by decide, .inl rfl, rfl, by decide,
        ?_, ?_, by decide, by decide, by decide, by decide⟩ <;> rw [crossedProfile_haircut] <;> norm_num

theorem backoff_bounded_crossed :
    BackoffBounded crossedProfile.withDefaults (backoffFor crossedProfile.withDefaults .notJSON 3 7) := by
  have hprofile : crossedConfig.profile [1] = some crossedProfile.withDefaults := rfl
  have herr : ∀ n code, GrantErr.notJSON ≠ .invalidClient n code := by
    intro n code h
    cases h
  refine (backoff_bounded_iff crossedConfig hprofile herr 3 7).mpr ?_
  rintro ⟨-, _, _, _, hstatus, -⟩
  cases hstatus

/-- A hint of one second makes the wait ten minutes, longer than the maximum. -/
theorem backoff_beyond_max :
    crossedConfig.profile [1] = some crossedProfile.withDefaults ∧
    backoffFor crossedProfile.withDefaults (.status 429 second []) 1 0 = 10 * minute ∧
    crossedProfile.withDefaults.errorBackoffMax = minute := ⟨rfl, rfl, rfl⟩

/-! ## Retry hints -/

section RetryAfter
variable {header : String} {n : Nat}

/-- The seconds as nanoseconds, wrapped, or nothing if `Atoi` has no room for them. -/
theorem parseRetryAfter_decimal (hlib : ReadsDecimals lib) (h : DecimalHeader header n) (hn : 1 ≤ n) :
    parseRetryAfter lib header = if (n : Int) ≤ maxInt64 then wrap64 (n * second) else 0 := by
  have hne : header ≠ "" := by
    rintro rfl
    exact absurd h.digits (by decide)
  have hpos : (0 : Int) < n := by omega
  unfold parseRetryAfter parseRetryAfter.untilDate
  rw [if_neg hne, hlib.atoi header h.digits, hlib.date header h.digits, Strconv.atoi_of_digits h.digits, h.value]
  by_cases hmax : (n : Int) ≤ maxInt64
  · rw [if_pos hmax, if_pos hmax]
    exact if_pos hpos
  · rw [if_neg hmax, if_neg hmax]

theorem classifyFailure_hints {r : GrantReply} (h : Hints lib header r) :
    classifyFailure lib r = .status r.status (parseRetryAfter lib header) (extractErrorCode lib r.body) := by
  obtain ⟨rfl, status, retryAfter, code, hstatus⟩ := h
  unfold classifyFailure at hstatus ⊢
  dsimp only at hstatus ⊢
  split at hstatus
  · cases hstatus
  · rename_i hno
    rw [if_neg hno]

theorem hints_tooMany (lib : Lib) (header : String) : Hints lib header ⟨429, header, []⟩ := by
  refine ⟨rfl, 429, parseRetryAfter lib header, extractErrorCode lib [], ?_⟩
  rw [classifyFailure]
  refine if_neg ?_
  have hother : (429 : Int) ≠ 401 ∧ (429 : Int) ≠ 403 ∧ (429 : Int) ≠ 400 := by decide
  rintro (h | h | ⟨h, -⟩)
  · exact hother.1 h
  · exact hother.2.1 h
  · exact hother.2.2 h

theorem backoffFor_hint (hlib : ReadsDecimals lib) (h : DecimalHeader header n) (hn : 1 ≤ n) (hfits : n ≤ 9223372036)
    (hp : Ordered p) {r : GrantReply} (hr : Hints lib header r) (failCount draw : Nat) :
    backoffFor p (classifyFailure lib r) failCount draw =
      max p.errorBackoffBase (min p.errorBackoffMax (n * second)) := by
  obtain ⟨hbase, hle, -⟩ := hp
  have hmax : (n : Int) ≤ maxInt64 := by
    rw [maxInt64]
    omega
  have hwrap : wrap64 (n * second) = n * second := by
    refine wrap64_of_le ?_ ?_
    · rw [second]
      omega
    · rw [second, maxInt64]
      omega
  have hpos : 0 < (n : Int) * second := by
    rw [second]
    omega
  rw [classifyFailure_hints hr, parseRetryAfter_decimal hlib h hn, if_pos hmax, hwrap, backoffFor_status_pos hpos,
    clampDuration]
  split_ifs <;> omega

def widestProfile : Profile := { sampleProfile with errorBackoffBase := 1, errorBackoffMax := maxInt64 }

theorem backoffFor_widest (hlib : ReadsDecimals lib) (h : DecimalHeader header n) (hbig : 9223372036 < n) :
    backoffFor widestProfile (classifyFailure lib ⟨429, header, []⟩) 1 0 ≠ maxInt64 := by
  rw [classifyFailure_hints (hints_tooMany lib header), parseRetryAfter_decimal hlib h (by omega)]
  -- what is wrapped is even, and the longest duration is odd
  have hodd : wrap64 (n * second) ≠ maxInt64 := by
    rw [wrap64, Int.bmod_def, second, maxInt64]
    omega
  have hnone : ∀ ra ≤ 0, backoffFor widestProfile (.status 429 ra (extractErrorCode lib [])) 1 0 = 0 :=
    fun ra hra => if_neg (by omega)
  split
  · by_cases hpos : 0 < wrap64 (n * second)
    · have hwrap := wrap64_le_max (n * second)
      have hbase : widestProfile.errorBackoffBase = 1 := rfl
      have hmax : widestProfile.errorBackoffMax = maxInt64 := rfl
      rw [backoffFor_status_pos hpos, hbase, hmax, clampDuration, if_neg (by omega), if_neg (by omega)]
      exact hodd
    · rw [hnone _ (by omega)]
      decide
  · rw [hnone 0 (by omega)]
    decide

/-- A decimal `Retry-After` is honoured exactly if its seconds fit in a duration. -/
theorem retry_after_iff (lib : Lib) (hlib : ReadsDecimals lib) (header : String) (n : Nat) (h : DecimalHeader header n)
    (hn : 1 ≤ n) : Honoured lib header n ↔ n ≤ 9223372036 := by
  constructor
  · intro hhonoured
    by_contra hbig
    have hordered : Ordered widestProfile := ⟨by decide, by decide, by decide⟩
    have hclamped := hhonoured.clamped widestProfile _ 1 0 hordered (hints_tooMany lib header)
    have hmax : max widestProfile.errorBackoffBase (min widestProfile.errorBackoffMax (n * second)) = maxInt64 := by
      have hbase : widestProfile.errorBackoffBase = 1 := rfl
      have hmax : widestProfile.errorBackoffMax = maxInt64 := rfl
      rw [hbase, hmax, maxInt64, second]
      omega
    exact backoffFor_widest hlib h (by omega) (hclamped.trans hmax)
  · intro hfits
    refine ⟨fun p r failCount draw hp hr => backoffFor_hint hlib h hn hfits hp hr failCount draw, ?_⟩
    intro header' m h' hm hle p r r' failCount failCount' draw draw' hp hr hr'
    rw [backoffFor_hint hlib h hn hfits hp hr, backoffFor_hint hlib h' hm (by omega) hp hr']
    have hmn : (m : Int) * second ≤ n * second := Int.mul_le_mul_of_nonneg_right (by omega) (by decide)
    omega

def decimalLib : Lib := { sampleLib with atoi := Strconv.atoi }

theorem decimalLib_reads : ReadsDecimals decimalLib := ⟨fun _ _ => rfl, fun _ _ => rfl⟩

theorem retry_after_minutes : Honoured decimalLib "120" 120 :=
  (retry_after_iff decimalLib decimalLib_reads "120" 120 ⟨by decide, by decide⟩ (by decide)).mpr (by decide)

/-- A hint of 9223372037 seconds gives a backoff of 15 seconds, and not of the maximum of five minutes. -/
theorem retry_after_wrapped :
    DecimalHeader "9223372037" 9223372037 ∧
    sampleProfile.withDefaults.errorBackoffMax = 5 * minute ∧
    classifyFailure decimalLib ⟨429, "9223372037", []⟩ = .status 429 (-9223372036709551616) (utf8 "unspecified") ∧
    backoffFor sampleProfile.withDefaults (.status 429 (-9223372036709551616) (utf8 "unspecified")) 1 0 = 15 * second := by
  refine ⟨⟨by decide, by decide⟩, rfl, ?_, rfl⟩
  have hdecimal : DecimalHeader "9223372037" 9223372037 := ⟨by decide, by decide⟩
  have hwrap : wrap64 ((9223372037 : Nat) * second) = -9223372036709551616 := by decide
  rw [classifyFailure_hints (hints_tooMany _ _), parseRetryAfter_decimal decimalLib_reads hdecimal (by decide),
    if_pos (by decide), hwrap]
  rfl

end RetryAfter

end Csar.Proof.TokenMint
