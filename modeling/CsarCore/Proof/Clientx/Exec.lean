import CsarCore.Spec.Clientx
import Mathlib.Tactic.Tauto

/-!
# Bounded reads of responses

`exec` reads one byte more than the limit lets through, and the three outcomes part all
lengths (`BoundedRead`). In 64 bits the largest limit has no successor: with it nothing
is read (`boundedRead_iff`).
-/

namespace Csar.Proof.Clientx

open Impl.Clientx Spec.Clientx

variable {allow : List Int} {m : Int}

theorem isSuccess_iff {status : Int} : isSuccess status allow ↔ Succeeds status allow := by
  cases allow with
  | nil | cons a as => simp [isSuccess, Succeeds]

theorem capBody_fst (raw : Bytes) : (capBody raw).1 = raw.take (min raw.length 4096) := by
  unfold capBody logBodyCap
  split
  · rw [Nat.min_eq_left ‹_›, List.take_length]
  · rw [Nat.min_eq_right (by omega)]

/-! ## What is read -/

/-- The bytes that are read under the limit `m`. -/
def bytesRead (m : Int) (body : Bytes) : Bytes := body.take (wrap64 (m + 1)).toNat

theorem bytesRead_of_lt (h0 : 0 < m) (h : m < maxInt64) (body : Bytes) :
    bytesRead m body = body.take (m.toNat + 1) := by
  have hwrap : wrap64 (m + 1) = m + 1 := wrap64_of_le (by omega) (by omega)
  rw [bytesRead, hwrap, Int.toNat_add (by omega) (by decide)]
  rfl

theorem bytesRead_max (body : Bytes) : bytesRead maxInt64 body = [] := by
  have hwrap : wrap64 (maxInt64 + 1) = minInt64 := rfl
  rw [bytesRead, hwrap]
  rfl

/-! ## The outcomes -/

/-- `exec` on a response with a body that does not fail. -/
abbrev answered (opts : Options) (req : Request) (status : Int) (csarStatus body : Bytes) : Executed :=
  exec opts req (.ok ⟨status, csarStatus, ⟨body, none⟩⟩)

section

variable {opts : Options} (h0 : 0 < opts.maxResponseBytes) (req : Request) (status : Int) (csarStatus body : Bytes)

include h0

theorem exec_eq : answered opts req status csarStatus body =
    let raw := bytesRead opts.maxResponseBytes body
    let oversize := classifyResponseOrigin [] csarStatus
    let origin := classifyResponseOrigin (capBody raw).1 csarStatus
    if (raw.length : Int) > opts.maxResponseBytes then
      ⟨none, status, some (req.failed status none oversize (some .responseTooLarge)),
        [.tooLarge status req.method req.path oversize Cause.responseTooLarge.error.text req.idAttr]⟩
    else if !isSuccess status opts.successStatuses then
      ⟨none, status, some (req.failed status (some (capBody raw).1) origin none),
        [.nonSuccess status req.method req.path origin (capBody raw).2 req.idAttr]⟩
    else ⟨some raw, status, none, []⟩ := by
  have hmax : effectiveMaxBytes opts = opts.maxResponseBytes := if_neg (Int.not_le.mpr h0)
  rw [answered, exec, readResponse, hmax, Stream.readAll_limit]
  rfl

variable {raw : Bytes} (hraw : bytesRead opts.maxResponseBytes body = raw)

include hraw

theorem exec_tooLarge (h : opts.maxResponseBytes < raw.length) :
    ∃ e, (answered opts req status csarStatus body).err = some e ∧ TooLarge e := by
  rw [exec_eq h0, hraw, if_pos h]
  exact ⟨_, rfl, rfl, rfl⟩

theorem exec_whole (h : raw.length ≤ opts.maxResponseBytes) (hs : Succeeds status opts.successStatuses) :
    (answered opts req status csarStatus body).err = none ∧
      (answered opts req status csarStatus body).raw = some raw := by
  have hsuccess : ¬ (!isSuccess status opts.successStatuses) = true := by simp [isSuccess_iff.mpr hs]
  rw [exec_eq h0, hraw, if_neg (Int.not_lt.mpr h), if_neg hsuccess]
  exact ⟨rfl, rfl⟩

theorem exec_otherwise (h : raw.length ≤ opts.maxResponseBytes) (hs : ¬ Succeeds status opts.successStatuses) :
    ∃ e, (answered opts req status csarStatus body).err = some e ∧ ¬ TooLarge e ∧
      e.body = some (raw.take (min raw.length 4096)) := by
  have hfails : (!isSuccess status opts.successStatuses) = true := by
    rw [Bool.not_eq_true', ← Bool.not_eq_true, isSuccess_iff]
    exact hs
  rw [exec_eq h0, hraw, if_neg (Int.not_lt.mpr h), if_pos hfails]
  refine ⟨_, rfl, fun hlarge => ?_, congrArg some (capBody_fst raw)⟩
  cases hlarge.1

theorem exec_failed (h : (answered opts req status csarStatus body).err ≠ none) :
    (answered opts req status csarStatus body).raw = none := by
  by_cases hlong : opts.maxResponseBytes < raw.length
  · rw [exec_eq h0, hraw, if_pos hlong]
  · rw [exec_eq h0, hraw, if_neg hlong]
    by_cases hs : Succeeds status opts.successStatuses
    · exact absurd (exec_whole h0 req status csarStatus body hraw (Int.not_lt.mp hlong) hs).1 h
    · rw [if_pos (by rw [Bool.not_eq_true', ← Bool.not_eq_true, isSuccess_iff]; exact hs)]

theorem exec_outcomes : BoundedRead opts.maxResponseBytes opts.successStatuses status raw
    (answered opts req status csarStatus body) := by
  have htoo := exec_tooLarge h0 req status csarStatus body hraw
  have hwhole := exec_whole h0 req status csarStatus body hraw
  have hother := exec_otherwise h0 req status csarStatus body hraw
  refine ⟨⟨?_, fun h => hwhole h.1 h.2⟩, exec_failed h0 req status csarStatus body hraw, ⟨?_, htoo⟩, hother⟩
  · rintro ⟨hnone, -⟩
    by_contra hnot
    by_cases hle : raw.length ≤ opts.maxResponseBytes
    · obtain ⟨e, he, -⟩ := hother hle fun hs => hnot ⟨hle, hs⟩
      cases hnone.symm.trans he
    · obtain ⟨e, he, -⟩ := htoo (Int.not_le.mp hle)
      cases hnone.symm.trans he
  · rintro ⟨e, he, hlarge⟩
    by_contra hnot
    have hle := Int.not_lt.mp hnot
    by_cases hs : Succeeds status opts.successStatuses
    · cases (hwhole hle hs).1.symm.trans he
    · obtain ⟨e', he', hnotlarge, -⟩ := hother hle hs
      cases he.symm.trans he'
      exact hnotlarge hlarge

end

/-- What was read stands for the body if it is the body, or if both are too long. -/
theorem boundedRead_of_read {status : Int} {raw body : Bytes} {r : Executed}
    (h : BoundedRead m allow status raw r) (hlong : m < raw.length ↔ m < body.length)
    (hshort : body.length ≤ m → raw = body) : BoundedRead m allow status body r := by
  by_cases hle : body.length ≤ m
  · exact hshort hle ▸ h
  · have hraw := hlong.mpr (Int.not_le.mp hle)
    have hfail := h.tooLarge.mpr hraw
    refine ⟨⟨fun ⟨hnone, _⟩ => ?_, fun ⟨hle', _⟩ => absurd hle' hle⟩, h.failed, h.tooLarge.trans hlong,
      fun hle' => absurd hle' hle⟩
    obtain ⟨e, he, -⟩ := hfail
    cases hnone.symm.trans he

theorem boundedRead_unique {status : Int} {raw body : Bytes} {r : Executed}
    (hraw : BoundedRead m allow status raw r) (hbody : BoundedRead m allow status body r) (hle : raw.length ≤ m)
    (hnil : raw = []) : body = [] := by
  have hshort : body.length ≤ m := by
    by_contra hlong
    exact absurd (hraw.tooLarge.mp (hbody.tooLarge.mpr (Int.not_le.mp hlong))) (Int.not_lt.mpr hle)
  by_cases hs : Succeeds status allow
  · have hsame := (hraw.whole.mpr ⟨hle, hs⟩).2.symm.trans (hbody.whole.mpr ⟨hshort, hs⟩).2
    rw [← Option.some.inj hsame, hnil]
  · obtain ⟨e, he, -, hcap⟩ := hraw.otherwise hle hs
    obtain ⟨e', he', -, hcap'⟩ := hbody.otherwise hshort hs
    cases he.symm.trans he'
    have hsame := Option.some.inj (hcap.symm.trans hcap')
    rw [hnil, List.take_nil, eq_comm, List.take_eq_nil_iff] at hsame
    rcases hsame with hmin | hbody
    · exact List.length_eq_zero_iff.mp (by omega)
    · exact hbody

/-- For every limit but the largest the read of a body that does not fail is exact; with that, only the
read of an empty body is. -/
theorem boundedRead_iff (opts : Options) (req : Request) (status : Int) (csarStatus body : Bytes)
    (h0 : 0 < opts.maxResponseBytes) (h : opts.maxResponseBytes < 2 ^ 63) :
    BoundedRead opts.maxResponseBytes opts.successStatuses status body
        (exec opts req (.ok ⟨status, csarStatus, ⟨body, none⟩⟩)) ↔
      opts.maxResponseBytes < 2 ^ 63 - 1 ∨ body = [] := by
  have hread := exec_outcomes h0 req status csarStatus body rfl
  constructor
  · intro hexact
    by_contra hnot
    rw [not_or] at hnot
    have hm : opts.maxResponseBytes = maxInt64 := by
      rw [maxInt64]
      omega
    have hnil : bytesRead opts.maxResponseBytes body = [] := by rw [hm, bytesRead_max]
    refine hnot.2 (boundedRead_unique hread hexact ?_ hnil)
    rw [hnil]
    exact Int.le_of_lt h0
  · rintro (hlt | rfl)
    · have hmax : opts.maxResponseBytes < maxInt64 := by
        rw [maxInt64]
        omega
      rw [bytesRead_of_lt h0 hmax body] at hread
      refine boundedRead_of_read hread ?_ ?_
      · rw [List.length_take]
        omega
      · intro hle
        exact List.take_of_length_le (by omega)
    · rw [bytesRead, List.take_nil] at hread
      exact hread

theorem boundedRead_one : BoundedRead 1 [] 200 [0x61]
    (exec { maxResponseBytes := 1 } ⟨utf8 "GET", utf8 "/", []⟩ (.ok ⟨200, [], ⟨[0x61], none⟩⟩)) :=
  (boundedRead_iff { maxResponseBytes := 1 } ⟨utf8 "GET", utf8 "/", []⟩ 200 [] [0x61] (by decide) (by decide)).mpr
    (.inl (by decide))

/-- With the largest limit the body of a good response is lost. -/
theorem body_lost_at_largest_limit :
    exec { maxResponseBytes := 9223372036854775807 } ⟨utf8 "GET", utf8 "/", []⟩ (.ok ⟨200, [], ⟨[0x61], none⟩⟩) =
      ⟨some [], 200, none, []⟩ ∧
    ¬ BoundedRead 9223372036854775807 [] 200 [0x61]
      (exec { maxResponseBytes := 9223372036854775807 } ⟨utf8 "GET", utf8 "/", []⟩ (.ok ⟨200, [], ⟨[0x61], none⟩⟩)) := by
  have hexec : exec { maxResponseBytes := 9223372036854775807 } ⟨utf8 "GET", utf8 "/", []⟩
      (.ok ⟨200, [], ⟨[0x61], none⟩⟩) = ⟨some [], 200, none, []⟩ := by
    refine (exec_eq (by decide) _ _ _ _).trans ?_
    rw [show bytesRead 9223372036854775807 [0x61] = [] from bytesRead_max _]
    rfl
  refine ⟨hexec, fun hexact => ?_⟩
  rw [hexec] at hexact
  have hraw := (hexact.whole.mpr ⟨by decide, ⟨by decide, by decide⟩⟩).2
  cases hraw

end Csar.Proof.Clientx
