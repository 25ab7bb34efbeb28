import CsarCore.Framework.Except
import CsarCore.Spec.Audit.Enqueue

/-!
# What `EnqueueTx` accepts

Which identity an event gets (`Identity`), what it is prepared to (`preparedFor`) and
what `ValidateEvent` asks of that (`Valid`): `enqueueEvent_eq_ok` says when the
statement is reached, and with what.
-/

namespace Csar.Proof.Audit

open Impl.Audit Spec.Audit

variable {e : Event} {random : Option Uuid}

theorem outboxPayload_eq_ok {payload : Bytes} :
    outboxPayload e = .ok payload ↔ marshalEvent e = some payload ∧ payload.length ≤ maxOutboxPayload := by
  unfold outboxPayload
  cases marshalEvent e with
  | none => simp
  | some p =>
    simp only [ite_error_eq_ok, Except.ok.injEq, Option.some.injEq, Nat.not_lt]
    constructor
    · rintro ⟨h, rfl⟩
      exact ⟨rfl, h⟩
    · rintro ⟨rfl, h⟩
      exact ⟨h, rfl⟩

variable [UuidText]

/-- The identity that `PrepareEvent` gives an event. -/
def Identity (e : Event) (random : Option Uuid) (id : Uuid) : Prop :=
  (e.id = [] ∧ random = some id) ∨ (e.id ≠ [] ∧ parseEventID e.id = .ok id)

def preparedFor (service : String) (e : Event) (id : Uuid) (now : Int) : Event :=
  { cloneEvent e with
    id := UuidText.format id
    service := utf8 service
    createdAt := truncateMicrosecond (if e.createdAt = Time.zeroTime then now else e.createdAt) }

theorem parseEventID_eq_ok {raw : Bytes} {id : Uuid} :
    parseEventID raw = .ok id ↔ UuidText.parse raw = some id ∧ id ≠ 0 := by
  unfold parseEventID
  cases UuidText.parse raw with
  | none => simp
  | some u =>
    dsimp only
    by_cases hu : u = 0
    · rw [if_pos hu]
      constructor
      · intro h
        cases h
      · rintro ⟨⟨⟩, h⟩
        exact absurd hu h
    · rw [if_neg hu]
      constructor
      · rintro ⟨⟩
        exact ⟨rfl, hu⟩
      · rintro ⟨⟨⟩, -⟩
        rfl

theorem identity_eq_ok {id : Uuid} : eventIdentity e.id random = .ok id ↔ Identity e random id := by
  unfold Identity eventIdentity
  by_cases h : e.id = []
  · cases random with
    | none | some u => simp [h, newRandom]
  · simp [h]

theorem prepareEvent_eq_ok {prepared : Event} {now : Int} :
    prepareEvent (some e) random now = .ok prepared ↔ ∃ id, Identity e random id ∧
      prepared = { cloneEvent e with
        id := UuidText.format id
        createdAt := truncateMicrosecond (if e.createdAt = Time.zeroTime then now else e.createdAt) } := by
  unfold prepareEvent
  show (eventIdentity e.id random >>= _) = _ ↔ _
  rw [bind_eq_ok_iff]
  refine exists_congr fun id => ?_
  rw [identity_eq_ok, Except.ok.injEq]
  exact and_congr_right fun _ => eq_comm

/-- What `ValidateEvent` asks of an event. -/
structure Valid (e : Event) : Prop where
  id : e.id ≠ [] → ∃ u, parseEventID e.id = .ok u
  present : ¬ (e.actor = [] ∨ e.action = [] ∨ e.targetType = [] ∨ e.scopeType = [])
  json : ∀ raw ∈ [e.beforeState, e.afterState, e.metadata], invalidRaw raw = false
  states : (e.beforeState.getD []).length ≤ maxStateBytes ∧ (e.afterState.getD []).length ≤ maxStateBytes
  metadata : (e.metadata.getD []).length ≤ maxMetadataBytes

theorem validateEventID_eq_ok {id : Bytes} :
    validateEventID id = .ok () ↔ (id ≠ [] → ∃ u, parseEventID id = .ok u) := by
  unfold validateEventID
  by_cases h : id = []
  · simp [h]
  · rw [if_neg h, bind_eq_ok_iff]
    simp [h]

theorem validateEvent_eq_ok : validateEvent e = .ok () ↔ Valid e := by
  unfold validateEvent
  rw [bind_eq_ok_iff]
  constructor
  · rintro ⟨_, hid, h⟩
    obtain ⟨hpresent, h⟩ := ite_error_eq_ok.mp h
    obtain ⟨hjson, h⟩ := ite_error_eq_ok.mp h
    obtain ⟨hstates, h⟩ := ite_error_eq_ok.mp h
    obtain ⟨hmetadata, -⟩ := ite_error_eq_ok.mp h
    rw [List.any_eq_true, not_exists] at hjson
    rw [not_or] at hstates
    refine ⟨validateEventID_eq_ok.mp hid, hpresent, fun raw hraw => ?_, ⟨Nat.le_of_not_lt hstates.1,
      Nat.le_of_not_lt hstates.2⟩, Nat.le_of_not_lt hmetadata⟩
    exact Bool.eq_false_iff.mpr fun hinvalid => hjson raw ⟨hraw, hinvalid⟩
  · intro h
    refine ⟨(), validateEventID_eq_ok.mpr h.id, ite_error_eq_ok.mpr ⟨h.present, ite_error_eq_ok.mpr ⟨?_,
      ite_error_eq_ok.mpr ⟨?_, ite_error_eq_ok.mpr ⟨Nat.not_lt.mpr h.metadata, rfl⟩⟩⟩⟩⟩
    · rw [List.any_eq_true]
      rintro ⟨raw, hraw, hinvalid⟩
      rw [h.json raw hraw] at hinvalid
      cases hinvalid
    · exact not_or.mpr ⟨Nat.not_lt.mpr h.states.1, Nat.not_lt.mpr h.states.2⟩

/-- When `EnqueueTx` reaches its statement. -/
theorem enqueueEvent_eq_ok {service : String} {prepared : Event} {now : Int} {payload : Bytes} :
    enqueueEvent service (some e) random now = .ok (prepared, payload) ↔ ∃ id, Identity e random id ∧
      (e.service = [] ∨ e.service = utf8 service) ∧ prepared = preparedFor service e id now ∧ Valid prepared ∧
      marshalEvent prepared = some payload ∧ payload.length ≤ maxOutboxPayload := by
  unfold enqueueEvent
  rw [bind_eq_ok_iff]
  constructor
  · rintro ⟨p, hp, h⟩
    obtain ⟨id, hid, rfl⟩ := prepareEvent_eq_ok.mp hp
    obtain ⟨hservice, h⟩ := ite_error_eq_ok.mp h
    obtain ⟨_, hvalid, h⟩ := bind_eq_ok h
    obtain ⟨payload', hpayload, h⟩ := bind_eq_ok h
    cases h
    refine ⟨id, hid, ?_, rfl, validateEvent_eq_ok.mp hvalid, outboxPayload_eq_ok.mp hpayload⟩
    have hservice' : ¬ (e.service ≠ [] ∧ e.service ≠ utf8 service) := hservice
    tauto
  · rintro ⟨id, hid, hservice, rfl, hvalid, hpayload⟩
    refine ⟨_, prepareEvent_eq_ok.mpr ⟨id, hid, rfl⟩, ite_error_eq_ok.mpr ⟨?_, ?_⟩⟩
    · show ¬ (e.service ≠ [] ∧ e.service ≠ utf8 service)
      tauto
    · exact bind_eq_ok_iff.mpr ⟨(), validateEvent_eq_ok.mpr hvalid,
        bind_eq_ok_iff.mpr ⟨payload, outboxPayload_eq_ok.mpr hpayload, rfl⟩⟩

end Csar.Proof.Audit
