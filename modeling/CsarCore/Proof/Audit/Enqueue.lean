import CsarCore.Proof.Audit.Outbox
import CsarCore.Proof.Audit.Payload

/-!
# `EnqueueTx` and the rows of the outbox

What the statement of `EnqueueTx` does is read off its count of rows
(`insertOutbox_fresh`, `insertOutbox_taken`): `enqueue_conflict_law` puts that
together for every table, hence for every one that a run can reach.
-/

namespace Csar.Proof.Audit

open Impl.Audit Spec.Audit

theorem insertOutbox_fresh {t : Outbox} {id : Uuid} (h : ∀ q ∈ t, q.id ≠ id) (service : String) (payload : Bytes)
    (now : Int) : (insertOutbox t id service payload now).1.rows = newRow id service payload now :: t.rows ∧
      (insertOutbox t id service payload now).2 = 1 := by
  have h' : ∀ q ∈ t.rows, q.id ≠ id := h
  rw [insertOutbox, dif_pos h']
  exact ⟨rfl, rfl⟩

theorem insertOutbox_taken {t : Outbox} {q : Row} (hq : q ∈ t) (service : String) (payload : Bytes) (now : Int) :
    insertOutbox t q.id service payload now = (t, if q.service = service ∧ q.payload = payload then 1 else 0) := by
  have hne : ¬ ∀ q' ∈ t.rows, q'.id ≠ q.id := fun h => h q hq rfl
  have hcount := Table.count_key_and hq fun q => q.service == service && q.payload == payload
  simp only [← Bool.and_assoc] at hcount
  rw [insertOutbox, dif_neg hne, hcount]
  simp only [Bool.and_eq_true, beq_iff_eq]

theorem insertEvent_eq [UuidText] {e : Event} {id : Uuid} (h : UuidText.parse e.id = some id) (t : Outbox) (service : String)
    (payload : Bytes) (now : Int) :
    insertEvent t service e payload now = ((insertOutbox t id service payload now).1,
      if (insertOutbox t id service payload now).2 ≠ 1 then .error .identityConflict else .ok ()) := by
  rw [insertEvent, h]

theorem conflictLaw_insertEvent [UuidText] {e : Event} {id : Uuid} (h : UuidText.parse e.id = some id) (t : Outbox)
    (service : String) (payload : Bytes) (now : Int) :
    ConflictLaw t service id payload .answered (insertEvent t service e payload now) := by
  have hcases : (∀ q ∈ t, q.id ≠ id) ∨ ∃ q ∈ t, q.id = id := by
    by_cases hfresh : ∀ q ∈ t, q.id ≠ id
    · exact .inl hfresh
    · exact .inr (by simpa using hfresh)
  rw [insertEvent_eq h]
  rcases hcases with hfresh | ⟨q, hq, rfl⟩
  · obtain ⟨hrows, hcount⟩ := insertOutbox_fresh hfresh service payload now
    refine ⟨fun _ _ => ⟨newRow id service payload now, rfl, rfl, rfl, rfl, rfl, hrows⟩,
      fun q hq hid => absurd hid (hfresh q hq), fun q hq hid => absurd hid (hfresh q hq), fun q hne => ?_⟩
    show q ∈ (insertOutbox t id service payload now).1.rows ↔ q ∈ t
    rw [hrows, List.mem_cons, or_iff_right]
    · rfl
    · rintro rfl
      exact hne rfl
  · rw [insertOutbox_taken hq]
    have hsame : ∀ q' ∈ t, q'.id = q.id → q' = q := fun q' hq' hid => Table.eq_of_key hq' hq hid
    refine ⟨fun hfresh => absurd rfl (hfresh q hq), fun q' hq' hid hservice hpayload _ => ?_,
      fun q' hq' hid hdiff => ?_, fun _ _ => Iff.rfl⟩
    · obtain rfl := hsame q' hq' hid
      rw [if_pos ⟨hservice, hpayload⟩]
      exact ⟨rfl, rfl⟩
    · obtain rfl := hsame q' hq' hid
      rw [if_neg (by tauto)]
      exact ⟨⟨_, rfl⟩, rfl⟩

theorem conflictLaw_unanswered {call : Call} (h : call ≠ .answered) (t : Outbox) (service : String) (id : Uuid)
    (payload : Bytes) (err : EnqueueErr) : ConflictLaw t service id payload call (t, .error err) where
  fresh _ hok := by cases hok
  retry _ _ _ _ _ hcall := absurd hcall h
  conflict _ _ _ _ := ⟨⟨err, rfl⟩, rfl⟩
  frame _ _ := Iff.rfl

theorem parse_prepared [UuidText] {service : String} {event : Option Event} {random : Option Uuid} {now : Int}
    {prepared : Event} {payload : Bytes} (h : enqueueEvent service event random now = .ok (prepared, payload)) :
    ∃ id, UuidText.parse prepared.id = some id := by
  cases event with
  | none => cases h
  | some e =>
    obtain ⟨id, -, -, rfl, -⟩ := enqueueEvent_eq_ok.mp h
    exact ⟨id, UuidText.parse_format id⟩

/-- An event that is refused before the statement changes nothing, and for every other the law of its
identity holds. -/
theorem enqueue_conflict_law [UuidText] (t : Outbox) (service : String) (event : Option Event) (random : Option Uuid)
    (now dbNow : Int) (call : Call) :
    (∀ err, enqueueEvent service event random now = .error err →
      enqueueTx t service event random now dbNow call = (t, .error err)) ∧
    ∀ prepared payload, enqueueEvent service event random now = .ok (prepared, payload) →
      ∃ id, UuidText.parse prepared.id = some id ∧
        ConflictLaw t service id payload call (enqueueTx t service event random now dbNow call) := by
  constructor
  · intro err h
    rw [enqueueTx, h]
  · intro prepared payload h
    obtain ⟨id, hid⟩ := parse_prepared h
    refine ⟨id, hid, ?_⟩
    rw [enqueueTx, h]
    cases call with
    | answered => exact conflictLaw_insertEvent hid t service payload dbNow
    | lost | failed => exact conflictLaw_unanswered (by decide) t service id payload .db

def leasedTable : Outbox := ⟨[⟨sampleID, "billing", utf8 "\x7b\x7d", 0, 0, 3, some ⟨1, 60⟩⟩], by decide⟩

theorem enqueue_conflict_leased :
    (∃ err, (enqueueTx leasedTable "svc" (some (angleEvent 1)) none 0 0 .answered).2 = .error err) ∧
    (enqueueTx leasedTable "svc" (some (angleEvent 1)) none 0 0 .answered).1 = leasedTable := by
  obtain ⟨payload, -, hok⟩ := enqueue_angleEvent (by decide : 1 + 2 ≤ maxStateBytes) (by decide)
  obtain ⟨id, hid, hlaw⟩ :=
    (enqueue_conflict_law leasedTable "svc" (some (angleEvent 1)) none 0 0 .answered).2 _ payload hok
  obtain rfl : sampleID = id := Option.some.inj ((UuidText.parse_format sampleID).symm.trans hid)
  exact hlaw.conflict _ List.mem_cons_self rfl (.inl (by decide))

end Csar.Proof.Audit
