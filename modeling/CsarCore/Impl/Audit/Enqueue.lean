import CsarCore.Framework.Json.Struct
import CsarCore.Framework.Uuid
import CsarCore.Impl.Audit.Outbox
import CsarCore.Impl.Audit.Postgres

/-!
# Events on their way into the outbox

`audit/identity.go` and `audit/validate.go`, and of `audit/outbox.go` `EnqueueTx` and
what `DeliverOne` decodes. The random UUID and the clocks of the process and of the
database are parameters. An error rolls the transaction of the caller back, as the
documentation asks; a statement that was not answered has left nothing in the table.
-/

namespace Csar.Impl.Audit

/-! ## JSON -/

/-- The fields of `Event` in JSON. -/
def eventFields : List (Json.Field Event) := [
  .string (utf8 "id") false Event.id fun s e => { e with id := s },
  .string (utf8 "service") true Event.service fun s e => { e with service := s },
  .string (utf8 "actor") false Event.actor fun s e => { e with actor := s },
  .string (utf8 "action") false Event.action fun s e => { e with action := s },
  .string (utf8 "target_type") false Event.targetType fun s e => { e with targetType := s },
  .string (utf8 "target_id") false Event.targetID fun s e => { e with targetID := s },
  .string (utf8 "scope_type") false Event.scopeType fun s e => { e with scopeType := s },
  .string (utf8 "scope_id") false Event.scopeID fun s e => { e with scopeID := s },
  .raw (utf8 "before_state") Event.beforeState fun raw e => { e with beforeState := raw },
  .raw (utf8 "after_state") Event.afterState fun raw e => { e with afterState := raw },
  .raw (utf8 "metadata") Event.metadata fun raw e => { e with metadata := raw },
  .string (utf8 "request_id") true Event.requestID fun s e => { e with requestID := s },
  .string (utf8 "client_ip") true Event.clientIP fun s e => { e with clientIP := s },
  .time (utf8 "created_at") Event.createdAt fun t e => { e with createdAt := t }]

/-- `json.Marshal` of an `Event`; `none`: an error. -/
def marshalEvent (e : Event) : Option Bytes := Json.marshalStruct eventFields e

def zeroEvent : Event := ⟨[], [], [], [], [], [], [], [], none, none, none, [], [], Time.zeroTime⟩

/-- `json.Unmarshal` into the zero `Event`; `none`: an error. -/
def unmarshalEvent (payload : Bytes) : Option Event :=
  (Json.unmarshalStruct eventFields payload zeroEvent).toOption

/-! ## Identity -/

inductive EnqueueErr
  /-- "audit: event is required" -/
  | eventRequired
  /-- The error of `uuid.NewRandom`. -/
  | random
  /-- "audit: event ID must be a nonzero UUID" -/
  | eventID
  /-- "audit outbox service mismatch" -/
  | serviceMismatch
  /-- "actor, action, target_type and scope_type are required" -/
  | missingFields
  /-- "event JSON fields must contain valid JSON" -/
  | invalidJSON
  /-- "audit state exceeds 65536 bytes" -/
  | stateTooLarge
  /-- "audit metadata exceeds 16384 bytes" -/
  | metadataTooLarge
  /-- The error of `json.Marshal`. -/
  | marshal
  /-- "audit outbox payload too large" -/
  | payloadTooLarge
  /-- "enqueue audit outbox: " and the error of the database. -/
  | db
  /-- "audit outbox event identity conflict" -/
  | identityConflict
  deriving DecidableEq

/-- `append(json.RawMessage(nil), raw...)`: nothing is copied to nil. -/
def copyRaw (raw : Option Bytes) : Option Bytes := if raw.getD [] = [] then none else raw

def cloneEvent (e : Event) : Event :=
  { e with
    beforeState := copyRaw e.beforeState
    afterState := copyRaw e.afterState
    metadata := copyRaw e.metadata }

def parseEventID [UuidText] (raw : Bytes) : Except EnqueueErr Uuid :=
  match UuidText.parse raw with
  | none => .error .eventID
  | some id => if id = 0 then .error .eventID else .ok id

def newRandom : Option Uuid → Except EnqueueErr Uuid
  | none => .error .random
  | some id => .ok id

/-- The identity of an event: its own, or a new one. -/
def eventIdentity [UuidText] (id : Bytes) (random : Option Uuid) : Except EnqueueErr Uuid :=
  if id = [] then newRandom random else parseEventID id

/-- `event == nil`. -/
def requireEvent : Option Event → Except EnqueueErr Event
  | none => .error .eventRequired
  | some e => .ok e

/-- `t.UTC().Truncate(time.Microsecond)`. -/
def truncateMicrosecond (t : Int) : Int := t - t % 1000

/-- `random` is what `uuid.NewRandom` gives, `none` an error; `now` is `time.Now()`. -/
def prepareEvent [UuidText] (event : Option Event) (random : Option Uuid) (now : Int) : Except EnqueueErr Event := do
  let event ← requireEvent event
  let prepared := cloneEvent event
  let id ← eventIdentity prepared.id random
  .ok { prepared with
    id := UuidText.format id
    createdAt := truncateMicrosecond (if prepared.createdAt = Time.zeroTime then now else prepared.createdAt) }

/-! ## Validation -/

def maxStateBytes : Nat := 64 * 2 ^ 10

def maxMetadataBytes : Nat := 16 * 2 ^ 10

def validateEventID [UuidText] (id : Bytes) : Except EnqueueErr Unit := do
  if id = [] then .ok ()
  else
    let _ ← parseEventID id
    .ok ()

/-- `len(raw) > 0 && !json.Valid(raw)`. -/
def invalidRaw (raw : Option Bytes) : Bool := raw.getD [] ≠ [] ∧ !Json.valid (raw.getD [])

def validateEvent [UuidText] (e : Event) : Except EnqueueErr Unit := do
  validateEventID e.id
  if e.actor = [] ∨ e.action = [] ∨ e.targetType = [] ∨ e.scopeType = [] then .error .missingFields
  else if [e.beforeState, e.afterState, e.metadata].any invalidRaw then .error .invalidJSON
  else if (e.beforeState.getD []).length > maxStateBytes ∨ (e.afterState.getD []).length > maxStateBytes then
    .error .stateTooLarge
  else if (e.metadata.getD []).length > maxMetadataBytes then .error .metadataTooLarge
  else .ok ()

/-! ## `EnqueueTx` -/

def maxOutboxPayload : Nat := 256 * 2 ^ 10

/-- `json.Marshal(prepared)` and the check of its length. -/
def outboxPayload (prepared : Event) : Except EnqueueErr Bytes :=
  match marshalEvent prepared with
  | none => .error .marshal
  | some payload => if payload.length > maxOutboxPayload then .error .payloadTooLarge else .ok payload

/-- `EnqueueTx` up to its statement: the prepared event and its payload. -/
def enqueueEvent [UuidText] (service : String) (event : Option Event) (random : Option Uuid) (now : Int) :
    Except EnqueueErr (Event × Bytes) := do
  let prepared ← prepareEvent event random now
  if prepared.service ≠ [] ∧ prepared.service ≠ utf8 service then .error .serviceMismatch
  else
    let prepared := { prepared with service := utf8 service }
    validateEvent prepared
    let payload ← outboxPayload prepared
    .ok (prepared, payload)

/-- The statement of `EnqueueTx`, and what it makes of the rows affected. -/
def insertEvent [UuidText] (t : Outbox) (service : String) (e : Event) (payload : Bytes) (dbNow : Int) :
    Outbox × Except EnqueueErr Unit :=
  match UuidText.parse e.id with
  | none => (t, .error .db)
  | some id =>
    let r := insertOutbox t id service payload dbNow
    (r.1, if r.2 ≠ 1 then .error .identityConflict else .ok ())

/-- In a transaction that is committed if it returns nil. -/
def enqueueTx [UuidText] (t : Outbox) (service : String) (event : Option Event) (random : Option Uuid) (now dbNow : Int)
    (call : Call) : Outbox × Except EnqueueErr Unit :=
  match enqueueEvent service event random now with
  | .error err => (t, .error err)
  | .ok (prepared, payload) =>
    match call with
    | .answered => insertEvent t service prepared payload dbNow
    -- the transaction cannot be committed after an error of its statement
    | .lost | .failed => (t, .error .db)

end Csar.Impl.Audit
