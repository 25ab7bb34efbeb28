import CsarCore.Impl.Audit.Enqueue

/-!
# What `EnqueueTx` is to do

`ConflictLaw` is what it may do to the table, with the identity of the event. `Fidelity`
is what the stored payload is for: the event that is decoded from it is the prepared
one, and enqueuing that again gives the same payload.

`encodedSize` and `eventSize` are how large a JSON text and an event are in the payload:
spaces between tokens take no byte, and what `json.Marshal` escapes takes the bytes of
its escape.
-/

namespace Csar.Spec.Audit

open Impl.Audit

/-! ## The table -/

/-- What comes of `EnqueueTx` for an event: `r` is the table after it, and its error. -/
structure ConflictLaw (t : Outbox) (service : String) (id : Uuid) (payload : Bytes) (call : Call)
    (r : Outbox × Except EnqueueErr Unit) : Prop where
  /-- A new identity gets one row, which is free to be claimed. -/
  fresh : (∀ q ∈ t, q.id ≠ id) → r.2 = .ok () → ∃ q : Row, q.id = id ∧ q.service = service ∧ q.payload = payload ∧
    q.lease = none ∧ q.attempts = 0 ∧ r.1.rows = q :: t.rows
  /-- A retry succeeds, and changes nothing. -/
  retry : ∀ q ∈ t, q.id = id → q.service = service → q.payload = payload → call = .answered →
    r.2 = .ok () ∧ r.1 = t
  /-- Another event with this identity is refused. -/
  conflict : ∀ q ∈ t, q.id = id → q.service ≠ service ∨ q.payload ≠ payload →
    (∃ err, r.2 = .error err) ∧ r.1 = t
  /-- Other rows are not touched. -/
  frame : ∀ q : Row, q.id ≠ id → (q ∈ r.1 ↔ q ∈ t)

/-! ## Payloads -/

def strings (e : Event) : List Bytes :=
  [e.id, e.service, e.actor, e.action, e.targetType, e.targetID, e.scopeType, e.scopeID, e.requestID, e.clientIP]

def stringBytes (e : Event) : Nat := ((strings e).map List.length).foldr (· + ·) 0

def year (t : Int) : Int := (Time.dateOfDay (t / Time.dayNanos)).year

/-- The time of an event, or the clock if it has none, is in the years 1970 to 9999. -/
def Timely (e : Event) (now : Int) : Prop :=
  let t := if e.createdAt = Time.zeroTime then now else e.createdAt
  1970 ≤ year t ∧ year t ≤ 9999

instance (e : Event) (now : Int) : Decidable (Timely e now) := inferInstanceAs (Decidable (_ ∧ _))

/-- Both are absent, or denote the same JSON value. -/
def SameJSON : Option Bytes → Option Bytes → Prop
  | none, none => True
  | some raw, some raw' => ∃ d, Json.parse raw = some d ∧ Json.parse raw' = some d
  | _, _ => False

/-- `decoded` is the prepared event as far as the payload tells. -/
structure SameEvent (decoded prepared : Event) : Prop where
  strings : strings decoded = strings prepared
  createdAt : decoded.createdAt = prepared.createdAt
  beforeState : SameJSON decoded.beforeState prepared.beforeState
  afterState : SameJSON decoded.afterState prepared.afterState
  metadata : SameJSON decoded.metadata prepared.metadata

/-- The event that is decoded from the payload is the prepared one, and enqueuing it again gives the same
identity and payload. -/
def Fidelity [UuidText] (service : String) (prepared : Event) (payload : Bytes) : Prop :=
  ∃ decoded, unmarshalEvent payload = some decoded ∧ SameEvent decoded prepared ∧
    ∀ random now, ∃ again, enqueueEvent service (some decoded) random now = .ok (again, payload) ∧
      again.id = prepared.id

/-! ## Sizes -/

/-- The bytes that a character takes in the payload beyond its own: `<`, `>` and `&` take six for one,
U+2028 and U+2029 six for three. -/
def extraBytes : Option Char → Nat
  | none => 0
  | some c =>
    if ['<', '>', '&'].contains c then 5
    else if [Char.ofNat 0x2028, Char.ofNat 0x2029].contains c then 3
    else 0

def escapedSize (s : Bytes) : Nat := s.length + ((runes s).map extraBytes).foldr (· + ·) 0

def encodedSize : Json.Raw → Nat :=
  Json.fold ⟨4, fun b => if b then 4 else 5, List.length, fun s => escapedSize s + 2, Json.seqSize,
    fun ms => Json.seqSize (ms.map fun m => escapedSize m.1 + 3 + m.2)⟩

/-- A raw message that takes at most `limit` bytes in the payload, and is not nested too deep. -/
def Embeds (limit : Nat) (raw : Option Bytes) : Prop :=
  ∀ r, Json.scanRaw (raw.getD []) = some r → encodedSize r ≤ limit ∧ r.depth < Json.maxNestingDepth

instance (limit : Nat) (raw : Option Bytes) : Decidable (Embeds limit raw) :=
  decidable_of_iff ((Json.scanRaw (raw.getD [])).all fun r => encodedSize r ≤ limit ∧ r.depth < Json.maxNestingDepth)
    (by simp [Option.all_eq_true, Embeds])

def Restorable (e : Event) : Prop :=
  Embeds maxStateBytes e.beforeState ∧ Embeds maxStateBytes e.afterState ∧ Embeds maxMetadataBytes e.metadata

instance (e : Event) : Decidable (Restorable e) := inferInstanceAs (Decidable (_ ∧ _))

/-- The bytes of a character of a string field in the payload. -/
def quotedRune : Option Char → Nat
  | none => 6
  | some c =>
    if ['"', '\\', '\x08', '\x0c', '\n', '\r', '\t'].contains c then 2
    else if c.toNat < 32 ∨ ['<', '>', '&', Char.ofNat 0x2028, Char.ofNat 0x2029].contains c then 6
    else c.utf8Size

def quotedSize (s : Bytes) : Nat := ((runes s).map quotedRune).foldr (· + ·) 0

def stringMember (name : String) (s : Bytes) : List Nat := [(utf8 name).length + 3 + (quotedSize s + 2)]

def optionalMember (name : String) (s : Bytes) : List Nat := if s = [] then [] else stringMember name s

def rawMember (name : String) (raw : Option Bytes) : List Nat :=
  match Json.scanRaw (raw.getD []) with
  | none => []
  | some r => [(utf8 name).length + 3 + encodedSize r]

def eventSize (e : Event) : Nat :=
  Json.seqSize (stringMember "id" e.id ++ optionalMember "service" e.service ++ stringMember "actor" e.actor ++
    stringMember "action" e.action ++ stringMember "target_type" e.targetType ++ stringMember "target_id" e.targetID ++
    stringMember "scope_type" e.scopeType ++ stringMember "scope_id" e.scopeID ++
    rawMember "before_state" e.beforeState ++ rawMember "after_state" e.afterState ++
    rawMember "metadata" e.metadata ++ optionalMember "request_id" e.requestID ++
    optionalMember "client_ip" e.clientIP ++
    [(utf8 "created_at").length + 3 + ((Time.format e.createdAt).length + 2)])

/-- The bytes of the payload of an event in the outbox of a service: an identity takes 36, and the time
is the event's or that of the clock, in microseconds. -/
def payloadSize (service : String) (e : Event) (now : Int) : Nat :=
  eventSize { e with
    id := List.replicate 36 0x30
    service := utf8 service
    createdAt := truncateMicrosecond (if e.createdAt = Time.zeroTime then now else e.createdAt) }

end Csar.Spec.Audit
