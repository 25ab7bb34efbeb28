import CsarCore.Framework.Hex
import CsarCore.Framework.Int64
import CsarCore.Framework.Run
import CsarCore.Framework.Table
import Mathlib.Logic.Function.Basic

/-!
# The audit outbox (`audit/outbox.go`)

The table `csar_audit_outbox`, and the statements of `PGOutbox` on it. A statement is
one atomic step at one reading of `clock_timestamp()`. What its caller gets is a
separate choice (`Call`): the answer, or an error although the statement ran, or an
error because it did not run.

`deliverOne` is `DeliverOne` run by one worker alone. `system` cuts it at the statements
and at `Transport.Send`, for any number of workers of any services, which may stop
between any two steps (`Act.crash`).
-/

namespace Csar.Impl.Audit

abbrev Uuid := BitVec 128

/-- `interval '1 second'`: a `timestamptz` is in microseconds. -/
def intervalSecond : Int := 1000000

/-- `int64(outboxLease/time.Second)`. -/
def outboxLease : Int := 60

structure Lease where
  token : Uuid
  expires : Int
  deriving DecidableEq

/-- A row of `csar_audit_outbox`. Its check that `lease_token` and `lease_until` are null together makes
them one optional value. -/
structure Row where
  id : Uuid
  service : String
  payload : Bytes
  enqueuedAt : Int
  nextAttempt : Int
  attempts : Int
  lease : Option Lease
  deriving DecidableEq

/-- The table `csar_audit_outbox`. -/
abbrev Outbox := Table Row Row.id

/-- `lease_until IS NULL OR lease_until<=clock_timestamp()`. -/
def Row.unleased (r : Row) (now : Int) : Bool :=
  match r.lease with
  | none => true
  | some l => decide (l.expires ≤ now)

/-- `lease_token=$2 AND lease_until>clock_timestamp()`. -/
def Row.leasedTo (r : Row) (token : Uuid) (now : Int) : Bool :=
  match r.lease with
  | none => false
  | some l => l.token == token && decide (now < l.expires)

/-- The row after `claim` takes it. -/
def Row.taken (r : Row) (token : Uuid) (now : Int) : Row :=
  { r with
    lease := some ⟨token, now + outboxLease * intervalSecond⟩
    attempts := r.attempts + 1 }

@[simp] theorem Row.taken_id (r : Row) (token : Uuid) (now : Int) : (r.taken token now).id = r.id := rfl

/-- `ORDER BY next_attempt,enqueued_at,id`: `r` comes before `q`. -/
def Row.before (r q : Row) : Bool :=
  r.nextAttempt < q.nextAttempt || r.nextAttempt == q.nextAttempt &&
    (r.enqueuedAt < q.enqueuedAt || r.enqueuedAt == q.enqueuedAt && r.id.toNat < q.id.toNat)

/-- The row of `EnqueueTx`, with the defaults of the other columns. -/
def newRow (id : Uuid) (service : String) (payload : Bytes) (now : Int) : Row :=
  ⟨id, service, payload, now, now, 0, none⟩

@[simp] theorem newRow_id (id : Uuid) (service : String) (payload : Bytes) (now : Int) :
    (newRow id service payload now).id = id := rfl

/-- The `INSERT … ON CONFLICT(id) DO UPDATE SET id=EXCLUDED.id` of `EnqueueTx`. On a conflict it changes
nothing, and affects the row only if that has the same service and payload. -/
def insertOutbox (t : Outbox) (id : Uuid) (service : String) (payload : Bytes) (now : Int) :
    Outbox × Nat :=
  if h : ∀ q ∈ t.rows, q.id ≠ id then (t.insert (newRow id service payload now) (by simpa using h), 1)
  else (t, t.count fun q => q.id == id && q.service == service && q.payload == payload)

structure OutboxClaim where
  id : Uuid
  token : Uuid
  payload : Bytes
  attempts : Int
  deriving DecidableEq

/-- The database call failed, `ErrOutboxLeaseLost`, or the delivery failed and the row stays. -/
inductive OutboxErr
  | db
  | leaseLost
  | deliveryFailed
  deriving DecidableEq

/-- A database call is answered; it runs, but the caller gets an error (its context ended, the connection
broke); or it does not run. -/
inductive Call
  | answered
  | lost
  | failed
  deriving DecidableEq

/-- The `SELECT … FOR UPDATE SKIP LOCKED LIMIT 1` of `claim`. `locked` are
the rows that other transactions hold. -/
def candidate (t : Outbox) (service : String) (now : Int) (locked : List Uuid) : Option Row :=
  Table.firstBy Row.before (t.rows.filter fun r => r.service == service && decide (r.nextAttempt ≤ now) &&
    r.unleased now && !locked.contains r.id)

/-- The statement of `claim`. It fails where `attempts+1` is no `bigint`. -/
def claimStmt (t : Outbox) (service : String) (token : Uuid) (now : Int) (locked : List Uuid) :
    Option (Outbox × Option OutboxClaim) :=
  match candidate t service now locked with
  | none => some (t, none)
  | some r =>
    if r.attempts + 1 ≤ maxInt64 then
      some (t.updateWhere (fun q => q.id == r.id) (fun q => q.taken token now) fun q => q.taken_id token now,
        some ⟨r.id, token, r.payload, r.attempts + 1⟩)
    else none

/-- `PGOutbox.claim`, with the token that `uuid.NewString` gave. -/
def claim (t : Outbox) (service : String) (token : Uuid) (now : Int) (locked : List Uuid)
    (call : Call) : Outbox × Except OutboxErr (Option OutboxClaim) :=
  match claimStmt t service token now locked, call with
  | none, _ => (t, .error .db)
  | some _, .failed => (t, .error .db)
  | some (t', _), .lost => (t', .error .db)
  | some (t', c), .answered => (t', .ok c)

def retrySeconds (attempts : Int) : Int :=
  if attempts > 5 then 30
  else if attempts < 1 then 1
  else Int.pow 2 (attempts - 1).toNat

/-- The row after `finish` gives it back, `attempts` being the claim's. -/
def Row.givenBack (r : Row) (attempts : Int) (now : Int) : Row :=
  { r with
    nextAttempt := now + retrySeconds attempts * intervalSecond
    lease := none }

@[simp] theorem Row.givenBack_id (r : Row) (attempts : Int) (now : Int) :
    (r.givenBack attempts now).id = r.id := rfl

/-- The `WHERE` of `finish`. -/
def OutboxClaim.holds (c : OutboxClaim) (now : Int) (r : Row) : Bool :=
  r.id == c.id && r.leasedTo c.token now

/-- The statement of `finish`, with the rows affected. -/
def finishStmt (t : Outbox) (c : OutboxClaim) (delivered : Bool) (now : Int) : Outbox × Nat :=
  if delivered then (t.deleteWhere (c.holds now), t.count (c.holds now))
  else (t.updateWhere (c.holds now) (fun r => r.givenBack c.attempts now) fun r =>
      r.givenBack_id c.attempts now,
    t.count (c.holds now))

def finish (t : Outbox) (c : OutboxClaim) (delivered : Bool) (now : Int) (call : Call) :
    Outbox × Except OutboxErr Unit :=
  match call with
  | .failed => (t, .error .db)
  | .lost => ((finishStmt t c delivered now).1, .error .db)
  | .answered =>
    ((finishStmt t c delivered now).1,
      if (finishStmt t c delivered now).2 ≠ 1 then .error .leaseLost else .ok ())

section Deliver

variable {ε : Type} (unmarshal : Bytes → Option ε)

/-- `sendErr == nil` in `DeliverOne`: `Transport.Send` (`ok`: it returns nil) is called only if the
payload is decoded. -/
def sendPayload (c : OutboxClaim) (ok : Bool) : Bool := (unmarshal c.payload).isSome && ok

/-- `PGOutbox.DeliverOne` alone: the table after it, whether it worked, and its error. -/
def deliverOne (t : Outbox) (service : String) (token : Uuid) (now₁ : Int) (locked : List Uuid)
    (call₁ : Call) (ok : Bool) (now₂ : Int) (call₂ : Call) : Outbox × Bool × Except OutboxErr Unit :=
  match claim t service token now₁ locked call₁ with
  | (t, .error e) => (t, false, .error e)
  | (t, .ok none) => (t, false, .ok ())
  | (t, .ok (some c)) =>
    match finish t c (sendPayload unmarshal c ok) now₂ call₂ with
    | (t, .error e) => (t, true, .error e)
    | (t, .ok _) => (t, true, if sendPayload unmarshal c ok then .ok () else .error .deliveryFailed)

/-- The choices of one `DeliverOne` of `Run`. -/
structure Round where
  token : Uuid
  now₁ : Int
  locked : List Uuid := []
  call₁ : Call := .answered
  ok : Bool
  now₂ : Int
  call₂ : Call := .answered

/-- `PGOutbox.Run` until its context ends: the table, and what each `DeliverOne` returned. The second of
waiting after one that did not work, or failed, shows in the times only. -/
def run (service : String) : Outbox → List Round → Outbox × List (Bool × Except OutboxErr Unit)
  | t, [] => (t, [])
  | t, e :: es =>
    let r := deliverOne unmarshal t service e.token e.now₁ e.locked e.call₁ e.ok e.now₂ e.call₂
    ((run service r.1 es).1, r.2 :: (run service r.1 es).2)

end Deliver

/-- Before `claim`; holding a claim, before `Send`; after `Send`, with whether it returned nil. -/
inductive Worker
  | idle
  | claimed (c : OutboxClaim)
  | sent (c : OutboxClaim) (delivered : Bool)
  deriving DecidableEq

def Worker.claim? : Worker → Option OutboxClaim
  | .idle => none
  | .claimed c => some c
  | .sent c _ => some c

/-- The commit of an `EnqueueTx`, a step of the worker `w`, or its end without one. -/
inductive Act (ω : Type)
  | enqueue (id : Uuid) (service : String) (payload : Bytes) (now : Int)
  | claim (w : ω) (token : Uuid) (now : Int) (locked : List Uuid) (call : Call)
  | send (w : ω) (ok : Bool)
  | finish (w : ω) (now : Int) (call : Call)
  | crash (w : ω)

def Act.worker {ω : Type} : Act ω → Option ω
  | .enqueue .. => none
  | .claim w .. => some w
  | .send w _ => some w
  | .finish w .. => some w
  | .crash w => some w

/-- `sent`: the claim's token, the event given to `Transport.Send`, and whether it returned nil. -/
inductive Obs (ε : Type)
  | enqueued (affected : Nat)
  | claimed (r : Except OutboxErr (Option OutboxClaim))
  | sent (token : Uuid) (event : ε) (ok : Bool)
  | undecodable
  | finished (r : Except OutboxErr Unit)
  | crashed

structure OutboxState (ω : Type) where
  table : Outbox
  workers : ω → Worker
  tokens : List Uuid

/-- The worker after `claim`. -/
def afterClaim : Except OutboxErr (Option OutboxClaim) → Worker
  | .ok (some c) => .claimed c
  | _ => .idle

section System

variable {ω ε : Type} [DecidableEq ω] (service : ω → String) (unmarshal : Bytes → Option ε)

/-- One step of the outbox and its workers. A `claim` uses a new token. -/
def step (s : OutboxState ω) : Act ω → Option (OutboxState ω × Obs ε)
  | .enqueue id svc payload now =>
    let r := insertOutbox s.table id svc payload now
    some ({ s with table := r.1 }, .enqueued r.2)
  | .claim w token now locked call =>
    if s.workers w = .idle ∧ token ∉ s.tokens then
      let r := Audit.claim s.table (service w) token now locked call
      some (⟨r.1, Function.update s.workers w (afterClaim r.2), token :: s.tokens⟩, .claimed r.2)
    else none
  | .send w ok =>
    match s.workers w with
    | .claimed c =>
      some ({ s with workers := Function.update s.workers w (.sent c (sendPayload unmarshal c ok)) },
        match unmarshal c.payload with
        | some e => .sent c.token e ok
        | none => .undecodable)
    | _ => none
  | .finish w now call =>
    match s.workers w with
    | .sent c delivered =>
      let r := Audit.finish s.table c delivered now call
      some ({ s with table := r.1, workers := Function.update s.workers w .idle }, .finished r.2)
    | _ => none
  | .crash w => some ({ s with workers := Function.update s.workers w .idle }, .crashed)

/-- Any number of workers `ω` on one table, which is empty at first. -/
def system : System (OutboxState ω) (Act ω) (Obs ε) := ⟨⟨.empty, fun _ => .idle, []⟩, step service unmarshal⟩

end System

end Csar.Impl.Audit
