import CsarCore.Framework.Chan
import CsarCore.Framework.Run

/-!
# Waiting for a publisher confirmation

From `amqpconfirm/confirm.go`: `Await`, with the two channels it listens on, each of
which may be nil. Returns and confirmations arrive, the channels are closed and the
context is cancelled at any time. An action of `Await` says which of the ready cases of
a `select` is taken.
-/

namespace Csar.Impl.AMQPConfirm

structure Confirmation where
  deliveryTag : UInt64
  ack : Bool
  deriving DecidableEq

/-- What `Await` reads of an `amqp091.Return`. -/
structure Return where
  replyCode : UInt16
  replyText : String
  deriving DecidableEq

/-- An error of `Await`: one it makes, or that of the context. -/
inductive AwaitError (ε : Type)
  | text (message : String)
  | ctx (err : ε)
  deriving DecidableEq

/-- In the outer `select`; past a positive confirmation, in the inner one; returned. -/
inductive AwaitPoint (ε : Type)
  | selecting
  | draining
  | finished (result : Except (AwaitError ε) Unit)

/-- `done`: what `ctx.Err` answers once it is cancelled. `listening`: `returns` has not been set to nil. -/
structure Await (ε : Type) where
  confirms : Option (Chan Confirmation)
  returns : Option (Chan Return)
  done : Option ε
  listening : Bool
  point : AwaitPoint ε

/-- The cases of the outer `select`. -/
inductive SelectCase
  | returns
  | confirms
  | done
  deriving DecidableEq

/-- `returned tag r`: the return of the message with this delivery tag arrives. -/
inductive AwaitAct (ε : Type)
  | returned (tag : UInt64) (r : Return)
  | confirmed (c : Confirmation)
  | closeReturns
  | closeConfirms
  | cancel (err : ε)
  | select (i : SelectCase)
  | drain
  deriving DecidableEq

/-- Something arrived; `returns` was set to nil; a confirmation was received; `Await` returned. -/
inductive AwaitEvent
  | arrived
  | again
  | received (c : Confirmation)
  | finished
  deriving DecidableEq

section Steps

variable {ε : Type}

/-- A receive on a channel that may be nil; `none`: it waits. -/
def receive {α : Type} : Option (Chan α) → Option (Chan.Received α)
  | none => none
  | some c => c.recv

def deliver {α : Type} (c : Option (Chan α)) (x : α) : Option (Chan α) :=
  match c with
  | none => none
  | some c =>
    match c.trySend x with
    | .sent c => some c
    | _ => none

def returnedByBroker (action : String) (r : Return) : String :=
  action ++ " was returned by broker: " ++ toString r.replyCode ++ " " ++ r.replyText

/-- The variable `returns`. -/
def Await.listened (s : Await ε) : Option (Chan Return) := if s.listening then s.returns else none

def Await.finish (s : Await ε) (result : Except (AwaitError ε) Unit) : Await ε := { s with point := .finished result }

/-- A case of the outer `select`; `none`: it is not ready. -/
def select (action : String) (s : Await ε) : SelectCase → Option (Await ε × AwaitEvent)
  | .returns =>
    match receive s.listened with
    | none => none
    | some .closed => some ({ s with listening := false }, .again)
    | some (.value r c) => some ({ s with returns := some c }.finish (.error (.text (returnedByBroker action r))), .finished)
  | .confirms =>
    match receive s.confirms with
    | none => none
    | some .closed => some (s.finish (.error (.text (action ++ " confirm channel closed"))), .finished)
    | some (.value confirmed c) =>
      if !confirmed.ack then
        some ({ s with confirms := some c }.finish (.error (.text (action ++ " was nacked by broker"))), .received confirmed)
      else some ({ s with confirms := some c, point := .draining }, .received confirmed)
  | .done =>
    match s.done with
    | none => none
    | some err => some (s.finish (.error (.ctx err)), .finished)

/-- The inner `select`, with its default where the other case is not ready. -/
def drain (action : String) (s : Await ε) : Await ε :=
  match receive s.listened with
  | some (.value r c) => { s with returns := some c }.finish (.error (.text (returnedByBroker action r)))
  | some .closed => s.finish (.ok ())
  | none => s.finish (.ok ())

def awaitStep (action : String) (s : Await ε) : AwaitAct ε → Option (Await ε × AwaitEvent)
  | .returned _ r =>
    match deliver s.returns r with
    | none => none
    | some c => some ({ s with returns := some c }, .arrived)
  | .confirmed c =>
    match deliver s.confirms c with
    | none => none
    | some c => some ({ s with confirms := some c }, .arrived)
  | .closeReturns =>
    match s.returns.bind Chan.close with
    | none => none
    | some c => some ({ s with returns := some c }, .arrived)
  | .closeConfirms =>
    match s.confirms.bind Chan.close with
    | none => none
    | some c => some ({ s with confirms := some c }, .arrived)
  | .cancel err =>
    match s.done with
    | none => some ({ s with done := some err }, .arrived)
    | some _ => none
  | .select i =>
    match s.point with
    | .selecting => select action s i
    | _ => none
  | .drain =>
    match s.point with
    | .draining => some (drain action s, .finished)
    | _ => none

/-- A call of `Await` on channels of these capacities (`none`: nil). What is in them before it arrives in
steps before its own. -/
def awaitSystem (ε : Type) (action : String) (confirms returns : Option Nat) : System (Await ε) (AwaitAct ε) AwaitEvent where
  init := ⟨confirms.map Chan.make, returns.map Chan.make, none, true, .selecting⟩
  step := awaitStep action

end Steps

end Csar.Impl.AMQPConfirm
