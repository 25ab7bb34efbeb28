import CsarCore.Impl.AMQPConfirm.Await

/-!
# A confirmed publish

`ReturnFirst` is what AMQP guarantees: the return of a message does not arrive
after its confirmation. `Confirmed` is what a `nil` of `Await` stands for, and
`Settled` says that a call waits for nothing any more.
-/

namespace Csar.Spec.AMQPConfirm

open Impl.AMQPConfirm

variable {ε : Type}

abbrev AwaitHistory (ε : Type) := List (AwaitAct ε × AwaitEvent)

/-- The return of a message arrives before its confirmation. -/
def ReturnFirst (tr : AwaitHistory ε) (_ : Await ε) (a : AwaitAct ε) : Prop :=
  ∀ tag r, a = .returned tag r → ∀ c o, (AwaitAct.confirmed c, o) ∈ tr → c.deliveryTag ≠ tag

def NoReturn (tr : AwaitHistory ε) : Prop := ∀ tag r o, (AwaitAct.returned tag r, o) ∉ tr

/-- A positive confirmation was received, its message was not returned, and up to the end of `Await` none
was. -/
def Confirmed (tr : AwaitHistory ε) : Prop :=
  ∃ c : Confirmation, c.ack = true ∧ (∃ a, (a, AwaitEvent.received c) ∈ tr) ∧
    (∀ r o, (AwaitAct.returned c.deliveryTag r, o) ∉ tr) ∧
    ∃ post pre, tr = post ++ (.drain, .finished) :: pre ∧ NoReturn pre

/-- `Await` has returned, or can return with its next step. -/
def Settled (action : String) (s : Await ε) : Prop :=
  (∃ result, s.point = .finished result) ∨
    ∃ s' result, awaitStep action s .drain = some (s', .finished) ∧ s'.point = .finished result

end Csar.Spec.AMQPConfirm
