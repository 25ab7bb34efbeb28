import CsarCore.Impl.Audit.Client
import CsarCore.Spec.Delivery.Pipeline

/-!
# What an audit client does with events

`pipeHistory` is what its pipeline saw of a history, `Accounting` what becomes of the
events that `Record` admits. `FlushesWithRoom` and `ClosesOnceDone` are conditions on
steps under which `Close` keeps its word.
-/

namespace Csar.Spec.Audit

open Impl.Delivery Impl.Audit Spec.Delivery

variable {ι ε κ : Type}

abbrev ClientHistory (ι ε κ : Type) := List (ClientAct ι ε κ × Option (ClientEvent ι ε))

/-- What the pipeline sees of a step. -/
def pipeView : ClientAct ι ε κ × Option (ClientEvent ι ε) → Option (PipeOp ι ε × Option (PipeEvent ι ε))
  | (.record (some (.ok x)), some (.pipe e)) => some (.push x, some e)
  | (.close _, some (.locked true)) => some (.closeQueue, none)
  | (.close _, some (.pipe e)) => some (.closeQueue, some e)
  | (.act a, some (.pipe e)) => some (.act a, some e)
  | (.act a, none) => some (.act a, none)
  | _ => none

def pipeHistory (tr : ClientHistory ι ε κ) : PipeHistory ι ε := tr.filterMap pipeView

/-- What becomes of events, in `s` after the history `tr`. -/
structure Accounting [DecidableEq κ] (cfg : Settings) (tr : ClientHistory ι ε κ) (s : Client ι ε κ) : Prop where
  /-- Nothing panics; a send on a closed channel would. -/
  no_panic : ∀ e ∈ tr, e.2 ≠ some (.pipe .panicked)
  /-- The admitted events are those of the batches, in order, then those of the dispatcher's batch and of
  the queue. -/
  order : admitted (pipeHistory tr) =
    (formed (pipeHistory tr)).flatMap Batch.events ++ batchOf s.pipe.dispatcher ++ s.pipe.queue.buf
  sizes : ∀ b ∈ formed (pipeHistory tr), 1 ≤ b.events.length ∧ b.events.length ≤ 100
  /-- No batch is formed twice, -/
  nodup : (formed (pipeHistory tr)).Nodup
  /-- and each is given to `Send` once, or dropped, or on its way to that. -/
  parts : (formed (pipeHistory tr) : Multiset (Batch ι)) =
    (handed (pipeHistory tr) : Multiset (Batch ι)) + (dropped (pipeHistory tr) : Multiset (Batch ι)) +
      (s.pipe.batches.buf : Multiset (Batch ι)) + held cfg s.pipe
  /-- A batch is dropped only when the channel is full, and is logged if it is to be. -/
  drop : ∀ {post pre : ClientHistory ι ε κ} {a : ClientAct ι ε κ} {b : Batch ι} {log : List (LogLine ι ε)},
    tr = post ++ (a, some (.pipe (.dropped b log))) :: pre →
    ∃ s₀, (clientSystem cfg).Run pre s₀ ∧ ¬ s₀.pipe.batches.Free ∧
      log = if cfg.fallbackLog then b.events.map (.notDelivered "batch_channel_full") else []
  /-- The goroutines can make only so many steps on their own, -/
  bounded : ∀ acts : List (PipeAct ε), ((clientSystem cfg).execFrom tr s (acts.map .act)).isSome →
    acts.length ≤ work cfg s.pipe
  /-- and can make one as long as there is an event on its way. -/
  progress : ¬ Drained cfg s.pipe → CanStep ε cfg s.pipe

/-- A batch is flushed only while the channel of batches has room. -/
def FlushesWithRoom (_ : ClientHistory ι ε κ) (c : Client ι ε κ) (a : ClientAct ι ε κ) : Prop :=
  a = .act .flush → batchOf c.pipe.dispatcher = [] ∨ c.pipe.batches.Free

/-- `Close` is called on a closed client only when the wait group is at 0. -/
def ClosesOnceDone (_ : ClientHistory ι ε κ) (c : Client ι ε κ) (a : ClientAct ι ε κ) : Prop :=
  ∀ k, a = .close k → c.closed = true → c.pipe.wg = 0

end Csar.Spec.Audit
