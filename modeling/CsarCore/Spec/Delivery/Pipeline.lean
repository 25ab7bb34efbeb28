import CsarCore.Impl.Notify.Client
import Mathlib.Algebra.BigOperators.Group.Finset.Basic
import Mathlib.Algebra.Order.Group.Multiset

/-!
# What the history of a pipeline says

What was admitted to the queue, the batches that were formed, and which of them were
handed to `Transport.Send` or dropped, oldest first; where the others are; and how much
the goroutines still have to do (`work`).
-/

namespace Csar.Spec.Delivery

open Impl.Delivery

variable {ι ε : Type}

abbrev PipeHistory (ι ε : Type) := List (PipeOp ι ε × Option (PipeEvent ι ε))

def admitted : PipeHistory ι ε → List ι
  | [] => []
  | (_, some (.admitted x)) :: tr => admitted tr ++ [x]
  | _ :: tr => admitted tr

def formed : PipeHistory ι ε → List (Batch ι)
  | [] => []
  | (_, some (.queued b)) :: tr => formed tr ++ [b]
  | (_, some (.dropped b _)) :: tr => formed tr ++ [b]
  | _ :: tr => formed tr

/-- The batches with which `Send` was called. -/
def handed : PipeHistory ι ε → List (Batch ι)
  | [] => []
  | (_, some (.handed b)) :: tr => handed tr ++ [b]
  | _ :: tr => handed tr

def dropped : PipeHistory ι ε → List (Batch ι)
  | [] => []
  | (_, some (.dropped b _)) :: tr => dropped tr ++ [b]
  | _ :: tr => dropped tr

def batchOf : DispatchState ι → List ι
  | .loop batch => batch
  | .flush batch _ => batch
  | _ => []

/-- The batch that a worker has not called `Send` with yet. -/
def takenBy : WorkerState ι → Multiset (Batch ι)
  | .taken b => {b}
  | _ => 0

def held (cfg : Settings) (p : Pipeline ι) : Multiset (Batch ι) := ∑ w ∈ Finset.range cfg.workers, takenBy (p.workers w)

def Finished (cfg : Settings) (p : Pipeline ι) : Prop :=
  p.dispatcher = .stopped ∧ ∀ w < cfg.workers, p.workers w = .stopped

/-- Nothing is on its way. -/
def Drained (cfg : Settings) (p : Pipeline ι) : Prop :=
  p.queue.buf = [] ∧ batchOf p.dispatcher = [] ∧ p.batches.buf = [] ∧
    ∀ w < cfg.workers, p.workers w = .range ∨ p.workers w = .done ∨ p.workers w = .stopped

def CanStep (ε : Type) (cfg : Settings) (p : Pipeline ι) : Prop := ∃ a : PipeAct ε, (pipeStep cfg p a).isSome

/-! ## Work -/

/-- More than the steps of the dispatcher, and those that its batch is good for. -/
def dispatchWork : DispatchState ι → Nat
  | .loop [] => 4
  | .loop batch => 5 * batch.length + 6
  | .flush batch last => 5 * batch.length + if last then 3 else 5
  | .closeBatches => 2
  | .done => 1
  | .stopped => 0

def workerWork : WorkerState ι → Nat
  | .range => 2
  | .taken _ => 4
  | .sending _ => 3
  | .done => 1
  | .stopped => 0

/-- A bound on the steps of the goroutines before anything else is pushed. -/
def work (cfg : Settings) (p : Pipeline ι) : Nat :=
  8 * p.queue.buf.length + dispatchWork p.dispatcher + 3 * p.batches.buf.length +
    ∑ w ∈ Finset.range cfg.workers, workerWork (p.workers w)

end Csar.Spec.Delivery

/-! ## The notification client -/

namespace Csar.Spec.Notify

open Impl.Delivery Impl.Notify

variable {ι ε κ ρ : Type}

abbrev NotifyHistory (ι ε κ ρ : Type) := List (NotifyAct ι ε κ ρ × Option (ClientEvent ι ε))

/-- No call of `Record` that found the client open has its send to make when the channel is closed. -/
def ClosesQuietly (_ : NotifyHistory ι ε κ ρ) (c : NotifyClient ι ε κ ρ) (a : NotifyAct ι ε κ ρ) : Prop :=
  ∀ k, a = .closeQueue k → ∀ r, c.records r = none

end Csar.Spec.Notify
