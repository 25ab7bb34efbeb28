import CsarCore.Framework.Chan
import CsarCore.Framework.Int64
import CsarCore.Framework.Run
import Mathlib.Logic.Function.Basic

/-!
# The batching pipeline of the clients (`audit/client.go`, `notify/client.go`)

`dispatchLoop`, `workerLoop` and the configuration are the same in both clients: a
queue, a dispatcher that cuts it into batches, a channel of batches, and workers that
hand them to the transport. A goroutine is cut at its channel operations, at
`Transport.Send` and at `wg.Done`. The debounce timer may fire whenever the dispatcher
looks at it; how long `Send` takes and what it returns is left open. `pipeSystem` lets
anyone push to the queue and close it. The calls of `Close` are cut at the lock section,
at `wg.Wait` and at `Transport.Close`. From `wg.Wait` on those of both clients are the
same (`closeStep`); their lock sections are with each client.
-/

namespace Csar.Impl.Delivery

section

def defaultClientBufferSize : Int := 1000

/-- 100 ms, in nanoseconds. -/
def defaultClientFlushTimeout : Int := 100000000

def defaultClientWorkers : Int := 2

def defaultClientMaxBatch : Nat := 100

def batchOutChanMultiplier : Int := 4

/-- `ClientConfig`; whether there is a transport. -/
structure ClientConfig where
  transport : Bool
  bufferSize : Int
  flushTimeout : Int
  workers : Int
  fallbackToLog : Option Bool

structure Settings where
  bufferSize : Nat
  flushTimeout : Int
  workers : Nat
  outCap : Nat
  fallbackLog : Bool
  pos : 0 < bufferSize ∧ 0 < workers ∧ 0 < outCap

def positiveOr (n default : Int) : Int := if n ≤ 0 then default else n

theorem positiveOr_pos (n : Int) {default : Int} (h : 0 < default) : 0 < positiveOr n default := by
  unfold positiveOr
  split <;> omega

def outCap (workers : Int) : Int :=
  let n := wrap64 (workers * batchOutChanMultiplier)
  if n < 4 then 4 else n

theorem outCap_pos (workers : Int) : 0 < outCap workers := by
  unfold outCap
  dsimp only
  split <;> omega

/-- `NewClient`, with the text of its error. -/
def newClient (err : String) (cfg : ClientConfig) : Except String Settings :=
  if cfg.transport then
    let workers := positiveOr cfg.workers defaultClientWorkers
    .ok ⟨(positiveOr cfg.bufferSize defaultClientBufferSize).toNat,
      positiveOr cfg.flushTimeout defaultClientFlushTimeout,
      workers.toNat,
      (outCap workers).toNat,
      cfg.fallbackToLog.getD true,
      Int.pos_iff_toNat_pos.mp (positiveOr_pos _ (by decide)), Int.pos_iff_toNat_pos.mp (positiveOr_pos _ (by decide)),
      Int.pos_iff_toNat_pos.mp (outCap_pos _)⟩
  else .error err

/-! ## Goroutines -/

/-- An event that was refused, one that was not delivered and why, or one for which `Send` failed. -/
inductive LogLine (ι ε : Type)
  | rejected (err : ε)
  | notDelivered (reason : String) (x : ι)
  | transportError (err : ε) (x : ι)

def logFallback {ι ε : Type} (fallbackLog : Bool) (reason : String) (x : ι) : List (LogLine ι ε) :=
  if fallbackLog then [.notDelivered reason x] else []

def logFallbackErr {ι ε : Type} (fallbackLog : Bool) (x : ι) (err : ε) : List (LogLine ι ε) :=
  if fallbackLog then [.transportError err x] else []

/-- A slice of events, named by the number of slices before it. -/
structure Batch (ι : Type) where
  id : Nat
  events : List ι
  deriving DecidableEq

/-- Where `dispatchLoop` is: at the head of its loop with a batch; about to flush one, and to return
after that or not; about to run its deferred `close(c.batches)` and `wg.Done`; gone. -/
inductive DispatchState (ι : Type)
  | loop (batch : List ι)
  | flush (batch : List ι) (last : Bool)
  | closeBatches
  | done
  | stopped

/-- At the head of its loop; with a batch; in `Send`; about to run its deferred `wg.Done`; gone. -/
inductive WorkerState (ι : Type)
  | range
  | taken (b : Batch ι)
  | sending (b : Batch ι)
  | done
  | stopped

/-- The channels, goroutines and wait group of a client, and the number of batches made. -/
structure Pipeline (ι : Type) where
  queue : Chan ι
  batches : Chan (Batch ι)
  dispatcher : DispatchState ι
  workers : Nat → WorkerState ι
  wg : Int
  made : Nat

inductive PipeAct (ε : Type)
  | receive
  | timer
  | flush
  | closeBatches
  | dispatcherDone
  | take (w : Nat)
  | send (w : Nat)
  | sent (w : Nat) (err : Option ε)
  | workerDone (w : Nat)

/-- A value goes into the queue or does not; a batch goes to the channel or is dropped; `Send` is called
with a batch, and returns; a panic. -/
inductive PipeEvent (ι ε : Type)
  | admitted (x : ι)
  | full (x : ι) (log : List (LogLine ι ε))
  | queued (b : Batch ι)
  | dropped (b : Batch ι) (log : List (LogLine ι ε))
  | handed (b : Batch ι)
  | answered (b : Batch ι) (log : List (LogLine ι ε))
  | panicked

section Steps

variable {ι ε : Type}

/-- The dispatcher has received `x`. -/
def afterReceive (batch : List ι) (x : ι) : DispatchState ι :=
  match batch with
  | [] => .loop [x]
  | _ => if (batch ++ [x]).length ≥ defaultClientMaxBatch then .flush (batch ++ [x]) false else .loop (batch ++ [x])

def afterFlush (last : Bool) : DispatchState ι := if last then .closeBatches else .loop []

/-- `wg.Done()`; `none`: it panics. -/
def wgDone (wg : Int) : Option Int := if wg - 1 < 0 then none else some (wg - 1)

def Pipeline.goto (p : Pipeline ι) (w : Nat) (x : WorkerState ι) : Pipeline ι :=
  { p with workers := Function.update p.workers w x }

variable (cfg : Settings)

def Pipeline.flush (p : Pipeline ι) (batch : List ι) (last : Bool) : Pipeline ι × Option (PipeEvent ι ε) :=
  match batch with
  | [] => ({ p with dispatcher := afterFlush last }, none)
  | _ =>
    let out : Batch ι := ⟨p.made, batch⟩
    match p.batches.trySend out with
    | .sent c => ({ p with batches := c, dispatcher := afterFlush last, made := p.made + 1 }, some (.queued out))
    | .full =>
      ({ p with dispatcher := afterFlush last, made := p.made + 1 }, some (.dropped out
        (if cfg.fallbackLog then out.events.flatMap (logFallback cfg.fallbackLog "batch_channel_full") else [])))
    | .panic => (p, some .panicked)

/-- The log after a `Send` of `workerLoop`. -/
def sendLog (b : Batch ι) : Option ε → List (LogLine ι ε)
  | none => []
  | some err => if cfg.fallbackLog then b.events.flatMap (logFallbackErr cfg.fallbackLog · err) else []

def pipeStep (p : Pipeline ι) : PipeAct ε → Option (Pipeline ι × Option (PipeEvent ι ε))
  | .receive =>
    match p.dispatcher, p.queue.recv with
    | .loop batch, some (.value x q) => some ({ p with queue := q, dispatcher := afterReceive batch x }, none)
    | .loop batch, some .closed => some ({ p with dispatcher := .flush batch true }, none)
    | _, _ => none
  | .timer =>
    match p.dispatcher with
    | .loop (x :: batch) => some ({ p with dispatcher := .flush (x :: batch) false }, none)
    | _ => none
  | .flush =>
    match p.dispatcher with
    | .flush batch last => some (p.flush cfg batch last)
    | _ => none
  | .closeBatches =>
    match p.dispatcher, p.batches.close with
    | .closeBatches, some c => some ({ p with batches := c, dispatcher := .done }, none)
    | .closeBatches, none => some (p, some .panicked)
    | _, _ => none
  | .dispatcherDone =>
    match p.dispatcher, wgDone p.wg with
    | .done, some n => some ({ p with wg := n, dispatcher := .stopped }, none)
    | .done, none => some (p, some .panicked)
    | _, _ => none
  | .take w =>
    if w < cfg.workers then
      match p.workers w, p.batches.recv with
      | .range, some (.value b c) => some ({ p with batches := c }.goto w (.taken b), none)
      | .range, some .closed => some (p.goto w .done, none)
      | _, _ => none
    else none
  | .send w =>
    match p.workers w with
    | .taken b => some (p.goto w (.sending b), some (.handed b))
    | _ => none
  | .sent w err =>
    match p.workers w with
    | .sending b => some (p.goto w .range, some (.answered b (sendLog cfg b err)))
    | _ => none
  | .workerDone w =>
    match p.workers w, wgDone p.wg with
    | .done, some n => some ({ p with wg := n }.goto w .stopped, none)
    | .done, none => some (p, some .panicked)
    | _, _ => none

/-- The state in which `NewClient` leaves a client. -/
def Pipeline.init : Pipeline ι :=
  { queue := .make cfg.bufferSize
    batches := .make cfg.outCap
    dispatcher := .loop []
    workers := fun _ => .range
    wg := 1 + cfg.workers
    made := 0 }

inductive PipeOp (ι ε : Type)
  | push (x : ι)
  | closeQueue
  | act (a : PipeAct ε)

/-- The `select` of `Record`, which does not wait. -/
def Pipeline.push (p : Pipeline ι) (x : ι) : Pipeline ι × Option (PipeEvent ι ε) :=
  match p.queue.trySend x with
  | .sent q => ({ p with queue := q }, some (.admitted x))
  | .full => (p, some (.full x (logFallback cfg.fallbackLog "buffer_full" x)))
  | .panic => (p, some .panicked)

def Pipeline.closeQueue (p : Pipeline ι) : Pipeline ι × Option (PipeEvent ι ε) :=
  match p.queue.close with
  | some q => ({ p with queue := q }, none)
  | none => (p, some .panicked)

def pipeSystem : System (Pipeline ι) (PipeOp ι ε) (Option (PipeEvent ι ε)) where
  init := .init cfg
  step p
    | .push x => some (p.push cfg x)
    | .closeQueue => some p.closeQueue
    | .act a => pipeStep cfg p a

end Steps

end

/-! ## `Close` -/

/-- Where a call of `Close` is: not made; past its lock section, with the queue to close (`notify` only);
in `wg.Wait`; about to call `Transport.Close`, as the first call or a later one; in that; returned. -/
inductive CloseState (ε : Type)
  | idle
  | unlocked
  | waiting
  | closing (first : Bool)
  | inTransport (first : Bool)
  | returned (first : Bool) (err : Option ε)
  deriving DecidableEq

structure Client (ι ε κ : Type) where
  pipe : Pipeline ι
  closed : Bool
  closers : κ → CloseState ε

/-- `PrepareEvent` refused an event; the client was closed for one; a step of the pipeline; a lock
section of `Close`, the first or a later one; the call of `Transport.Close`. -/
inductive ClientEvent (ι ε : Type)
  | rejected (log : List (LogLine ι ε))
  | refused (x : ι) (log : List (LogLine ι ε))
  | pipe (e : PipeEvent ι ε)
  | locked (first : Bool)
  | transportClose

/-- A step of a call of `Close` after the queue is closed. -/
inductive CloseAct (ε : Type)
  | waited
  | transport
  | returned (err : Option ε)

section Steps

variable {ι ε κ : Type} [DecidableEq κ]

def Client.goto (c : Client ι ε κ) (k : κ) (x : CloseState ε) : Client ι ε κ :=
  { c with closers := Function.update c.closers k x }

def closeStep (c : Client ι ε κ) (k : κ) : CloseAct ε → Option (Client ι ε κ × Option (ClientEvent ι ε))
  | .waited =>
    match c.closers k with
    | .waiting => if c.pipe.wg = 0 then some (c.goto k (.closing true), none) else none
    | _ => none
  | .transport =>
    match c.closers k with
    | .closing first => some (c.goto k (.inTransport first), some .transportClose)
    | _ => none
  | .returned err =>
    match c.closers k with
    | .inTransport first => some (c.goto k (.returned first err), none)
    | _ => none

/-- The client that `NewClient` makes. -/
def Client.init (cfg : Settings) : Client ι ε κ := ⟨.init cfg, false, fun _ => .idle⟩

end Steps

end Csar.Impl.Delivery
