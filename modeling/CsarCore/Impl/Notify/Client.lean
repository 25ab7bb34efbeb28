import CsarCore.Impl.Delivery

/-!
# `notify/client.go`

The pipeline is that of the audit client. `Record` looks at `closed` in a lock section
and sends after it; `Close` sets the flag in its lock section and closes the channel
after it. These are separate steps.
-/

namespace Csar.Impl.Notify

open Delivery

def newClient (cfg : ClientConfig) : Except String Settings :=
  Delivery.newClient "notify: ClientConfig.Transport is required" cfg

/-- A client, and the notification that each call of `Record` goes to its send with. -/
structure NotifyClient (ι ε κ ρ : Type) extends Client ι ε κ where
  records : ρ → Option ι

/-- The lock section of a call of `Record` (`none`: a nil notification), and its send; the lock section
of a call of `Close`, its `close(c.notifications)`, or a later step; a step of a goroutine. -/
inductive NotifyAct (ι ε κ ρ : Type)
  | record (r : ρ) (notification : Option ι)
  | send (r : ρ)
  | close (k : κ)
  | closeQueue (k : κ)
  | closer (k : κ) (a : CloseAct ε)
  | act (a : PipeAct ε)

section Steps

variable {ι ε κ ρ : Type} [DecidableEq κ] [DecidableEq ρ] (cfg : Settings)

/-- `Record`, up to its send. -/
def record (c : NotifyClient ι ε κ ρ) (r : ρ) :
    Option ι → Option (NotifyClient ι ε κ ρ × Option (ClientEvent ι ε))
  | none => some (c, none)
  | some x =>
    match c.records r with
    | none =>
      if c.closed then some (c, some (.refused x (logFallback cfg.fallbackLog "client_closed" x)))
      else some ({ c with records := Function.update c.records r (some x) }, none)
    | some _ => none

/-- The send of `Record`. -/
def send (c : NotifyClient ι ε κ ρ) (r : ρ) : Option (NotifyClient ι ε κ ρ × Option (ClientEvent ι ε)) :=
  match c.records r with
  | none => none
  | some x =>
    let (p, o) := c.pipe.push cfg x
    some ({ c with pipe := p, records := Function.update c.records r none }, o.map .pipe)

/-- The lock section of `Close`. -/
def close (c : NotifyClient ι ε κ ρ) (k : κ) : Option (NotifyClient ι ε κ ρ × Option (ClientEvent ι ε)) :=
  match c.closers k with
  | .idle =>
    if c.closed then some ({ c with toClient := c.goto k (.closing false) }, some (.locked false))
    else some ({ c with toClient := { c.goto k .unlocked with closed := true } }, some (.locked true))
  | _ => none

/-- `close(c.notifications)`. -/
def closeQueue (c : NotifyClient ι ε κ ρ) (k : κ) : Option (NotifyClient ι ε κ ρ × Option (ClientEvent ι ε)) :=
  match c.closers k with
  | .unlocked =>
    let (p, o) := c.pipe.closeQueue
    some ({ c with toClient := { c.goto k .waiting with pipe := p } }, o.map .pipe)
  | _ => none

/-- A notification client, with any number of calls of `Record` and `Close`. -/
def notifySystem : System (NotifyClient ι ε κ ρ) (NotifyAct ι ε κ ρ) (Option (ClientEvent ι ε)) where
  init := ⟨.init cfg, fun _ => none⟩
  step c
    | .record r notification => record cfg c r notification
    | .send r => send cfg c r
    | .close k => close c k
    | .closeQueue k => closeQueue c k
    | .closer k a => (closeStep c.toClient k a).map fun x => ({ c with toClient := x.1 }, x.2)
    | .act a => (pipeStep cfg c.pipe a).map fun x => ({ c with pipe := x.1 }, x.2.map .pipe)

end Steps

end Csar.Impl.Notify
