import CsarCore.Impl.Delivery

/-!
# `audit/client.go`

`Record` holds the mutex from its look at `closed` to the end of its send, and `Close`
from its own to the end of `close(c.events)`: each is one step. What `PrepareEvent`
makes of an event is left open, as is what the transport answers.
-/

namespace Csar.Impl.Audit

open Delivery

def newClient (cfg : ClientConfig) : Except String Settings :=
  Delivery.newClient "audit: ClientConfig.Transport is required" cfg

/-- A call of `Record`, with what `PrepareEvent` makes of its event (`none`: nil); the lock section of a
call of `Close`, or a later step; a step of a goroutine. -/
inductive ClientAct (ι ε κ : Type)
  | record (prepared : Option (Except ε ι))
  | close (k : κ)
  | closer (k : κ) (a : CloseAct ε)
  | act (a : PipeAct ε)

section Steps

variable {ι ε κ : Type} (cfg : Settings)

def record (c : Client ι ε κ) : Option (Except ε ι) → Client ι ε κ × Option (ClientEvent ι ε)
  | none => (c, none)
  | some (.error err) => (c, some (.rejected [.rejected err]))
  | some (.ok x) =>
    if c.closed then (c, some (.refused x (logFallback cfg.fallbackLog "client_closed" x)))
    else
      let (p, o) := c.pipe.push cfg x
      ({ c with pipe := p }, o.map .pipe)

variable [DecidableEq κ]

def close (c : Client ι ε κ) (k : κ) : Option (Client ι ε κ × Option (ClientEvent ι ε)) :=
  match c.closers k with
  | .idle =>
    if c.closed then some (c.goto k (.closing false), some (.locked false))
    else
      match c.pipe.closeQueue with
      | (p, none) => some ({ c with pipe := p, closed := true }.goto k .waiting, some (.locked true))
      | (p, some e) => some ({ c with pipe := p, closed := true }, some (.pipe e))
  | _ => none

/-- An audit client, with any number of calls of `Record` and `Close`. -/
def clientSystem : System (Client ι ε κ) (ClientAct ι ε κ) (Option (ClientEvent ι ε)) where
  init := .init cfg
  step c
    | .record prepared => some (record cfg c prepared)
    | .close k => close c k
    | .closer k a => closeStep c k a
    | .act a => (pipeStep cfg c.pipe a).map fun x => ({ c with pipe := x.1 }, x.2.map .pipe)

end Steps

end Csar.Impl.Audit
