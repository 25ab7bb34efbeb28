import CsarCore.Framework.Run
import Mathlib.Logic.Function.Basic

/-!
# `httpserver/server.go`

A server is its state word and the calls of `ListenAndServe` and `Serve`, cut at every
access of that word, at `net.Listen` and at the call and the return of `http.Server`'s
`Serve` or `ServeTLS`, which calls `Accept` any number of times. `Shutdown` is its store
to the state word: what `http.Server` does for it shows only in what its `Serve` does.
-/

namespace Csar.Impl.HTTPServer

inductive State
  | idle
  | starting
  | serving
  | draining
  | stopped
  deriving DecidableEq

/-- Where a call of `ListenAndServe` or `Serve` is: not made; refused; in `net.Listen`; after that
failed; about to serve a listener; in `Serve` or `ServeTLS` of `http.Server`; about to run the deferred
store; returned. -/
inductive Call (ν : Type)
  | idle
  | refused
  | listening
  | unbound
  | bound (ln : ν)
  | serving (ln : ν)
  | leaving (ln : ν)
  | returned

structure Server (ν κ : Type) where
  state : State
  calls : κ → Call ν

/-- Whether it swapped, and the state after. -/
def compareAndSwap (state old new : State) : Bool × State := if state = old then (true, new) else (false, state)

inductive ServerAct (ν κ : Type)
  | listenAndServe (k : κ)
  | serve (k : κ) (ln : ν)
  | listen (k : κ) (ln : Option ν)
  | unbound (k : κ)
  | enter (k : κ)
  | accept (k : κ)
  | leave (k : κ)
  | stop (k : κ)
  | shutdown
  | isServing

/-- `closed`: the listener that `Serve` closes when it refuses. -/
inductive ServerEvent (ν : Type)
  | started
  | refused (closed : Option ν)
  | bound (ln : ν)
  | unbound
  | failed
  | served (ln : ν)
  | accept (ln : ν)
  | left
  | returned
  | shutdown
  | answer (b : Bool)

section Steps

variable {ν κ : Type}

def isServing (s : Server ν κ) : Bool := s.state == .serving

variable [DecidableEq κ]

def Server.goto (s : Server ν κ) (k : κ) (x : Call ν) : Server ν κ := { s with calls := Function.update s.calls k x }

def start (s : Server ν κ) (k : κ) (next : Call ν) (closed : Option ν) : Server ν κ × ServerEvent ν :=
  match compareAndSwap s.state .idle .starting with
  | (true, state) => ({ s with state }.goto k next, .started)
  | (false, _) => (s.goto k .refused, .refused closed)

def serverStep (s : Server ν κ) : ServerAct ν κ → Option (Server ν κ × ServerEvent ν)
  | .listenAndServe k =>
    match s.calls k with
    | .idle => some (start s k .listening none)
    | _ => none
  | .serve k ln =>
    match s.calls k with
    | .idle => some (start s k (.bound ln) (some ln))
    | _ => none
  | .listen k ln =>
    match s.calls k, ln with
    | .listening, some ln => some (s.goto k (.bound ln), .bound ln)
    | .listening, none => some (s.goto k .unbound, .unbound)
    | _, _ => none
  | .unbound k =>
    match s.calls k with
    | .unbound => some ({ s with state := .stopped }.goto k .returned, .failed)
    | _ => none
  | .enter k =>
    match s.calls k with
    | .bound ln => some (s.goto k (.serving ln), .served ln)
    | _ => none
  | .accept k =>
    match s.calls k with
    | .serving ln => some ({ s with state := (compareAndSwap s.state .starting .serving).2 }, .accept ln)
    | _ => none
  | .leave k =>
    match s.calls k with
    | .serving ln => some (s.goto k (.leaving ln), .left)
    | _ => none
  | .stop k =>
    match s.calls k with
    | .leaving _ => some ({ s with state := .stopped }.goto k .returned, .returned)
    | _ => none
  | .shutdown => some ({ s with state := .draining }, .shutdown)
  | .isServing => some (s, .answer (isServing s))

def serverSystem : System (Server ν κ) (ServerAct ν κ) (ServerEvent ν) where
  init := ⟨.idle, fun _ => .idle⟩
  step := serverStep

end Steps

end Csar.Impl.HTTPServer
