import CsarCore.Framework.Strings
import CsarCore.Impl.TokenMint.Minter

/-!
# Retries of requests to the router (`stsclient/retry_transport.go`)

`RetryBudget.take` and `roundTrip`. The budget is shared, so what a request finds in it
is a parameter of each attempt (`Turn`), with what the base transport returns, the clock
and the context. The body is a stream: the first attempt that is given it reads and
closes it, and a later one finds no more in it.
-/

namespace Csar.Impl.StsClient

open TokenMint (second timeSub)

def routerRetryMaxRetries : Nat := 2
def routerRetryBaseDelay : Int := second / 10
def routerRetryMaxDelay : Int := second
def routerRetryBudgetCap : Int := 20
def routerRetryRefill : Int := second

/-! ## The budget -/

structure RetryBudget where
  tokens : Int
  last : Int
  deriving DecidableEq

def newBudget (now : Int) : RetryBudget := ⟨routerRetryBudgetCap, now⟩

namespace RetryBudget

/-- The refill in `take`, in whole seconds. -/
def refill (b : RetryBudget) (now : Int) : RetryBudget :=
  let elapsed := timeSub now b.last
  if elapsed ≥ routerRetryRefill then
    ⟨min routerRetryBudgetCap (b.tokens + elapsed.tdiv routerRetryRefill), now⟩
  else b

/-- `take`, at `now`. -/
def take (b : RetryBudget) (now : Int) : Bool × RetryBudget :=
  let b := b.refill now
  if b.tokens ≤ 0 then (false, b) else (true, { b with tokens := b.tokens - 1 })

end RetryBudget

/-! ## Requests -/

abbrev Header := List (Bytes × List Bytes)

/-- `Header.Get`, of a canonical key. -/
def Header.get (h : Header) (key : Bytes) : Bytes := ((h.lookup key).bind List.head?).getD []

/-- `body`: what the stream holds; `getBody`: whether there is a function that gives a new one. -/
structure Request where
  method : Bytes
  url : Bytes
  header : Header
  body : Option Bytes
  getBody : Bool

structure Sent where
  method : Bytes
  url : Bytes
  header : Header
  body : Bytes
  deriving DecidableEq

structure Response where
  status : Int
  body : Option Bytes
  deriving DecidableEq

/-- An error of the transport: whether it is a `net.Error` with `Timeout`, and its text. -/
structure NetError where
  timeout : Bool
  msg : Bytes
  deriving DecidableEq

/-- What an attempt finds: the error of `GetBody`, what the base transport returns, the budget and the
clock, what `rand` draws, and how the context has ended while it sleeps. -/
structure Turn where
  getBody : Option NetError
  resp : Option Response
  err : Option NetError
  budget : RetryBudget
  now : Int
  draw : Nat
  done : Option NetError

/-- The methods that are always retried, and those that are with an idempotency key. -/
def safeMethods : List Bytes := [utf8 "GET", utf8 "HEAD", utf8 "OPTIONS", utf8 "TRACE"]
def keyedMethods : List Bytes := [utf8 "POST", utf8 "PUT", utf8 "PATCH", utf8 "DELETE"]

def isRetryableRequest (req : Request) : Bool :=
  if safeMethods.contains req.method then true
  else if keyedMethods.contains req.method then
    req.header.get (utf8 "Idempotency-Key") ≠ [] ∧ (req.body.isNone ∨ req.getBody)
  else false

/-- The texts that `isRetryableNetworkError` looks for. -/
def retryableTexts : List Bytes :=
  [utf8 "connection reset", utf8 "connection refused", utf8 "broken pipe", utf8 "unexpected eof"]

def isRetryableNetworkError (err : NetError) : Bool :=
  err.timeout || retryableTexts.any fun text => Strings.contains (Strings.toLower err.msg) text

def shouldRetryResponse (resp : Option Response) (err : Option NetError) : Bool :=
  match err, resp with
  | some err, _ => isRetryableNetworkError err
  | none, none => false
  | none, some resp => resp.status = 502 ∨ resp.status = 503 ∨ resp.status = 504

/-- What the base transport is given, where `stream` is left of the body. -/
def Request.send (req : Request) (stream : Option Bytes) : Sent := ⟨req.method, req.url, req.header, stream.getD []⟩

/-- What is left of the body after it. -/
def cloneRequestForAttempt (req : Request) (attempt : Nat) (stream : Option Bytes) (turn : Turn) :
    Except NetError (Option Bytes) :=
  if attempt = 0 then .ok stream
  else if req.getBody then
    match turn.getBody with
    | some err => .error err
    | none => .ok req.body
  else .ok stream

def fullJitterDelay (attempt : Nat) (draw : Nat) : Int :=
  draw % (min (routerRetryBaseDelay * 2 ^ attempt) routerRetryMaxDelay + 1)

/-! ## Attempts -/

/-- What it sent, the response, whether its body was closed, and whether it was returned. -/
structure Try where
  sent : Sent
  resp : Option Response
  closed : Bool
  returned : Bool
  deriving DecidableEq

/-- `RoundTrip`: its attempts, the delays that it logged, and what it returned. -/
structure Trip where
  tries : List Try
  delays : List Int
  resp : Option Response
  err : Option NetError
  deriving DecidableEq

def Trip.last (sent : Sent) (turn : Turn) : Trip := ⟨[⟨sent, turn.resp, false, true⟩], [], turn.resp, turn.err⟩

/-- The loop of `RoundTrip`, with `left` more attempts after this one. -/
def attempts (req : Request) (turns : Nat → Turn) : (left attempt : Nat) → (stream : Option Bytes) → Trip
  | left, attempt, stream =>
    let turn := turns attempt
    match cloneRequestForAttempt req attempt stream turn with
    | .error err => ⟨[], [], none, some err⟩
    | .ok body =>
      let sent := req.send body
      if !shouldRetryResponse turn.resp turn.err then .last sent turn
      else
        match left with
        | 0 => .last sent turn
        | left + 1 =>
          if !(turn.budget.take turn.now).1 then .last sent turn
          else
            let closed := turn.resp.any fun resp => resp.body.isSome
            let delay := fullJitterDelay attempt turn.draw
            match turn.done with
            | some err => ⟨[⟨sent, turn.resp, closed, false⟩], [delay], none, some err⟩
            | none =>
              let rest := attempts req turns left (attempt + 1) (stream.map fun _ => [])
              { rest with
                tries := ⟨sent, turn.resp, closed, false⟩ :: rest.tries
                delays := delay :: rest.delays }

def roundTrip (req : Request) (turns : Nat → Turn) : Trip :=
  if !isRetryableRequest req then .last (req.send req.body) (turns 0)
  else attempts req turns routerRetryMaxRetries 0 req.body

end Csar.Impl.StsClient
