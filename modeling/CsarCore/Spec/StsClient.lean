import CsarCore.Impl.StsClient.Retry
import CsarCore.Impl.StsClient.Token

/-!
# Requests to the router, and its tokens

What retries must keep (`original`, `SendOnce`, `Handled`) and when there is one
(`Retried`); and how long a token is kept (`CacheLive`).
-/

namespace Csar.Spec.StsClient

open Impl.StsClient Impl.TokenMint

/-! ## Retries -/

/-- What the caller asks to be sent. -/
def original (req : Request) : Sent := req.send req.body

/-- A request that must not be sent twice. -/
def SendOnce (req : Request) : Prop :=
  req.method ∉ safeMethods ∧ (req.method ∈ keyedMethods → req.header.get (utf8 "Idempotency-Key") = [])

/-- The body of a response is closed, or the caller has it. -/
def Handled (trip : Trip) (t : Try) : Prop :=
  ∀ resp body, t.resp = some resp → resp.body = some body → t.closed ∨ (t.returned ∧ trip.resp = t.resp)

/-- The first attempt is followed by another: the request and what came of the attempt are of the kind
that is retried, there is a token in the budget, and the context does not end. -/
def Retried (req : Request) (first : Turn) : Prop :=
  isRetryableRequest req ∧ shouldRetryResponse first.resp first.err ∧ (first.budget.take first.now).1 ∧
    first.done = none

/-! ## Tokens -/

abbrev History := List (Call × Returned)

/-- An exchange brought `token` at `r`, for `e` seconds. -/
def Received (tr : History) (token : Bytes) (r e : Int) : Prop :=
  ∃ c resp, (c, .exchanged resp) ∈ tr ∧ resp.accessToken = token ∧ c.stop = r ∧ resp.expiresIn = e

/-- A token that is returned without an exchange was received, and lives. -/
def CacheLive (tr : History) : Prop :=
  ∀ post pre c token, tr = post ++ (c, .cached token) :: pre →
    ∃ r e, Received pre token r e ∧ 0 < e ∧ c.start < r + e * second

end Csar.Spec.StsClient
