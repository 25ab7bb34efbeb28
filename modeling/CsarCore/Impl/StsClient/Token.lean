import CsarCore.Framework.Json.Struct
import CsarCore.Framework.Run
import CsarCore.Impl.TokenMint.Profile

/-!
# Tokens of the STS (`stsclient/client.go`)

`Token` holds the lock from its start to its end, so calls come one after the other.
Each reads the clock, and again when an exchange has brought a token; what becomes of
an exchange is a parameter (`Exchange`).
-/

namespace Csar.Impl.StsClient

open TokenMint (second)

def tokenRefreshBuffer : Int := 30 * second

/-- `refreshWindowForExpiresIn`; the product of the durations wraps around. -/
def refreshWindowForExpiresIn (expiresIn : Int) : Int :=
  let ttl := wrap64 (expiresIn * second)
  if ttl > tokenRefreshBuffer then ttl - tokenRefreshBuffer
  else if ttl > 0 then ttl.tdiv 2
  else 0

/-! ## Exchanges -/

structure TokenResponse where
  accessToken : Bytes := []
  tokenType : Bytes := []
  expiresIn : Int := 0
  deriving DecidableEq

/-- The tags of the struct. -/
def TokenResponse.fields : List (Json.Field TokenResponse) :=
  [.string (utf8 "access_token") false (·.accessToken) fun s tr => { tr with accessToken := s },
    .string (utf8 "token_type") false (·.tokenType) fun s tr => { tr with tokenType := s },
    .int (utf8 "expires_in") false (·.expiresIn) fun n tr => { tr with expiresIn := n }]

/-- What becomes of an exchange: it cannot be signed, built, sent or read, or the STS answers. -/
inductive Exchange
  | unsigned (err : String)
  | unbuilt (err : String)
  | unsent (err : String)
  | unread (err : String)
  | answered (status : Int) (body : Bytes)

/-- Errors of `Token`: of `signAssertion`; `stsclient: build request: `, `sts request: ` and `read sts
body: ` with an error; `sts status %d: %s`; `decode sts response: `; `empty access_token in sts
response`. -/
inductive TokenError
  | assertion (err : String)
  | buildRequest (err : String)
  | stsRequest (err : String)
  | readBody (err : String)
  | status (code : Int) (body : Bytes)
  | decode (err : Json.StructError)
  | emptyToken
  deriving DecidableEq

/-- As much of a body is read. -/
def maxBody : Nat := 2 ^ 20

/-- What `Token` makes of an answer. -/
def decodeAnswer (status : Int) (body : Bytes) : Except TokenError TokenResponse :=
  if status ≠ 200 then .error (.status status (Strings.trimSpace body))
  else
    match Json.unmarshalStruct TokenResponse.fields body {} with
    | .error err => .error (.decode err)
    | .ok tr => if tr.accessToken = [] then .error .emptyToken else .ok tr

def Exchange.result : Exchange → Except TokenError TokenResponse
  | .unsigned err => .error (.assertion err)
  | .unbuilt err => .error (.buildRequest err)
  | .unsent err => .error (.stsRequest err)
  | .unread err => .error (.readBody err)
  | .answered status body => decodeAnswer status (body.take maxBody)

/-! ## Calls -/

/-- `TokenSource`, with the last reading of the clock. -/
structure TokenSource where
  token : Bytes := []
  expiry : Int := 0
  now : Int

/-- When a call of `Token` has the lock, what becomes of its exchange, and when that has brought a token. -/
structure Call where
  start : Int
  exchange : Exchange
  stop : Int

inductive Returned
  | cached (token : Bytes)
  | exchanged (tr : TokenResponse)
  | failed (err : TokenError)
  deriving DecidableEq

/-- `Token`; the clock does not go back. -/
def TokenSource.call (ts : TokenSource) (c : Call) : Option (TokenSource × Returned) :=
  if c.start < ts.now then none
  else if ts.token ≠ [] ∧ c.start < ts.expiry then some ({ ts with now := c.start }, .cached ts.token)
  else if c.stop < c.start then none
  else
    match c.exchange.result with
    | .error err => some ({ ts with now := c.stop }, .failed err)
    | .ok tr =>
      some (⟨tr.accessToken, c.stop + refreshWindowForExpiresIn tr.expiresIn, c.stop⟩, .exchanged tr)

/-- A source that `New` returns at `start`, and all calls of `Token`. -/
def tokenSystem (start : Int) : System TokenSource Call Returned where
  init := { now := start }
  step := TokenSource.call

end Csar.Impl.StsClient
