import CsarCore.Framework.Json.Struct
import CsarCore.Framework.Run
import CsarCore.Impl.TokenMint.Profile
import Mathlib.Logic.Function.Basic

/-!
# IAM tokens of Yandex Cloud (`ycloud/iam.go`)

`singleflight` lets one of the callers that find no cached token, or one that expires
soon, get a new one for all of them. There is a step for each part of `ResolveToken` and
`refreshToken` that holds the lock or reads the clock, with the time at which it is
taken.

`json.Decoder` reads one value of a body; what stands behind it is not in `body`. The
key of a service account is used only to sign, which succeeds or fails.
-/

namespace Csar.Impl.Ycloud

open TokenMint (second)

inductive RefreshMode
  | oauthToken
  | metadata
  | serviceAccount
  deriving DecidableEq

inductive AuthMode
  | iamToken
  | refreshing (m : RefreshMode)
  deriving DecidableEq

/-- `AuthConfig`: what `NewIAMTokenResolver` checks. -/
structure AuthConfig where
  authMode : Bytes
  iamToken : Bytes
  oauthToken : Bytes
  saKeyFile : Bytes

/-- Errors: their text, `ycloud: load sa_key_file: ` with an error, and `ycloud: unsupported auth_mode
%q; supported: iam_token, oauth_token, metadata, service_account`. -/
inductive NewError
  | text (msg : String)
  | loadKey (err : String)
  | unsupported (authMode : Bytes)

/-- The mode, and the token at first. `loadSAKey` is the error of `LoadSAKey` for a path. -/
def newIAMTokenResolver (cfg : AuthConfig) (loadSAKey : Bytes → Option String) : Except NewError (AuthMode × Bytes) :=
  if cfg.authMode = utf8 "iam_token" then
    if cfg.iamToken = [] then .error (.text "ycloud: auth_mode=iam_token requires a non-empty iam_token")
    else .ok (.iamToken, cfg.iamToken)
  else if cfg.authMode = utf8 "oauth_token" then
    if cfg.oauthToken = [] then .error (.text "ycloud: auth_mode=oauth_token requires a non-empty oauth_token")
    else .ok (.refreshing .oauthToken, [])
  else if cfg.authMode = utf8 "metadata" then .ok (.refreshing .metadata, [])
  else if cfg.authMode = utf8 "service_account" then
    if cfg.saKeyFile = [] then .error (.text "ycloud: auth_mode=service_account requires a non-empty sa_key_file")
    else
      match loadSAKey cfg.saKeyFile with
      | some err => .error (.loadKey err)
      | none => .ok (.refreshing .serviceAccount, [])
  else .error (.unsupported cfg.authMode)

/-! ## Exchanges -/

structure IamTokenResponse where
  iamToken : Bytes := []
  expiresAt : Int := Time.zeroTime

def IamTokenResponse.fields : List (Json.Field IamTokenResponse) :=
  [.string (utf8 "iamToken") false (·.iamToken) fun s r => { r with iamToken := s },
    .time (utf8 "expiresAt") (·.expiresAt) fun t r => { r with expiresAt := t }]

structure MetadataTokenResponse where
  accessToken : Bytes := []
  expiresIn : Int := 0
  tokenType : Bytes := []

def MetadataTokenResponse.fields : List (Json.Field MetadataTokenResponse) :=
  [.string (utf8 "access_token") false (·.accessToken) fun s r => { r with accessToken := s },
    .int (utf8 "expires_in") false (·.expiresIn) fun n r => { r with expiresIn := n },
    .string (utf8 "token_type") false (·.tokenType) fun s r => { r with tokenType := s }]

/-- What becomes of a request: it cannot be built or sent, or there is an answer. -/
inductive Reply
  | unbuilt (err : String)
  | unsent (err : String)
  | answered (status : Int) (body : Bytes)

/-- The error of `mintSAJWT`, which only the mode `service_account` calls, and what becomes of the request. -/
structure Upstream where
  signErr : Option String
  reply : Reply

/-- A text before an error; a text before `: HTTP %d: %s`; a text before an error of the decoder; and
that a mode gets no tokens. -/
inductive RefreshError
  | wrap (text : String) (err : String)
  | status (text : String) (code : Int) (body : Bytes)
  | decode (text : String) (err : Json.StructError)
  | cannotRefresh
  deriving DecidableEq

structure Texts where
  build : String
  http : String
  status : String
  decode : String

/-- What the three exchanges have in common: `read` decodes a body. -/
def exchange (texts : Texts) (read : Bytes → Except Json.StructError (Bytes × Int)) :
    Reply → Except RefreshError (Bytes × Int)
  | .unbuilt err => .error (.wrap texts.build err)
  | .unsent err => .error (.wrap texts.http err)
  | .answered status body =>
    if status ≠ 200 then .error (.status texts.status status (body.take 1024))
    else
      match read body with
      | .error err => .error (.decode texts.decode err)
      | .ok out => .ok out

/-- `expiry` in `exchangeOAuthToken` and `exchangeSAToken`. -/
def readIamToken (now : Int) (body : Bytes) : Except Json.StructError (Bytes × Int) :=
  (Json.unmarshalStruct IamTokenResponse.fields body {}).map fun r =>
    (r.iamToken, if r.expiresAt = Time.zeroTime then now + 11 * 3600 * second else r.expiresAt)

def exchangeOAuthToken (now : Int) : Reply → Except RefreshError (Bytes × Int) :=
  exchange ⟨"ycloud: build IAM token request", "ycloud: IAM token exchange HTTP", "ycloud: IAM token exchange",
    "ycloud: decode IAM token response"⟩ (readIamToken now)

/-- `expiry` in `fetchMetadataToken`; the product of the durations wraps around. -/
def readMetadataToken (now : Int) (body : Bytes) : Except Json.StructError (Bytes × Int) :=
  (Json.unmarshalStruct MetadataTokenResponse.fields body {}).map fun r =>
    (r.accessToken, now + wrap64 (r.expiresIn * second))

def fetchMetadataToken (now : Int) : Reply → Except RefreshError (Bytes × Int) :=
  exchange ⟨"ycloud: build metadata request", "ycloud: metadata HTTP", "ycloud: metadata token",
    "ycloud: decode metadata token"⟩ (readMetadataToken now)

def exchangeSAToken (now : Int) (up : Upstream) : Except RefreshError (Bytes × Int) :=
  match up.signErr with
  | some err => .error (.wrap "ycloud: mint SA JWT: sign SA JWT" err)
  | none =>
    exchange ⟨"ycloud: build SA token request", "ycloud: SA token exchange HTTP", "ycloud: SA token exchange",
      "ycloud: decode SA token response"⟩ (readIamToken now) up.reply

/-- The `switch` of `refreshToken`: the token and its expiry. -/
def AuthMode.refresh (mode : AuthMode) (now : Int) (up : Upstream) : Except RefreshError (Bytes × Int) :=
  match mode with
  | .refreshing .oauthToken => exchangeOAuthToken now up.reply
  | .refreshing .metadata => fetchMetadataToken now up.reply
  | .refreshing .serviceAccount => exchangeSAToken now up
  | .iamToken => .error .cannotRefresh

/-! ## The system -/

/-- With a copy of the token and its expiry; in `refreshToken`, before its first check and after it. -/
inductive Pc
  | copied (token : Bytes) (expiry : Int)
  | refreshing
  | joining

/-- A call that is not in a flight yet, and when it began. -/
structure Call where
  begun : Int
  pc : Pc

/-- Before its check, before the answer, with an answer that is not stored, or at its end. -/
inductive FlightPc
  | start
  | exchanging
  | answered (token : Bytes) (expiry : Int)
  | done (out : Except RefreshError (Bytes × Int))

/-- A flight, and when the calls that wait for it began. -/
structure Flight where
  callers : List Int
  pc : FlightPc

def FlightPc.outcome? : FlightPc → Option (Bytes × Int)
  | .answered token expiry => some (token, expiry)
  | .done (.ok out) => some out
  | _ => none

/-- `IAMTokenResolver`, with the calls and the time. -/
structure Resolver where
  now : Int
  authToken : Bytes
  expiry : Int
  calls : Nat → Option Call
  flight : Option Flight

/-- Of `ResolveToken` (a call begins and copies the token; its check), of `refreshToken` (its check;
`sf.Do`) and of the function of a flight (its check; the exchange; the store; its end). -/
inductive Op
  | begin (id : Nat)
  | check (id : Nat)
  | recheck (id : Nat)
  | join (id : Nat)
  | lead
  | answer (up : Upstream)
  | store
  | finish

structure Act where
  now : Int
  op : Op

/-- A call returns a token, with its expiry or without one; it joins a flight, which will return what
expires at `expiry` if that is known; a flight ends, and all its callers return. -/
inductive Obs
  | none
  | returned (begun : Int) (token : Bytes) (expiry : Int)
  | returnedStatic (begun : Int) (token : Bytes)
  | joined (expiry : Option Int)
  | finished (callers : List Int) (out : Except RefreshError (Bytes × Int))

def fresh (token : Bytes) (expiry now : Int) : Bool := token ≠ [] ∧ now + 30 * second < expiry

namespace Resolver

variable (mode : AuthMode) (r : Resolver)

def goto (id : Nat) (c : Call) (pc : Pc) : Resolver :=
  { r with calls := Function.update r.calls id (some { c with pc := pc }) }

def leave (id : Nat) : Resolver := { r with calls := Function.update r.calls id none }

def fly (f : Flight) (pc : FlightPc) : Resolver := { r with flight := some { f with pc := pc } }

def check (id : Nat) (c : Call) (token : Bytes) (expiry : Int) : Resolver × Obs :=
  match mode with
  | .iamToken => (r.leave id, .returnedStatic c.begun token)
  | .refreshing _ =>
    if fresh token expiry r.now then (r.leave id, .returned c.begun token expiry)
    else (r.goto id c .refreshing, .none)

def recheck (id : Nat) (c : Call) : Resolver × Obs :=
  if fresh r.authToken r.expiry r.now then (r.leave id, .returned c.begun r.authToken r.expiry)
  else (r.goto id c .joining, .none)

/-- `sf.Do`. -/
def join (id : Nat) (c : Call) : Resolver × Obs :=
  match r.flight with
  | none => ({ r.leave id with flight := some ⟨[c.begun], .start⟩ }, .joined none)
  | some f =>
    ({ r.leave id with flight := some { f with callers := c.begun :: f.callers } },
      .joined (f.pc.outcome?.map Prod.snd))

def lead (f : Flight) : Resolver :=
  if fresh r.authToken r.expiry r.now then r.fly f (.done (.ok (r.authToken, r.expiry)))
  else r.fly f .exchanging

def answer (f : Flight) (up : Upstream) : Resolver :=
  match mode.refresh r.now up with
  | .error err => r.fly f (.done (.error err))
  | .ok (token, expiry) => r.fly f (.answered token expiry)

def store (f : Flight) (token : Bytes) (expiry : Int) : Resolver :=
  { r.fly f (.done (.ok (token, expiry))) with authToken := token, expiry := expiry }

/-- What an operation does, if it is the turn of one. -/
def op : Op → Option (Resolver × Obs)
  | .begin id =>
    match r.calls id with
    | none => some ({ r with calls := Function.update r.calls id (some ⟨r.now, .copied r.authToken r.expiry⟩) }, .none)
    | some _ => none
  | .check id =>
    match r.calls id with
    | some ⟨begun, .copied token expiry⟩ => some (r.check mode id ⟨begun, .copied token expiry⟩ token expiry)
    | _ => none
  | .recheck id =>
    match r.calls id with
    | some ⟨begun, .refreshing⟩ => some (r.recheck id ⟨begun, .refreshing⟩)
    | _ => none
  | .join id =>
    match r.calls id with
    | some ⟨begun, .joining⟩ => some (r.join id ⟨begun, .joining⟩)
    | _ => none
  | .lead =>
    match r.flight with
    | some ⟨callers, .start⟩ => some (r.lead ⟨callers, .start⟩, .none)
    | _ => none
  | .answer up =>
    match r.flight with
    | some ⟨callers, .exchanging⟩ => some (r.answer mode ⟨callers, .exchanging⟩ up, .none)
    | _ => none
  | .store =>
    match r.flight with
    | some ⟨callers, .answered token expiry⟩ => some (r.store ⟨callers, .answered token expiry⟩ token expiry, .none)
    | _ => none
  | .finish =>
    match r.flight with
    | some ⟨callers, .done out⟩ => some ({ r with flight := none }, .finished callers out)
    | _ => none

/-- One step; the clock does not go back. -/
def step (a : Act) : Option (Resolver × Obs) :=
  if a.now < r.now then none else op mode { r with now := a.now } a.op

end Resolver

/-- A resolver from `NewIAMTokenResolver` at `start`, and all calls of `ResolveToken`. -/
def system (mode : AuthMode) (token : Bytes) (start : Int) : System Resolver Act Obs where
  init := ⟨start, token, Time.zeroTime, fun _ => none, none⟩
  step := Resolver.step mode

end Csar.Impl.Ycloud
