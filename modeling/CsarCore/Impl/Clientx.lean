import CsarCore.Framework.Json.Struct
import CsarCore.Framework.NetIP
import CsarCore.Framework.Reader

/-!
# Internal addresses and bounded responses (`httpx/clientx`)

`CheckInternalIP`: the networks are given by their numbers, as `mustParseCIDR` has them
from their texts. `exec`, with what it logs: what `client.Do` returns is a parameter, its
timeout included, and of a header only `X-CSAR-Status` is looked at.
-/

namespace Csar.Impl.Clientx

section

open Csar.Net

inductive InternalIPClass
  | classMetadata
  | classLoopback
  | classLinkLocal
  | classPrivate
  deriving DecidableEq

def InternalIPClass.text : InternalIPClass → String
  | .classMetadata => "cloud_metadata"
  | .classLoopback => "loopback"
  | .classLinkLocal => "link_local"
  | .classPrivate => "private"

structure InternalIPError where
  ip : IP
  cls : InternalIPClass
  deriving DecidableEq

/-- `InternalIPError.Error`, with `IP.String`. -/
def InternalIPError.text (ipText : IP → String) (e : InternalIPError) : String :=
  "clientx: " ++ ipText e.ip ++ " is a " ++ e.cls.text ++ " address"

structure InternalIPClasses where
  isPrivate : Bool
  isLoopback : Bool
  isLinkLocal : Bool
  isMetadata : Bool

def allInternalIPClasses : InternalIPClasses := ⟨true, true, true, true⟩

def private10 : IPNet := cidr [10, 0, 0, 0] 8

def private172 : IPNet := cidr [172, 16, 0, 0] 12

def private192 : IPNet := cidr [192, 168, 0, 0] 16

def linkLocal4 : IPNet := cidr [169, 254, 0, 0] 16

def linkLocal6 : IPNet := cidr [0xFE, 0x80, 0, 0, 0, 0, 0, 0, 0, 0, 0, 0, 0, 0, 0, 0] 10

/-- `net.ParseIP` gives the form of 16 bytes. -/
def metadataAddr : IP := mapped [169, 254, 169, 254]

def checkInternalIP (ip : IP) (classes : InternalIPClasses) : Except InternalIPError Unit :=
  if classes.isMetadata && equal ip metadataAddr then .error ⟨ip, .classMetadata⟩
  else if classes.isLoopback && isLoopback ip then .error ⟨ip, .classLoopback⟩
  else if classes.isLinkLocal && (linkLocal4.contains ip || linkLocal6.contains ip) then .error ⟨ip, .classLinkLocal⟩
  else if classes.isPrivate && (private10.contains ip || private172.contains ip || private192.contains ip) then
    .error ⟨ip, .classPrivate⟩
  else if classes.isPrivate && ip.length == 16 && ip.headD 0 &&& 0xFE == 0xFC then .error ⟨ip, .classPrivate⟩
  else .ok ()

end

/-! ## `clientx.go` -/

def defaultMaxResponseBytes : Int := 2 ^ 20

def logBodyCap : Nat := 4096

/-- `Options`, as far as they are about responses. -/
structure Options where
  maxResponseBytes : Int := 0
  successStatuses : List Int := []

/-- With the id that `gatewayctx` has put into its context (empty: none). -/
structure Request where
  method : Bytes
  path : Bytes
  requestID : Bytes := []

/-- Its text, and whether it is `context.DeadlineExceeded` for `errors.Is`. -/
structure GoError where
  text : Bytes
  deadlineExceeded : Bool := false
  deriving DecidableEq

def GoError.wrap (err : GoError) (msg : String) : GoError := { err with text := utf8 msg ++ err.text }

/-- A response, with `header.Get("X-CSAR-Status")`. -/
structure Response where
  statusCode : Int
  csarStatus : Bytes
  body : Stream GoError

/-! ## Errors -/

inductive Origin
  | csar
  | upstreamOrGateway
  | csarAuthnSts
  | tlsTransport
  | networkTransport
  | timeout
  | httpClient
  | clientDecode
  | unknown
  deriving DecidableEq

/-- `Error.Err`: `ErrResponseTooLarge`, or another one. -/
inductive Cause
  | responseTooLarge
  | other (err : GoError)
  deriving DecidableEq

def Cause.error : Cause → GoError
  | .responseTooLarge => ⟨utf8 "clientx: response exceeds MaxResponseBytes", false⟩
  | .other err => err

/-- `Error`; a body of `none` is nil, an origin of `none` empty. -/
structure Error where
  status : Int
  path : Bytes
  method : Bytes
  body : Option Bytes
  origin : Option Origin
  err : Option Cause
  deriving DecidableEq

/-! ## Where a failure comes from -/

/-- The codes of error envelopes of the gateway. -/
def csarCodes : List Bytes :=
  [utf8 "route_not_found", utf8 "access_denied", utf8 "auth_failed", utf8 "throttled", utf8 "circuit_open",
    utf8 "backpressure", utf8 "upstream_error", utf8 "no_healthy_upstream", utf8 "tenant_not_found",
    utf8 "response_too_large", utf8 "security_error"]

structure Envelope where
  code : Bytes := []

def Envelope.fields : List (Json.Field Envelope) := [.string (utf8 "code") false (·.code) fun s e => { e with code := s }]

def hasCSARErrorEnvelope (body : Bytes) : Bool :=
  if body = [] then false
  else
    match Json.unmarshalStruct Envelope.fields body {} with
    | .error _ => false
    | .ok envelope => csarCodes.contains (Strings.toLower (Strings.trimSpace envelope.code))

def classifyResponseOrigin (body : Bytes) (csarStatus : Bytes) : Origin :=
  if Strings.trimSpace csarStatus ≠ [] ∨ hasCSARErrorEnvelope body then .csar else .upstreamOrGateway

def classifyTransportOrigin (err : Option GoError) : Origin :=
  let message := (err.map fun err => Strings.toLower err.text).getD []
  let has text := Strings.contains message (utf8 text)
  if has "stsclient:" ∨ has "/sts/token" then .csarAuthnSts
  else if has "x509:" ∨ has "tls" then .tlsTransport
  else if has "lookup " ∨ has "dial tcp" then .networkTransport
  else if (err.map GoError.deadlineExceeded).getD false ∨ has "context deadline exceeded" ∨ has "timeout" then .timeout
  else .httpClient

/-! ## Responses -/

def isSuccess (status : Int) (allow : List Int) : Bool :=
  if allow.isEmpty then 200 ≤ status ∧ status < 300 else allow.contains status

/-- As much of a body as an error keeps, and whether that is not all. -/
def capBody (raw : Bytes) : Bytes × Bool :=
  if raw.length ≤ logBodyCap then (raw, false) else (raw.take logBodyCap, true)

/-- The records of `logNonSuccess` and `logOversize`. -/
inductive LogRecord
  | nonSuccess (status : Int) (method path : Bytes) (origin : Origin) (truncated : Bool) (requestID : Option Bytes)
  | tooLarge (status : Int) (method path : Bytes) (origin : Origin) (err : Bytes) (requestID : Option Bytes)
  deriving DecidableEq

/-- What `exec` returns and logs; a body of `none` is nil. -/
structure Executed where
  raw : Option Bytes
  status : Int
  err : Option Error
  log : List LogRecord
  deriving DecidableEq

/-- The attribute `request_id`, if there is one. -/
def Request.idAttr (req : Request) : Option Bytes := if req.requestID = [] then none else some req.requestID

def Request.failed (req : Request) (status : Int) (body : Option Bytes) (origin : Origin) (err : Option Cause) : Error :=
  ⟨status, req.path, req.method, body, some origin, err⟩

def effectiveMaxBytes (opts : Options) : Int :=
  if opts.maxResponseBytes ≤ 0 then defaultMaxResponseBytes else opts.maxResponseBytes

/-- `exec` from a response on. One byte more than the limit is read, in 64 bits. -/
def readResponse (opts : Options) (req : Request) (resp : Response) : Executed :=
  let maxBytes := effectiveMaxBytes opts
  let status := resp.statusCode
  match (resp.body.limit (wrap64 (maxBytes + 1))).readAll with
  | .error err =>
    let origin := classifyResponseOrigin [] resp.csarStatus
    ⟨none, status, some (req.failed status none origin (some (.other (err.wrap "clientx: read body: ")))), []⟩
  | .ok raw =>
    if (raw.length : Int) > maxBytes then
      let origin := classifyResponseOrigin [] resp.csarStatus
      ⟨none, status, some (req.failed status none origin (some .responseTooLarge)),
        [.tooLarge status req.method req.path origin Cause.responseTooLarge.error.text req.idAttr]⟩
    else if !isSuccess status opts.successStatuses then
      let (capped, truncated) := capBody raw
      let origin := classifyResponseOrigin capped resp.csarStatus
      ⟨none, status, some (req.failed status (some capped) origin none),
        [.nonSuccess status req.method req.path origin truncated req.idAttr]⟩
    else ⟨some raw, status, none, []⟩

/-- `exec`, for what `client.Do` returns. -/
def exec (opts : Options) (req : Request) : Except GoError Response → Executed
  | .error err =>
    let cause := err.wrap "clientx: request failed: "
    ⟨none, 0, some (req.failed 0 none (classifyTransportOrigin (some cause)) (some (.other cause))), []⟩
  | .ok resp => readResponse opts req resp

end Csar.Impl.Clientx
