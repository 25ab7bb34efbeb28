import CsarCore.Impl.TokenMint.Profile

/-!
# One grant (`tokenmint/client.go`)

`doGrant`, given what becomes of its request: the request, how an answer is read
(`parseGrantResponse`) and how failures are sorted (`classifyFailure`).
-/

namespace Csar.Impl.TokenMint

structure GrantResponse where
  accessToken : String
  tokenType : String
  expiresIn : Int

inductive GrantErr
  | parseUrl (e : String)
  | hostNotAllowed (host : String)
  | bodyStyle (style : String)
  | buildRequest (e : String)
  | upstream (e : String)
  | readBody (e : String)
  | tooLarge (limit : Int)
  | invalidClient (status : Int) (code : Bytes)
  | status (status : Int) (retryAfter : Int) (code : Bytes)
  | notJSON
  | missingToken (path : String)
  | tokenType (got expected : String)
  | notPositive (path : String)

structure GrantRequest where
  url : String
  contentType : String
  params : List (String × Bytes)

/-- Its status, its `Retry-After` and its body. -/
structure GrantReply where
  status : Int
  retryAfter : String
  body : Bytes

/-- A request cannot be built, gets no response, has a body that cannot be read, or a response. -/
inductive Upstream
  | buildErr (e : String)
  | noResponse (e : String)
  | brokenBody (e : String)
  | reply (r : GrantReply)

section Client

variable (lib : Lib)

def GrantErr.text : GrantErr → String
  | .parseUrl e => "tokenmint: parse token_url: " ++ e
  | .hostNotAllowed host => "tokenmint: token endpoint host is not allowed: " ++ host
  | .bodyStyle style => "tokenmint: unsupported body_style " ++ lib.quote style
  | .buildRequest e => "tokenmint: build request: " ++ e
  | .upstream e => "tokenmint: upstream token endpoint failed: " ++ e
  | .readBody e => "tokenmint: upstream token endpoint failed: read body: " ++ e
  | .tooLarge limit => "tokenmint: malformed token response: response exceeds max_response_bytes (" ++
      toString limit ++ ")"
  | .invalidClient n code => "tokenmint: upstream rejected the client credentials (status " ++
      toString n ++ ", code " ++ lib.quoteBytes code ++ ")"
  | .status n _ code => "tokenmint: token endpoint returned " ++ toString n ++ ": code " ++
      lib.quoteBytes code
  | .notJSON => "tokenmint: malformed token response: not JSON"
  | .missingToken path => "tokenmint: malformed token response: " ++ lib.quote path ++ " missing or empty"
  | .tokenType got expected => "tokenmint: malformed token response: token_type " ++ lib.quote got ++
      ", expected " ++ lib.quote expected
  | .notPositive path => "tokenmint: malformed token response: " ++ lib.quote path ++ " is not positive"

/-! ## The request -/

def setParam (params : List (String × Bytes)) (k : String) (v : Bytes) : List (String × Bytes) :=
  (k, v) :: params.filter fun kv => kv.1 != k

def buildGrantRequest (p : Profile) (clientID clientSecret : Bytes) : Except GrantErr GrantRequest :=
  let params := p.staticParams.foldl (fun ps kv => setParam ps kv.1 kv.2) []
  let params := setParam (setParam params p.clientIDParam clientID) p.clientSecretParam clientSecret
  if p.bodyStyle = "form" then .ok ⟨p.tokenURL, "application/x-www-form-urlencoded", params⟩
  else if p.bodyStyle = "json" then .ok ⟨p.tokenURL, "application/json", params⟩
  else .error (.bodyStyle p.bodyStyle)

/-! ## The answer -/

/-- The loop of `lookupPath` over the segments. -/
def lookupSegments : Json → List String → Option Json
  | cur, [] => some cur
  | .obj fields, seg :: rest => (List.lookup seg fields).bind fun v => lookupSegments v rest
  | _, _ :: _ => none

def lookupPath (doc : List (String × Json)) (path : String) : Option Json :=
  if path = "" then none
  else lookupSegments (.obj doc) ((path.toList.splitOn '.').map String.ofList)

/-- `lookupString`; the empty string where there is none. -/
def lookupString (doc : List (String × Json)) (path : String) : String :=
  match lookupPath doc path with
  | some (.str s) => s
  | _ => ""

def lookupNumber (doc : List (String × Json)) (path : String) : Option F64 :=
  match lookupPath doc path with
  | some (.num q) => some (.fin q)
  | some (.str s) => lib.parseFloat s
  | _ => none

/-- `secs <= 0`. -/
def F64.nonPositive : F64 → Bool
  | .fin q => q ≤ 0
  | .inf neg => neg
  | .nan => false

def trunc (q : ℚ) : Int := q.num.tdiv q.den

/-- `int64(secs)`: toward zero, if that fits. -/
def toInt64 (f : F64) : Int :=
  match f with
  | .fin q => if minInt64 ≤ trunc q ∧ trunc q ≤ maxInt64 then trunc q else lib.float64ToInt64 f
  | _ => lib.float64ToInt64 f

/-- `time.Duration(secs) * time.Second`. -/
def secondsToDuration (f : F64) : Int := wrap64 (toInt64 lib f * second)

def parseGrantResponse (p : Profile) (body : Bytes) : Except GrantErr GrantResponse :=
  match lib.unmarshal body with
  | none => .error .notJSON
  | some doc =>
    let token := lookupString doc p.accessTokenPath
    let tokenType := lookupString doc p.tokenTypePath
    if token = "" then .error (.missingToken p.accessTokenPath)
    else if p.expectedTokenType ≠ "" ∧ tokenType ≠ "" ∧ lib.equalFold tokenType p.expectedTokenType = false then
      .error (.tokenType tokenType p.expectedTokenType)
    else match lookupNumber lib doc p.expiresInPath with
      | none => .ok ⟨token, tokenType, p.defaultExpiresIn⟩
      | some secs =>
        if secs.nonPositive then .error (.notPositive p.expiresInPath)
        else .ok ⟨token, tokenType, secondsToDuration lib secs⟩

/-! ## Failures -/

def parseRetryAfter (v : String) : Int :=
  if v = "" then 0
  else match lib.atoi v with
    | some secs => if 0 < secs then wrap64 (secs * second) else (untilDate v)
    | none => untilDate v
where
  /-- The date form. -/
  untilDate (v : String) : Int :=
    match lib.untilHTTPDate v with
    | some d => if 0 < d then d else 0
    | none => 0

def extractErrorCode (body : Bytes) : Bytes :=
  match lib.errorField body with
  | some e => if e = [] then utf8 "unspecified" else e.take 64
  | none => utf8 "unspecified"

def isCredentialErrorCode (code : Bytes) : Bool :=
  (["invalid_client", "unauthorized_client", "invalid_grant", "access_denied"].map utf8).contains
    (lib.toLower code)

def classifyFailure (r : GrantReply) : GrantErr :=
  let code := extractErrorCode lib r.body
  if r.status = 401 ∨ r.status = 403 ∨ (r.status = 400 ∧ isCredentialErrorCode lib code) then
    .invalidClient r.status code
  else .status r.status (parseRetryAfter lib r.retryAfter) code

/-- The part of the body that is read: one byte more than the limit, in 64 bits. -/
def Profile.readBody (p : Profile) (r : GrantReply) : Bytes :=
  r.body.take (wrap64 (p.maxResponseBytes + 1)).toNat

/-- `doGrant`, given what becomes of its request. -/
def doGrant (cfg : Config) (p : Profile) (clientID clientSecret : Bytes) (up : Upstream) :
    Except GrantErr GrantResponse :=
  match lib.parseUrl p.tokenURL with
  | .error e => .error (.parseUrl e)
  | .ok u =>
    if cfg.hostAllowed lib u.hostname = false then .error (.hostNotAllowed u.hostname)
    else match buildGrantRequest p clientID clientSecret with
      | .error e => .error e
      | .ok _ =>
        match up with
        | .buildErr e => .error (.buildRequest e)
        | .noResponse e => .error (.upstream e)
        | .brokenBody e => .error (.readBody e)
        | .reply r =>
          let body := p.readBody r
          if (body.length : Int) > p.maxResponseBytes then .error (.tooLarge p.maxResponseBytes)
          else if r.status < 200 ∨ r.status > 299 then .error (classifyFailure lib { r with body })
          else parseGrantResponse lib p body

end Client

end Csar.Impl.TokenMint
