import CsarCore.Framework.Hex
import CsarCore.Framework.Int64
import CsarCore.Framework.Table
import Mathlib.Data.Rat.Defs

/-!
# Grant profiles (`tokenmint/profile.go`)

`Profile` and `Config`, with the defaults and the checks of `Config.Validate`.
Durations are in nanoseconds, the two floating point settings rationals, and what is
called in Go's library is a parameter (`Lib`).
-/

namespace Csar.Impl.TokenMint

/-- `time.Second`, `time.Minute`. -/
def second : Int := 1000000000
def minute : Int := 60 * second

/-- A `float64`: the finite ones are rationals. -/
inductive F64
  | fin (q : ℚ)
  | inf (neg : Bool)
  | nan
  deriving DecidableEq

structure Url where
  scheme : String
  host : String
  hostname : String

/-- A value that `encoding/json` decodes into an `any`. Numbers are finite. -/
inductive Json
  | null
  | bool (b : Bool)
  | num (q : ℚ)
  | str (s : String)
  | arr (items : List Json)
  | obj (fields : List (String × Json))

abbrev Digest := Vector UInt8 32

/-- What the package calls of `strings`, `net/url`, `encoding/json` (into a `map[string]any`, and for the
`error` of an error body), `strconv` (`atoi` of the trimmed text), `net/http` (how far an HTTP date is in
the future) and `crypto/sha256`. `float64ToInt64` is the conversion where its result is not specified,
and the last five show values in error texts. -/
structure Lib where
  trimSpace : Bytes → Bytes
  toLower : Bytes → Bytes
  trimLower : String → String
  equalFold : String → String → Bool
  parseUrl : String → Except String Url
  unmarshal : Bytes → Option (List (String × Json))
  errorField : Bytes → Option Bytes
  parseFloat : String → Option F64
  atoi : String → Option Int
  untilHTTPDate : String → Option Int
  float64ToInt64 : F64 → Int
  sum256 : Bytes → Digest
  quoteBytes : Bytes → String
  quote : String → String
  formatFloat : ℚ → String
  formatDuration : Int → String
  formatTime : Int → String

structure Profile where
  tokenURL : String
  bodyStyle : String
  staticParams : List (String × Bytes)
  clientIDParam : String
  clientSecretParam : String
  accessTokenPath : String
  expiresInPath : String
  tokenTypePath : String
  expectedTokenType : String
  defaultExpiresIn : Int
  expiresInHaircut : ℚ
  refreshMargin : Int
  minRefreshInterval : Int
  errorBackoffBase : Int
  errorBackoffMax : Int
  authErrorBackoff : Int
  idleTTL : Int
  timeout : Int
  maxResponseBytes : Int
  maxMintsPerMinute : ℚ
  secretRefScopeSegments : Int

/-- `Config`. `hosts` is its private `allowedHosts`. -/
structure Config where
  allowedHosts : List String
  allowPrivate : Bool
  profiles : Table (Bytes × Profile) Prod.fst
  hosts : List String

/-! ## Defaults -/

def nonEmptyOr (s default : String) : String := if s = "" then default else s

def positiveOr (n default : Int) : Int := if n ≤ 0 then default else n

def Profile.withDefaults (p : Profile) : Profile :=
  { p with
    bodyStyle := nonEmptyOr p.bodyStyle "json"
    clientIDParam := nonEmptyOr p.clientIDParam "client_id"
    clientSecretParam := nonEmptyOr p.clientSecretParam "client_secret"
    accessTokenPath := nonEmptyOr p.accessTokenPath "access_token"
    expiresInPath := nonEmptyOr p.expiresInPath "expires_in"
    tokenTypePath := nonEmptyOr p.tokenTypePath "token_type"
    defaultExpiresIn := positiveOr p.defaultExpiresIn (15 * minute)
    expiresInHaircut := if p.expiresInHaircut ≤ 0 then 9 / 10 else p.expiresInHaircut
    refreshMargin := positiveOr p.refreshMargin (5 * minute)
    minRefreshInterval := positiveOr p.minRefreshInterval minute
    errorBackoffBase := positiveOr p.errorBackoffBase (30 * second)
    errorBackoffMax := positiveOr p.errorBackoffMax (5 * minute)
    authErrorBackoff := positiveOr p.authErrorBackoff (15 * minute)
    idleTTL := positiveOr p.idleTTL (90 * minute)
    timeout := positiveOr p.timeout (8 * second)
    maxResponseBytes := positiveOr p.maxResponseBytes (64 * 1024)
    maxMintsPerMinute := if p.maxMintsPerMinute ≤ 0 then 30 else p.maxMintsPerMinute
    secretRefScopeSegments := positiveOr p.secretRefScopeSegments 3 }

def Config.applyDefaults (c : Config) : Config :=
  { c with profiles := c.profiles.updateWhere (fun _ => true) (fun r => (r.1, r.2.withDefaults)) fun _ => rfl }

/-! ## Validation -/

section Validate

variable (lib : Lib)

def Config.hostAllowed (c : Config) (host : String) : Bool := c.hosts.contains (lib.trimLower host)

def Config.validateProfile (c : Config) (name : Bytes) (p : Profile) : Except String Unit :=
  if lib.trimSpace name = [] then .error "profile name must not be empty"
  else match lib.parseUrl p.tokenURL with
  | .error e => .error ("token_url " ++ lib.quote p.tokenURL ++ " is not a valid URL: " ++ e)
  | .ok u =>
    if u.host = "" then .error ("token_url " ++ lib.quote p.tokenURL ++ " has no host")
    else if u.scheme ≠ "https" ∧ c.allowPrivate = false then
      .error ("token_url " ++ lib.quote p.tokenURL ++ " must use https (allow_private is off)")
    else if c.hostAllowed lib u.hostname = false then
      .error ("token_url host " ++ lib.quote u.hostname ++ " is not in allowed_hosts")
    else if p.bodyStyle ≠ "json" ∧ p.bodyStyle ≠ "form" then
      .error ("body_style " ++ lib.quote p.bodyStyle ++ " must be " ++ lib.quote "json" ++ " or " ++
        lib.quote "form")
    else if p.expiresInHaircut ≤ 0 ∨ 1 < p.expiresInHaircut then
      .error ("expires_in_haircut " ++ lib.formatFloat p.expiresInHaircut ++ " must be in (0, 1]")
    else if p.timeout ≤ 0 then .error "timeout must be positive"
    else if p.maxResponseBytes ≤ 0 then .error "max_response_bytes must be positive"
    else if p.secretRefScopeSegments < 1 then .error "secret_ref_scope_segments must be at least 1"
    else if p.refreshMargin ≥ p.defaultExpiresIn then
      .error ("refresh_margin " ++ lib.formatDuration p.refreshMargin ++ " must be shorter than default_expires_in " ++
        lib.formatDuration p.defaultExpiresIn)
    else .ok ()

def Config.validateProfiles (c : Config) : List (Bytes × Profile) → Except String Unit
  | [] => .ok ()
  | (name, p) :: rest =>
    match c.validateProfile lib name p with
    | .error e => .error ("profile " ++ lib.quoteBytes name ++ ": " ++ e)
    | .ok () => c.validateProfiles rest

/-- `Config.Validate`; the configuration that it leaves if it succeeds. -/
def Config.validate (c : Config) : Except String Config :=
  if c.profiles.rows = [] then .error "at least one profile is required"
  else
    let d := c.applyDefaults
    let d := { d with hosts := (d.allowedHosts.map lib.trimLower).filter fun h => h != "" }
    match d.validateProfiles lib d.profiles.rows with
    | .error e => .error e
    | .ok () => .ok d

def Config.profile (c : Config) (name : Bytes) : Option Profile := (c.profiles.find? name).map Prod.snd

/-- A configuration that has passed `Validate`, as `New` asks for. -/
structure ValidConfig extends Config where
  valid : ∃ raw : Config, raw.validate lib = .ok toConfig

end Validate

end Csar.Impl.TokenMint
