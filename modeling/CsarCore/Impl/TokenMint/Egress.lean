import CsarCore.Framework.HttpClient
import CsarCore.Impl.Clientx
import CsarCore.Impl.TokenMint.Client

/-!
# The client of a grant (`newHTTPClient` in `tokenmint/client.go`)

The dial guard and the redirect policy, and `doGrant` with this client: its requests
and connections. The port of an address and the TLS handshake are left out.
-/

namespace Csar.Impl.TokenMint

open Impl.Clientx Csar.Net

/-- An address that a resolver gives: 4 or 16 bytes. -/
def ResolvedIP := { ip : IP // ip.length = 4 ∨ ip.length = 16 }

/-- What `LookupIPAddr` returns. -/
abbrev Resolution := Except String (List ResolvedIP)

/-- How `net/http` shows and reads URLs, the name that it looks up for a host, and how `net` shows an
address. -/
structure NetLib where
  lookupName : String → String
  parse : Url → String → Except String Url
  urlText : Url → String
  ipText : IP → String

/-- What is given to `DialContext` of the dialer. -/
inductive Target
  /-- A name, for the dialer to look up. -/
  | name (host : String)
  /-- `ips[0].IP.String()`. -/
  | address (ip : ResolvedIP)

section Egress

variable (lib : Lib) (net : NetLib)

def checkAll : List ResolvedIP → Except InternalIPError Unit
  | [] => .ok ()
  | ip :: ips =>
    match checkInternalIP ip.1 allInternalIPClasses with
    | .error e => .error e
    | .ok () => checkAll ips

/-- `dial` of `newHTTPClient`, given what the resolver answers. -/
def dial (cfg : Config) (u : Url) (answer : Resolution) : Except String Target :=
  let host := net.lookupName u.hostname
  if cfg.allowPrivate then .ok (.name host)
  else match answer with
    | .error e => .error ("tokenmint: resolve " ++ lib.quote host ++ ": " ++ e)
    | .ok [] => .error ("tokenmint: no addresses for " ++ lib.quote host)
    | .ok (ip :: ips) =>
      match checkAll (ip :: ips) with
      | .error e => .error ("tokenmint: refusing to dial " ++ lib.quote host ++ ": " ++ e.text net.ipText)
      | .ok () => .ok (.address ip)

def newHTTPClient (cfg : Config) : Http.Client Url GrantRequest Resolution Target where
  dial := dial lib net cfg
  checkRedirect _ _ := .refuse "tokenmint: refusing to follow a redirect from a token endpoint"
  parse := net.parse
  urlText := net.urlText

abbrev Content := String × Except String Bytes

def redactURLError (e : Http.UrlError) : String := e.op ++ " " ++ e.url ++ ": " ++ e.err

/-- What `doGrant` has from its request. -/
def upstreamOf : Except Http.UrlError (Http.Response Content) → Upstream
  | .error e => .noResponse (redactURLError e)
  | .ok r =>
    match r.rest.2 with
    | .error e => .brokenBody e
    | .ok body => .reply ⟨r.status, r.rest.1, body⟩

/-- `doGrant` up to its request. -/
def grantRequest (cfg : Config) (p : Profile) (clientID clientSecret : Bytes) :
    Except GrantErr (Http.Request Url GrantRequest) :=
  match lib.parseUrl p.tokenURL with
  | .error e => .error (.parseUrl e)
  | .ok u =>
    if cfg.hostAllowed lib u.hostname = false then .error (.hostNotAllowed u.hostname)
    else match buildGrantRequest p clientID clientSecret with
      | .error e => .error e
      | .ok req => .ok ⟨"POST", u, some req⟩

/-- `doGrant` with this client: what it does on the network, and returns. -/
def doGrantOver (cfg : Config) (p : Profile) (clientID clientSecret : Bytes)
    (env : List (Http.Exchange Resolution Content)) :
    List (Http.Event Url GrantRequest Target) × Except GrantErr GrantResponse :=
  match grantRequest lib cfg p clientID clientSecret with
  | .error e => ([], .error e)
  | .ok req =>
    let r := (newHTTPClient lib net cfg).run req [] env
    (r.1, doGrant lib cfg p clientID clientSecret (upstreamOf r.2))

end Egress

end Csar.Impl.TokenMint
