import CsarCore.Framework.Strconv
import CsarCore.Impl.TokenMint.Egress
import CsarCore.Impl.TokenMint.Minter
import CsarCore.Spec.Clientx

/-!
# What the history of a minter says

The grants that were started and the attempts that failed; the condition under which
grants are paced (`KeepsPace`); what is stored for a credential; lifetimes,
backoffs and retry hints; which credentials are idle; where a token comes from; and
where a credential may go.
-/

namespace Csar.Spec.TokenMint

section

open Impl.TokenMint

abbrev History := List (Act × Obs)

def grants : History → List Grant
  | [] => []
  | (_, .started g _) :: tr => g :: grants tr
  | _ :: tr => grants tr

/-- The failed grants: their keys, and the `nextAttemptAt` that they set. -/
def failures : History → List (String × Int)
  | [] => []
  | (_, .answered g (.error _) st) :: tr => (g.key, st.nextAttemptAt) :: failures tr
  | _ :: tr => failures tr

/-- The earliest clock value of a later grant of the key: that of the running `mintOne`, or the present one. -/
def horizon (m : Minter) (key : String) : Int := ((m.flights key).bind fun f => f.pc.now?).getD m.clock

/-- `Sweep` drops an entry only if no `mintOne` works on it, and at the earliest clock value of a later
grant its backoff is over and its `lastMintAt` is `MinRefreshInterval` ago, for the profile of the key. -/
def Patient (env : Env) (_ : History) (m : Minter) (a : Act) : Prop :=
  ∀ now, a = .sweep now → ∀ key st, (key, st) ∈ m.state → (m.cells st).dropped env.cfg.toConfig now = true →
    (∀ f, m.flights key = some f → f.pc.held? = none) ∧
    (m.cells st).nextAttemptAt ≤ horizon m key ∧
    ∀ c p, env.key c = key → env.cfg.profile c.profileName = some p →
      (m.cells st).lastMintAt + p.minRefreshInterval ≤ horizon m key

/-- A grant is started before the clock moves on from the value that its `mintOne` has read. -/
def Undelayed (m : Minter) (a : Act) : Prop :=
  ∀ key f now st cached, a = .limit key true → m.flights key = some f →
    f.pc = .passed now st cached → m.clock = now

/-- The steps of a run that keeps the pace. -/
def KeepsPace (env : Env) (tr : History) (m : Minter) (a : Act) : Prop :=
  Patient env tr m a ∧ Undelayed m a

/-- The map has the result `r` for the key. -/
def Stored (m : Minter) (key : String) (r : Result) : Prop :=
  ∃ st, (key, st) ∈ m.state ∧ (m.cells st).result = some r

def advertised (lib : Lib) (p : Profile) (body : Bytes) : Option F64 :=
  (lib.unmarshal body).bind fun doc => lookupNumber lib doc p.expiresInPath

/-- The whole seconds are a positive number of nanoseconds in 64 bits. -/
def Lasts (lib : Lib) : Option F64 → Prop
  | none => True
  | some secs => 0 < wrap64 (toInt64 lib secs * 1000000000)

/-- `d` nanoseconds are no longer than what is advertised. -/
def Within (p : Profile) (d : Int) : Option F64 → Prop
  | none => d ≤ p.defaultExpiresIn
  | some (.fin q) => d ≤ q * 1000000000
  | some _ => True

/-- A result that was minted at `now` is alive, its boundaries in order and within the advertised lifetime. -/
structure Alive (lib : Lib) (p : Profile) (body : Bytes) (now : Int) (r : Result) : Prop where
  live : now < r.hardExpiry
  now_le : now ≤ r.refreshAfter
  refresh_le : r.refreshAfter ≤ r.hardExpiry
  within : Within p (r.hardExpiry - now) (advertised lib p body)

/-- The lifetime of a grant that is accepted lasts. -/
def Lasting (env : Env) (_ : History) (m : Minter) (a : Act) : Prop :=
  ∀ key reply draw f resp, a = .answer key (.reply reply) draw → m.flights key = some f →
    parseGrantResponse env.lib f.profile (f.profile.readBody reply) = .ok resp →
    Lasts env.lib (advertised env.lib f.profile (f.profile.readBody reply))

/-! ## Backoff -/

/-- At least half of the smaller of the two settings, and at most `ErrorBackoffMax`. -/
def BackoffBounded (p : Profile) (d : Int) : Prop :=
  min p.errorBackoffBase p.errorBackoffMax / 2 ≤ d ∧ d ≤ p.errorBackoffMax

/-- A retry hint below an `ErrorBackoffBase` that is above `ErrorBackoffMax`. -/
def HintUnderBase (p : Profile) (err : GrantErr) : Prop :=
  p.errorBackoffMax < p.errorBackoffBase ∧
    ∃ n retryAfter code, err = .status n retryAfter code ∧ 0 < retryAfter ∧ retryAfter < p.errorBackoffBase

/-! ## Retry hints -/

structure DecimalHeader (header : String) (n : Nat) : Prop where
  digits : Strconv.digits header.toList
  value : Strconv.decimal header.toList = n

/-- On decimal digits, which are no HTTP date, `Atoi` is that of `strconv`. -/
structure ReadsDecimals (lib : Lib) : Prop where
  atoi : ∀ header, Strconv.digits header.toList → lib.atoi header = Strconv.atoi header
  date : ∀ header, Strconv.digits header.toList → lib.untilHTTPDate header = none

def Ordered (p : Profile) : Prop :=
  0 < p.errorBackoffBase ∧ p.errorBackoffBase ≤ p.errorBackoffMax ∧ p.errorBackoffMax ≤ maxInt64

/-- A transient failure with this `Retry-After`. -/
def Hints (lib : Lib) (header : String) (r : GrantReply) : Prop :=
  r.retryAfter = header ∧ ∃ status retryAfter code, classifyFailure lib r = .status status retryAfter code

/-- The backoff for a hint of `n` seconds is that, clamped, and no shorter than for a smaller hint. -/
structure Honoured (lib : Lib) (header : String) (n : Nat) : Prop where
  clamped : ∀ p r failCount draw, Ordered p → Hints lib header r →
    backoffFor p (classifyFailure lib r) failCount draw =
      max p.errorBackoffBase (min p.errorBackoffMax (n * second))
  monotone : ∀ header' m, DecimalHeader header' m → 1 ≤ m → m ≤ n →
    ∀ p r r' failCount failCount' draw draw', Ordered p → Hints lib header r → Hints lib header' r' →
      backoffFor p (classifyFailure lib r') failCount' draw' ≤ backoffFor p (classifyFailure lib r) failCount draw

/-! ## Idle credentials -/

def ticks : History → Int
  | [] => 0
  | (.tick d, _) :: tr => d + ticks tr
  | _ :: tr => ticks tr

/-- `Mint` was called for the key when the clock was `t`. -/
def Presented (env : Env) (tr : History) (key : String) (t : Int) : Prop :=
  ∃ post c o pre, tr = post ++ (Act.mint c, o) :: pre ∧ env.key c = key ∧ t = env.start + ticks pre

/-- A `mintOne` that read the clock value `t` started a grant for the key. -/
def Started (tr : History) (key : String) (t : Int) : Prop := ∃ g ∈ grants tr, g.key = key ∧ g.now = t

/-- Something was done for the key within `ttl` before `now`. -/
def ActiveWithin (env : Env) (tr : History) (key : String) (now ttl : Int) : Prop :=
  ∃ t, (Presented env tr key t ∨ Started tr key t) ∧ now - t < ttl

/-- A credential that was active within the `IdleTTL` of its profile. -/
def ActiveCredential (env : Env) (tr : History) (now : Int) (key : String) : Prop :=
  ∃ c p, env.key c = key ∧ env.cfg.profile c.profileName = some p ∧ ActiveWithin env tr key now p.idleTTL

/-- The map has a token for the key that is usable at `now`. -/
def HoldsToken (m : Minter) (now : Int) (key : String) : Prop := ∃ r, Stored m key r ∧ r.usable now = true

/-- What a `Sweep` at `now` leaves: entries of active credentials, or with usable tokens. -/
structure Reclaimed (env : Env) (tr : History) (now : Int) (m : Minter) : Prop where
  entries : ∀ key st, (key, st) ∈ m.state → ∃ p, env.cfg.profile (m.cells st).profileName = some p ∧
    (ActiveWithin env tr key now p.idleTTL ∨ ∃ r, (m.cells st).result = some r ∧ r.usable now = true)
  bounded : ∀ keys : List String, (∀ key, ActiveCredential env tr now key ∨ HoldsToken m now key → key ∈ keys) →
    m.state.rows.length ≤ keys.length

/-- Entries for which no grant was ever answered are of active credentials. -/
def NewOnesActive (env : Env) (tr : History) (now : Int) (m : Minter) : Prop :=
  ∀ key st p, (key, st) ∈ m.state → (m.cells st).lastMintAt = 0 →
    env.cfg.profile (m.cells st).profileName = some p → ActiveWithin env tr key now p.idleTTL

/-! ## Where tokens come from -/

def Called (tr : History) (c : MintCall) : Prop := ∃ o, (Act.mint c, o) ∈ tr

def keyText (c : MintCall) : Bytes := c.profileName ++ 0 :: c.clientID

/-- The grant `g` gave `r`: it was made with the client id and the secret of a call of `Mint`, under its
profile. -/
def Produced (env : Env) (tr : History) (g : Grant) (r : Result) : Prop :=
  Called tr g.call ∧ env.cfg.profile g.call.profileName = some g.profile ∧ ∃ up draw resp st,
    (Act.answer g.key up draw, Obs.answered g (.ok resp) st) ∈ tr ∧ r = resultFrom g.now g.profile resp ∧
    doGrant env.lib env.cfg.toConfig g.profile g.call.clientID g.call.clientSecret up = .ok resp

end

/-! ## Egress -/

open Impl.TokenMint Csar.Net Spec.Clientx

/-- The unspecified addresses reach the local host. -/
def unspecifiedNets : List (IP × Nat) := [([0, 0, 0, 0], 32), (v6 0 0 0, 128)]

def requests : List (Http.Event Url GrantRequest Target) → List (Http.Request Url GrantRequest)
  | [] => []
  | .requested r :: events => r :: requests events
  | .opened _ _ :: events => requests events

/-- One request, to the token URL of the profile, over connections for an allowed host, to addresses that
are neither internal nor unspecified. -/
structure CredentialEgress (lib : Lib) (cfg : Config) (p : Profile)
    (events : List (Http.Event Url GrantRequest Target)) : Prop where
  hosts : ∀ u k, .opened u k ∈ events → ∃ h ∈ cfg.allowedHosts, lib.trimLower h = lib.trimLower u.hostname
  addresses : ∀ u k, .opened u k ∈ events →
    ∃ ip, k = .address ip ∧ ¬ InNets internalNets ip.1 ∧ ¬ InNets unspecifiedNets ip.1
  request : ∃ r, requests events = [r] ∧ lib.parseUrl p.tokenURL = .ok r.url

def answers (env : List (Http.Exchange Resolution Content)) : List Resolution :=
  (env.head?.map Http.Exchange.dials).getD []

/-- An answer that begins with an unspecified address and has no internal one. -/
def Unspecified (answer : Resolution) : Prop :=
  ∃ ip ips, answer = .ok (ip :: ips) ∧ InNets unspecifiedNets ip.1 ∧ ∀ ip' ∈ ip :: ips, ¬ InNets internalNets ip'.1

end Csar.Spec.TokenMint
