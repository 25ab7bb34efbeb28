import CsarCore.Framework.Run
import CsarCore.Impl.TokenMint.Client
import Mathlib.Logic.Function.Basic

/-!
# The minter (`tokenmint/minter.go`)

`Minter.Mint` and `Minter.Sweep`, cut at their lock sections and at the grant. Times
are nanoseconds after Go's zero time, which is 0.

`singleflight` runs one `mintOne` for a key at a time: a `Flight`, which other calls of
`Mint` for the key join. It works on a `mintState` (a cell, named by its address) that
it looks up once and keeps through the grant; the map may lose that entry meanwhile.
`Sweep` reads the clock first and goes over the map later. What the rate limiter says,
what becomes of a request and the draw of the jitter are choices.
-/

namespace Csar.Impl.TokenMint

/-! ## Results and backoff -/

structure Result where
  accessToken : String
  tokenType : String
  refreshAfter : Int
  hardExpiry : Int
  deriving DecidableEq

def Result.fresh (r : Result) (now : Int) : Bool := r.refreshAfter ≠ 0 ∧ now < r.refreshAfter

def Result.usable (r : Result) (now : Int) : Bool := r.hardExpiry ≠ 0 ∧ now < r.hardExpiry

/-- `Time.Sub`: the difference, or the nearest duration. -/
def timeSub (t u : Int) : Int := max minInt64 (min (t - u) maxInt64)

/-- The lifetime and the margin in `resultFrom`. -/
def lifetimeOf (p : Profile) (expiresIn : Int) : Int :=
  let lifetime := trunc (expiresIn * p.expiresInHaircut)
  if lifetime ≤ 0 then expiresIn else lifetime

def marginOf (p : Profile) (lifetime : Int) : Int :=
  if p.refreshMargin ≥ lifetime then lifetime.tdiv 2 else p.refreshMargin

def resultFrom (now : Int) (p : Profile) (resp : GrantResponse) : Result :=
  let lifetime := lifetimeOf p resp.expiresIn
  let hard := now + lifetime
  ⟨resp.accessToken, resp.tokenType, hard - marginOf p lifetime, hard⟩

def clampDuration (d lo hi : Int) : Int := if d < lo then lo else if 0 < hi ∧ d > hi then hi else d

/-- The doubling loop of `backoffFor`, at most `n` times. -/
def doubled (hi : Int) : Nat → Int → Int
  | 0, d => d
  | n + 1, d => if d < hi then doubled hi n (wrap64 (2 * d)) else d

/-- `backoffFor`. `draw` is what `rand` gives, before it is reduced. -/
def backoffFor (p : Profile) (err : GrantErr) (failCount : Nat) (draw : Nat) : Int :=
  let exponential :=
    let d := clampDuration (doubled p.errorBackoffMax (failCount - 1) p.errorBackoffBase)
      p.errorBackoffBase p.errorBackoffMax
    let half := d.tdiv 2
    half + draw % (half + 1)
  match err with
  | .invalidClient _ _ => p.authErrorBackoff
  | .status _ retryAfter _ =>
    if 0 < retryAfter then clampDuration retryAfter p.errorBackoffBase p.errorBackoffMax else exponential
  | _ => exponential

def credentialKey (lib : Lib) (profileName clientID : Bytes) : String :=
  hexEncode (lib.sum256 (profileName ++ 0 :: clientID)).toList

/-! ## The state of a credential -/

inductive MintErr
  | unknownProfile (name : Bytes)
  | backoff (until_ : Int) (cause : Option GrantErr)
  | minInterval (interval : Int)
  | rateLimited (name : Bytes) (perMinute : ℚ)
  | grant (e : GrantErr)

def MintErr.text (lib : Lib) : MintErr → String
  | .unknownProfile name => "tokenmint: unknown grant profile: " ++ lib.quoteBytes name
  | .backoff t cause => "tokenmint: mint in backoff until " ++ lib.formatTime t ++ ": " ++
      (cause.map (GrantErr.text lib)).getD "%!w(<nil>)"
  | .minInterval d => "tokenmint: mint throttled: min_refresh_interval " ++ lib.formatDuration d ++
      " has not elapsed"
  | .rateLimited name n => "tokenmint: mint throttled: profile " ++ lib.quoteBytes name ++
      " exceeded max_mints_per_minute (" ++ lib.formatFloat n ++ ")"
  | .grant e => e.text lib

/-- `mintState`. `result` is there if `hasResult`. -/
structure MintState where
  profileName : Bytes
  result : Option Result
  lastMintAt : Int
  failCount : Nat
  lastErr : Option GrantErr
  nextAttemptAt : Int

def MintState.new (profileName : Bytes) : MintState := ⟨profileName, none, 0, 0, none, 0⟩

/-- What the first lock section of `mintOne` decides. -/
inductive Gate
  | fresh (r : Result)
  | closed (e : MintErr)
  | pass

/-- The first lock section of `mintOne`. -/
def MintState.gate (st : MintState) (p : Profile) (now : Int) : Gate :=
  match st.result.filter fun r => r.fresh now with
  | some r => .fresh r
  | none =>
    if now < st.nextAttemptAt then .closed (.backoff st.nextAttemptAt st.lastErr)
    else if st.lastMintAt ≠ 0 ∧ timeSub now st.lastMintAt < p.minRefreshInterval then
      .closed (.minInterval p.minRefreshInterval)
    else .pass

/-- `if fallback { return cached, nil }`, else the error. -/
def fallbackOr (cached : Option Result) (now : Int) (e : MintErr) : Except MintErr Result :=
  match cached.filter fun r => r.usable now with
  | some r => .ok r
  | none => .error e

/-- The second lock section of `mintOne`, after a grant. -/
def MintState.granted (st : MintState) (p : Profile) (now : Int) (resp : GrantResponse) : MintState :=
  { st with
    lastMintAt := now, failCount := 0, lastErr := none, nextAttemptAt := 0
    result := some (resultFrom now p resp) }

/-- The same after a grant that failed. -/
def MintState.failed (st : MintState) (p : Profile) (now : Int) (e : GrantErr) (draw : Nat) : MintState :=
  { st with
    lastMintAt := now, failCount := st.failCount + 1, lastErr := some e
    nextAttemptAt := now + backoffFor p e (st.failCount + 1) draw }

def MintState.dropped (st : MintState) (cfg : Config) (now : Int) : Bool :=
  match cfg.profile st.profileName with
  | none => true
  | some p =>
    !(st.lastMintAt = 0 ∨ timeSub now st.lastMintAt < p.idleTTL) && !st.result.any fun r => r.usable now

/-! ## The system -/

structure MintCall where
  profileName : Bytes
  clientID : Bytes
  clientSecret : Bytes
  deriving DecidableEq

/-- Where a `mintOne` is: before it reads the clock; with the clock value; with its state; past the gate,
with the cached result; waiting for its grant; about to return. -/
inductive Pc
  | start
  | sampled (now : Int)
  | found (now : Int) (st : Nat)
  | passed (now : Int) (st : Nat) (cached : Option Result)
  | granting (now : Int) (st : Nat) (cached : Option Result)
  | returning (now : Int) (cached : Option Result) (out : Except MintErr Result)

def Pc.now? : Pc → Option Int
  | .start => none
  | .sampled now => some now
  | .found now _ => some now
  | .passed now _ _ => some now
  | .granting now _ _ => some now
  | .returning now _ _ => some now

def Pc.held? : Pc → Option Nat
  | .found _ st => some st
  | .passed _ st _ => some st
  | .granting _ st _ => some st
  | _ => none

/-- The call that runs a `mintOne`, with its profile, and all calls that wait for it. -/
structure Flight where
  call : MintCall
  profile : Profile
  callers : List MintCall
  pc : Pc

/-- `Minter`, with its flights and the sweeps that have read the clock. -/
structure Minter where
  clock : Int
  cells : Nat → MintState
  next : Nat
  state : Table (String × Nat) Prod.fst
  flights : String → Option Flight
  sweeps : List Int

/-- Time goes on; a call of `Mint`; a step of the `mintOne` of a key; the two steps of a `Sweep`. -/
inductive Act
  | tick (d : Nat)
  | mint (c : MintCall)
  | clock (key : String)
  | lookup (key : String)
  | gate (key : String)
  | limit (key : String) (allow : Bool)
  | answer (key : String) (up : Upstream) (draw : Nat)
  | finish (key : String)
  | sweepClock
  | sweep (now : Int)

/-- For which key and call, under which profile, and the clock value that its `mintOne` read. -/
structure Grant where
  key : String
  call : MintCall
  profile : Profile
  now : Int

/-- A grant is started, at a clock value; it is answered, and leaves the state as it is; the calls of a
flight return, with the clock value and the result that it read; entries are dropped. -/
inductive Obs
  | none
  | unknownProfile (name : Bytes)
  | started (g : Grant) (clock : Int)
  | answered (g : Grant) (resp : Except GrantErr GrantResponse) (st : MintState)
  | returned (callers : List MintCall) (now : Int) (cached : Option Result) (out : Except MintErr Result)
  | swept (keys : List String)

/-- The environment: the library, a configuration that passed `Validate`, and
the first reading of the clock, after Go's zero time. -/
structure Env where
  lib : Lib
  cfg : ValidConfig lib
  start : Int
  start_pos : 0 < start

section System

variable (env : Env)

def Env.key (c : MintCall) : String := credentialKey env.lib c.profileName c.clientID

def Minter.goto (m : Minter) (key : String) (f : Flight) (pc : Pc) : Minter :=
  { m with flights := Function.update m.flights key (some { f with pc := pc }) }

/-- `Mint`, up to its place in a flight. -/
def Minter.mint (m : Minter) (c : MintCall) : Minter × Obs :=
  match env.cfg.profile c.profileName with
  | .none => (m, .unknownProfile c.profileName)
  | some p =>
    let f : Flight := match m.flights (env.key c) with
      | some f => { f with callers := c :: f.callers }
      | .none => ⟨c, p, [c], .start⟩
    ({ m with flights := Function.update m.flights (env.key c) (some f) }, .none)

def Minter.stateFor (m : Minter) (key : String) (profileName : Bytes) : Minter × Nat :=
  match h : m.state.find? key with
  | some (_, st) => (m, st)
  | .none =>
    ({ m with
        state := m.state.insert (key, m.next) (Table.find?_eq_none.mp h)
        cells := Function.update m.cells m.next (.new profileName)
        next := m.next + 1 }, m.next)

def Flight.afterGate (f : Flight) (st : MintState) (now : Int) (addr : Nat) : Pc :=
  match st.gate f.profile now with
  | .fresh r => .returning now st.result (.ok r)
  | .closed e => .returning now st.result (fallbackOr st.result now e)
  | .pass => .passed now addr st.result

/-- After the grant: the state, and what is returned. -/
def Flight.afterGrant (f : Flight) (st : MintState) (now : Int) (cached : Option Result)
    (resp : Except GrantErr GrantResponse) (draw : Nat) : MintState × Except MintErr Result :=
  match resp with
  | .error e => (st.failed f.profile now e draw, fallbackOr cached now (.grant e))
  | .ok r => (st.granted f.profile now r, .ok (resultFrom now f.profile r))

def step (m : Minter) : Act → Option (Minter × Obs)
  | .tick d => some ({ m with clock := m.clock + d }, .none)
  | .mint c => some (m.mint env c)
  | .clock key =>
    match m.flights key with
    | some f => match f.pc with
      | .start => some (m.goto key f (.sampled m.clock), .none)
      | _ => .none
    | .none => .none
  | .lookup key =>
    match m.flights key with
    | some f => match f.pc with
      | .sampled now =>
        let r := m.stateFor key f.call.profileName
        some (r.1.goto key f (.found now r.2), .none)
      | _ => .none
    | .none => .none
  | .gate key =>
    match m.flights key with
    | some f => match f.pc with
      | .found now st => some (m.goto key f (f.afterGate (m.cells st) now st), .none)
      | _ => .none
    | .none => .none
  | .limit key allow =>
    match m.flights key with
    | some f => match f.pc with
      | .passed now st cached =>
        if allow then
          some (m.goto key f (.granting now st cached), .started ⟨key, f.call, f.profile, now⟩ m.clock)
        else
          some (m.goto key f (.returning now cached
            (fallbackOr cached now (.rateLimited f.call.profileName f.profile.maxMintsPerMinute))), .none)
      | _ => .none
    | .none => .none
  | .answer key up draw =>
    match m.flights key with
    | some f => match f.pc with
      | .granting now st cached =>
        let resp := doGrant env.lib env.cfg.toConfig f.profile f.call.clientID f.call.clientSecret up
        let r := f.afterGrant (m.cells st) now cached resp draw
        let m' := { m with cells := Function.update m.cells st r.1 }
        some (m'.goto key f (.returning now cached r.2), .answered ⟨key, f.call, f.profile, now⟩ resp r.1)
      | _ => .none
    | .none => .none
  | .finish key =>
    match m.flights key with
    | some f => match f.pc with
      | .returning now cached out =>
        some ({ m with flights := Function.update m.flights key .none }, .returned f.callers now cached out)
      | _ => .none
    | .none => .none
  | .sweepClock => some ({ m with sweeps := m.clock :: m.sweeps }, .none)
  | .sweep now =>
    if now ∈ m.sweeps then
      some ({ m with
          sweeps := m.sweeps.erase now
          state := m.state.deleteWhere fun e => (m.cells e.2).dropped env.cfg.toConfig now },
        .swept ((m.state.rows.filter fun e => (m.cells e.2).dropped env.cfg.toConfig now).map Prod.fst))
    else .none

def system : System Minter Act Obs where
  init := ⟨env.start, fun _ => .new [], 0, .empty, fun _ => .none, []⟩
  step := step env

end System

end Csar.Impl.TokenMint
