import CsarCore.Framework.Run
import CsarCore.Impl.Jwtx.Jwk

/-!
# Keys from a URL

From `jwtx/jwk_remote.go`. `findKey` is cut where it takes the lock or waits for the
server: it reads the cache, waits for a fetch, drops the cache and reads it again. An
instant is an integer that does not go back, as Go's monotonic clock does not.
-/

namespace Csar.Impl.Jwtx

structure RemoteJWKSCache where
  keys : List JWK
  fetchedAt : Int
  deriving DecidableEq

inductive FetchError
  | get
  | status (code : Nat)
  | decoding
  deriving DecidableEq

inductive FindError
  | fetch (err : FetchError)
  | noMatchingKey (kid alg : Bytes)
  deriving DecidableEq

def matchKey (keys : List JWK) (kid alg : Bytes) : Option JWK :=
  keys.find? fun k => (kid = [] ∨ k.kid = kid) ∧ (k.alg = [] ∨ k.alg = alg) ∧ (k.use = [] ∨ k.use = utf8 "sig")

/-- `KeyFunc`, with the key set that a lookup comes to. -/
def keyFuncOf (keys : List JWK) (kid alg : Bytes) : Except (FindError ⊕ JWKError) CryptoKey :=
  match matchKey keys kid alg with
  | none => .error (.inl (.noMatchingKey kid alg))
  | some jwk => (jwkToPublicKey jwk).mapError .inr

/-- In the first fetch, behind a miss, behind the drop, in the second fetch. -/
inductive Stage
  | first
  | missed
  | dropped
  | second
  deriving DecidableEq

structure Lookup where
  kid : Bytes
  alg : Bytes
  stage : Stage
  deriving DecidableEq

/-- With the clock and the lookups that have not returned, under their numbers. -/
structure RemoteJWKS where
  ttl : Int
  now : Int
  cache : Option RemoteJWKSCache
  lookups : Nat → Option Lookup
  next : Nat

inductive RemoteAction
  /-- A call of `findKey`, up to its first wait. -/
  | lookup (now : Int) (kid alg : Bytes)
  /-- A fetch comes to its end. -/
  | fetched (now : Int) (id : Nat) (outcome : Except FetchError (List JWK))
  /-- A lookup that missed drops the cache. -/
  | drop (now : Int) (id : Nat)
  /-- It reads the cache for the second time. -/
  | reread (now : Int) (id : Nat)

inductive Progress
  | waiting
  | returned (result : Except FindError JWK)
  deriving DecidableEq

def RemoteAction.now : RemoteAction → Int
  | .lookup now _ _ => now
  | .fetched now _ _ => now
  | .drop now _ => now
  | .reread now _ => now

namespace RemoteJWKS

variable (r : RemoteJWKS)

/-- The keys of the cache, if they are not too old. -/
def cached (now : Int) : Option (List JWK) :=
  match r.cache with
  | some c => if now - c.fetchedAt < r.ttl then some c.keys else none
  | none => none

def wait (id : Nat) (kid alg : Bytes) (stage : Stage) : RemoteJWKS :=
  { r with lookups := Function.update r.lookups id (some ⟨kid, alg, stage⟩) }

def done (id : Nat) : RemoteJWKS := { r with lookups := Function.update r.lookups id none }

/-- What a lookup does with a key set: `again` if it has fetched once only. -/
def found (id : Nat) (kid alg : Bytes) (keys : List JWK) (again : Bool) : RemoteJWKS × Progress :=
  match matchKey keys kid alg with
  | some key => (r.done id, .returned (.ok key))
  | none => if again then (r.wait id kid alg .missed, .waiting) else (r.done id, .returned (.error (.noMatchingKey kid alg)))

def step (a : RemoteAction) : Option (RemoteJWKS × Progress) :=
  if a.now < r.now then none
  else
    let r := { r with now := a.now }
    match a with
    | .lookup now kid alg =>
      let id := r.next
      let r := { r with next := id + 1 }
      match r.cached now with
      | some keys => some (r.found id kid alg keys true)
      | none => some (r.wait id kid alg .first, .waiting)
    | .fetched now id outcome =>
      match r.lookups id with
      | some ⟨kid, alg, stage⟩ =>
        if stage = .first ∨ stage = .second then
          match outcome with
          | .error err => some (r.done id, .returned (.error (.fetch err)))
          | .ok keys =>
            let r := { r with cache := some ⟨keys, now⟩ }
            some (r.found id kid alg keys (stage = .first))
        else none
      | none => none
    | .drop _ id =>
      match r.lookups id with
      | some ⟨kid, alg, .missed⟩ =>
        let r := { r with cache := none }
        some (r.wait id kid alg .dropped, .waiting)
      | _ => none
    | .reread now id =>
      match r.lookups id with
      | some ⟨kid, alg, .dropped⟩ =>
        match r.cached now with
        | some keys => some (r.found id kid alg keys false)
        | none => some (r.wait id kid alg .second, .waiting)
      | _ => none

end RemoteJWKS

def newRemoteJWKS (ttl now : Int) : RemoteJWKS := ⟨ttl, now, none, fun _ => none, 0⟩

def remoteSystem (ttl start : Int) : System RemoteJWKS RemoteAction Progress where
  init := newRemoteJWKS ttl start
  step := RemoteJWKS.step

end Csar.Impl.Jwtx
