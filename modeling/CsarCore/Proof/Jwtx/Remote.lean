import CsarCore.Spec.Jwtx

/-!
# Known keys stay

A fetch that succeeds stores its keys, a drop empties the cache, nothing else changes it
(`step_spec`). So if no set is dropped while it is not too old, the last one is in the
cache until it is (`Kept`): `known_key_found`. A lookup of a key that does not exist
drops it: `unknown_kid_evicts`.
-/

namespace Csar.Proof.Jwtx

open Impl.Jwtx Spec.Jwtx

variable {r r' : RemoteJWKS} {a : RemoteAction} {o : Progress} {ttl start : Int}

/-! ## Steps -/

def cacheAfter (a : RemoteAction) (cache : Option RemoteJWKSCache) : Option RemoteJWKSCache :=
  match a with
  | .fetched now _ (.ok keys) => some ⟨keys, now⟩
  | .drop _ _ => none
  | _ => cache

structure StepSpec (r : RemoteJWKS) (a : RemoteAction) (r' : RemoteJWKS) : Prop where
  forward : r.now ≤ a.now
  now : r'.now = a.now
  ttl : r'.ttl = r.ttl
  cache : r'.cache = cacheAfter a r.cache

theorem found_spec (r : RemoteJWKS) (id : Nat) (kid alg : Bytes) (keys : List JWK) (again : Bool) :
    (r.found id kid alg keys again).1.now = r.now ∧ (r.found id kid alg keys again).1.ttl = r.ttl ∧
      (r.found id kid alg keys again).1.cache = r.cache := by
  unfold RemoteJWKS.found
  split
  · exact ⟨rfl, rfl, rfl⟩
  · split <;> exact ⟨rfl, rfl, rfl⟩

theorem step_spec (h : r.step a = some (r', o)) : StepSpec r a r' := by
  unfold RemoteJWKS.step at h
  split at h
  · cases h
  rename_i hnow
  have hforward : r.now ≤ a.now := Int.not_lt.mp hnow
  have hfound : ∀ {q : RemoteJWKS} {id : Nat} {kid alg : Bytes} {keys : List JWK} {again : Bool},
      some (q.found id kid alg keys again) = some (r', o) → q.now = a.now → q.ttl = r.ttl →
        q.cache = cacheAfter a r.cache → StepSpec r a r' := by
    intro q id kid alg keys again hq hn ht hc
    have hspec := found_spec q id kid alg keys again
    rw [Option.some.inj hq] at hspec
    exact ⟨hforward, hspec.1.trans hn, hspec.2.1.trans ht, hspec.2.2.trans hc⟩
  cases a with
  | lookup now kid alg =>
    dsimp only at h
    split at h
    · exact hfound h rfl rfl rfl
    · cases h
      exact ⟨hforward, rfl, rfl, rfl⟩
  | fetched now id outcome =>
    dsimp only at h
    split at h
    · split at h
      · split at h
        · cases h
          exact ⟨hforward, rfl, rfl, rfl⟩
        · exact hfound h rfl rfl rfl
      · cases h
    · cases h
  | drop now id =>
    dsimp only at h
    split at h
    · cases h
      exact ⟨hforward, rfl, rfl, rfl⟩
    · cases h
  | reread now id =>
    dsimp only at h
    split at h
    · split at h
      · exact hfound h rfl rfl rfl
      · cases h
        exact ⟨hforward, rfl, rfl, rfl⟩
    · cases h

/-! ## The cache -/

/-- The set that was stored last is in the cache, or too old, or has no key. -/
structure Kept (ttl : Int) (tr : List (RemoteAction × Progress)) (r : RemoteJWKS) : Prop where
  ttl_eq : r.ttl = ttl
  stored : ∀ c, lastStored tr = some c →
    r.cache = some c ∨ ttl ≤ r.now - c.fetchedAt ∨ ∀ kid alg, matchKey c.keys kid alg = none

theorem cached_eq {c : RemoteJWKSCache} {now : Int} (hc : r.cache = some c) (h : now - c.fetchedAt < r.ttl) :
    r.cached now = some c.keys := by
  rw [RemoteJWKS.cached, hc]
  exact if_pos h

theorem Kept.step {tr : List (RemoteAction × Progress)} (hk : Kept ttl tr r) (hc : Harmless tr r a)
    (h : r.step a = some (r', o)) : Kept ttl ((a, o) :: tr) r' := by
  have hspec := step_spec h
  refine ⟨hspec.ttl.trans hk.ttl_eq, fun c hlast => ?_⟩
  -- a set that is left alone only gets older
  have hold : lastStored tr = some c → r'.cache = r.cache →
      r'.cache = some c ∨ ttl ≤ r'.now - c.fetchedAt ∨ ∀ kid alg, matchKey c.keys kid alg = none := by
    intro hlast hcache
    have hforward := hspec.forward
    rw [hcache, hspec.now]
    exact (hk.stored c hlast).imp_right fun h => h.imp_left fun h => by omega
  cases a with
  | lookup now kid alg | reread now id => exact hold hlast hspec.cache
  | fetched now id outcome =>
    cases outcome with
    | error err => exact hold hlast hspec.cache
    | ok keys =>
      cases hlast
      exact .inl hspec.cache
  | drop now id =>
    have hforward : r.now ≤ now := hspec.forward
    have hnow : r'.now = now := hspec.now
    rcases hk.stored c hlast with hcache | hage | hnone
    · by_cases hfresh : now - c.fetchedAt < r.ttl
      · exact .inr (.inr (hc now id rfl c.keys (cached_eq hcache hfresh)))
      · refine .inr (.inl ?_)
        rw [hnow, ← hk.ttl_eq]
        exact Int.not_lt.mp hfresh
    · refine .inr (.inl ?_)
      rw [hnow]
      omega
    · exact .inr (.inr hnone)

theorem run_kept {tr : List (RemoteAction × Progress)} (h : (remoteSystem ttl start).RunIf Harmless tr r) : Kept ttl tr r :=
  System.RunIf.inv (I := Kept ttl) ⟨rfl, fun _ h => by cases h⟩ (fun hk hc hs => hk.step hc hs) h

/-- In every interleaving in which no set with a key is dropped before it is too old: while the set
stored last is not too old, a lookup of a key of it returns that key. -/
theorem known_key_found (ttl start : Int) {tr : List (RemoteAction × Progress)} {r : RemoteJWKS}
    (h : (remoteSystem ttl start).RunIf Harmless tr r) {c : RemoteJWKSCache} (hc : lastStored tr = some c)
    {kid alg : Bytes} {key : JWK} (hkey : matchKey c.keys kid alg = some key) {now : Int} (hnow : r.now ≤ now)
    (httl : now < c.fetchedAt + ttl) :
    ∃ r', (remoteSystem ttl start).step r (.lookup now kid alg) = some (r', .returned (.ok key)) := by
  have hk := run_kept h
  have hcache : r.cache = some c := by
    rcases hk.stored c hc with hcache | hage | hnone
    · exact hcache
    · omega
    · rw [hnone] at hkey
      cases hkey
  have hcached : RemoteJWKS.cached { r with now := now, next := r.next + 1 } now = some c.keys :=
    cached_eq hcache (by have := hk.ttl_eq; dsimp only; omega)
  refine ⟨RemoteJWKS.done { r with now := now, next := r.next + 1 } r.next, ?_⟩
  have hforward : ¬ (RemoteAction.lookup now kid alg).now < r.now := Int.not_lt.mpr hnow
  show r.step (.lookup now kid alg) = _
  rw [RemoteJWKS.step, if_neg hforward]
  dsimp only [RemoteAction.now]
  rw [hcached]
  dsimp only
  rw [RemoteJWKS.found, hkey]

def knownKey : JWK := { kid := [1] }

def firstFetch : List RemoteAction := [.lookup 0 [1] [2], .fetched 0 0 (.ok [knownKey])]

/-- Another key is looked up, and the set is not dropped yet. -/
theorem known_key_found_again :
    ∃ tr r, (remoteSystem 300 0).RunIf Harmless tr r ∧ (∃ e ∈ tr, e.1 = .lookup 1 [9] [2]) ∧
      ∃ r', (remoteSystem 300 0).step r (.lookup 299 [1] [2]) = some (r', .returned (.ok knownKey)) := by
  have hrun : (remoteSystem 300 0).RunIf Harmless _ _ :=
    System.RunIf.init.step (a := .lookup 0 [1] [2]) (fun _ _ h => by cases h) rfl
  have hrun₁ := hrun.step (a := .fetched 0 0 (.ok [knownKey])) (fun _ _ h => by cases h) rfl
  have hrun₂ := hrun₁.step (a := .lookup 1 [9] [2]) (fun _ _ h => by cases h) rfl
  exact ⟨_, _, hrun₂, ⟨_, List.mem_cons_self, rfl⟩,
    known_key_found 300 0 hrun₂ (c := ⟨[knownKey], 0⟩) rfl rfl (by decide) (by decide)⟩

/-- A lookup of another key drops the set and its fetch fails; so a lookup of the known key has to fetch
and fails too. -/
theorem unknown_kid_evicts :
    ∃ tr r, (remoteSystem 300 0).Run tr r ∧ lastStored tr = some ⟨[knownKey], 0⟩ ∧
      matchKey [knownKey] [1] [2] = some knownKey ∧ r.now = 1 ∧
      ∃ r₁ r₂, (remoteSystem 300 0).step r (.lookup 2 [1] [2]) = some (r₁, .waiting) ∧
        (remoteSystem 300 0).step r₁ (.fetched 2 r.next (.error .get)) =
          some (r₂, .returned (.error (.fetch .get))) := by
  have hrun := System.run_of_exec (remoteSystem 300 0)
    (firstFetch ++ [.lookup 1 [9] [2], .drop 1 1, .reread 1 1, .fetched 1 1 (.error .get)]) rfl
  exact ⟨_, _, hrun, rfl, rfl, rfl, _, _, rfl, rfl⟩

end Csar.Proof.Jwtx
