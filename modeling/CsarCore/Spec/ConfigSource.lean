import CsarCore.Impl.ConfigSource.Manifest
import CsarCore.Impl.ConfigSource.Watcher

/-!
# What the histories of a watcher and of a manifest source say

The last content that was applied, and whether an application has failed since; and,
from these, when a fetch is a case of tampering. The service's entry in the manifest
that was delivered last, the configuration that was returned last, and whether that
manifest led to an error; and what a source sends.
-/

namespace Csar.Spec.ConfigSource

open Impl.ConfigSource

abbrev History := List (Poll × Applied)

/-- The bytes and the tag of the last successful call of the `ApplyFunc`. -/
def lastApplied : History → Option (Bytes × String)
  | [] => none
  | (_, ⟨.ok _, some call⟩) :: _ => some call
  | _ :: tr => lastApplied tr

/-- A call of the `ApplyFunc` has failed since that. -/
def failedSince : History → Bool
  | [] => false
  | (_, ⟨.ok _, some _⟩) :: _ => false
  | (_, ⟨.error _, some _⟩) :: _ => true
  | _ :: tr => failedSince tr

def Rejected (r : Except ApplyErr Bool) : Prop :=
  ∃ etag last current, r = .error (.hash (.integrity etag last current))

/-- The fetch has the tag of the last applied content, which is not empty, but another hash. -/
def Tampered (sum256 : Bytes → Digest) (tr : History) (data : Bytes) (etag : String) : Prop :=
  etag ≠ "" ∧ ∃ d, lastApplied tr = some (d, etag) ∧ computeSHA256 sum256 data ≠ computeSHA256 sum256 d

/-! ## Manifests -/

abbrev ManifestHistory := List (ManifestPoll × Fetched)

/-- Data that a `Fetch` returned: its version and checksum, and where it was read. -/
structure Delivery where
  version : String
  cksum : String
  location : Location
  data : Bytes

def ManifestPoll.hasManifest (p : ManifestPoll) : Bool :=
  match p.bootstrap with
  | .ok ⟨some _, _⟩ => true
  | _ => false

def current : ManifestHistory → Option ServiceManifest
  | [] => none
  | (p, o) :: tr => if ManifestPoll.hasManifest p then o.entry else current tr

def delivered : ManifestHistory → Option Delivery
  | [] => none
  | (_, ⟨some svc, some loc, .ok ⟨some data, _⟩⟩) :: _ => some ⟨svc.version, svc.config.cksum, loc, data⟩
  | _ :: tr => delivered tr

def manifestFailed : ManifestHistory → Bool
  | [] => false
  | (p, o) :: tr => if ManifestPoll.hasManifest p then !o.result.isOk else manifestFailed tr

def ReadsAt (quote : String → String) (authErr : Option String) (cr : ConfigResource) (loc : Location) : Prop :=
  ∃ src, buildSourceFromResource quote authErr cr = .ok src ∧ src.location = loc

/-- What was returned last was read from the resource of the entry, under its version, with its checksum. -/
def Delivers (quote : String → String) (authErr : Option String) (sum256 : Bytes → Digest)
    (svc : ServiceManifest) (d : Delivery) : Prop :=
  ReadsAt quote authErr svc.config d.location ∧ d.version = svc.version ∧
    ∀ c, svc.config.checksum = some c → computeSHA256 sum256 d.data = c.value

/-! ## Requests -/

def sentHeaders : Source → Header
  | .http s => { s with lastETag := "" }.request
  | _ => []

/-- Two sources send the same headers to the same place, with the credentials of the manifest source. -/
def SameRequest (a b : Source) : Prop :=
  a.location = b.location ∧ ∀ key, (sentHeaders a).lookup key = (sentHeaders b).lookup key

/-- A kept source of the provider `http` that is taken was built with headers that are sent as those of
the resource. -/
def HeadersKept (ms : ManifestSource) (cr : ConfigResource) : Prop :=
  ∀ src old, ms.resolved = some (src, old) → configResourceEqual old cr = true → cr.provider = "http" →
    ∀ key, (newHTTPSource "" old.headers).request.lookup key = (newHTTPSource "" cr.headers).request.lookup key

end Csar.Spec.ConfigSource
