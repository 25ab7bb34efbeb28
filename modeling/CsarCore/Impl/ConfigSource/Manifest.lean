import CsarCore.Framework.Table
import CsarCore.Impl.ConfigSource.HTTP

/-!
# The manifest source (`configsource/manifest.go`, `configsource/source_manifest.go`)

`ManifestSource.Fetch` over any bootstrap source, with the source that it resolves and
keeps. The JSON decoder (`decode`), `%q` (`quote`) and SHA-256 (`sum256`) are parameters.
-/

namespace Csar.Impl.ConfigSource

/-! ## The manifest -/

structure ChecksumInfo where
  algorithm : String
  value : String
  deriving DecidableEq

structure ConfigResource where
  provider : String
  path : String
  bucket : String
  region : String
  endpoint : String
  checksum : Option ChecksumInfo
  headers : List (String × String)
  deriving DecidableEq

structure ServiceManifest where
  version : String
  active : Option Bool
  config : ConfigResource
  deriving DecidableEq

structure Manifest where
  manifestVersion : String
  services : Table (String × ServiceManifest) Prod.fst

def ServiceManifest.isActive (sm : ServiceManifest) : Bool := sm.active = none ∨ sm.active = some true

def supportedManifestVersions : List String := ["1", "1.0", "1.1"]

section Parse

variable (quote : String → String)

/-- The checksum part of `ConfigResource.Validate`. -/
def ChecksumInfo.validate (c : ChecksumInfo) : Except String Unit :=
  if c.algorithm = "" then .error "checksum.algorithm is required when checksum is present"
  else if c.value = "" then .error "checksum.value is required when checksum is present"
  else if c.algorithm ≠ "sha256" then
    .error ("unsupported checksum algorithm " ++ quote c.algorithm ++ "; supported: sha256")
  else .ok ()

/-- The provider part of `ConfigResource.Validate`. -/
def ConfigResource.validateProvider (cr : ConfigResource) : Except String Unit :=
  if cr.provider = "s3" then
    if cr.bucket = "" then .error ("config provider " ++ quote cr.provider ++ " requires bucket")
    else if cr.path = "" then .error ("config provider " ++ quote cr.provider ++ " requires path")
    else .ok ()
  else if cr.provider = "file" then
    if cr.path = "" then .error ("config provider " ++ quote cr.provider ++ " requires path") else .ok ()
  else if cr.provider = "http" then
    if cr.path = "" then .error ("config provider " ++ quote cr.provider ++ " requires path (URL)")
    else .ok ()
  else if cr.provider = "" then .error "config provider is required"
  else .error ("unsupported config provider " ++ quote cr.provider ++ "; supported: s3, file, http")

def ConfigResource.validate (cr : ConfigResource) : Except String Unit :=
  match cr.validateProvider quote with
  | .error e => .error e
  | .ok () =>
    match cr.checksum with
    | none => .ok ()
    | some c => c.validate quote

def checkServices : List (String × ServiceManifest) → Except String Unit
  | [] => .ok ()
  | (name, svc) :: rest =>
    if svc.version = "" then .error ("service " ++ quote name ++ ": version is required")
    else match svc.config.validate quote with
      | .error e => .error ("service " ++ quote name ++ ": " ++ e)
      | .ok () => checkServices rest

def parseManifest (decode : Bytes → Except String Manifest) (data : Bytes) : Except String Manifest :=
  match decode data with
  | .error e => .error ("parsing manifest JSON: " ++ e)
  | .ok m =>
    if m.manifestVersion ∉ supportedManifestVersions then
      .error ("unsupported manifest_version " ++ quote m.manifestVersion ++ "; supported: 1, 1.0, 1.1")
    else if m.services.rows = [] then .error "manifest contains no service entries"
    else match checkServices quote m.services.rows with
      | .error e => .error e
      | .ok () => .ok m

def Manifest.lookupService (m : Manifest) (name : String) : Except String ServiceManifest :=
  match m.services.find? name with
  | none => .error ("service " ++ quote name ++ " not found in manifest; available: [" ++
      ", ".intercalate (m.services.rows.map Prod.fst) ++ "]")
  | some (_, svc) =>
    if svc.isActive then .ok svc
    else .error ("service " ++ quote name ++ " is marked inactive in manifest (version " ++ svc.version ++ ")")

end Parse

/-! ## The provider's source -/

inductive Source
  | file (path : String)
  | s3 (bucket endpoint region key : String)
  | http (s : HTTPSource)

inductive Location
  | file (path : String)
  | s3 (bucket endpoint region key : String)
  | http (url : String)
  deriving DecidableEq

def Source.location : Source → Location
  | .file path => .file path
  | .s3 bucket endpoint region key => .s3 bucket endpoint region key
  | .http s => .http s.url

/-- The modification time and size of a file and its bytes, an object and its tag, the reply to a request. -/
structure World where
  stat : Except String (Int × Int)
  read : Except String Bytes
  object : Except String (Bytes × String)
  reply : Reply

def fileFetch (path : String) (world : World) : Except String FetchedConfig :=
  match world.stat with
  | .error e => .error ("stat config file " ++ path ++ ": " ++ e)
  | .ok (mtime, size) =>
    match world.read with
    | .error e => .error ("reading config file " ++ path ++ ": " ++ e)
    | .ok data => .ok ⟨some data, "mtime:" ++ toString mtime ++ ":size:" ++ toString size⟩

def s3Fetch (key : String) (world : World) : Except String FetchedConfig :=
  match world.object with
  | .error e => .error ("fetching config from s3://" ++ key ++ ": " ++ e)
  | .ok (body, etag) => .ok ⟨some body, etag⟩

def Source.fetch (src : Source) (world : World) : Source × Except String FetchedConfig :=
  match src with
  | .file path => (src, fileFetch path world)
  | .s3 _ _ _ key => (src, s3Fetch key world)
  | .http s => (.http (s.fetch world.reply).1, (s.fetch world.reply).2)

/-- `authErr` is what `s3store.NewClient` says of the credentials. -/
def buildSourceFromResource (quote : String → String) (authErr : Option String) (cr : ConfigResource) :
    Except String Source :=
  if cr.provider = "file" then .ok (.file cr.path)
  else if cr.provider = "s3" then
    let endpoint := if cr.endpoint = "" then "https://storage.yandexcloud.net" else cr.endpoint
    let region := if cr.region = "" then "ru-central1" else cr.region
    if cr.bucket = "" then
      .error "creating S3 client for manifest resource: s3store: bucket is required"
    else match authErr with
      | some e => .error ("creating S3 client for manifest resource: " ++ e)
      | none => .ok (.s3 cr.bucket endpoint region cr.path)
  else if cr.provider = "http" then
    .ok (.http (newHTTPSource (if cr.endpoint ≠ "" then cr.endpoint ++ cr.path else cr.path) cr.headers))
  else .error ("unsupported manifest config provider " ++ quote cr.provider)

def configResourceEqual (a b : ConfigResource) : Bool :=
  if a.provider ≠ b.provider ∨ a.path ≠ b.path then false
  else if a.bucket ≠ b.bucket ∨ a.region ≠ b.region ∨ a.endpoint ≠ b.endpoint then false
  else true

/-! ## The manifest source -/

structure ManifestSource where
  serviceName : String
  authErr : Option String
  lastVersion : String
  lastCksum : String
  resolved : Option (Source × ConfigResource)

def newManifestSource (serviceName : String) (authErr : Option String) : ManifestSource :=
  ⟨serviceName, authErr, "", "", none⟩

/-- What a `Fetch` returns; the entry that it looked up, and where it read the configuration, if it came
to that. -/
structure Fetched where
  entry : Option ServiceManifest
  location : Option Location
  result : Except String FetchedConfig

def ConfigResource.cksum (cr : ConfigResource) : String := (cr.checksum.map ChecksumInfo.value).getD ""

section Fetch

variable (quote : String → String) (decode : Bytes → Except String Manifest) (sum256 : Bytes → Digest)

/-- The kept source, if its resource is the same asset, or a new one, with its resource. -/
def ManifestSource.resolveSource (ms : ManifestSource) (cr : ConfigResource) :
    Except String (Source × ConfigResource) :=
  let build := match buildSourceFromResource quote ms.authErr cr with
    | .error e => .error e
    | .ok src => .ok (src, cr)
  match ms.resolved with
  | some (src, old) => if configResourceEqual old cr then .ok (src, old) else build
  | none => build

/-- The entry of the service in a manifest. -/
def ManifestSource.lookup (ms : ManifestSource) (data : Bytes) : Except String ServiceManifest :=
  match parseManifest quote decode data with
  | .error e => .error ("manifest parse: " ++ e)
  | .ok m =>
    match m.lookupService quote ms.serviceName with
    | .error e => .error ("manifest lookup: " ++ e)
    | .ok svc => .ok svc

def verifyChecksum (name : String) (checksum : Option ChecksumInfo) (data : Bytes) : Except String Unit :=
  match checksum with
  | none => .ok ()
  | some c =>
    if computeSHA256 sum256 data ≠ c.value then
      .error ("config checksum mismatch for " ++ name ++ ": manifest expects " ++ c.algorithm ++ " " ++
        c.value ++ ", got " ++ computeSHA256 sum256 data)
    else .ok ()

/-- `Fetch` from the entry on, with the tag of the manifest. -/
def ManifestSource.fetchService (ms : ManifestSource) (svc : ServiceManifest) (etag : String) (world : World) :
    ManifestSource × Fetched :=
  let cksum := svc.config.cksum
  let syntheticETag := "manifest:" ++ etag ++ ":svc:" ++ svc.version ++ ":cksum:" ++ cksum
  if svc.version = ms.lastVersion ∧ cksum = ms.lastCksum ∧ ms.lastVersion ≠ "" then
    (ms, ⟨some svc, none, .ok ⟨none, syntheticETag⟩⟩)
  else match ms.resolveSource quote svc.config with
    | .error e => (ms, ⟨some svc, none, .error ("resolving config source for " ++ ms.serviceName ++ ": " ++ e)⟩)
    | .ok (src, cr) =>
      -- the source is kept, with what its `Fetch` did to it
      let ms' := { ms with resolved := some ((src.fetch world).1, cr) }
      let loc := some src.location
      match (src.fetch world).2 with
      | .error e => (ms', ⟨some svc, loc, .error ("fetching config for " ++ ms.serviceName ++ " via " ++
          svc.config.provider ++ ": " ++ e)⟩)
      | .ok ⟨none, _⟩ => (ms', ⟨some svc, loc, .ok ⟨none, syntheticETag⟩⟩)
      | .ok ⟨some data, _⟩ =>
        match verifyChecksum sum256 ms.serviceName svc.config.checksum data with
        | .error e => (ms', ⟨some svc, loc, .error e⟩)
        | .ok () => ({ ms' with lastVersion := svc.version, lastCksum := cksum },
            ⟨some svc, loc, .ok ⟨some data, syntheticETag⟩⟩)

/-- `ManifestSource.Fetch`, given what the bootstrap source and the providers answer. -/
def ManifestSource.fetch (ms : ManifestSource) (bootstrap : Except String FetchedConfig) (world : World) :
    ManifestSource × Fetched :=
  match bootstrap with
  | .error e => (ms, ⟨none, none, .error ("fetching manifest: " ++ e)⟩)
  | .ok ⟨none, etag⟩ => (ms, ⟨none, none, .ok ⟨none, etag⟩⟩)
  | .ok ⟨some data, etag⟩ =>
    match ms.lookup quote decode data with
    | .error e => (ms, ⟨none, none, .error e⟩)
    | .ok svc => ms.fetchService quote sum256 svc etag world

/-- One call of `Fetch`: what the bootstrap source returns, and the world. -/
structure ManifestPoll where
  bootstrap : Except String FetchedConfig
  world : World

def manifestSystem (serviceName : String) (authErr : Option String) :
    System ManifestSource ManifestPoll Fetched where
  init := newManifestSource serviceName authErr
  step ms p := some (ms.fetch quote decode sum256 p.bootstrap p.world)

/-- `resolveSource` for a resource, and a `Fetch` of the source that it returns. -/
def ManifestSource.resolveAndFetch (ms : ManifestSource) (cr : ConfigResource) (world : World) :
    ManifestSource × Except String Source :=
  match ms.resolveSource quote cr with
  | .error e => (ms, .error e)
  | .ok (src, cr') => ({ ms with resolved := some ((src.fetch world).1, cr') }, .ok src)

/-- A manifest source that resolves one resource after the other. -/
def resolveSystem (serviceName : String) (authErr : Option String) :
    System ManifestSource (ConfigResource × World) (Except String Source) where
  init := newManifestSource serviceName authErr
  step ms a := some (ms.resolveAndFetch quote a.1 a.2)

end Fetch

end Csar.Impl.ConfigSource
