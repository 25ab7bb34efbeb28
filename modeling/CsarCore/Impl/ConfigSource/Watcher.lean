import CsarCore.Framework.Hex
import CsarCore.Framework.Run

/-!
# The configuration watcher (`configsource/watcher.go`, `configsource/hash.go`)

`ConfigWatcher.Apply`: what `Fetch` returned and what the `ApplyFunc` would answer are
the choices of one step of `watcherSystem`. SHA-256 is a parameter, `sum256`.
-/

namespace Csar.Impl.ConfigSource

/-- `FetchedConfig`. The data is nil if the source says "not modified". -/
structure FetchedConfig where
  data : Option Bytes
  etag : String
  deriving DecidableEq

/-- `HashPolicy`; it is an integer, so there are other values. -/
inductive HashPolicy
  | disabled
  | tofu
  | pinned
  | unknown (n : Int)
  deriving DecidableEq

abbrev Digest := Vector UInt8 32

def computeSHA256 (sum256 : Bytes → Digest) (data : Bytes) : String := hexEncode (sum256 data).toList

inductive HashErr
  | integrity (etag lastHash currentHash : String)
  | mismatch (expected got : String)
  | unknownPolicy (n : Int)
  deriving DecidableEq

def HashErr.text : HashErr → String
  | .integrity etag last current => "config integrity violation: ETag unchanged (" ++ etag ++
      ") but SHA-256 changed (" ++ last ++ " → " ++ current ++ "); possible tampering"
  | .mismatch expected got => "config SHA-256 mismatch: expected " ++ expected ++ ", got " ++ got
  | .unknownPolicy n => "unknown hash policy: " ++ toString n

def validateHash (policy : HashPolicy) (pinnedHash currentHash lastHash currentETag lastETag : String) :
    Except HashErr Unit :=
  match policy with
  | .disabled => .ok ()
  | .tofu =>
    if lastHash = "" then .ok ()
    else if currentETag = lastETag ∧ currentHash ≠ lastHash then
      .error (.integrity currentETag lastHash currentHash)
    else .ok ()
  | .pinned => if currentHash ≠ pinnedHash then .error (.mismatch pinnedHash currentHash) else .ok ()
  | .unknown n => .error (.unknownPolicy n)

/-- An error of `Apply`: of the source, of the hash check, or of the caller's
`ApplyFunc`. -/
inductive ApplyErr
  | fetching (e : String)
  | hash (e : HashErr)
  | applying (e : String)
  deriving DecidableEq

def ApplyErr.text : ApplyErr → String
  | .fetching e => "fetching config: " ++ e
  | .hash e => "hash validation: " ++ e.text
  | .applying e => "applying config: " ++ e

structure ConfigWatcher where
  lastETag : String
  lastHash : String
  hashPolicy : HashPolicy
  pinnedHash : String
  deriving DecidableEq

/-- `NewConfigWatcher`, with the policy that its options give (`HashTOFU`
without any). -/
def newConfigWatcher (hashPolicy : HashPolicy) (pinnedHash : String) : ConfigWatcher :=
  ⟨"", "", hashPolicy, pinnedHash⟩

/-- What `Apply` returns, and the bytes and the tag it called its `ApplyFunc` with, if it did. -/
structure Applied where
  result : Except ApplyErr Bool
  call : Option (Bytes × String)

section Apply

variable (sum256 : Bytes → Digest)

/-- `fetched`: what the source returned; `verdict`: what the `ApplyFunc` answers if it is called. -/
def ConfigWatcher.apply (w : ConfigWatcher) (fetched : Except String FetchedConfig)
    (verdict : Except String Bool) : ConfigWatcher × Applied :=
  match fetched with
  | .error e => (w, ⟨.error (.fetching e), none⟩)
  | .ok ⟨none, _⟩ => (w, ⟨.ok false, none⟩)
  | .ok ⟨some data, etag⟩ =>
    let currentHash := computeSHA256 sum256 data
    match validateHash w.hashPolicy w.pinnedHash currentHash w.lastHash etag w.lastETag with
    | .error e => (w, ⟨.error (.hash e), none⟩)
    | .ok () =>
      if etag ≠ "" ∧ etag = w.lastETag ∧ currentHash = w.lastHash then (w, ⟨.ok false, none⟩)
      else match verdict with
        | .error e => ({ w with lastETag := "" }, ⟨.error (.applying e), some (data, etag)⟩)
        | .ok changed =>
          ({ w with lastETag := etag, lastHash := currentHash }, ⟨.ok changed, some (data, etag)⟩)

/-- One poll: what the source returns and what the `ApplyFunc` would answer. -/
structure Poll where
  fetched : Except String FetchedConfig
  verdict : Except String Bool

def watcherSystem (hashPolicy : HashPolicy) (pinnedHash : String) :
    System ConfigWatcher Poll Applied where
  init := newConfigWatcher hashPolicy pinnedHash
  step w p := some (w.apply sum256 p.fetched p.verdict)

end Apply

end Csar.Impl.ConfigSource
