import CsarCore.Framework.Path
import CsarCore.Framework.Reader
import CsarCore.Impl.Storage

/-!
# Addressing and streaming objects

From `s3store/client.go` and `s3store/object.go`: what `GetObject`, `PutObject`,
`DeleteObject` and `StatObject` ask the storage for. A call of the SDK carries the
bucket and the key; a request of the other mode the path of its URL, as the storage
reads it. From `s3store/stream.go`: `OpenVersion` and `StatStreamObject`, up to the
request and from its answer, and the reader with a byte budget.
-/

namespace Csar.Impl.S3Store

/-- What addressing reads of the configuration. `endpointPath`: the path of the URL
`Endpoint`. -/
structure Config where
  endpointPath : Bytes
  bucket : Bytes
  keyPrefix : Bytes
  iamAuth : Bool
  deriving DecidableEq

inductive Method
  | get
  | put
  | delete
  | head
  deriving DecidableEq

inductive Call
  | sdk (method : Method) (bucket key : Bytes)
  | http (method : Method) (path : Bytes)
  deriving DecidableEq

/-- The path of the text of a URL with a host: `URL.String` starts it with a slash. -/
def urlPath : Bytes → Bytes
  | [] => []
  | b :: bs => if b = Path.slash then b :: bs else Path.slash :: b :: bs

def objectURL (c : Config) (key : Bytes) : Bytes := urlPath (Path.join [c.endpointPath, c.bucket, key])

def bucketURL (c : Config) : Bytes := urlPath (Path.join [c.endpointPath, c.bucket])

/-- The request for the object of a token, as the four operations make it. -/
def objectCall (method : Method) (c : Config) (tokenRef : Bytes) : Call :=
  let key := c.keyPrefix ++ tokenRef
  if c.iamAuth then .http method (objectURL c key)
  else .sdk method c.bucket key

def getObject : Config → Bytes → Call := objectCall .get

def putObject : Config → Bytes → Call := objectCall .put

def deleteObject : Config → Bytes → Call := objectCall .delete

def statObject : Config → Bytes → Call := objectCall .head

/-! ## Streams -/

open Storage (KeyError joinObjectKey)

def maxStreamObjectBytes : Int := 67108864

/-- Errors, with `s3store: ` before those that are a text. -/
inductive StreamError (ε : Type)
  | key (err : KeyError)
  | request (err : ε)
  | text (msg : String)

/-- The request for the object of a key, with the prefix joined to it. -/
def streamCall {ε : Type} (method : Method) (c : Config) (key : Bytes) : Except (StreamError ε) Call := do
  let key ← (joinObjectKey c.keyPrefix key).mapError .key
  return if c.iamAuth then .http method (objectURL c key) else .sdk method c.bucket key

def statStreamObject {ε : Type} : Config → Bytes → Except (StreamError ε) Call := streamCall .head

/-- The body, its length (-1 if it is not known) and the version. -/
structure Download (σ : Type) where
  body : σ
  length : Int
  received : Bytes

variable {σ ε : Type}

/-- `respond` is the storage; what is returned is the body with the byte budget. -/
def openVersion (c : Config) (key version : Bytes) (maxBytes : Int)
    (respond : Call → Bytes → Except ε (Download σ)) : Except (StreamError ε) (σ × Int) := do
  if version = [] ∨ version = utf8 "null" ∨ maxBytes < 1 ∨ maxBytes > maxStreamObjectBytes then
    throw (.text "pinned version and bounded size required")
  let call ← streamCall .get c key
  let download ← (respond call version).mapError .request
  if download.received ≠ version ∨ download.length > maxBytes then
    throw (.text "version mismatch or oversized download")
  return (download.body, maxBytes)

inductive BoundedError (ε : Type)
  | exceedsBudget
  | body (err : ε)
  deriving DecidableEq

def passOn : ReadError ε → ReadError (BoundedError ε)
  | .eof => .eof
  | .other err => .other (.body err)

/-- `boundedObjectReader`: the body and how many bytes remain. -/
def boundedObjectReader (body : Reader σ ε) : Reader (σ × Int) (BoundedError ε) where
  read := fun (s, remaining) p =>
    if p = 0 then ((s, remaining), ⟨[], none⟩)
    else if remaining = 0 then
      let (s, res) := body.read s 1
      if res.data.length > 0 then ((s, remaining), ⟨[], some (.other .exceedsBudget)⟩)
      else ((s, remaining), ⟨[], res.err.map passOn⟩)
    else
      let p := if (p : Int) > remaining then remaining.toNat else p
      let (s, res) := body.read s p
      ((s, remaining - res.data.length), ⟨res.data, res.err.map passOn⟩)

end Csar.Impl.S3Store
