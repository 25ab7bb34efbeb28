import CsarCore.Framework.Path
import CsarCore.Framework.SortedMap
import CsarCore.Framework.Strings

/-!
# `storage/storage.go`

`ValidateObjectKey` looks at the key without the spaces around it; what `JoinObjectKey`
joins is the key as it is. The loop of `CanonicalMetadata` goes over a map in any order;
a nil map is `none`.
-/

namespace Csar.Impl.Storage

inductive KeyError
  | invalid (msg : String)
  | invalidPrefix (err : KeyError)
  deriving DecidableEq

def KeyError.text : KeyError → String
  | .invalid msg => "storage: object key " ++ msg
  | .invalidPrefix err => "storage: invalid prefix: " ++ err.text

def segmentError (segment : Bytes) : Option String :=
  if segment = [] then some "must not contain empty path segments"
  else if segment = Path.dot ∨ segment = Path.dotdot then some "must not contain dot path segments"
  else if (runes segment).any Strings.isControl then some "must not contain control characters"
  else none

def validateObjectKey (key : Bytes) : Except KeyError Unit :=
  if ¬ validUtf8 key then .error (.invalid "must be valid UTF-8")
  else
    let key := Strings.trimSpace key
    if key = [] then .error (.invalid "is required")
    else if key.head? = some Path.slash ∨ key.getLast? = some Path.slash then
      .error (.invalid "must not start or end with '/'")
    else
      match (Strings.split key Path.slash).findSome? segmentError with
      | some msg => .error (.invalid msg)
      | none => .ok ()

def joinObjectKey (pre key : Bytes) : Except KeyError Bytes := do
  validateObjectKey key
  let pre := Strings.trim pre Path.slash
  if pre = [] then return key
  (validateObjectKey pre).mapError .invalidPrefix
  return pre ++ Path.slash :: key

/-! ## Metadata -/

abbrev Metadata := Option (SortedMap Bytes Bytes)

def Metadata.entries (metadata : Metadata) : List (Bytes × Bytes) := (metadata.map SortedMap.entries).getD []

def canonicalKey (k : Bytes) : Bytes := Strings.toLower (Strings.trimSpace k)

/-- For a map that is gone over in the order `entries`. -/
def canonicalMetadata (entries : List (Bytes × Bytes)) : Metadata :=
  if entries.isEmpty then none
  else
    let out := entries.foldl (fun out e =>
      let key := canonicalKey e.1
      if key = [] then out else out.set key (Strings.trimSpace e.2)) SortedMap.empty
    if out.entries.isEmpty then none else some out

end Csar.Impl.Storage
