import CsarCore.Framework.Paging
import CsarCore.Impl.S3Store.Format
import CsarCore.Impl.S3Store.List
import CsarCore.Impl.S3Store.Object

/-!
# Tokens in an object storage

A token, in one of two modes, or a descriptor goes through the text of a token object
(`roundTrip`), and should come back as it was (`expected`). An object should be of one
format only (`OneFormat`). `chain` is the list that a storage serves: a page leads to
another one when it is truncated and names a token. `Agree` is what is asked of the two
loops on it, and `Consistent` a condition on the pages under which they do. `SameObject`
is that both modes mean the object whose key is the prefix and the token reference, in
the configured bucket.
-/

namespace Csar.Spec.S3Store

section

open Impl.S3Store Impl.TokenMint

inductive Mode
  | passthrough
  | kms
  deriving DecidableEq

def Mode.name : Mode → Bytes
  | .passthrough => utf8 "passthrough"
  | .kms => utf8 "kms"

inductive Secret
  | token (raw kmsKeyID : Bytes) (mode : Mode)
  | descriptor (d : Descriptor) (kmsMode : Bytes)

namespace Secret

def encode : Secret → Except FormatError TokenObject
  | .token raw kmsKeyID mode => encodeToken raw kmsKeyID mode.name
  | .descriptor d _ => encodeDescriptor d

def kmsMode : Secret → Bytes
  | .token _ _ mode => mode.name
  | .descriptor _ kmsMode => kmsMode

/-- A token that is not empty, with a key; a descriptor that is accepted. -/
def Accepted : Secret → Prop
  | .token raw kmsKeyID _ => raw ≠ [] ∧ kmsKeyID ≠ []
  | .descriptor d _ => ∃ obj, encodeDescriptor d = .ok obj

def roundTrip (s : Secret) : Except FormatError DecodedToken :=
  match s.encode with
  | .error err => .error err
  | .ok obj =>
    match parseTokenObject (marshalTokenObject obj) with
    | .error err => .error err
    | .ok obj' => decodeToken obj' s.kmsMode

def expected : Secret → DecodedToken
  | .token raw _ .passthrough => { plaintext := raw, passthrough := true }
  | .token raw kmsKeyID .kms => { encryptedToken := raw, kmsKeyID }
  | .descriptor d _ => { descriptor := some d }

/-- What is stored as a string is valid UTF-8. -/
def Textual : Secret → Prop
  | .token raw _ .passthrough => validUtf8 raw
  | .token _ kmsKeyID .kms => validUtf8 kmsKeyID
  | .descriptor d _ => validUtf8 d.grantProfile ∧ validUtf8 d.clientIDRef ∧ validUtf8 d.clientSecretRef

instance : DecidablePred Textual
  | .token raw _ .passthrough => inferInstanceAs (Decidable (validUtf8 raw))
  | .token _ kmsKeyID .kms => inferInstanceAs (Decidable (validUtf8 kmsKeyID))
  | .descriptor d _ =>
    inferInstanceAs (Decidable (validUtf8 d.grantProfile ∧ validUtf8 d.clientIDRef ∧ validUtf8 d.clientSecretRef))

end Secret

/-! ## Formats -/

/-- The token of an object can be read in a mode. -/
def Decodes (obj : TokenObject) (mode : Mode) : Prop := ∃ decoded, decodeToken obj mode.name = .ok decoded

/-- A descriptor without a stored value, or a token that is read in at most one of the modes. -/
def OneFormat (obj : TokenObject) : Prop :=
  (obj.isDescriptor ∧ obj.plaintext = [] ∧ obj.encryptedToken = []) ∨
    (¬ obj.isDescriptor ∧ ¬ (Decodes obj .passthrough ∧ Decodes obj .kms))

end

/-! ## Listings -/

section

open Impl.S3Store

variable {η ε : Type}

/-- The list of a storage, in pages. -/
def chain (server : Option Bytes → ListPage) : Pager (Option Bytes) ListPage where
  page := server
  next p :=
    match p.isTruncated, p.nextContinuationToken with
    | some true, some (b :: bs) => some (some (b :: bs))
    | _, _ => none

/-- The pages where a truncated page leads to its token, even an empty or absent one. -/
def verbatim (server : Option Bytes → ListPage) : Pager (Option Bytes) ListPage where
  page := server
  next p := if p.isTruncated = some true then some p.nextContinuationToken else none

/-- The keys of objects, but for the prefix itself. -/
def listed (keyPrefix : Bytes) : List (Option Bytes) → List Bytes :=
  List.filterMap fun key => key.filter fun key => key ≠ [] ∧ key ≠ keyPrefix

def objects (keyPrefix : Bytes) (p : ListPage) : List Bytes := listed keyPrefix p.contents

def fetchKey (keyPrefix : Bytes) (fetch : Bytes → Bytes → Except ε η) (key : Bytes) : Except (FetchError ε) η :=
  match fetch key (Strings.trimPrefix key keyPrefix) with
  | .error err => .error ⟨key, err⟩
  | .ok entry => .ok entry

section

variable (server : Option Bytes → ListPage) (keyPrefix : Bytes) (fetch : Bytes → Bytes → Except ε η) (ps : List ListPage)

/-- Both loops stop, with the entries of the pages `ps`, or both with an error. -/
def Agree : Prop :=
  ∃ fuel r r', listObjectsSDK server keyPrefix fetch fuel none [] = some r ∧
    listObjectsIAM server keyPrefix fetch fuel [] [] = some r' ∧
    ((∃ entries, r = .ok entries ∧ r' = .ok entries ∧
        List.Forall₂ (fun key e => fetchKey keyPrefix fetch key = .ok e) (ps.flatMap (objects keyPrefix)) entries) ∨
      ((∃ err, r = .error err) ∧ ∃ err, r' = .error err))

/-- An object cannot be fetched; or the last page is not truncated; or its token is empty, and the pages
from that on end without objects. -/
def Consistent : Prop :=
  (∃ key ∈ ps.flatMap (objects keyPrefix), ∃ err, fetchKey keyPrefix fetch key = .error err) ∨
    ∃ last, ps.getLast? = some last ∧
      (last.isTruncated ≠ some true ∨
        last.nextContinuationToken = some [] ∧
          ∃ more, (verbatim server).Pages (some []) more ∧ more.flatMap (objects keyPrefix) = [])

end

end

/-! ## Requests -/

open Impl.S3Store

/-- A request is `method` on the object `key` of `bucket`. A URL names it by the path of the bucket, a
slash and the key. -/
def Touches (c : Config) (method : Method) (bucket key : Bytes) : Call → Prop
  | .sdk m b k => m = method ∧ b = bucket ∧ k = key
  | .http m path => m = method ∧ path = bucketURL { c with bucket } ++ Path.slash :: key

instance (c : Config) (method : Method) (bucket key : Bytes) : DecidablePred (Touches c method bucket key)
  | .sdk _ _ _ => inferInstanceAs (Decidable (_ ∧ _))
  | .http _ _ => inferInstanceAs (Decidable (_ ∧ _))

/-- In both modes an operation is `method` on the object of the prefix and the reference. -/
def SameObject (method : Method) (op : Config → Bytes → Call) (c : Config) (tokenRef : Bytes) : Prop :=
  ∀ iamAuth, Touches c method c.bucket (c.keyPrefix ++ tokenRef) (op { c with iamAuth } tokenRef)

def operations : List (Method × (Config → Bytes → Call)) :=
  [(.get, getObject), (.put, putObject), (.delete, deleteObject), (.head, statObject)]

/-! ## Streams -/

/-- The cleaned path of the endpoint, before a segment in a URL: the root and `.` are nothing. -/
def endpointBase (c : Config) : Bytes :=
  let p := Path.clean c.endpointPath
  if p = [Path.slash] ∨ p = Path.dot then [] else urlPath p

variable {ε : Type}

/-- The first error of a download is right: the end of an object that fits into the budget and was
delivered, or, after as many bytes as the budget, that it is exceeded. -/
structure FirstErrorRight (object : Bytes) (maxBytes : Int) (delivered : Bytes)
    (err : ReadError (BoundedError ε)) : Prop where
  eof_iff : err = .eof ↔ (object.length : Int) ≤ maxBytes ∧ delivered = object
  otherwise : err ≠ .eof → err = .other .exceedsBudget ∧ (delivered.length : Int) = maxBytes

end Csar.Spec.S3Store
