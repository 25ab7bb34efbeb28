import CsarCore.Framework.Base64
import CsarCore.Framework.Json.Struct
import CsarCore.Impl.TokenMint.Descriptor

/-!
# Token objects

From `s3store/format.go`: what is stored for a token, its JSON, and how a token or a
descriptor is put into it and taken out of it.
-/

namespace Csar.Impl.S3Store

open TokenMint (Descriptor DescriptorError)

structure TokenObject where
  encryptedToken : Bytes := []
  kmsKeyID : Bytes := []
  plaintext : Bytes := []
  kind : Bytes := []
  grantProfile : Bytes := []
  clientIDRef : Bytes := []
  clientSecretRef : Bytes := []
  updatedAt : Bytes := []
  updatedBy : Bytes := []
  tenant : Bytes := []
  schemaVersion : Int := 0
  deriving DecidableEq

namespace TokenObject

/-- The tags of the struct; every field has `omitempty`. -/
def fields : List (Json.Field TokenObject) :=
  [.string (utf8 "enc_token") true (·.encryptedToken) fun s o => { o with encryptedToken := s },
    .string (utf8 "kms_key_id") true (·.kmsKeyID) fun s o => { o with kmsKeyID := s },
    .string (utf8 "plaintext") true (·.plaintext) fun s o => { o with plaintext := s },
    .string (utf8 "kind") true (·.kind) fun s o => { o with kind := s },
    .string (utf8 "grant_profile") true (·.grantProfile) fun s o => { o with grantProfile := s },
    .string (utf8 "client_id_ref") true (·.clientIDRef) fun s o => { o with clientIDRef := s },
    .string (utf8 "client_secret_ref") true (·.clientSecretRef) fun s o => { o with clientSecretRef := s },
    .string (utf8 "updated_at") true (·.updatedAt) fun s o => { o with updatedAt := s },
    .string (utf8 "updated_by") true (·.updatedBy) fun s o => { o with updatedBy := s },
    .string (utf8 "tenant") true (·.tenant) fun s o => { o with tenant := s },
    .int (utf8 "schema_version") true (·.schemaVersion) fun n o => { o with schemaVersion := n }]

def isDescriptor (o : TokenObject) : Bool := o.kind ≠ []

def descriptor (o : TokenObject) : Descriptor where
  kind := o.kind
  grantProfile := o.grantProfile
  clientIDRef := o.clientIDRef
  clientSecretRef := o.clientSecretRef

end TokenObject

/-- Errors, all with `s3store: ` before them. `parse`: of `json.Unmarshal`; `both`: a descriptor with a
stored value; `descriptor`: of `Validate`; `base64`: of `DecodeString`; the others are their text. -/
inductive FormatError
  | parse (err : Json.StructError)
  | both (kind : Bytes)
  | descriptor (err : DescriptorError)
  | base64
  | unknownMode (kmsMode : Bytes)
  | text (msg : String)
  deriving DecidableEq

/-- The checks of `ParseTokenObject`, after the JSON is read. -/
def checkTokenObject (obj : TokenObject) : Except FormatError TokenObject :=
  if obj.isDescriptor then
    if obj.plaintext ≠ [] ∨ obj.encryptedToken ≠ [] then .error (.both obj.kind)
    else
      match Descriptor.validate (some obj.descriptor) with
      | .error err => .error (.descriptor err)
      | .ok () => .ok obj
  else if obj.plaintext = [] ∧ obj.encryptedToken = [] then
    .error (.text "token object must have either \"plaintext\" or \"enc_token\" field")
  else if obj.encryptedToken ≠ [] ∧ obj.kmsKeyID = [] then
    .error (.text "token object with \"enc_token\" requires \"kms_key_id\"")
  else .ok obj

def parseTokenObject (data : Bytes) : Except FormatError TokenObject :=
  match Json.unmarshalStruct TokenObject.fields data {} with
  | .error err => .error (.parse err)
  | .ok obj => checkTokenObject obj

/-- A struct of strings and an integer is always written. -/
def marshalTokenObject (obj : TokenObject) : Bytes := (Json.marshalStruct TokenObject.fields obj).getD []

structure DecodedToken where
  plaintext : Bytes := []
  encryptedToken : Bytes := []
  kmsKeyID : Bytes := []
  passthrough : Bool := false
  descriptor : Option Descriptor := none
  deriving DecidableEq

def decodeToken (obj : TokenObject) (kmsMode : Bytes) : Except FormatError DecodedToken :=
  if obj.isDescriptor then .ok { descriptor := some obj.descriptor }
  else if kmsMode = utf8 "passthrough" then
    if obj.plaintext = [] then .error (.text "passthrough mode requires \"plaintext\" field")
    else .ok { plaintext := obj.plaintext, passthrough := true }
  else if kmsMode = utf8 "kms" then
    if obj.encryptedToken = [] then .error (.text "kms mode requires \"enc_token\" field")
    else
      match Base64.std.decode obj.encryptedToken with
      | none => .error .base64
      | some decoded => .ok { encryptedToken := decoded, kmsKeyID := obj.kmsKeyID }
  else .error (.unknownMode kmsMode)

def encodeToken (raw kmsKeyID kmsMode : Bytes) : Except FormatError TokenObject :=
  if kmsMode = utf8 "passthrough" then .ok { plaintext := raw }
  else if kmsMode = utf8 "kms" then .ok { encryptedToken := Base64.std.encode raw, kmsKeyID }
  else .error (.unknownMode kmsMode)

def encodeDescriptor (d : Descriptor) : Except FormatError TokenObject :=
  match Descriptor.validate (some d) with
  | .error err => .error (.descriptor err)
  | .ok () =>
    .ok { kind := d.kind, grantProfile := d.grantProfile, clientIDRef := d.clientIDRef,
          clientSecretRef := d.clientSecretRef }

end Csar.Impl.S3Store
