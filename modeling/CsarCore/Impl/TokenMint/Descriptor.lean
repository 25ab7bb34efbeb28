import CsarCore.Framework.Strings

/-!
# Descriptors of minted credentials

From `tokenmint/descriptor.go`.
-/

namespace Csar.Impl.TokenMint

def kindOAuth2ClientCredentials : Bytes := utf8 "oauth2_client_credentials"

structure Descriptor where
  kind : Bytes
  grantProfile : Bytes
  clientIDRef : Bytes
  clientSecretRef : Bytes
  deriving DecidableEq

/-- `unknownKind`: `ErrUnknownKind`, with the kind and the supported one; the others are their text. -/
inductive DescriptorError
  | unknownKind (kind supported : Bytes)
  | text (msg : String)
  deriving DecidableEq

/-- `none`: a nil pointer. -/
def Descriptor.validate : Option Descriptor → Except DescriptorError Unit
  | none => .error (.text "tokenmint: descriptor is nil")
  | some d =>
    if d.kind ≠ kindOAuth2ClientCredentials then .error (.unknownKind d.kind kindOAuth2ClientCredentials)
    else if Strings.trimSpace d.grantProfile = [] then
      .error (.text "tokenmint: descriptor requires a non-empty grant_profile")
    else if Strings.trimSpace d.clientIDRef = [] then
      .error (.text "tokenmint: descriptor requires a non-empty client_id_ref")
    else if Strings.trimSpace d.clientSecretRef = [] then
      .error (.text "tokenmint: descriptor requires a non-empty client_secret_ref")
    else if d.clientIDRef = d.clientSecretRef then
      .error (.text "tokenmint: client_id_ref and client_secret_ref must differ")
    else .ok ()

end Csar.Impl.TokenMint
