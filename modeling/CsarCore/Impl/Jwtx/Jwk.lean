import CsarCore.Impl.Jwtx.Verify
import Mathlib.Data.Nat.Digits.Defs

/-!
# JSON Web Keys

From `jwtx/jwk.go`: a key as a record of texts, and the public key that it is.
-/

namespace Csar.Impl.Jwtx

/-- `rsa.PublicKey`; the exponent is an `int`. -/
structure RSAPublicKey where
  n : Int
  e : Int
  deriving DecidableEq

/-- A public key of the packages under `crypto`; a point of a curve is its coordinates. -/
abbrev CryptoKey := PublicKey RSAPublicKey (Nat × Nat)

structure JWK where
  kty : Bytes := []
  kid : Bytes := []
  use : Bytes := []
  alg : Bytes := []
  n : Bytes := []
  e : Bytes := []
  crv : Bytes := []
  x : Bytes := []
  y : Bytes := []
  deriving DecidableEq

/-- Errors, all with `jwtx: ` before them. `decoding`: of what; the others are with the value that is not
supported, or the length. -/
inductive JWKError
  | unsupportedForJWK
  | decoding (what : String)
  | keyType (kty : Bytes)
  | okpCurve (crv : Bytes)
  | edLength (n : Nat)
  | ecCurve (crv : Bytes)
  deriving DecidableEq

/-- `big.Int.Bytes`, of the absolute value. -/
def bigBytes (n : Nat) : Bytes := (Nat.digits 256 n).reverse.map UInt8.ofNat

def newJWKFromPublicKey (pub : CryptoKey) (kid : Bytes) : Except JWKError JWK :=
  match pub with
  | .ed25519 key =>
    .ok { kty := utf8 "OKP", kid := kid, use := utf8 "sig", alg := utf8 "EdDSA", crv := utf8 "Ed25519"
          x := Base64.rawURL.encode key }
  | .rsa key =>
    .ok { kty := utf8 "RSA", kid := kid, use := utf8 "sig", alg := utf8 "RS256"
          n := Base64.rawURL.encode (bigBytes key.n.natAbs), e := Base64.rawURL.encode (bigBytes key.e.natAbs) }
  | _ => .error .unsupportedForJWK

def decodeField (what : String) (s : Bytes) : Except JWKError Bytes :=
  (base64URLDecode s).elim (.error (.decoding what)) .ok

/-- The loop over the bytes of an exponent. -/
def exponentOf (bs : Bytes) : Int := bs.foldl (fun e b => wrap64 (wrap64 (e * 256) + b.toNat)) 0

def jwkToRSAPublicKey (jwk : JWK) : Except JWKError RSAPublicKey := do
  let nBytes ← decodeField "RSA modulus" jwk.n
  let eBytes ← decodeField "RSA exponent" jwk.e
  return ⟨setBytes nBytes, exponentOf eBytes⟩

def ecCurve (crv : Bytes) : Except JWKError Curve :=
  if crv = utf8 "P-256" then .ok .p256
  else if crv = utf8 "P-384" then .ok .p384
  else if crv = utf8 "P-521" then .ok .p521
  else .error (.ecCurve crv)

def jwkToECPublicKey (jwk : JWK) : Except JWKError (ECPublicKey (Nat × Nat)) := do
  let curve ← ecCurve jwk.crv
  let xBytes ← decodeField "EC x" jwk.x
  let yBytes ← decodeField "EC y" jwk.y
  return ⟨curve, (setBytes xBytes, setBytes yBytes)⟩

def ed25519PublicKeySize : Nat := 32

def jwkToEdPublicKey (jwk : JWK) : Except JWKError Bytes := do
  if jwk.crv ≠ utf8 "Ed25519" then throw (.okpCurve jwk.crv)
  let xBytes ← decodeField "Ed25519 public key" jwk.x
  if xBytes.length ≠ ed25519PublicKeySize then throw (.edLength xBytes.length)
  return xBytes

def jwkToPublicKey (jwk : JWK) : Except JWKError CryptoKey :=
  if jwk.kty = utf8 "RSA" then .rsa <$> jwkToRSAPublicKey jwk
  else if jwk.kty = utf8 "EC" then .ecdsa <$> jwkToECPublicKey jwk
  else if jwk.kty = utf8 "OKP" then .ed25519 <$> jwkToEdPublicKey jwk
  else .error (.keyType jwk.kty)

end Csar.Impl.Jwtx
