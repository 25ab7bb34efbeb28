import CsarCore.Framework.Base64
import CsarCore.Framework.Int64
import CsarCore.Framework.Json.Codec
import CsarCore.Framework.Strings

/-!
# Verification of a JWT

From `jwtx/verify.go`. Hashes and signatures (`Crypto`), the lookup of a key and the
time are parameters. Instants are nanoseconds since the year 1, as in `time.Time`.
-/

namespace Csar.Impl.Jwtx

inductive Hash
  | sha256
  | sha384
  | sha512
  deriving DecidableEq

/-- `elliptic.Curve`; `other`: one that is none of the three, with its size in bits. -/
inductive Curve
  | p256
  | p384
  | p521
  | other (bits : Nat)
  deriving DecidableEq

def Curve.bitSize : Curve → Nat
  | .p256 => 256
  | .p384 => 384
  | .p521 => 521
  | .other bits => bits

structure ECPublicKey (ε : Type) where
  curve : Curve
  point : ε
  deriving DecidableEq

/-- `crypto.PublicKey`, which any value is; `other`: one of no type that is asked for. -/
inductive PublicKey (ρ ε : Type)
  | rsa (key : ρ)
  | ecdsa (key : ECPublicKey ε)
  | ed25519 (key : Bytes)
  | other
  deriving DecidableEq

/-- `sum` is a hash; the others say whether a signature is accepted for a digest or, with Ed25519, a message. -/
structure Crypto (ρ ε : Type) where
  sum : Hash → Bytes → Bytes
  verifyPKCS1v15 : ρ → Hash → Bytes → Bytes → Bool
  verifyECDSA : ECPublicKey ε → Bytes → Nat → Nat → Bool
  verifyEd25519 : Bytes → Bytes → Bytes → Bool

/-! ## Signatures -/

section Signatures

variable {ρ ε : Type} (C : Crypto ρ ε)

/-- `unsupported` and `hash`: with the algorithm; `rsa`: of `VerifyPKCS1v15`; the others are their text. -/
inductive SigError
  | unsupported (alg : Bytes)
  | hash (family : String) (alg : Bytes)
  | rsa
  | text (msg : String)
  deriving DecidableEq

/-- `none`: the hash 0. -/
def algToHash (alg : Bytes) : Option Hash :=
  if alg = utf8 "RS256" ∨ alg = utf8 "ES256" then some .sha256
  else if alg = utf8 "RS384" ∨ alg = utf8 "ES384" then some .sha384
  else if alg = utf8 "RS512" ∨ alg = utf8 "ES512" then some .sha512
  else none

def verifyRSA (alg : Bytes) (pub : PublicKey ρ ε) (signingInput signature : Bytes) : Except SigError Unit :=
  match pub with
  | .rsa rsaPub =>
    match algToHash alg with
    | none => .error (.hash "RSA" alg)
    | some hash =>
      if C.verifyPKCS1v15 rsaPub hash (C.sum hash signingInput) signature then .ok () else .error .rsa
  | _ => .error (.text "key type mismatch: expected *rsa.PublicKey")

def setBytes (bs : Bytes) : Nat := bs.foldl (fun n b => n * 256 + b.toNat) 0

def verifyECDSA (alg : Bytes) (pub : PublicKey ρ ε) (signingInput signature : Bytes) : Except SigError Unit :=
  match pub with
  | .ecdsa ecPub =>
    match algToHash alg with
    | none => .error (.hash "ECDSA" alg)
    | some hash =>
      let digest := C.sum hash signingInput
      let keySize := (ecPub.curve.bitSize + 7) / 8
      if signature.length ≠ 2 * keySize then .error (.text "invalid ECDSA signature length")
      else if C.verifyECDSA ecPub digest (setBytes (signature.take keySize)) (setBytes (signature.drop keySize)) then
        .ok ()
      else .error (.text "ECDSA signature verification failed")
  | _ => .error (.text "key type mismatch: expected *ecdsa.PublicKey")

def verifyEdDSA (pub : PublicKey ρ ε) (signingInput signature : Bytes) : Except SigError Unit :=
  match pub with
  | .ed25519 edPub =>
    if C.verifyEd25519 edPub signingInput signature then .ok ()
    else .error (.text "EdDSA signature verification failed")
  | _ => .error (.text "key type mismatch: expected ed25519.PublicKey")

def verifySig (alg : Bytes) (pub : PublicKey ρ ε) (signingInput signature : Bytes) : Except SigError Unit :=
  if (utf8 "RS").isPrefixOf alg then verifyRSA C alg pub signingInput signature
  else if (utf8 "ES").isPrefixOf alg then verifyECDSA C alg pub signingInput signature
  else if alg = utf8 "EdDSA" then verifyEdDSA C pub signingInput signature
  else .error (.unsupported alg)

end Signatures

/-! ## Base64 -/

def base64URLDecode (s : Bytes) : Option Bytes :=
  match s.length % 4 with
  | 2 => Base64.url.decode (s ++ utf8 "==")
  | 3 => Base64.url.decode (s ++ utf8 "=")
  | _ => Base64.url.decode s

/-! ## Claims -/

structure VerifyConfig where
  allowedAlgorithms : List Bytes := []
  requiredIssuer : Bytes := []
  requiredAudience : Bytes := []
  clockSkew : Int := 0

structure VerifiedToken where
  header : Json.GoMap
  claims : Json.GoMap
  deriving DecidableEq

/-- Errors of `Verify`, all with `jwtx: ` before them; `κ` is the type of the errors of a
lookup. -/
inductive VerifyError (κ : Type)
  | decoding (part : String)
  | parsing (part : String) (err : Json.MapError)
  | notAllowed (alg : Bytes)
  | keyLookup (err : κ)
  | signature (err : SigError)
  | issuer (got want : Bytes)
  | audience (want : Bytes)
  | text (msg : String)
  deriving DecidableEq

/-- Seconds from the year 1 to 1970. -/
def unixToInternal : Int := 62135596800

/-- `time.Unix(sec, 0)`. -/
def unixTime (sec : Int) : Int := wrap64 (sec + unixToInternal) * 1000000000

/-- `Time.Add`, with the seconds at most and at least what fits. -/
def addTime (t d : Int) : Int :=
  let sec := (t + d) / 1000000000
  let bounded := if maxInt64 < sec then maxInt64 else if sec < minInt64 then -maxInt64 else sec
  bounded * 1000000000 + (t + d) % 1000000000

/-- `int64(f)`: toward zero if that fits, and what the machine makes of it otherwise. -/
def toInt64 (overflow : Float64 → Int) (f : Float64) : Int :=
  let n : Int := if f.neg then -((f.units / 2 ^ 1074 : Nat) : Int) else (f.units / 2 ^ 1074 : Nat)
  if minInt64 ≤ n ∧ n ≤ maxInt64 then n else overflow f

/-- `none`: not there, or no number. -/
def numericClaim (overflow : Float64 → Int) (claims : Json.GoMap) (key : Bytes) : Option Int :=
  match claims.get key with
  | some (.number f) => some (toInt64 overflow f)
  | _ => none

def audienceContains (aud : Option Json.Value) (target : Bytes) : Bool :=
  match aud with
  | some (.string s) => s = target
  | some (.array vs) => vs.any fun v => v = .string target
  | _ => false

section Verify

variable {ρ ε κ : Type} (C : Crypto ρ ε) (overflow : Float64 → Int) (now : Int)

def checkTimes (skew : Int) (claims : Json.GoMap) : Except (VerifyError κ) Unit :=
  if (numericClaim overflow claims (utf8 "exp")).any fun exp => addTime (unixTime exp) skew < now then
    .error (.text "token expired")
  else if (numericClaim overflow claims (utf8 "nbf")).any fun nbf => now < addTime (unixTime nbf) (wrap64 (-skew)) then
    .error (.text "token not yet valid (nbf)")
  else .ok ()

def checkNames (cfg : VerifyConfig) (claims : Json.GoMap) : Except (VerifyError κ) Unit :=
  let iss := Json.stringOf (claims.get (utf8 "iss"))
  if cfg.requiredIssuer ≠ [] ∧ iss ≠ cfg.requiredIssuer then .error (.issuer iss cfg.requiredIssuer)
  else if cfg.requiredAudience ≠ [] ∧ audienceContains (claims.get (utf8 "aud")) cfg.requiredAudience = false then
    .error (.audience cfg.requiredAudience)
  else .ok ()

/-- Decodes a part of the token, with the names that it has in errors. -/
def decodePart (decoding parsing : String) (part : Bytes) : Except (VerifyError κ) Json.GoMap :=
  match base64URLDecode part with
  | none => .error (.decoding decoding)
  | some bytes =>
    match Json.unmarshalMap bytes with
    | .error err => .error (.parsing parsing err)
    | .ok m => .ok m

/-- What is checked of a header before the key is looked up. -/
def checkAlg (cfg : VerifyConfig) (alg : Bytes) : Except (VerifyError κ) Unit :=
  if Strings.equalFold alg (utf8 "none") then .error (.text "unsecured JWT (alg=none) rejected")
  else if cfg.allowedAlgorithms ≠ [] ∧ cfg.allowedAlgorithms.contains alg = false then .error (.notAllowed alg)
  else .ok ()

def dot : UInt8 := 0x2E

/-- `cfg` is `none` for a nil pointer. -/
def verify (tokenString : Bytes) (keyFunc : Bytes → Bytes → Except κ (PublicKey ρ ε)) (cfg : Option VerifyConfig) :
    Except (VerifyError κ) VerifiedToken := do
  let cfg := cfg.getD {}
  match Strings.splitN tokenString dot 3 with
  | [h, p, s] =>
    let header ← decodePart "header" "header" h
    let alg := Json.stringOf (header.get (utf8 "alg"))
    let kid := Json.stringOf (header.get (utf8 "kid"))
    checkAlg cfg alg
    let pub ← (keyFunc kid alg).mapError .keyLookup
    let signature ← (base64URLDecode s).elim (.error (.decoding "signature")) .ok
    (verifySig C alg pub (h ++ dot :: p) signature).mapError .signature
    let claims ← decodePart "payload" "claims" p
    checkTimes overflow now cfg.clockSkew claims
    checkNames cfg claims
    return { header, claims }
  | _ => .error (.text "malformed JWT: expected 3 dot-separated parts")

def verifyWithKey (tokenString : Bytes) (pub : PublicKey ρ ε) (cfg : Option VerifyConfig) :
    Except (VerifyError Empty) VerifiedToken :=
  verify C overflow now tokenString (fun _ _ => .ok pub) cfg

def verifyWithKeyRaw (signingInput signature : Bytes) (pub : PublicKey ρ ε) (alg : Bytes) : Except SigError Unit :=
  verifySig C alg pub signingInput signature

end Verify

end Csar.Impl.Jwtx
