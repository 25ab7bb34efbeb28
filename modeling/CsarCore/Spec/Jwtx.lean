import CsarCore.Impl.Jwtx.Remote
import CsarCore.Impl.Jwtx.Verify

/-!
# Authentic tokens and keys

A token is authentic if it is three parts of which the first two are signed, as they
are written, with a key that was looked up for what the header says, and its header and
claims are what these two parts encode. Then what a key has to be for an algorithm,
which keys have a JWK, and what the history of a remote key set says.
-/

namespace Csar.Spec.Jwtx

open Impl.Jwtx

section

variable {ρ ε κ : Type}

/-- The bytes of a base64url text, with or without padding. -/
def Decodes (s bytes : Bytes) : Prop :=
  ∃ n ≤ 2, Base64.url.decode (s ++ List.replicate n Base64.pad) = some bytes

/-- The signature is accepted by what an algorithm stands for, with a key of its type. -/
inductive Accepts (C : Crypto ρ ε) : Bytes → PublicKey ρ ε → Bytes → Bytes → Prop
  | rsa {alg message signature : Bytes} {key : ρ} {hash : Hash}
      (halg : (alg, hash) ∈ [(utf8 "RS256", .sha256), (utf8 "RS384", .sha384), (utf8 "RS512", .sha512)])
      (h : C.verifyPKCS1v15 key hash (C.sum hash message) signature) : Accepts C alg (.rsa key) message signature
  | ecdsa {alg message r s : Bytes} {key : ECPublicKey ε} {hash : Hash}
      (halg : (alg, hash) ∈ [(utf8 "ES256", .sha256), (utf8 "ES384", .sha384), (utf8 "ES512", .sha512)])
      (hr : r.length = (key.curve.bitSize + 7) / 8) (hs : s.length = (key.curve.bitSize + 7) / 8)
      (h : C.verifyECDSA key (C.sum hash message) (setBytes r) (setBytes s)) :
      Accepts C alg (.ecdsa key) message (r ++ s)
  | eddsa {message signature key : Bytes} (h : C.verifyEd25519 key message signature) :
      Accepts C (utf8 "EdDSA") (.ed25519 key) message signature

def alg (vt : VerifiedToken) : Bytes := Json.stringOf (vt.header.get (utf8 "alg"))

def kid (vt : VerifiedToken) : Bytes := Json.stringOf (vt.header.get (utf8 "kid"))

/-- A token `h.p.s` with its signature. -/
structure Signed (C : Crypto ρ ε) (keyFunc : Bytes → Bytes → Except κ (PublicKey ρ ε)) (token h p s : Bytes)
    (vt : VerifiedToken) : Prop where
  parts : token = h ++ dot :: (p ++ dot :: s) ∧ dot ∉ h ∧ dot ∉ p ∧ dot ∉ s
  header : ∃ bytes, Decodes h bytes ∧ Json.unmarshalMap bytes = .ok vt.header
  claims : ∃ bytes, Decodes p bytes ∧ Json.unmarshalMap bytes = .ok vt.claims
  signature : ∃ bytes key, Decodes s bytes ∧ keyFunc (kid vt) (alg vt) = .ok key ∧
    Accepts C (alg vt) key (h ++ dot :: p) bytes

structure Authentic (C : Crypto ρ ε) (keyFunc : Bytes → Bytes → Except κ (PublicKey ρ ε)) (cfg : VerifyConfig)
    (token : Bytes) (vt : VerifiedToken) : Prop where
  signed : ∃ h p s, Signed C keyFunc token h p s vt
  /-- The algorithm is not `none`, in whatever case. -/
  secured : ∀ cs : List Char, cs.map Char.toLower = ['n', 'o', 'n', 'e'] → alg vt ≠ encodeRunes cs
  allowed : cfg.allowedAlgorithms ≠ [] → alg vt ∈ cfg.allowedAlgorithms
  issuer : cfg.requiredIssuer ≠ [] → vt.claims.get (utf8 "iss") = some (.string cfg.requiredIssuer)
  audience : cfg.requiredAudience ≠ [] → vt.claims.get (utf8 "aud") = some (.string cfg.requiredAudience) ∨
    ∃ vs, vt.claims.get (utf8 "aud") = some (.array vs) ∧ .string cfg.requiredAudience ∈ vs

/-! ## Times -/

def seconds (f : Float64) : ℚ := if f.neg then -(f.units / 2 ^ 1074) else f.units / 2 ^ 1074

def wholeSeconds (f : Float64) : Int := if f.neg then -((f.units / 2 ^ 1074 : Nat) : Int) else (f.units / 2 ^ 1074 : Nat)

def instant (sec : ℚ) : ℚ := (sec + unixToInternal) * 1000000000

/-- A claim, if it is there, is a number for which `P`. -/
def At (claims : Json.GoMap) (key : Bytes) (P : Float64 → Prop) : Prop :=
  ∀ v, claims.get key = some v → ∃ f, v = .number f ∧ P f

/-- The token has not expired and is valid already, but for the skew. -/
structure Timely (now skew : Int) (claims : Json.GoMap) : Prop where
  exp : At claims (utf8 "exp") fun f => (now : ℚ) ≤ instant (seconds f) + skew
  nbf : At claims (utf8 "nbf") fun f => instant (seconds f) - skew ≤ now

/-- Reading an `exp` makes no difference: it is an instant, and now is not between it and its whole seconds. -/
def ExpRead (now skew : Int) (f : Float64) : Prop :=
  if minInt64 ≤ wholeSeconds f then
    ¬ (instant (seconds f) + skew < now ∧ (now : ℚ) ≤ instant (wholeSeconds f) + skew)
  else (now : ℚ) ≤ instant (seconds f) + skew

/-- Reading an `nbf` makes no difference: it is an instant, and now is not between it and its whole seconds. -/
def NbfRead (now skew : Int) (f : Float64) : Prop :=
  if minInt64 ≤ wholeSeconds f ∧ wholeSeconds f ≤ maxInt64 - unixToInternal then
    ¬ (instant (wholeSeconds f) - skew ≤ now ∧ (now : ℚ) < instant (seconds f) - skew)
  else instant (seconds f) - skew ≤ now

/-- The times of a token are numbers, and are read as they are. -/
structure TimesRead (now skew : Int) (claims : Json.GoMap) : Prop where
  exp : At claims (utf8 "exp") (ExpRead now skew)
  nbf : At claims (utf8 "nbf") (NbfRead now skew)

end

/-! ## Curves -/

def curveOf (alg : Bytes) : Option Curve :=
  if alg = utf8 "ES256" then some .p256
  else if alg = utf8 "ES384" then some .p384
  else if alg = utf8 "ES512" then some .p521
  else none

def Named (c : Curve) : Prop := c = .p256 ∨ c = .p384 ∨ c = .p521

def signatureLength (token : Bytes) : Option Nat :=
  match Strings.splitN token dot 3 with
  | [_, _, s] => (base64URLDecode s).map List.length
  | _ => none

/-- How long the signatures of a curve are: two numbers below its order. -/
def signatureSize (c : Curve) : Nat := 2 * ((c.bitSize + 7) / 8)

/-! ## Keys with a JWK -/

/-- An RSA key with a positive modulus and a positive `int` as its exponent, or an Ed25519 key of 32 bytes. -/
def Convertible : CryptoKey → Prop
  | .rsa key => 0 < key.n ∧ 0 < key.e ∧ key.e < 2 ^ 63
  | .ed25519 key => key.length = 32
  | _ => False

/-- The key has the exponent that the bytes of `e` are, and there is no key if that is no 64-bit integer. -/
structure ExponentExact (jwk : JWK) : Prop where
  value : ∀ pub, jwkToPublicKey jwk = .ok pub →
    ∃ key bs, pub = .rsa key ∧ base64URLDecode jwk.e = some bs ∧ key.e = setBytes bs
  refused : ∀ bs, base64URLDecode jwk.e = some bs → 2 ^ 63 ≤ setBytes bs → ∃ err, jwkToPublicKey jwk = .error err

/-! ## The history of a remote key set -/

def lastStored : List (RemoteAction × Progress) → Option RemoteJWKSCache
  | [] => none
  | (.fetched now _ (.ok keys), _) :: _ => some ⟨keys, now⟩
  | _ :: tr => lastStored tr

/-- A lookup that missed drops a set with a key only if that is too old. -/
def Harmless (_ : List (RemoteAction × Progress)) (r : RemoteJWKS) (a : RemoteAction) : Prop :=
  ∀ now id, a = .drop now id → ∀ keys, r.cached now = some keys → ∀ kid alg, matchKey keys kid alg = none

end Csar.Spec.Jwtx
