import CsarCore.Proof.Jwtx.Verify
import CsarCore.Spec.Jwtx

/-!
# Algorithms and curves

The algorithm chooses the hash, the curve of the key the length of the signature; so the
key is on the curve of the algorithm exactly if the signature is as long as those of
that curve and the key is on one of the three (`curve_bound_iff`), as those of JWKs are
(`named_of_jwkToPublicKey`). A JWK without `alg` is taken for any: `p384_key_for_es256`.
-/

namespace Csar.Proof.Jwtx

open Impl.Jwtx Spec.Jwtx

variable {ρ ε κ : Type} {C : Crypto ρ ε} {overflow : Float64 → Int} {now : Int}

theorem named_of_curveOf {alg : Bytes} {c : Curve} (h : curveOf alg = some c) : Named c := by
  unfold curveOf at h
  split at h
  · cases h
    exact .inl rfl
  · split at h
    · cases h
      exact .inr (.inl rfl)
    · split at h
      · cases h
        exact .inr (.inr rfl)
      · cases h

theorem eq_of_signatureSize {c c' : Curve} (hc : Named c) (hc' : Named c') (h : signatureSize c = signatureSize c') :
    c = c' := by
  rcases hc with rfl | rfl | rfl <;> rcases hc' with rfl | rfl | rfl <;> first | rfl | cases h

theorem curveOf_rsa : ∀ alg ∈ [utf8 "RS256", utf8 "RS384", utf8 "RS512", utf8 "EdDSA"], curveOf alg = none := by
  intro alg halg
  simp only [List.mem_cons, List.not_mem_nil, or_false] at halg
  rcases halg with rfl | rfl | rfl | rfl <;> simp [curveOf, utf8_inj]

/-- A signature that is accepted is so with an ECDSA key, and as long as those of its curve. -/
theorem ecdsa_of_accepts {alg message signature : Bytes} {pub : PublicKey ρ ε} {c : Curve} (halg : curveOf alg = some c)
    (h : Accepts C alg pub message signature) :
    ∃ key, pub = .ecdsa key ∧ signature.length = signatureSize key.curve := by
  cases h with
  | @rsa _ _ _ _ hash hmem _ =>
    have hnone : curveOf alg = none := by
      refine curveOf_rsa alg ?_
      simp only [List.mem_cons, Prod.mk.injEq, List.not_mem_nil, or_false] at hmem ⊢
      tauto
    rw [hnone] at halg
    cases halg
  | @ecdsa _ _ r s key _ _ hr hs _ =>
    refine ⟨key, rfl, ?_⟩
    rw [List.length_append, hr, hs, signatureSize]
    omega
  | eddsa _ =>
    rw [curveOf_rsa (utf8 "EdDSA") (by simp)] at halg
    cases halg

theorem signatureLength_of_steps {keyFunc : Bytes → Bytes → Except κ (PublicKey ρ ε)} {cfg : VerifyConfig}
    {token h p s signature : Bytes} {vt : VerifiedToken} (steps : Steps C overflow now keyFunc cfg token h p s vt)
    (hs : base64URLDecode s = some signature) : signatureLength token = some signature.length := by
  rw [signatureLength, steps.split]
  dsimp only
  rw [hs]
  rfl

/-- A token that is verified with such an algorithm has a key on its curve exactly if its signature is as
long as those of the curve and the key is on one of the three. -/
theorem curve_bound_iff (C : Crypto ρ ε) (overflow : Float64 → Int) (now : Int) (token : Bytes)
    (keyFunc : Bytes → Bytes → Except κ (PublicKey ρ ε)) (cfg : Option VerifyConfig) (vt : VerifiedToken)
    (h : verify C overflow now token keyFunc cfg = .ok vt) (c : Curve) (halg : curveOf (alg vt) = some c) :
    (∃ key, keyFunc (kid vt) (alg vt) = .ok (.ecdsa key) ∧ key.curve = c) ↔
      signatureLength token = some (signatureSize c) ∧
        ∀ key, keyFunc (kid vt) (alg vt) = .ok (.ecdsa key) → Named key.curve := by
  obtain ⟨hd, p, s, steps⟩ := steps_of_verify h
  obtain ⟨pub, signature, hkey, hdecoded, hsig⟩ := steps.signature
  obtain ⟨key, rfl, hlen⟩ := ecdsa_of_accepts halg (accepts_of_verifySig hsig)
  have hlength := signatureLength_of_steps steps hdecoded
  constructor
  · intro ⟨key', hkey', hcurve⟩
    cases hkey.symm.trans hkey'
    refine ⟨by rw [hlength, hlen, hcurve], fun key' hkey' => ?_⟩
    cases hkey.symm.trans hkey'
    rw [hcurve]
    exact named_of_curveOf halg
  · intro ⟨hsize, hnamed⟩
    rw [hlength, Option.some_inj, hlen] at hsize
    exact ⟨key, hkey, eq_of_signatureSize (hnamed key hkey) (named_of_curveOf halg) hsize⟩

/-! ## Keys of JWKs -/

theorem named_of_ecCurve {crv : Bytes} {c : Curve} (h : ecCurve crv = .ok c) : Named c := by
  unfold ecCurve at h
  split at h
  · cases h
    exact .inl rfl
  · split at h
    · cases h
      exact .inr (.inl rfl)
    · split at h
      · cases h
        exact .inr (.inr rfl)
      · cases h

theorem named_of_jwkToPublicKey {jwk : JWK} {key : ECPublicKey (Nat × Nat)}
    (h : jwkToPublicKey jwk = .ok (.ecdsa key)) : Named key.curve := by
  unfold jwkToPublicKey at h
  split at h
  · cases hk : jwkToRSAPublicKey jwk with
    | error e | ok k => rw [hk] at h; cases h
  · split at h
    · cases hk : jwkToECPublicKey jwk with
      | error e => rw [hk] at h; cases h
      | ok k =>
        rw [hk] at h
        cases h
        obtain ⟨c, hc, hk⟩ := bind_eq_ok hk
        obtain ⟨x, -, hk⟩ := bind_eq_ok hk
        obtain ⟨y, -, hk⟩ := bind_eq_ok hk
        cases hk
        exact named_of_ecCurve hc
    · split at h
      · cases hk : jwkToEdPublicKey jwk with
        | error e | ok k => rw [hk] at h; cases h
      · cases h

theorem named_of_keyFuncOf {keys : List JWK} {kid alg : Bytes} {key : ECPublicKey (Nat × Nat)}
    (h : keyFuncOf keys kid alg = .ok (.ecdsa key)) : Named key.curve := by
  unfold keyFuncOf at h
  split at h
  · cases h
  · exact named_of_jwkToPublicKey (mapError_eq_ok h)

def anyECDSA : Crypto RSAPublicKey (Nat × Nat) where
  sum := fun _ bs => bs
  verifyPKCS1v15 := fun _ _ _ _ => false
  verifyECDSA := fun _ _ _ _ => true
  verifyEd25519 := fun _ _ _ => false

/-- A JWK without `alg`, with a point of a curve. -/
def ecJWK (crv : String) : JWK := { kty := utf8 "EC", kid := utf8 "k", crv := utf8 crv, x := utf8 "AQ", y := utf8 "AQ" }

def es256Token (n : Nat) : Bytes := utf8 "eyJhbGciOiJFUzI1NiIsImtpZCI6ImsifQ.e30." ++ List.replicate n 65

def es256Verified : VerifiedToken where
  header := some [(utf8 "alg", .string (utf8 "ES256")), (utf8 "kid", .string (utf8 "k"))]
  claims := some []

theorem curve_bound_es256 :
    verify anyECDSA (fun _ => 0) 0 (es256Token 86) (keyFuncOf [ecJWK "P-256"]) none = .ok es256Verified ∧
      ∃ key, keyFuncOf [ecJWK "P-256"] (kid es256Verified) (alg es256Verified) = .ok (.ecdsa key) ∧
        key.curve = .p256 := by
  have hrun : verify anyECDSA (fun _ => 0) 0 (es256Token 86) (keyFuncOf [ecJWK "P-256"]) none = .ok es256Verified ∧
      curveOf (alg es256Verified) = some .p256 ∧ signatureLength (es256Token 86) = some (signatureSize .p256) := by
    decide +kernel
  exact ⟨hrun.1, (curve_bound_iff anyECDSA _ _ _ _ _ _ hrun.1 .p256 hrun.2.1).mpr
    ⟨hrun.2.2, fun key hkey => named_of_keyFuncOf hkey⟩⟩

/-- A key of P-384 is taken for ES256, with a signature of its length. -/
theorem p384_key_for_es256 :
    verify anyECDSA (fun _ => 0) 0 (es256Token 128) (keyFuncOf [ecJWK "P-384"]) none = .ok es256Verified ∧
      alg es256Verified = utf8 "ES256" ∧
      keyFuncOf [ecJWK "P-384"] (kid es256Verified) (alg es256Verified) = .ok (.ecdsa ⟨.p384, (1, 1)⟩) ∧
      ¬ ∃ key, keyFuncOf [ecJWK "P-384"] (kid es256Verified) (alg es256Verified) = .ok (.ecdsa key) ∧
        key.curve = .p256 := by
  have hrun : verify anyECDSA (fun _ => 0) 0 (es256Token 128) (keyFuncOf [ecJWK "P-384"]) none = .ok es256Verified ∧
      alg es256Verified = utf8 "ES256" ∧
      keyFuncOf [ecJWK "P-384"] (kid es256Verified) (alg es256Verified) = .ok (.ecdsa ⟨.p384, (1, 1)⟩) := by
    decide +kernel
  refine ⟨hrun.1, hrun.2.1, hrun.2.2, fun ⟨key, hkey, hcurve⟩ => ?_⟩
  cases hrun.2.2.symm.trans hkey
  cases hcurve

end Csar.Proof.Jwtx
