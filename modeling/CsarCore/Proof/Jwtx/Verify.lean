import CsarCore.Framework.Except
import CsarCore.Spec.Jwtx

/-!
# What a verified token is

`verify` is a chain of steps that may fail; `steps_of_verify` gives what each returned
where all succeeded. The last part has no dot because base64 has none, so the token has
exactly three parts.
-/

namespace Csar.Proof.Jwtx

open Impl.Jwtx Spec.Jwtx

variable {ρ ε κ : Type} {C : Crypto ρ ε} {overflow : Float64 → Int} {now : Int}

/-! ## Signatures -/

variable {message signature s : Bytes} {pub : PublicKey ρ ε}

theorem mem_of_algToHash {alg : Bytes} {hash : Hash} (h : algToHash alg = some hash) :
    (alg, hash) ∈ [(utf8 "RS256", .sha256), (utf8 "RS384", .sha384), (utf8 "RS512", .sha512)] ∨
      (alg, hash) ∈ [(utf8 "ES256", .sha256), (utf8 "ES384", .sha384), (utf8 "ES512", .sha512)] := by
  unfold algToHash at h
  split at h
  · rename_i halg
    cases h
    rcases halg with rfl | rfl <;> simp
  · split at h
    · rename_i halg
      cases h
      rcases halg with rfl | rfl <;> simp
    · split at h
      · rename_i halg
        cases h
        rcases halg with rfl | rfl <;> simp
      · cases h

theorem accepts_of_verifyRSA {alg : Bytes}
    (halg : (utf8 "RS").isPrefixOf alg) (h : verifyRSA C alg pub message signature = .ok ()) :
    Accepts C alg pub message signature := by
  unfold verifyRSA at h
  split at h
  · split at h
    · cases h
    · rename_i hash hhash
      split at h
      · rename_i haccepted
        refine .rsa ((mem_of_algToHash hhash).resolve_right fun hec => ?_) haccepted
        have hnone : ∀ x ∈ [(utf8 "ES256", Hash.sha256), (utf8 "ES384", .sha384), (utf8 "ES512", .sha512)],
            (utf8 "RS").isPrefixOf x.1 = false := by decide +kernel
        have hfalse := hnone _ hec
        rw [halg] at hfalse
        cases hfalse
      · cases h
  · cases h

theorem accepts_of_verifyECDSA {alg : Bytes}
    (halg : (utf8 "ES").isPrefixOf alg) (h : verifyECDSA C alg pub message signature = .ok ()) :
    Accepts C alg pub message signature := by
  unfold verifyECDSA at h
  split at h
  · split at h
    · cases h
    · rename_i key _ hash hhash
      dsimp only at h
      split at h
      · cases h
      · rename_i hlen
        split at h
        · rename_i haccepted
          have hfamily := (mem_of_algToHash hhash).resolve_left fun hrsa => by
            have hnone : ∀ x ∈ [(utf8 "RS256", Hash.sha256), (utf8 "RS384", .sha384), (utf8 "RS512", .sha512)],
                (utf8 "ES").isPrefixOf x.1 = false := by decide +kernel
            have hfalse := hnone _ hrsa
            rw [halg] at hfalse
            cases hfalse
          rw [← List.take_append_drop ((key.curve.bitSize + 7) / 8) signature]
          refine .ecdsa hfamily ?_ ?_ haccepted
          · rw [List.length_take]
            omega
          · rw [List.length_drop]
            omega
        · cases h
  · cases h

theorem accepts_of_verifyEdDSA
    (h : verifyEdDSA C pub message signature = .ok ()) : Accepts C (utf8 "EdDSA") pub message signature := by
  unfold verifyEdDSA at h
  split at h
  · split at h
    · rename_i haccepted
      exact .eddsa haccepted
    · cases h
  · cases h

theorem accepts_of_verifySig {alg : Bytes}
    (h : verifySig C alg pub message signature = .ok ()) : Accepts C alg pub message signature := by
  unfold verifySig at h
  split at h
  · rename_i halg
    exact accepts_of_verifyRSA halg h
  · split at h
    · rename_i halg
      exact accepts_of_verifyECDSA halg h
    · split at h
      · rename_i halg
        rw [halg]
        exact accepts_of_verifyEdDSA h
      · cases h

/-! ## Parts -/

theorem decodes_of_base64URLDecode {bytes : Bytes} (h : base64URLDecode s = some bytes) : Decodes s bytes := by
  have htwo : utf8 "==" = List.replicate 2 Base64.pad := by decide +kernel
  have hone : utf8 "=" = List.replicate 1 Base64.pad := by decide +kernel
  unfold base64URLDecode at h
  split at h
  · exact ⟨2, by decide, htwo ▸ h⟩
  · exact ⟨1, by decide, hone ▸ h⟩
  · exact ⟨0, by decide, by rw [List.replicate_zero, List.append_nil]; exact h⟩

theorem dot_notMem_of_decodes {bytes : Bytes} (h : Decodes s bytes) : dot ∉ s := by
  obtain ⟨n, -, hn⟩ := h
  intro hmem
  have hdot := Base64.Encoding.mem_of_decode hn dot (List.mem_append_left _ hmem)
  revert hdot
  decide +kernel

theorem decodes_of_decodePart {decoding parsing : String} {part : Bytes} {m : Json.GoMap}
    (h : decodePart (κ := κ) decoding parsing part = .ok m) :
    ∃ bytes, Decodes part bytes ∧ Json.unmarshalMap bytes = .ok m := by
  unfold decodePart at h
  split at h
  · cases h
  · rename_i bytes hbytes
    split at h <;> cases h
    exact ⟨bytes, decodes_of_base64URLDecode hbytes, ‹_›⟩

/-! ## Names -/

theorem of_checkAlg {cfg : VerifyConfig} {alg : Bytes} (h : checkAlg (κ := κ) cfg alg = .ok ()) :
    Strings.equalFold alg (utf8 "none") = false ∧ (cfg.allowedAlgorithms ≠ [] → alg ∈ cfg.allowedAlgorithms) := by
  unfold checkAlg at h
  split at h
  · cases h
  · rename_i hnone
    split at h
    · cases h
    · rename_i hallowed
      refine ⟨Bool.eq_false_iff.mpr hnone, fun hne => ?_⟩
      by_contra hmem
      exact hallowed ⟨hne, Bool.eq_false_iff.mpr fun h => hmem (List.contains_iff_mem.mp h)⟩

theorem ne_none_of_equalFold {alg : Bytes} (h : Strings.equalFold alg (utf8 "none") = false) :
    ∀ cs : List Char, cs.map Char.toLower = ['n', 'o', 'n', 'e'] → alg ≠ encodeRunes cs := by
  rintro cs hcs rfl
  have hnone : encodeRunes ['n', 'o', 'n', 'e'] = utf8 "none" := by decide +kernel
  have hfold := Strings.equalFold_of_toLower hcs (by simp) (by simp)
  rw [hnone, h] at hfold
  cases hfold

theorem eq_of_stringOf {v : Option Json.Value} (h : Json.stringOf v = s) (hs : s ≠ []) :
    v = some (.string s) := by
  unfold Json.stringOf at h
  split at h
  · rw [h]
  · exact absurd h.symm hs

theorem of_audienceContains {aud : Option Json.Value} {target : Bytes} (h : audienceContains aud target) :
    aud = some (.string target) ∨ ∃ vs, aud = some (.array vs) ∧ .string target ∈ vs := by
  unfold audienceContains at h
  split at h
  · exact .inl (by rw [of_decide_eq_true h])
  · rename_i vs
    obtain ⟨v, hv, heq⟩ := List.any_eq_true.mp h
    exact .inr ⟨vs, rfl, of_decide_eq_true heq ▸ hv⟩
  · cases h

theorem of_checkNames {cfg : VerifyConfig} {claims : Json.GoMap} (h : checkNames (κ := κ) cfg claims = .ok ()) :
    (cfg.requiredIssuer ≠ [] → claims.get (utf8 "iss") = some (.string cfg.requiredIssuer)) ∧
      (cfg.requiredAudience ≠ [] → claims.get (utf8 "aud") = some (.string cfg.requiredAudience) ∨
        ∃ vs, claims.get (utf8 "aud") = some (.array vs) ∧ .string cfg.requiredAudience ∈ vs) := by
  unfold checkNames at h
  dsimp only at h
  split at h
  · cases h
  · rename_i hiss
    split at h
    · cases h
    · rename_i haud
      refine ⟨fun hne => eq_of_stringOf ?_ hne, fun hne => of_audienceContains ?_⟩
      · by_contra hdiff
        exact hiss ⟨hne, hdiff⟩
      · by_contra hdiff
        exact haud ⟨hne, Bool.eq_false_iff.mpr hdiff⟩

/-! ## The chain -/

/-- What the steps returned where all succeeded. -/
structure Steps (C : Crypto ρ ε) (overflow : Float64 → Int) (now : Int)
    (keyFunc : Bytes → Bytes → Except κ (PublicKey ρ ε)) (cfg : VerifyConfig) (token h p s : Bytes)
    (vt : VerifiedToken) : Prop where
  split : Strings.splitN token dot 3 = [h, p, s]
  header : decodePart (κ := κ) "header" "header" h = .ok vt.header
  checkAlg : checkAlg (κ := κ) cfg (alg vt) = .ok ()
  signature : ∃ pub signature, keyFunc (kid vt) (alg vt) = .ok pub ∧ base64URLDecode s = some signature ∧
    verifySig C (alg vt) pub (h ++ dot :: p) signature = .ok ()
  claims : decodePart (κ := κ) "payload" "claims" p = .ok vt.claims
  checkTimes : checkTimes (κ := κ) overflow now cfg.clockSkew vt.claims = .ok ()
  checkNames : checkNames (κ := κ) cfg vt.claims = .ok ()

theorem steps_of_verify {token : Bytes} {keyFunc : Bytes → Bytes → Except κ (PublicKey ρ ε)}
    {cfg : Option VerifyConfig} {vt : VerifiedToken}
    (h : verify C overflow now token keyFunc cfg = .ok vt) :
    ∃ hd p s, Steps C overflow now keyFunc (cfg.getD {}) token hd p s vt := by
  unfold verify at h
  dsimp only at h
  split at h
  · rename_i hd p s hsplit
    obtain ⟨header, hheader, h⟩ := bind_eq_ok h
    obtain ⟨_, halg, h⟩ := bind_eq_ok h
    obtain ⟨pub, hpub, h⟩ := bind_eq_ok h
    obtain ⟨signature, hsignature, h⟩ := bind_eq_ok h
    obtain ⟨_, hsig, h⟩ := bind_eq_ok h
    obtain ⟨claims, hclaims, h⟩ := bind_eq_ok h
    obtain ⟨_, htimes, h⟩ := bind_eq_ok h
    obtain ⟨_, hnames, h⟩ := bind_eq_ok h
    cases h
    have hdecoded : base64URLDecode s = some signature := by
      cases hs : base64URLDecode s with
      | none =>
        rw [hs] at hsignature
        cases hsignature
      | some bytes =>
        rw [hs] at hsignature
        cases hsignature
        rfl
    exact ⟨hd, p, s, hsplit, hheader, halg, ⟨pub, signature, mapError_eq_ok hpub, hdecoded, mapError_eq_ok hsig⟩,
      hclaims, htimes, hnames⟩
  · cases h

theorem verify_authentic (C : Crypto ρ ε) (overflow : Float64 → Int) (now : Int) (token : Bytes)
    (keyFunc : Bytes → Bytes → Except κ (PublicKey ρ ε)) (cfg : Option VerifyConfig) (vt : VerifiedToken)
    (h : verify C overflow now token keyFunc cfg = .ok vt) : Authentic C keyFunc (cfg.getD {}) token vt := by
  obtain ⟨hd, p, s, steps⟩ := steps_of_verify h
  obtain ⟨htoken, hdotHeader, hdotPayload⟩ := Strings.eq_of_splitN_three steps.split
  obtain ⟨pub, signature, hkey, hdecoded, hsig⟩ := steps.signature
  obtain ⟨hnone, hallowed⟩ := of_checkAlg steps.checkAlg
  obtain ⟨hissuer, haudience⟩ := of_checkNames steps.checkNames
  have hsignature := decodes_of_base64URLDecode hdecoded
  refine ⟨⟨hd, p, s, ?_⟩, ne_none_of_equalFold hnone, hallowed, hissuer, haudience⟩
  exact
    { parts := ⟨htoken, hdotHeader, hdotPayload, dot_notMem_of_decodes hsignature⟩
      header := decodes_of_decodePart steps.header
      claims := decodes_of_decodePart steps.claims
      signature := ⟨signature, pub, hsignature, hkey, accepts_of_verifySig hsig⟩ }

def edToken : Bytes := utf8 "eyJhbGciOiJFZERTQSIsImtpZCI6ImsifQ.eyJpc3MiOiJpIiwiYXVkIjpbImEiXX0.cw"

/-- Primitives of which one accepts a signature of any two parts of that length. -/
def edCrypto : Crypto Empty Empty where
  sum := fun _ bs => bs
  verifyPKCS1v15 := fun _ _ _ _ => false
  verifyECDSA := fun _ _ _ _ => false
  verifyEd25519 := fun key message signature => key = [7] ∧ message.length = 66 ∧ signature = utf8 "s"

def edKeyFunc (kid _alg : Bytes) : Except Unit (PublicKey Empty Empty) :=
  if kid = utf8 "k" then .ok (.ed25519 [7]) else .error ()

def edConfig : VerifyConfig :=
  { allowedAlgorithms := [utf8 "EdDSA"], requiredIssuer := utf8 "i", requiredAudience := utf8 "a" }

theorem verify_authentic_eddsa :
    ∃ vt, verify edCrypto (fun _ => 0) 0 edToken edKeyFunc (some edConfig) = .ok vt ∧
      Authentic edCrypto edKeyFunc edConfig edToken vt := by
  have h : verify edCrypto (fun _ => 0) 0 edToken edKeyFunc (some edConfig) = .ok
      { header := some [(utf8 "alg", .string (utf8 "EdDSA")), (utf8 "kid", .string (utf8 "k"))]
        claims := some [(utf8 "aud", .array [.string (utf8 "a")]), (utf8 "iss", .string (utf8 "i"))] } := by
    decide +kernel
  exact ⟨_, h, verify_authentic edCrypto _ _ _ _ _ _ h⟩

end Csar.Proof.Jwtx
