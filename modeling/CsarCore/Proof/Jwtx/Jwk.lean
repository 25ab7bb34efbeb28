import CsarCore.Proof.Jwtx.Verify
import CsarCore.Spec.Jwtx
import Mathlib.Data.Nat.Digits.Lemmas

/-!
# Keys to JWKs and back

Base64url is read again (`base64URLDecode_encode`) and so are the bytes of a number
(`setBytes_bigBytes`), also in the loop over an exponent of 64 bits
(`exponentOf_eq_iff`): `jwk_round_trip`. A larger one wraps around: `exponent_exact_iff`.
-/

namespace Csar.Proof.Jwtx

open Impl.Jwtx Spec.Jwtx

/-! ## Base64 -/

/-- With padding, the encoding ends with what is missing to a multiple of four. -/
theorem url_encode (bs : Bytes) :
    Base64.url.encode bs = Base64.rawURL.encode bs ++
      List.replicate ((4 - (Base64.rawURL.encode bs).length % 4) % 4) Base64.pad := by
  induction bs using Base64.Encoding.encode.induct with
  | case1 => rfl
  | case2 a => rfl
  | case3 a b => rfl
  | case4 a b c rest ih =>
    have hlen : (Base64.rawURL.encode (a :: b :: c :: rest)).length = (Base64.rawURL.encode rest).length + 4 := rfl
    have hmod : ((Base64.rawURL.encode rest).length + 4) % 4 = (Base64.rawURL.encode rest).length % 4 := by omega
    rw [hlen, hmod, Base64.Encoding.encode, Base64.Encoding.encode, ih]
    rfl

theorem length_rawURL_ne (bs : Bytes) : (Base64.rawURL.encode bs).length % 4 ≠ 1 := by
  induction bs using Base64.Encoding.encode.induct with
  | case1 => decide
  | case2 a =>
    have hlen : (Base64.rawURL.encode [a]).length = 2 := rfl
    omega
  | case3 a b =>
    have hlen : (Base64.rawURL.encode [a, b]).length = 3 := rfl
    omega
  | case4 a b c rest ih =>
    have hlen : (Base64.rawURL.encode (a :: b :: c :: rest)).length = (Base64.rawURL.encode rest).length + 4 := rfl
    omega

theorem base64URLDecode_encode (bs : Bytes) : base64URLDecode (Base64.rawURL.encode bs) = some bs := by
  have hone := length_rawURL_ne bs
  have hurl := url_encode bs
  have hlt := Nat.mod_lt (Base64.rawURL.encode bs).length (by decide : 4 > 0)
  have htwo : utf8 "==" = List.replicate 2 Base64.pad := by
    rw [utf8_eq_encodeRunes]
    rfl
  have hpad : utf8 "=" = List.replicate 1 Base64.pad := by
    rw [utf8_eq_encodeRunes]
    rfl
  unfold base64URLDecode
  rw [htwo, hpad]
  generalize (Base64.rawURL.encode bs).length % 4 = m at hone hurl hlt ⊢
  obtain rfl | rfl | rfl : m = 0 ∨ m = 2 ∨ m = 3 := by omega
  · have hsame : Base64.url.encode bs = Base64.rawURL.encode bs := by
      rw [hurl]
      exact List.append_nil _
    rw [← hsame]
    exact Base64.Encoding.decode_encode bs
  · have hsame : Base64.url.encode bs = Base64.rawURL.encode bs ++ List.replicate 2 Base64.pad := hurl
    rw [← hsame]
    exact Base64.Encoding.decode_encode bs
  · have hsame : Base64.url.encode bs = Base64.rawURL.encode bs ++ List.replicate 1 Base64.pad := hurl
    rw [← hsame]
    exact Base64.Encoding.decode_encode bs

theorem decodeField_encode (what : String) (bs : Bytes) : decodeField what (Base64.rawURL.encode bs) = .ok bs := by
  rw [decodeField, base64URLDecode_encode]
  rfl

/-! ## Numbers -/

theorem setBytes_append (bs : Bytes) (b : UInt8) : setBytes (bs ++ [b]) = setBytes bs * 256 + b.toNat := by
  rw [setBytes, List.foldl_append]
  rfl

theorem setBytes_bigBytes (n : Nat) : setBytes (bigBytes n) = n := by
  have hdigits : ∀ ds : List Nat, (∀ d ∈ ds, d < 256) →
      setBytes (ds.reverse.map UInt8.ofNat) = Nat.ofDigits 256 ds := by
    intro ds
    induction ds with
    | nil => exact fun _ => rfl
    | cons d ds ih =>
      intro h
      have hd : (UInt8.ofNat d).toNat = d := by
        rw [UInt8.toNat_ofNat']
        exact Nat.mod_eq_of_lt (h d List.mem_cons_self)
      rw [List.reverse_cons, List.map_append, List.map_singleton, setBytes_append,
        ih fun d' hd' => h d' (List.mem_cons_of_mem d hd'), hd, Nat.ofDigits_cons]
      omega
  rw [bigBytes, hdigits _ fun d hd => Nat.digits_lt_base (by decide) hd, Nat.ofDigits_digits]

theorem exponentOf_eq_wrap (bs : Bytes) : exponentOf bs = wrap64 (setBytes bs) := by
  induction bs using List.reverseRecOn with
  | nil => rfl
  | append_singleton bs b ih =>
    have hstep : exponentOf (bs ++ [b]) = wrap64 (wrap64 (exponentOf bs * 256) + b.toNat) := by
      rw [exponentOf, List.foldl_append]
      rfl
    rw [hstep, ih, wrap64_mul_left, wrap64_add_left, setBytes_append]
    push_cast
    rfl

theorem exponentOf_eq_iff (bs : Bytes) : exponentOf bs = setBytes bs ↔ setBytes bs < 2 ^ 63 := by
  rw [exponentOf_eq_wrap, wrap64_eq_self_iff, minInt64, maxInt64]
  omega

/-! ## Keys -/

/-- The JWK of a key is one of the key. -/
theorem jwk_round_trip (pub : CryptoKey) (kid : Bytes) (h : Convertible pub) :
    ∃ jwk, newJWKFromPublicKey pub kid = .ok jwk ∧ jwkToPublicKey jwk = .ok pub := by
  cases pub with
  | rsa key =>
    obtain ⟨hn, he, hlt⟩ := h
    refine ⟨_, rfl, ?_⟩
    have hexp : exponentOf (bigBytes key.e.natAbs) = key.e := by
      rw [(exponentOf_eq_iff _).mpr (by rw [setBytes_bigBytes]; omega), setBytes_bigBytes]
      omega
    have hmod : (setBytes (bigBytes key.n.natAbs) : Int) = key.n := by
      rw [setBytes_bigBytes]
      omega
    simp only [jwkToPublicKey, if_true, jwkToRSAPublicKey, decodeField_encode]
    show (.ok (.rsa ⟨setBytes (bigBytes key.n.natAbs), exponentOf (bigBytes key.e.natAbs)⟩) :
      Except JWKError CryptoKey) = _
    rw [hexp, hmod]
  | ed25519 key =>
    refine ⟨_, rfl, ?_⟩
    have hrsa : utf8 "OKP" ≠ utf8 "RSA" := fun he => absurd (utf8_injective he) (by decide)
    have hec : utf8 "OKP" ≠ utf8 "EC" := fun he => absurd (utf8_injective he) (by decide)
    have hlen : key.length = ed25519PublicKeySize := h
    simp only [jwkToPublicKey, if_neg hrsa, if_neg hec, if_true, jwkToEdPublicKey, decodeField_encode, ne_eq,
      not_true, if_false]
    simp only [bind, Except.bind, hlen, not_true, if_false]
    rfl
  | ecdsa key | other => exact h.elim

theorem jwk_round_trip_samples :
    (∃ jwk, newJWKFromPublicKey (.rsa ⟨3233, 17⟩) (utf8 "k") = .ok jwk ∧ jwkToPublicKey jwk = .ok (.rsa ⟨3233, 17⟩)) ∧
      ∃ jwk, newJWKFromPublicKey (.ed25519 (List.replicate 32 7)) [] = .ok jwk ∧
        jwkToPublicKey jwk = .ok (.ed25519 (List.replicate 32 7)) :=
  ⟨jwk_round_trip _ _ ⟨by decide, by decide, by decide⟩, jwk_round_trip _ _ rfl⟩

/-! ## Exponents -/

theorem jwkToPublicKey_rsa {jwk : JWK} (hkty : jwk.kty = utf8 "RSA") {pub : CryptoKey} :
    jwkToPublicKey jwk = .ok pub ↔ ∃ nBytes eBytes, base64URLDecode jwk.n = some nBytes ∧
      base64URLDecode jwk.e = some eBytes ∧ pub = .rsa ⟨setBytes nBytes, exponentOf eBytes⟩ := by
  rw [jwkToPublicKey, if_pos hkty, jwkToRSAPublicKey, decodeField, decodeField]
  cases base64URLDecode jwk.n with
  | none => simp [bind, Except.bind, Functor.map, Except.map]
  | some nBytes =>
    cases base64URLDecode jwk.e with
    | none => simp [bind, Except.bind, Functor.map, Except.map]
    | some eBytes => simp [bind, Except.bind, Functor.map, Except.map, pure, Except.pure, eq_comm]

/-- The exponent of an RSA JWK is read as it is or refused, exactly if it is an `int` (or there is no key). -/
theorem exponent_exact_iff (jwk : JWK) (hkty : jwk.kty = utf8 "RSA") :
    ExponentExact jwk ↔ ∀ nBytes eBytes, base64URLDecode jwk.n = some nBytes → base64URLDecode jwk.e = some eBytes →
      setBytes eBytes < 2 ^ 63 := by
  constructor
  · intro h nBytes eBytes hn he
    have hkey := (jwkToPublicKey_rsa hkty).mpr ⟨nBytes, eBytes, hn, he, rfl⟩
    obtain ⟨key, bs, hpub, hbs, hvalue⟩ := h.value _ hkey
    cases hpub
    rw [he, Option.some.injEq] at hbs
    subst hbs
    exact (exponentOf_eq_iff eBytes).mp hvalue
  · intro h
    refine ⟨fun pub hpub => ?_, fun bs he hlarge => ?_⟩
    · obtain ⟨nBytes, eBytes, hn, he, rfl⟩ := (jwkToPublicKey_rsa hkty).mp hpub
      exact ⟨_, eBytes, rfl, he, (exponentOf_eq_iff eBytes).mpr (h nBytes eBytes hn he)⟩
    · cases hkey : jwkToPublicKey jwk with
      | error err => exact ⟨err, rfl⟩
      | ok pub =>
        obtain ⟨nBytes, eBytes, hn, he', -⟩ := (jwkToPublicKey_rsa hkty).mp hkey
        rw [he, Option.some.injEq] at he'
        subst he'
        exact absurd (h nBytes bs hn he) (Nat.not_lt.mpr hlarge)

def rsaJWK (n e : Bytes) : JWK := { kty := utf8 "RSA", n := Base64.rawURL.encode n, e := Base64.rawURL.encode e }

theorem exponent_exact_fermat : ExponentExact (rsaJWK [12, 161] [1, 0, 1]) := by
  refine (exponent_exact_iff (rsaJWK [12, 161] [1, 0, 1]) rfl).mpr fun nBytes eBytes _ he => ?_
  rw [rsaJWK, base64URLDecode_encode, Option.some.injEq] at he
  subst he
  decide

/-- 2^64 + 3 is taken for 3. -/
theorem exponent_wraps :
    jwkToPublicKey (rsaJWK [12, 161] [1, 0, 0, 0, 0, 0, 0, 0, 3]) = .ok (.rsa ⟨3233, 3⟩) ∧
      jwkToPublicKey (rsaJWK [12, 161] [3]) = .ok (.rsa ⟨3233, 3⟩) ∧
      ¬ ExponentExact (rsaJWK [12, 161] [1, 0, 0, 0, 0, 0, 0, 0, 3]) := by
  have hkey : ∀ n e, jwkToPublicKey (rsaJWK n e) = .ok (.rsa ⟨setBytes n, exponentOf e⟩) := fun n e =>
    (jwkToPublicKey_rsa rfl).mpr ⟨n, e, base64URLDecode_encode n, base64URLDecode_encode e, rfl⟩
  have hlarge : setBytes [1, 0, 0, 0, 0, 0, 0, 0, 3] = 18446744073709551619 := by decide
  have hlong : exponentOf [1, 0, 0, 0, 0, 0, 0, 0, 3] = 3 := by
    rw [exponentOf_eq_wrap, hlarge, wrap64, Int.bmod_def]
    omega
  have hshort : exponentOf [3] = 3 := (exponentOf_eq_iff [3]).mpr (by decide)
  refine ⟨by rw [hkey, hlong]; rfl, by rw [hkey, hshort]; rfl, fun h => ?_⟩
  obtain ⟨err, herr⟩ := h.refused _ (base64URLDecode_encode _) (by decide)
  rw [hkey] at herr
  cases herr

end Csar.Proof.Jwtx
