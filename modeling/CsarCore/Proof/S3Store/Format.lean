import CsarCore.Spec.S3Store

/-!
# The text of a token object

What is written and read has its strings sanitized (`unmarshal_marshal`), so a secret
comes back exactly if what of it is stored as a string is valid UTF-8: base64 is, a
token of the other mode, a key and the names in a descriptor need not be. A descriptor
stores no value (`parse_descriptor`), but an object may have a token for each mode:
`one_format_iff`.
-/

namespace Csar.Proof.S3Store

open Impl.S3Store Impl.TokenMint Spec.S3Store

def sanitized (obj : TokenObject) : TokenObject where
  encryptedToken := sanitize obj.encryptedToken
  kmsKeyID := sanitize obj.kmsKeyID
  plaintext := sanitize obj.plaintext
  kind := sanitize obj.kind
  grantProfile := sanitize obj.grantProfile
  clientIDRef := sanitize obj.clientIDRef
  clientSecretRef := sanitize obj.clientSecretRef
  updatedAt := sanitize obj.updatedAt
  updatedBy := sanitize obj.updatedBy
  tenant := sanitize obj.tenant
  schemaVersion := obj.schemaVersion

theorem copy_fields (obj : TokenObject) :
    TokenObject.fields.foldl (fun b f => f.copy obj b) {} = sanitized obj := by
  -- each field is still empty when it is read
  rw [TokenObject.fields, Json.foldl_copy_string rfl, Json.foldl_copy_string rfl, Json.foldl_copy_string rfl,
    Json.foldl_copy_string rfl, Json.foldl_copy_string rfl, Json.foldl_copy_string rfl, Json.foldl_copy_string rfl,
    Json.foldl_copy_string rfl, Json.foldl_copy_string rfl, Json.foldl_copy_string rfl, Json.foldl_copy_int rfl]
  rfl

variable {obj : TokenObject} {d : Descriptor}

theorem unmarshal_marshal (h : Json.inInt64 obj.schemaVersion) :
    Json.unmarshalStruct TokenObject.fields (marshalTokenObject obj) {} = .ok (sanitized obj) := by
  obtain ⟨hnames, hvalid⟩ : (TokenObject.fields.map Json.Field.name).Nodup ∧
      ∀ f ∈ TokenObject.fields, validUtf8 f.name :=
    Json.names_of_strings ["enc_token", "kms_key_id", "plaintext", "kind", "grant_profile", "client_id_ref",
      "client_secret_ref", "updated_at", "updated_by", "tenant", "schema_version"] rfl (by decide)
  have hfits : ∀ f ∈ TokenObject.fields, f.Fits obj := by
    simpa [TokenObject.fields, Json.Field.Fits] using h
  rw [marshalTokenObject, Json.unmarshalStruct_flat hnames hvalid (by decide) hfits, copy_fields]

theorem parse_marshal (h : Json.inInt64 obj.schemaVersion) :
    parseTokenObject (marshalTokenObject obj) = checkTokenObject (sanitized obj) := by
  rw [parseTokenObject, unmarshal_marshal h]

/-! ## Tokens -/

theorem roundTrip_passthrough {raw : Bytes} (hraw : raw ≠ []) (kmsKeyID : Bytes) :
    (Secret.token raw kmsKeyID .passthrough).roundTrip = .ok { plaintext := sanitize raw, passthrough := true } := by
  have hne : sanitize raw ≠ [] := fun h => hraw (sanitize_eq_nil.mp h)
  have hencode : (Secret.token raw kmsKeyID .passthrough).encode = .ok { plaintext := raw } := by
    rw [Secret.encode, encodeToken, Mode.name, if_pos rfl]
  have hcheck : checkTokenObject (sanitized { plaintext := raw }) = .ok { plaintext := sanitize raw } := by
    simp [checkTokenObject, TokenObject.isDescriptor, sanitized, hne]
  rw [Secret.roundTrip, hencode]
  dsimp only
  rw [parse_marshal rfl, hcheck]
  simp [decodeToken, TokenObject.isDescriptor, Secret.kmsMode, Mode.name, hne]

theorem sanitize_encode (raw : Bytes) : sanitize (Base64.std.encode raw) = Base64.std.encode raw := by
  refine sanitize_of_valid (validUtf8_of_ascii fun b hb => ?_)
  exact Base64.std_ascii b (List.mem_cons.mpr (Base64.Encoding.mem_encode hb).symm)

/-- An encrypted token comes back, with its key sanitized. -/
theorem roundTrip_kms {raw kmsKeyID : Bytes} (hraw : raw ≠ []) (hkey : kmsKeyID ≠ []) :
    (Secret.token raw kmsKeyID .kms).roundTrip = .ok { encryptedToken := raw, kmsKeyID := sanitize kmsKeyID } := by
  have hne : sanitize kmsKeyID ≠ [] := fun h => hkey (sanitize_eq_nil.mp h)
  have hencoded : Base64.std.encode raw ≠ [] := fun h => hraw (Base64.Encoding.encode_eq_nil h)
  have hmode : utf8 "kms" ≠ utf8 "passthrough" := fun he => absurd (utf8_injective he) (by decide)
  have hencode : (Secret.token raw kmsKeyID .kms).encode =
      .ok { encryptedToken := Base64.std.encode raw, kmsKeyID } := by
    rw [Secret.encode, encodeToken, Mode.name, if_neg hmode, if_pos rfl]
  have hcheck : checkTokenObject (sanitized { encryptedToken := Base64.std.encode raw, kmsKeyID }) =
      .ok { encryptedToken := Base64.std.encode raw, kmsKeyID := sanitize kmsKeyID } := by
    simp [checkTokenObject, TokenObject.isDescriptor, sanitized, sanitize_encode, hne, hencoded]
  rw [Secret.roundTrip, hencode]
  dsimp only
  rw [parse_marshal rfl, hcheck]
  simp [decodeToken, TokenObject.isDescriptor, Secret.kmsMode, hmode, Mode.name, hencoded,
    Base64.Encoding.decode_encode]

/-! ## Descriptors -/

def sanitizedDescriptor (d : Descriptor) : Descriptor where
  kind := sanitize d.kind
  grantProfile := sanitize d.grantProfile
  clientIDRef := sanitize d.clientIDRef
  clientSecretRef := sanitize d.clientSecretRef

theorem kind_of_validate (h : Descriptor.validate (some d) = .ok ()) :
    d.kind = kindOAuth2ClientCredentials := by
  rw [Descriptor.validate] at h
  split at h
  · cases h
  · rename_i hkind
    exact not_not.mp hkind

theorem encodeDescriptor_eq_ok (h : ∃ obj, encodeDescriptor d = .ok obj) :
    Descriptor.validate (some d) = .ok () := by
  obtain ⟨obj, h⟩ := h
  rw [encodeDescriptor] at h
  split at h
  · cases h
  · assumption

def descriptorObject (d : Descriptor) : TokenObject :=
  { kind := d.kind, grantProfile := d.grantProfile, clientIDRef := d.clientIDRef, clientSecretRef := d.clientSecretRef }

theorem check_descriptorObject (hkind : d.kind ≠ []) : checkTokenObject (descriptorObject d) =
      match Descriptor.validate (some d) with
      | .error err => .error (.descriptor err)
      | .ok () => .ok (descriptorObject d) := by
  have hdescriptor : (descriptorObject d).isDescriptor = true := decide_eq_true hkind
  rw [checkTokenObject, if_pos hdescriptor, if_neg (by simp [descriptorObject])]
  rfl

theorem roundTrip_descriptor (h : Descriptor.validate (some d) = .ok ()) (kmsMode : Bytes) :
    (Secret.descriptor d kmsMode).roundTrip =
      match Descriptor.validate (some (sanitizedDescriptor d)) with
      | .error err => .error (.descriptor err)
      | .ok () => .ok { descriptor := some (sanitizedDescriptor d) } := by
  have hkind : sanitize d.kind ≠ [] := by
    rw [kind_of_validate h, kindOAuth2ClientCredentials, sanitize_utf8]
    exact utf8_ne_nil (by decide)
  have hencode : (Secret.descriptor d kmsMode).encode = .ok (descriptorObject d) := by
    rw [Secret.encode, encodeDescriptor, h]
    rfl
  have hsanitized : sanitized (descriptorObject d) = descriptorObject (sanitizedDescriptor d) := rfl
  have hdecode : decodeToken (descriptorObject (sanitizedDescriptor d)) kmsMode =
      .ok { descriptor := some (sanitizedDescriptor d) } := if_pos (decide_eq_true hkind)
  rw [Secret.roundTrip, hencode]
  dsimp only
  have hcheck := check_descriptorObject (show (sanitizedDescriptor d).kind ≠ [] from hkind)
  rw [parse_marshal rfl, hsanitized, hcheck]
  cases Descriptor.validate (some (sanitizedDescriptor d)) with
  | error err => rfl
  | ok _ => exact hdecode

theorem sanitizedDescriptor_eq_self (h : d.kind = kindOAuth2ClientCredentials) : sanitizedDescriptor d = d ↔
      validUtf8 d.grantProfile ∧ validUtf8 d.clientIDRef ∧ validUtf8 d.clientSecretRef := by
  have hkind : sanitize d.kind = d.kind := by
    rw [h]
    exact sanitize_utf8 _
  obtain ⟨kind, grantProfile, clientIDRef, clientSecretRef⟩ := d
  simp only [sanitizedDescriptor, Descriptor.mk.injEq, sanitize_eq_self, hkind, true_and]

/-! ## The round trip -/

/-- A secret comes back as it was exactly if what of it is stored as a string is valid UTF-8. -/
theorem roundTrip_iff (s : Secret) (h : s.Accepted) : s.roundTrip = .ok s.expected ↔ s.Textual := by
  cases s with
  | token raw kmsKeyID mode =>
    obtain ⟨hraw, hkey⟩ := h
    cases mode with
    | passthrough =>
      rw [roundTrip_passthrough hraw kmsKeyID]
      simp [Secret.expected, Secret.Textual, sanitize_eq_self]
    | kms =>
      rw [roundTrip_kms hraw hkey]
      simp [Secret.expected, Secret.Textual, sanitize_eq_self]
  | descriptor d kmsMode =>
    have hvalid := encodeDescriptor_eq_ok h
    have hself := sanitizedDescriptor_eq_self (kind_of_validate hvalid)
    rw [roundTrip_descriptor hvalid kmsMode, Secret.Textual, ← hself]
    refine ⟨fun hback => ?_, fun hsame => ?_⟩
    · split at hback
      · cases hback
      · simpa [Secret.expected] using hback
    · rw [hsame, hvalid]
      rfl

theorem roundTrip_iff_abc :
    (Secret.token (utf8 "abc") (utf8 "key") .passthrough).roundTrip =
        .ok { plaintext := utf8 "abc", passthrough := true } ∧
      (Secret.token [0xFF] (utf8 "key") .kms).roundTrip =
        .ok { encryptedToken := [0xFF], kmsKeyID := utf8 "key" } ∧
      (Secret.descriptor ⟨kindOAuth2ClientCredentials, utf8 "p", utf8 "a", utf8 "b"⟩ []).roundTrip =
        .ok { descriptor := some ⟨kindOAuth2ClientCredentials, utf8 "p", utf8 "a", utf8 "b"⟩ } := by
  refine ⟨(roundTrip_iff (.token (utf8 "abc") (utf8 "key") .passthrough) ⟨?_, ?_⟩).mpr ?_,
    (roundTrip_iff (.token [0xFF] (utf8 "key") .kms) ⟨?_, ?_⟩).mpr ?_,
    (roundTrip_iff (.descriptor ⟨kindOAuth2ClientCredentials, utf8 "p", utf8 "a", utf8 "b"⟩ [])
      ⟨{ kind := kindOAuth2ClientCredentials, grantProfile := utf8 "p", clientIDRef := utf8 "a",
          clientSecretRef := utf8 "b" }, ?_⟩).mpr ⟨?_, ?_, ?_⟩⟩
  all_goals decide +kernel

/-- A byte that belongs to no character comes back as the three of U+FFFD. -/
theorem roundTrip_stray : (Secret.token [0xFF] (utf8 "key") .passthrough).Accepted ∧
    (Secret.token [0xFF] (utf8 "key") .passthrough).roundTrip =
      .ok { plaintext := [0xEF, 0xBF, 0xBD], passthrough := true } ∧
    (Secret.token [0xFF] (utf8 "key") .passthrough).roundTrip ≠
      .ok (Secret.token [0xFF] (utf8 "key") .passthrough).expected := by
  have hback : (Secret.token [0xFF] (utf8 "key") .passthrough).roundTrip =
      .ok { plaintext := [0xEF, 0xBF, 0xBD], passthrough := true } := by
    rw [roundTrip_passthrough (by decide)]
    decide +kernel
  refine ⟨⟨by decide, by decide +kernel⟩, hback, ?_⟩
  rw [hback]
  decide +kernel

/-! ## Formats -/

theorem decodes_passthrough (h : ¬ obj.isDescriptor) : Decodes obj .passthrough ↔ obj.plaintext ≠ [] := by
  rw [Decodes, decodeToken, if_neg h, Mode.name, if_pos rfl]
  by_cases hp : obj.plaintext = []
  · simp [hp]
  · simp [hp]

theorem decodes_kms (h : ¬ obj.isDescriptor) :
    Decodes obj .kms ↔ obj.encryptedToken ≠ [] ∧ Base64.std.decode obj.encryptedToken ≠ none := by
  have hmode : utf8 "kms" ≠ utf8 "passthrough" := fun he => absurd (utf8_injective he) (by decide)
  rw [Decodes, decodeToken, if_neg h, Mode.name, if_neg hmode, if_pos rfl]
  by_cases he : obj.encryptedToken = []
  · simp [he]
  · rw [if_neg he]
    cases Base64.std.decode obj.encryptedToken with
    | none => simp
    | some decoded => simp [he]

theorem parse_descriptor {data : Bytes} (h : parseTokenObject data = .ok obj) (hd : obj.isDescriptor) :
    obj.plaintext = [] ∧ obj.encryptedToken = [] := by
  have hcheck : ∃ obj', checkTokenObject obj' = .ok obj := by
    unfold parseTokenObject at h
    split at h
    · cases h
    · exact ⟨_, h⟩
  obtain ⟨obj', hcheck⟩ := hcheck
  unfold checkTokenObject at hcheck
  split at hcheck
  · split at hcheck
    · cases hcheck
    · rename_i hstored
      split at hcheck <;> cases hcheck
      exact ⟨not_not.mp (not_or.mp hstored).1, not_not.mp (not_or.mp hstored).2⟩
  · rename_i hplain
    split at hcheck <;> [cases hcheck; skip]
    split at hcheck <;> cases hcheck
    exact absurd hd hplain

/-- An accepted object is of one format exactly if it does not have both a plaintext and an encrypted
token that is base64. -/
theorem one_format_iff {data : Bytes} {obj : TokenObject} (h : parseTokenObject data = .ok obj) :
    OneFormat obj ↔
      obj.plaintext = [] ∨ obj.encryptedToken = [] ∨ Base64.std.decode obj.encryptedToken = none := by
  by_cases hd : obj.isDescriptor
  · obtain ⟨hplain, henc⟩ := parse_descriptor h hd
    exact iff_of_true (.inl ⟨hd, hplain, henc⟩) (.inl hplain)
  · rw [OneFormat, decodes_passthrough hd, decodes_kms hd]
    simp only [hd, Bool.false_eq_true, false_and, false_or, not_false_eq_true, true_and, not_and_or, not_not]

def kmsObject : TokenObject := { encryptedToken := Base64.std.encode [1], kmsKeyID := utf8 "k" }

def mixedObject : TokenObject := { kmsObject with plaintext := utf8 "t" }

theorem parse_with_plaintext {plaintext : Bytes} (h : sanitize plaintext = plaintext) :
    parseTokenObject (marshalTokenObject { kmsObject with plaintext }) = .ok { kmsObject with plaintext } := by
  have hsame : sanitized { kmsObject with plaintext } = { kmsObject with plaintext } := by
    simp [sanitized, kmsObject, sanitize_utf8, sanitize_encode, h]
  have htoken : Base64.std.encode [1] ≠ [] := fun hnil => nomatch Base64.Encoding.encode_eq_nil hnil
  have hkey : utf8 "k" ≠ [] := utf8_ne_nil (by decide)
  rw [parse_marshal rfl, hsame]
  simp [checkTokenObject, TokenObject.isDescriptor, kmsObject, htoken, hkey]

theorem parse_kmsObject : parseTokenObject (marshalTokenObject kmsObject) = .ok kmsObject := parse_with_plaintext rfl

theorem parse_mixedObject : parseTokenObject (marshalTokenObject mixedObject) = .ok mixedObject :=
  parse_with_plaintext (sanitize_utf8 "t")

theorem one_format_kms : parseTokenObject (marshalTokenObject kmsObject) = .ok kmsObject ∧ OneFormat kmsObject :=
  ⟨parse_kmsObject, (one_format_iff parse_kmsObject).mpr (.inl rfl)⟩

/-- An object with both is accepted, and each mode reads another token from it. -/
theorem mixed_object_accepted :
    parseTokenObject (marshalTokenObject mixedObject) = .ok mixedObject ∧ ¬ OneFormat mixedObject ∧
      decodeToken mixedObject (utf8 "passthrough") = .ok { plaintext := utf8 "t", passthrough := true } ∧
      decodeToken mixedObject (utf8 "kms") = .ok { encryptedToken := [1], kmsKeyID := utf8 "k" } := by
  have hpass : decodeToken mixedObject (utf8 "passthrough") = .ok { plaintext := utf8 "t", passthrough := true } := by
    rw [decodeToken, if_neg (by decide), if_pos rfl]
    exact if_neg (utf8_ne_nil (by decide))
  have hkms : decodeToken mixedObject (utf8 "kms") = .ok { encryptedToken := [1], kmsKeyID := utf8 "k" } := by
    have hmode : utf8 "kms" ≠ utf8 "passthrough" := fun he => absurd (utf8_injective he) (by decide)
    have htoken : mixedObject.encryptedToken ≠ [] := fun hnil => nomatch Base64.Encoding.encode_eq_nil hnil
    have hdecode : Base64.std.decode mixedObject.encryptedToken = some [1] := Base64.Encoding.decode_encode _
    rw [decodeToken, if_neg (by decide), if_neg hmode, if_pos rfl, if_neg htoken, hdecode]
    rfl
  refine ⟨parse_mixedObject, fun h => ?_, hpass, hkms⟩
  rcases h with h | h
  · exact absurd h.1 (by decide)
  · exact h.2 ⟨⟨_, hpass⟩, ⟨_, hkms⟩⟩

end Csar.Proof.S3Store
