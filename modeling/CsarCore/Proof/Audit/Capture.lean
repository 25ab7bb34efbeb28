import CsarCore.Framework.Json.Indent
import CsarCore.Proof.Audit.HTTPResponse

/-!
# The budgets of a captured response

What is kept of an envelope is what is to show with every string clipped
(`safeErrorFields_eq`). A clipped string is so long that its text is beyond the limit of
a body: up to there it is the same as without clipping (`agree_marshalFields`).
-/

namespace Csar.Proof.Audit

open Csar.Json Impl.Audit Csar.Impl Spec.Audit

/-! ## Clipping -/

theorem backOff_spec (value : Bytes) (n : Nat) :
    ∃ k ≤ n, backOff value n = value.take k ∧ validUtf8 (value.take k) ∧
      ∀ i ≤ n, validUtf8 (value.take i) → i ≤ k := by
  induction n with
  | zero => exact ⟨0, Nat.le_refl 0, rfl, rfl, fun i hi _ => hi⟩
  | succ n ih =>
    rw [backOff]
    by_cases hvalid : validUtf8 (value.take (n + 1))
    · rw [if_pos hvalid]
      exact ⟨n + 1, Nat.le_refl _, rfl, hvalid, fun i hi _ => hi⟩
    · rw [if_neg hvalid]
      obtain ⟨k, hk, heq, hk', hmax⟩ := ih
      refine ⟨k, Nat.le_succ_of_le hk, heq, hk', fun i hi hi' => ?_⟩
      rcases Nat.lt_or_eq_of_le hi with hlt | rfl
      · exact hmax i (Nat.le_of_lt_succ hlt) hi'
      · exact absurd hi' hvalid

/-- A clipped text loses what is too much, and at most three bytes more. -/
structure Clipped (limit : Nat) (value clip : Bytes) : Prop where
  valid : validUtf8 clip
  start : clip <+: value
  le : clip.length ≤ limit
  near : limit < value.length → limit < clip.length + 4
  whole : value.length ≤ limit → clip = value

variable {value : Bytes} {raw : Message} {fields safe : Fields}

theorem clipped_clipDiagnostic (h : validUtf8 value) (limit : Nat) :
    Clipped limit value (clipDiagnostic value limit) := by
  unfold clipDiagnostic
  split
  · rename_i hle
    exact ⟨h, List.prefix_rfl, hle, fun hlt => absurd hle (Nat.not_le.mpr hlt), fun _ => rfl⟩
  · rename_i hgt
    obtain ⟨k, hk, heq, hvalid, hmax⟩ := backOff_spec value limit
    obtain ⟨i, hi, hnear, hivalid⟩ := exists_valid_take h (Nat.le_of_not_le hgt)
    have hik := hmax i hi hivalid
    rw [heq]
    have hlen : (value.take k).length = k := List.length_take_of_le (by omega)
    exact ⟨hvalid, List.take_prefix k value, by omega, fun _ => by omega, fun hle => absurd hle hgt⟩

/-! ## Redaction keeps texts valid -/

variable {secrets : List Bytes} {members : List (Bytes × Message)} {nested : List (Bytes × Message) → Fields}
    {out : HTTPResponse}

theorem validUtf8_redactSecrets (hvalue : validUtf8 value)
    (hsecrets : ∀ s ∈ secrets, validUtf8 s) : validUtf8 (JsonRedact.redactSecrets value secrets) := by
  unfold JsonRedact.redactSecrets
  induction secrets generalizing value with
  | nil => exact hvalue
  | cons secret secrets ih =>
    obtain ⟨hsecret, hrest⟩ := List.forall_mem_cons.mp hsecrets
    rw [List.foldl_cons]
    refine ih ?_ hrest
    split
    · rename_i hlong
      have hne : secret ≠ [] := by
        rintro rfl
        exact absurd hlong (by decide)
      exact Strings.validUtf8_replaceAll hvalue hsecret hne (validUtf8_utf8 _)
    · exact hvalue

theorem validUtf8_redactText (hvalue : validUtf8 value)
    (hsecrets : ∀ s ∈ secrets, validUtf8 s) : validUtf8 (JsonRedact.redactText value secrets) := by
  have htext : ∀ (t : String) s, Regexp.Piece.text s ∈ [Regexp.Piece.text (utf8 t)] → validUtf8 s := by
    intro t s hs
    obtain rfl := Regexp.Piece.text.inj (List.mem_singleton.mp hs)
    exact validUtf8_utf8 t
  have hgroup : ∀ (t : String) s, Regexp.Piece.text s ∈ [Regexp.Piece.group 1, Regexp.Piece.text (utf8 t)] →
      validUtf8 s := fun t s hs => htext t s ((List.mem_cons.mp hs).resolve_left nofun)
  have hpieces : ∀ p ∈ JsonRedact.textPatterns, ∀ s, Regexp.Piece.text s ∈ p.2 → validUtf8 s := by
    unfold JsonRedact.textPatterns
    simp only [List.forall_mem_cons]
    exact ⟨hgroup _, hgroup _, hgroup _, hgroup _, htext _, htext _, fun _ hp => absurd hp List.not_mem_nil⟩
  unfold JsonRedact.redactText
  have hstart := validUtf8_redactSecrets hvalue hsecrets
  generalize JsonRedact.redactSecrets value secrets = s at hstart ⊢
  generalize JsonRedact.textPatterns = patterns at hpieces ⊢
  induction patterns generalizing s with
  | nil => exact hstart
  | cons p patterns ih =>
    obtain ⟨hp, hrest⟩ := List.forall_mem_cons.mp hpieces
    rw [List.foldl_cons]
    exact ih _ (Regexp.validUtf8_replaceAllString p.1 hstart hp) hrest

/-! ## The fields of an envelope -/

/-- Values with valid strings under the keys of an envelope. -/
def Presentable (fields : Fields) : Prop := ∀ m ∈ fields, m.1 ∈ errorKeys ∧ m.2.all (fun _ => true) validUtf8

def ValidMembers (members : List (Bytes × Message)) : Prop := ∀ m ∈ members, m.2.all (fun _ => true) validUtf8

theorem validMembers_readMap {inner : List (Bytes × Message)} (h : raw.all (fun _ => true) validUtf8)
    (hread : readMap raw = some (some inner)) : ValidMembers inner := by
  cases raw with
  | object ms =>
    obtain rfl : setAll ms = inner := Option.some.inj (Option.some.inj hread)
    exact fun m hm => (all_object.mp h m (mem_setAll hm)).2
  | _ => cases hread

theorem all_scan {raw : Bytes} {m : Message} (h : Json.scan raw = some m) : m.all (fun _ => true) validUtf8 := by
  obtain ⟨r, -, rfl⟩ := Option.map_eq_some_iff.mp h
  rw [all_map]
  exact all_of_forall (fun _ => rfl) (fun s => validUtf8_encodeRunes _) r

theorem validMembers_errorEnvelope {redacted : Except UnmarshalError Bytes}
    (h : errorEnvelope redacted = some members) : ValidMembers members := by
  cases redacted with
  | error err => cases h
  | ok raw =>
    rw [errorEnvelope, Option.join_eq_some_iff] at h
    obtain ⟨m, hm, hread⟩ := Option.bind_eq_some_iff.mp h
    exact validMembers_readMap (all_scan hm) hread

theorem validUtf8_readString (h : raw.all (fun _ => true) validUtf8)
    (hread : readString raw = some value) : validUtf8 value := by
  cases raw with
  | string s =>
    cases hread
    exact h
  | null =>
    cases hread
    rfl
  | _ => cases hread

theorem validUtf8_errorKeys : ∀ k ∈ errorKeys, validUtf8 k := List.forall_mem_map.mpr fun name _ => validUtf8_utf8 name

theorem presentable_object (h : Presentable fields) : (Json.object fields).all (fun _ => true) validUtf8 :=
  all_object.mpr fun m hm => ⟨validUtf8_errorKeys m.1 (h m hm).1, (h m hm).2⟩

variable {secrets : List Bytes}

theorem all_shown (hsecrets : ∀ s ∈ secrets, validUtf8 s)
    (hnested : ∀ inner, ValidMembers inner → Presentable (nested inner)) {key : Bytes}
    (hraw : raw.all (fun _ => true) validUtf8) {v : Json Int Bytes}
    (h : shown (JsonRedact.redactText · secrets) nested key raw = some v) :
    v.all (fun _ => true) validUtf8 := by
  unfold shown at h
  split at h
  · rename_i value hread
    cases h
    rw [all_string]
    exact validUtf8_redactText (validUtf8_readString hraw hread) hsecrets
  · split at h
    · split at h
      · rename_i inner hread
        obtain ⟨-, h⟩ := Option.ite_none_left_eq_some.mp h
        cases h
        exact presentable_object (hnested inner (validMembers_readMap hraw hread))
      · cases h
    · obtain ⟨-, h⟩ := Option.ite_none_right_eq_some.mp h
      obtain ⟨n, -, rfl⟩ := Option.map_eq_some_iff.mp h
      rfl

theorem presentable_envelopeFields (hsecrets : ∀ s ∈ secrets, validUtf8 s) (levels : Nat) :
    ∀ members, ValidMembers members → Presentable (envelopeFields secrets levels members) := by
  induction levels with
  | zero => exact fun _ _ m hm => absurd hm List.not_mem_nil
  | succ levels ih =>
    intro members hmembers
    rw [envelopeFields]
    refine List.foldlRecOn errorKeys _ (fun m hm => absurd hm List.not_mem_nil) fun acc hacc key hkey => ?_
    cases hshown : (members.lookup key).bind (shown _ (envelopeFields secrets levels) key) with
    | none => exact hacc
    | some v =>
      obtain ⟨raw, hraw, hv⟩ := Option.bind_eq_some_iff.mp hshown
      intro m hm
      rcases mem_set hm with rfl | hm
      · exact ⟨hkey, all_shown hsecrets ih (hmembers _ (mem_of_lookup hraw)) hv⟩
      · exact hacc m hm

/-! ## Clipped fields -/

def clipped : Json Int Bytes → Json Int Bytes := Json.map id fun s => clipDiagnostic s defaultHTTPBodyBytes

def clippedFields (fields : Fields) : Fields := fields.map fun m => (m.1, clipped m.2)

theorem clipped_object (h : Presentable fields) :
    clipped (.object fields) = .object (clippedFields fields) := by
  have hshort : ∀ k ∈ errorKeys, k.length ≤ defaultHTTPBodyBytes := by decide +kernel
  rw [clipped, map_object]
  refine congrArg Json.object (List.map_congr_left fun m hm => ?_)
  rw [clipDiagnostic, if_pos (hshort m.1 (h m hm).1)]
  rfl

theorem kept_eq {nested' : List (Bytes × Message) → Fields}
    (hnested : ∀ inner, ValidMembers inner → nested inner = clippedFields (nested' inner) ∧ Presentable (nested' inner))
    (key : Bytes) (hraw : raw.all (fun _ => true) validUtf8) :
    kept secrets nested key raw = (shown (JsonRedact.redactText · secrets) nested' key raw).map clipped := by
  unfold kept shown
  cases readString raw with
  | some value => rfl
  | none =>
    dsimp only
    split
    · rcases hread : readMap raw with _ | _ | inner
      · rfl
      · rfl
      · obtain ⟨heq, hpresent⟩ := hnested inner (validMembers_readMap hraw hread)
        dsimp only
        rw [heq]
        by_cases hempty : nested' inner = []
        · rw [if_pos hempty, hempty]
          rfl
        · have hne : clippedFields (nested' inner) ≠ [] := mt List.map_eq_nil_iff.mp hempty
          rw [if_neg hempty, if_neg hne, Option.map_some, clipped_object hpresent]
    · split
      · cases readInt raw <;> rfl
      · rfl

/-- What is kept of an envelope is what is to show, clipped. -/
theorem safeErrorFields_eq (hsecrets : ∀ s ∈ secrets, validUtf8 s) (levels : Nat) :
    ∀ members, ValidMembers members →
      (safeErrorFields secrets levels members).1 = clippedFields (envelopeFields secrets levels members) := by
  induction levels with
  | zero => exact fun _ _ => rfl
  | succ levels ih =>
    intro members hmembers
    have hnested : ∀ inner, ValidMembers inner → (safeErrorFields secrets levels inner).1 =
        clippedFields (envelopeFields secrets levels inner) ∧ Presentable (envelopeFields secrets levels inner) :=
      fun inner hinner => ⟨ih inner hinner, presentable_envelopeFields hsecrets levels inner hinner⟩
    rw [safeErrorFields, envelopeFields]
    refine List.foldl_rel (r := fun (a : Fields × Bool) (b : Fields) => a.1 = clippedFields b) rfl
      fun key _ acc acc' hacc => ?_
    rw [safeErrorField_fst]
    cases hraw : members.lookup key with
    | none => exact hacc
    | some raw =>
      rw [Option.bind_some, Option.bind_some, kept_eq hnested key (hmembers _ (mem_of_lookup hraw))]
      cases shown _ (envelopeFields secrets levels) key raw with
      | none => exact hacc
      | some v =>
        dsimp only [Option.map_some]
        rw [hacc]
        exact (map_set (fun _ => clipped) key v acc').symm

/-! ## The body -/

theorem close_clip {s : Bytes} (h : validUtf8 s) :
    Token.Close 4093 (.string (quoteBytes (clipDiagnostic s defaultHTTPBodyBytes))) (.string (quoteBytes s)) := by
  have hclip := clipped_clipDiagnostic h defaultHTTPBodyBytes
  rcases Nat.lt_or_ge defaultHTTPBodyBytes s.length with hlong | hshort
  · obtain ⟨rest, hrest⟩ := hclip.start
    have hnear := hclip.near hlong
    have hquote := length_le_quoteBytes (clipDiagnostic s defaultHTTPBodyBytes)
    have hbytes : defaultHTTPBodyBytes = 4096 := rfl
    refine .inr ⟨_, quoteBytes rest, rfl, ?_, by omega⟩
    rw [← quoteBytes_append hclip.valid, hrest]
  · exact .inl (by rw [hclip.whole hshort])

theorem agree_marshalFields (h : Presentable fields) (hne : fields ≠ []) :
    Agree 4097 (marshalFields (clippedFields fields)) (marshalFields fields) := by
  rw [marshalFields, marshalFields, ← clipped_object h, clipped, map_map]
  exact agree_printIndent (fun s hs => close_clip hs) hne (presentable_object h)

theorem validUtf8_marshalFields (fields : Fields) : validUtf8 (marshalFields fields) := by
  refine validUtf8_printIndent ?_
  rw [all_map]
  exact all_of_forall (fun _ => validUtf8_encodeRunes _) (fun _ => validUtf8_encodeRunes _) _

theorem bodyLimit_eq (maxBodyBytes : Int) : bodyLimit maxBodyBytes = captureLimit maxBodyBytes := by
  have hbytes : (defaultHTTPBodyBytes : Int) = 4096 := rfl
  unfold bodyLimit captureLimit
  by_cases h : 1 ≤ maxBodyBytes ∧ maxBodyBytes ≤ 4096
  · rw [if_pos h, if_neg (by omega)]
  · rw [if_neg h, if_pos (by omega)]
    rfl

theorem captureLimit_le (maxBodyBytes : Int) : captureLimit maxBodyBytes ≤ 4096 := by
  unfold captureLimit
  split <;> omega

/-! ## Code and message -/

theorem validUtf8_diagnosticString (h : ∀ m ∈ fields, m.2.all (fun _ => true) validUtf8)
    (keys : List Bytes) : validUtf8 (diagnosticString fields keys) := by
  induction keys with
  | nil => rfl
  | cons key keys ih =>
    rw [diagnosticString]
    split
    · rename_i value hvalue
      split
      · exact h _ (mem_of_lookup hvalue)
      · exact ih
    · exact ih

theorem valid_nestedFields {nested : Fields} (h : ∀ m ∈ safe, m.2.all (fun _ => true) validUtf8)
    (hnested : nestedFields safe = some nested) : ∀ m ∈ nested, m.2.all (fun _ => true) validUtf8 := by
  unfold nestedFields at hnested
  split at hnested
  · rename_i fields hfields
    cases hnested
    exact fun m hm => (all_object.mp (h _ (mem_of_lookup hfields)) m hm).2
  · cases hnested

theorem validUtf8_diagnosticCode (h : ∀ m ∈ safe, m.2.all (fun _ => true) validUtf8) :
    validUtf8 (diagnosticCode safe) := by
  unfold diagnosticCode
  dsimp only
  split
  · rename_i nested hnested
    split
    · exact validUtf8_diagnosticString (valid_nestedFields h hnested) _
    · exact validUtf8_diagnosticString h _
  · exact validUtf8_diagnosticString h _

theorem validUtf8_diagnosticMessage (h : ∀ m ∈ safe, m.2.all (fun _ => true) validUtf8) :
    validUtf8 (diagnosticMessage safe) := by
  unfold diagnosticMessage
  dsimp only
  split
  · rename_i nested hnested
    split
    · exact validUtf8_diagnosticString (valid_nestedFields h hnested) _
    · exact validUtf8_diagnosticString h _
  · exact validUtf8_diagnosticString h _

theorem valid_clippedFields (h : Presentable fields) :
    ∀ m ∈ clippedFields fields, m.2.all (fun _ => true) validUtf8 := by
  refine List.forall_mem_map.mpr fun m hm => ?_
  dsimp only
  rw [clipped, all_map]
  exact all_imp (fun _ _ => rfl) (fun s hs => (clipped_clipDiagnostic hs _).valid) (h m hm).2

/-! ## The response -/

/-- A response that says nothing of the body. -/
structure Blank (out : HTTPResponse) : Prop where
  contentType : validUtf8 out.contentType ∧ out.contentType.length ≤ 128
  origin : validUtf8 out.origin
  stage : out.stage = []
  code : out.code = []
  message : out.message = []
  body : out.body = []
  state : out.state ≠ .captured ∧ out.state ≠ .truncated

theorem budget_blank (inp : HTTPResponseInput) (h : Blank out) : CaptureBudget inp out where
  valid := by
    simp only [texts, List.forall_mem_cons, h.stage, h.code, h.message, h.body]
    exact ⟨h.contentType.1, h.origin, rfl, rfl, rfl, rfl, fun _ hs => absurd hs List.not_mem_nil⟩
  contentType := h.contentType.2
  code := by rw [h.code]; exact Nat.zero_le _
  message := by rw [h.message]; exact Nat.zero_le _
  body := by rw [h.body]; exact Nat.zero_le _
  captured hstate := absurd hstate h.state.1
  truncated hstate := absurd hstate h.state.2

theorem budget_describe {inp : HTTPResponseInput} (hout : Blank out)
    (henv : errorEnvelope (redactBody inp) = some members) (hsecrets : ∀ s ∈ inp.secrets, validUtf8 s) :
    CaptureBudget inp (describe out inp.maxBodyBytes (safeErrorFields inp.secrets (maxErrorDepth + 1) members).1
      (safeErrorFields inp.secrets (maxErrorDepth + 1) members).2) := by
  have hmembers := validMembers_errorEnvelope henv
  have hpresent := presentable_envelopeFields hsecrets (maxErrorDepth + 1) members hmembers
  have hfull : fullBody inp = some (marshalFields (envelopeFields inp.secrets (maxErrorDepth + 1) members)) := by
    rw [fullBody, henv]
    rfl
  rw [safeErrorFields_eq hsecrets _ members hmembers]
  generalize (safeErrorFields inp.secrets (maxErrorDepth + 1) members).2 = omitted
  generalize envelopeFields inp.secrets (maxErrorDepth + 1) members = fields at hpresent hfull ⊢
  unfold describe
  dsimp only
  split
  · exact budget_blank inp ⟨hout.contentType, hout.origin, hout.stage, hout.code, hout.message, hout.body, hout.state⟩
  · rename_i hne
    have hstrings := valid_clippedFields hpresent
    have hcode := clipped_clipDiagnostic (validUtf8_diagnosticCode hstrings) 256
    have hmessage := clipped_clipDiagnostic (validUtf8_diagnosticMessage hstrings) 1024
    have hbody := clipped_clipDiagnostic (validUtf8_marshalFields (clippedFields fields)) (bodyLimit inp.maxBodyBytes)
    have hagree := agree_marshalFields hpresent (mt List.map_eq_nil_iff.mpr hne)
    have hlimit := captureLimit_le inp.maxBodyBytes
    rw [bodyLimit_eq] at hbody ⊢
    refine ⟨?_, hout.contentType.2, hcode.le, hmessage.le, hbody.le, ?_, ?_⟩
    · simp only [texts, List.forall_mem_cons, hout.stage]
      exact ⟨hout.contentType.1, hout.origin, rfl, hcode.valid, hmessage.valid, hbody.valid,
        fun _ hs => absurd hs List.not_mem_nil⟩
    · intro hstate
      have hle : (marshalFields (clippedFields fields)).length ≤ captureLimit inp.maxBodyBytes := by
        by_contra hgt
        rw [if_pos (Nat.lt_of_not_le hgt)] at hstate
        cases hstate
      have hsame : marshalFields (clippedFields fields) = marshalFields fields := hagree.eq_of_length_lt (by omega)
      rw [hfull, ← hsame]
      exact congrArg some (hbody.whole hle).symm
    · intro hstate
      have hlt : captureLimit inp.maxBodyBytes < (marshalFields (clippedFields fields)).length := by
        by_contra hge
        rw [if_neg hge] at hstate
        cases hstate
      have hshort : (clipDiagnostic (marshalFields (clippedFields fields)) (captureLimit inp.maxBodyBytes)).length ≤ 4097 :=
        Nat.le_trans hbody.le (by omega)
      exact ⟨_, hfull, hagree.prefix_of_le hbody.start hshort, hbody.near hlt⟩

theorem contentType_budget (contentType : Bytes) :
    let ct := Mime.parseMediaType contentType
    let clip := if ct.2 = none then clipDiagnostic ct.1 128 else []
    validUtf8 clip ∧ clip.length ≤ 128 := by
  dsimp only
  split
  · rename_i hok
    have hclip := clipped_clipDiagnostic (validUtf8_of_ascii (Mime.parseMediaType_ascii hok)) 128
    exact ⟨hclip.valid, hclip.le⟩
  · exact ⟨rfl, Nat.zero_le _⟩

/-- For every response with secrets that are valid UTF-8. -/
theorem capture_budget (inp : HTTPResponseInput) (hsecrets : ∀ s ∈ inp.secrets, validUtf8 s) :
    CaptureBudget inp (captureHTTPResponse inp) := by
  unfold captureHTTPResponse
  extract_lets ct out
  have hout : Blank out :=
    ⟨contentType_budget inp.contentType, validUtf8_utf8 "unknown", rfl, rfl, rfl, rfl, nofun, nofun⟩
  have homit : ∀ reason, CaptureBudget inp { out with omissionReason := reason } := fun reason =>
    budget_blank inp ⟨hout.contentType, hout.origin, hout.stage, hout.code, hout.message, hout.body, hout.state⟩
  clear_value out
  split
  · exact homit _
  split
  · exact homit _
  split
  · exact budget_blank inp ⟨hout.contentType, hout.origin, hout.stage, hout.code, hout.message, hout.body, nofun, nofun⟩
  split
  · exact homit _
  split
  · exact homit _
  · rename_i members henv
    exact budget_describe hout henv hsecrets

/-- A secret of the caller may be reflected in the body. -/
theorem capture_budget_denied :
    CaptureBudget { deniedInput with body := deniedToken, secrets := [utf8 "caller-key"] }
      (captureHTTPResponse { deniedInput with body := deniedToken, secrets := [utf8 "caller-key"] }) :=
  capture_budget _ (List.forall_mem_cons.mpr ⟨validUtf8_utf8 _, fun _ hs => absurd hs List.not_mem_nil⟩)

end Csar.Proof.Audit
